import QueryFusion.Proofs.Fusion.Pipeline
import QueryFusion.Proofs.Plan.Tally

/-!
# The code of a group-by by hashing

For every tuple that reaches it, the code gives the share of the tuple to the aggregator that is
declared in front of the function. The aggregator writes the rows of its groups after the last record.
-/

namespace QueryFusion

open Code
open Plan (Tuple Body Among Tally)

/-! ## Aggregators as objects -/

namespace Engine

variable {m : Machine} {i : Nat} {agg : HashAggregator}

theorem hashAt_apply (here : m.hashes[i]? = some agg) : hashAt i m = some (.ok (agg, m)) := by
  rw [hashAt, get_bind_apply, here]
  rfl

/-- Giving a value to a hash aggregator. -/
theorem callMember_accumulate (here : m.hashes[i]? = some agg) (k v : Value) :
    callMember (.handle (.hashAggregator i)) Member.accumulate [k, v] m =
      match agg.add k v with
      | .ok agg' => some (.ok (.null, { m with hashes := m.hashes.setIfInBounds i agg' }))
      | .error cause => some (.error (.error cause)) := by
  change (((do
    let agg ← ofAnswer ((← hashAt i).add k v)
    modify fun m => { m with hashes := m.hashes.setIfInBounds i agg }) : Run Unit) >>= fun _ =>
      pure Value.null) m = _
  rw [bind_apply, bind_apply, hashAt_apply here]
  dsimp only
  cases agg.add k v <;> rfl

/-- A hash aggregator writes the rows of its groups. -/
theorem callMember_emit (here : m.hashes[i]? = some agg) :
    callMember (.handle (.hashAggregator i)) Member.emit [.handle .sink] m =
      some (.ok (.null, { m with written := agg.rows.reverse ++ m.written })) := by
  change (((do pure (← hashAt i).rows) : Run (List (List Value))) >>= fun found => do
    modify fun m => { m with written := found.reverse ++ m.written }
    pure Value.null) m = _
  rw [bind_apply, bind_apply, hashAt_apply here]
  rfl

end Engine

/-- Nothing moved but columns that read fields, and a hash aggregator was replaced. -/
def Engine.Machine.Gave (m : Machine) (i : Nat) (agg : HashAggregator) (m' : Machine) : Prop :=
  ∃ mid, m.Still mid ∧ m' = { mid with hashes := mid.hashes.setIfInBounds i agg }

namespace Fusion

open Engine

variable {config : Plan.Config} {aggregate : NestedAggregate} {scope : Scope} {call : Call}
variable {kind : String} {out : Var} {calls : List Call} {input : Option Plan.OpId}
variable {agg : HashAggregator} {answer : Except RunError (List Value)} {tally : Tally} {t : Tuple}

/-! ## The parts of the code -/

/-- The code of the key of a group. -/
def keyNode : List Node → Node
  | [node] => node
  | nodes => .call Code.Builtin.makeKey nodes

theorem eval_keyNode : ∀ nodes : List Node,
    eval (keyNode nodes) = evalAll nodes >>= fun ks => pure (joinKeys ks)
  | [] => by
    rfl
  | [node] => by
    unfold keyNode
    rw [evalAll, evalAll]
    simp [joinKeys]
  | first :: second :: rest => by
    unfold keyNode
    rw [eval, evalAll, evalAll]
    simp only [bind_assoc, pure_bind]
    rfl

/-- The declaration of an aggregator. -/
def newAggregator (kind : String) (budget : Int64) : Node :=
  .call Code.Builtin.newHashAggregator [.string kind, .long budget]

/-- Groups by hashing, with an aggregator of some kind. -/
def hashGroups (budget : Int64) (keys : List Plan.Binding) (aggregate : NestedAggregate) (call : Call)
    (kind : String) : Emit Unit := do
  let body := (← get).fn.body
  let aggregator ← declare body (newAggregator kind budget)
  let nodes ← codesOf (keys.map Plan.Binding.expr)
  let value ← aggregatorValue call
  emit (.member (.ident aggregator) Code.Member.accumulate [keyNode nodes, value])
  emitGroups aggregator keys aggregate

variable {keys : List Plan.Binding}

theorem groupByHash_eq_ok {later : Scope}
    (done : groupByHash config keys aggregate scope = .ok (true, later)) :
    ∃ call kind, aggregate.calls = [call] ∧ aggregatorKind? call = some kind ∧
      hashGroups config.groupByMemory keys aggregate call kind scope = .ok ((), later) := by
  obtain ⟨vars, calls, input⟩ := aggregate
  cases keys with
  | nil => cases done
  | cons first others =>
    match calls, done with
    | [call], done =>
      unfold groupByHash at done
      dsimp only at done
      cases isKind : aggregatorKind? call with
      | none =>
        rw [isKind] at done
        cases done
      | some kind =>
        rw [isKind] at done
        refine ⟨call, kind, rfl, isKind, ?_⟩
        have shape : (do
            hashGroups config.groupByMemory (first :: others) ⟨vars, [call], input⟩ call kind
            pure true : Emit Bool) scope = .ok (true, later) := by
          unfold hashGroups
          simp only [bind_assoc]
          exact done
        obtain ⟨⟨_, later'⟩, ended, same⟩ := Except.bind_eq_ok.mp shape
        cases same
        exact ended

theorem aggregatorKind?_computes (isKind : aggregatorKind? call = some kind) :
    ∃ hashKind, HashKind.ofName? kind = some hashKind ∧ Tally.Computes hashKind call ∧
      (call.fn.isCount = true ∨ call.fn.isSum = true) := by
  unfold aggregatorKind? at isKind
  split at isKind
  · next isCount =>
    cases isKind
    refine ⟨.count, rfl, ⟨?_, ?_⟩, .inl isCount⟩
    · unfold Call.seed Func.isZeroSeeded
      split <;> simp_all [Func.isCount, HashKind.seed]
    · unfold Call.step Call.operator
      rw [if_pos isCount]
      rfl
  · next notCount =>
    split at isKind
    · next isSum =>
      have isSum' : call.fn.isSum = true := (Bool.and_eq_true_iff.mp isSum).1
      have step : call.step = Value.binary .aggAdd := by
        unfold Call.step Call.operator
        rw [if_neg notCount, if_pos isSum']
      by_cases seeded : call.fn.isZeroSeeded = true
      · rw [if_pos seeded] at isKind
        cases isKind
        refine ⟨.localSum, rfl, ⟨?_, step.symm⟩, .inr isSum'⟩
        unfold Call.seed
        rw [if_pos seeded]
        rfl
      · rw [if_neg seeded] at isKind
        cases isKind
        refine ⟨.sum, rfl, ⟨?_, step.symm⟩, .inr isSum'⟩
        unfold Call.seed
        rw [if_neg seeded]
        rfl
    · cases isKind

variable {vars : List Var}

section outputs

variable {D : Path → Prop} {spot : Spot}

theorem yields_putOutput {v : Var} (outermost : scope.isNested = false)
    (isNew : ∀ w ∈ scope.outputs, w.id ≠ v.id) :
    Yields (putOutput v) scope fun _ later => later = { scope with outputs := scope.outputs ++ [v] } := by
  have noOutput : scope.outputs.any (·.id == v.id) = false :=
    List.any_eq_false.mpr fun w member same => isNew w member (eq_of_beq same)
  refine .modifying ?_
  rw [outermost, noOutput, Bool.or_self, if_neg Bool.false_ne_true]

theorem yields_putOutputs : ∀ (vars : List Var) (scope : Scope), scope.isNested = false →
    ((scope.outputs ++ vars).map Var.id).Nodup →
    Yields (vars.forM putOutput) scope fun _ later =>
      later = { scope with outputs := scope.outputs ++ vars }
  | [], scope, _, _ => by
    refine .pure ?_
    rw [List.append_nil]
  | v :: rest, scope, outermost, distinct => by
    have isNew : ∀ w ∈ scope.outputs, w.id ≠ v.id := by
      intro w member
      rw [List.map_append, List.nodup_append] at distinct
      exact distinct.2.2 w.id (List.mem_map_of_mem member) v.id (List.mem_map_of_mem (.head _))
    refine .bind ((yields_putOutput outermost isNew).mono ?_)
    rintro _ _ rfl
    refine (yields_putOutputs rest { scope with outputs := scope.outputs ++ [v] } outermost ?_).mono ?_
    · rw [List.append_assoc]
      exact distinct
    · rintro _ later rfl
      rw [List.append_assoc]
      rfl

theorem quiet_emitGroups {aggregator : String} (outermost : scope.isNested = false)
    (distinct : ((keys.map Plan.Binding.var ++ [out]).map Var.id).Nodup) :
    Yields (emitGroups aggregator keys ⟨out :: vars, calls, input⟩) scope fun _ later =>
      scope.Quiet D later ∧ later = { scope with
        emitters := scope.emitters ++ [aggregator], outputs := keys.map Plan.Binding.var ++ [out] } := by
  have shape : emitGroups aggregator keys ⟨out :: vars, calls, input⟩ = (do
      modify fun scope => { scope with emitters := scope.emitters ++ [aggregator] }
      clearOutput
      (keys.map Plan.Binding.var ++ [out]).forM putOutput : Emit Unit) := by
    unfold emitGroups firstVar
    simp
  rw [shape]
  refine .bind (.modifying (.bind (.modifying ?_)))
  have isOutermost :
      Scope.isNested { scope with emitters := scope.emitters ++ [aggregator] } ≠ true := by
    change scope.isNested ≠ true
    rw [outermost]
    exact Bool.false_ne_true
  rw [if_neg isOutermost]
  refine (yields_putOutputs _ { scope with
    emitters := scope.emitters ++ [aggregator], outputs := [] } outermost distinct).mono ?_
  rintro _ later rfl
  exact ⟨.of_notes, rfl⟩

end outputs

/-! ## Choosing to hash -/

section choice

variable {later : Scope}

/-- No loop over a list is open. -/
def Scope.Unlooped (scope : Scope) : Prop :=
  ∀ b block, scope.Open b → scope.fn.arena.blocks[b]? = some block → block.tag ≠ .unnest

theorem Scope.Unlooped.adds (unlooped : scope.Unlooped) (rooted : scope.Rooted)
    (adds : scope.Adds later) : later.Unlooped := by
  intro b block isOpen here
  have wasOpen := (adds.open_iff rooted b).mp isOpen
  obtain ⟨block', here', grows⟩ := adds.later.arena.grown b _
    (Array.getElem?_eq_getElem (rooted.lt_of_open wasOpen))
  cases here.symm.trans here'
  rw [grows.tag]
  exact unlooped b _ wasOpen (Array.getElem?_eq_getElem _)

theorem groupLocally_eq_ok {grouping : Grouping} (unlooped : scope.Unlooped)
    (done : groupLocally config none keys aggregate scope = .ok (some grouping, later)) :
    groupByHash config keys aggregate scope = .ok (true, later) ∧ grouping = .hash := by
  have notPerRecord : Yields (groupPerRecord keys aggregate) scope fun answer later =>
      answer = false ∧ later = scope := by
    refine .bind (.get (.bind (.askArena fun loop? found => ?_)))
    cases loop? with
    | none => exact .pure ⟨rfl, rfl⟩
    | some loop =>
      obtain ⟨_, b, block, same, within, here, isLoop⟩ := Arena.findUp_some found
      cases same
      split at isLoop
      · next isUnnest => exact absurd (eq_of_beq isUnnest) (unlooped b block within here)
      · cases isLoop
  obtain ⟨⟨_, _⟩, perRecord, best⟩ := Except.bind_eq_ok.mp done
  obtain ⟨rfl, rfl⟩ := notPerRecord _ _ perRecord
  obtain ⟨⟨answer, last⟩, hashed, ended⟩ := Except.bind_eq_ok.mp best
  cases answer with
  | false => cases ended
  | true =>
    cases ended
    exact ⟨hashed, rfl⟩

end choice

/-! ## What the code does for a tuple -/

section shares

variable {D : Path → Prop} {final later : Scope} {spot : Spot} {m m' : Machine}
variable {hidden : Nat → Prop} {seen : Expr → Prop} {known : Expr → Option Value}
variable {accepted : RunError → Prop}

variable {schema : Plan.Schema}

/-- The code of what a tuple adds to a count or sum. -/
theorem sim_aggregatorValue (unknown : ∀ fn args loc, known (.call fn args loc) = none)
    (within : Expr.AllWithin seen call.args) (reads : schema.ReadsArgs D call.args) :
    ComputesAnywhere D final spot seen known schema (aggregatorValue call) (call.share? known) := by
  have one : ComputesAnywhere D final spot seen known schema (pure (.lit (.long 1)))
      (some (.int 1)) :=
    .pure (by rw [eval]; rfl) (by rintro _ _ _ ⟨⟩)
  unfold aggregatorValue incrementOf Call.share?
  cases isArgs : call.args with
  | nil =>
    split
    · exact one
    · exact fun _ _ _ _ _ _ _ _ => .throw
  | cons arg rest =>
    rw [isArgs] at within reads
    have argument : ComputesAnywhere D final spot seen known schema (codeOf arg) (arg.value? known) :=
      sim_codeOf unknown arg within.1 (Plan.Schema.readsArgs_cons.mp reads).1
    dsimp only
    split
    · split
      · exact one
      · rw [Option.map_eq_bind]
        refine argument.map (fun x => .ok (oneOrZero x)) (fun node => ?_) (fun _ => .ok _)
          (by rintro _ _ _ _ ⟨⟩)
        rw [eval, evalAll, evalAll]
        simp only [bind_assoc, pure_bind]
        rfl
    · exact argument

/-- Giving evaluated arguments to an aggregator. -/
theorem Ends.accumulate {fn : Function} {object : String} {i : Nat} {args : List Node}
    {wanted : Flow → Machine → Prop}
    (found : m.env.lookup object = some (.handle (.hashAggregator i)))
    (here : m.hashes[i]? = some agg) (evaluates : evalAll args m = ofAnswer answer m)
    (failed : ∀ cause, answer = .error cause → accepted cause)
    (given : ∀ vs, answer = .ok vs → ∃ k v, vs = [k, v] ∧
      (∀ agg', agg.add k v = .ok agg' →
        wanted .proceed { m with hashes := m.hashes.setIfInBounds i agg' }) ∧
      ∀ cause, agg.add k v = .error cause → accepted cause) :
    Ends (exec fn (.member (.ident object) Member.accumulate args)) m wanted accepted := by
  refine .member ?_
  unfold Ends
  rw [eval, bind_apply, eval_ident found]
  dsimp only
  rw [bind_apply, evaluates]
  cases answer with
  | error cause => exact failed cause rfl
  | ok vs =>
    obtain ⟨k, v, rfl, added, refused⟩ := given vs rfl
    rw [show ofAnswer (.ok [k, v]) m = some (.ok ([k, v], m)) from rfl]
    dsimp only
    rw [callMember_accumulate here]
    cases isAdded : agg.add k v with
    | error cause => exact refused cause isAdded
    | ok agg' => exact added agg' isAdded

theorem allWithin_of_each : ∀ {es : List Expr}, (∀ e ∈ es, e.ReadsOnly vars) →
    Expr.AllWithin (Among vars) es
  | [], _ => trivial
  | e :: _, each => ⟨Plan.within_of_readsOnly e (each e (.head _)),
      allWithin_of_each (List.forall_mem_cons.mp each).2⟩

theorem readsArgs_of_each : ∀ {es : List Expr}, (∀ e ∈ es, schema.Reads D e) → schema.ReadsArgs D es
  | [], _ => by
    intro q member
    cases member
  | _ :: _, each => Plan.Schema.readsArgs_cons.mpr ⟨each _ (.head _),
      readsArgs_of_each (List.forall_mem_cons.mp each).2⟩

/-- What a group-by by hashing needs: its keys and the arguments of its aggregate read variables of
its input, and the schema has the paths they read. -/
structure Shares (D : Path → Prop) (schema : Plan.Schema) (vars : List Var) (tally : Tally) : Prop where
  keys : Expr.AllWithin (Among vars) tally.keys ∧ schema.ReadsArgs D tally.keys
  args : Expr.AllWithin (Among vars) tally.call.args ∧ schema.ReadsArgs D tally.call.args

/-- The code of the key and the share of a tuple. -/
theorem sim_share (unknown : ∀ fn args loc, t.known (.call fn args loc) = none)
    (shares : Shares D schema vars tally) :
    ListsAnywhere D final spot (Among vars) t.known schema (do
      let nodes ← codesOf tally.keys
      let value ← aggregatorValue tally.call
      pure [keyNode nodes, value])
      ((tally.share? t).map fun share => [joinKeys share.1, share.2]) := by
  have value : (tally.share? t).map (fun share => [joinKeys share.1, share.2]) =
      (Expr.values? t.known tally.keys).bind fun ks => (tally.call.share? t.known).bind fun x =>
        some [joinKeys ks, x] := by
    unfold Tally.share?
    cases Expr.values? t.known tally.keys with
    | none => rfl
    | some ks => cases tally.call.share? t.known <;> rfl
  rw [value]
  refine (sim_codesOf (sim_each unknown tally.keys shares.keys.1 shares.keys.2)).both
    (sim_aggregatorValue unknown shares.args.1 shares.args.2) (fun ks x => .ok [joinKeys ks, x])
    (fun nodes node => ?_) (fun _ _ => .ok _) fun _ _ _ _ => trivial
  rw [evalAll, evalAll, evalAll, eval_keyNode]
  simp only [bind_assoc, pure_bind]
  rfl

theorem sim_hashGroups {more : List Var} {budget : Int64} {i : Nat}
    (isKeys : keys.map Plan.Binding.expr = tally.keys) (isKind : (HashKind.ofName? kind).isSome)
    (pipes : Pipes D scope hidden vars []) (covers : t.Covers vars)
    (shares : Shares D scope.schema vars tally)
    (distinct : ((keys.map Plan.Binding.var ++ [out]).map Var.id).Nodup) :
    Sim D final scope.New spot (do
      hashGroups budget keys ⟨out :: more, calls, input⟩ tally.call kind
      countFused) scope m
      (Live scope spot hidden (Among vars) t.known m ∧
        m.env.lookup (variableName scope.fn.arena.names) = some (.handle (.hashAggregator i)) ∧
        m.hashes[i]? = some agg)
      (fun _ later => later.emitters = [variableName scope.fn.arena.names] ∧
        later.outputs = keys.map Plan.Binding.var ++ [out] ∧
        later.Declares scope.fn.body scope.fn.arena.names (newAggregator kind budget))
      (fun _ _ => Onward fun m' => ∃ share agg', tally.share? t = some share ∧
        agg.add (joinKeys share.1) share.2 = .ok agg' ∧ m.Gave i agg' m')
      (fun cause => (tally.share? t = none ∧ cause.OfCall) ∨
        ∃ share, tally.share? t = some share ∧
          agg.add (joinKeys share.1) share.2 = .error cause) := by
  unfold hashGroups
  simp only [bind_assoc]
  refine .get (.quietly pipes.sound (quiet_declare pipes.sound
    (.groups (.hash kind budget isKind))) ?_)
  rintro _ first quiet sound₁ ⟨rfl, rebuilt, declares, _⟩
  have remembers := rebuilt.sameVars.remembers quiet.adds.later
  have schema : first.schema = scope.schema := quiet.adds.later.schema
  have names : ∀ n, first.New n → scope.New n := fun n => Nat.le_trans remembers.names
  have shape : (do
      let nodes ← codesOf (keys.map Plan.Binding.expr)
      let value ← aggregatorValue tally.call
      emit (.member (.ident (variableName scope.fn.arena.names)) Member.accumulate
        [keyNode nodes, value])
      emitGroups (variableName scope.fn.arena.names) keys ⟨out :: more, calls, input⟩
      countFused : Emit Unit) = (do
      let args ← (do
        let nodes ← codesOf tally.keys
        let value ← aggregatorValue tally.call
        pure [keyNode nodes, value])
      emit (.member (.ident (variableName scope.fn.arena.names)) Member.accumulate args)
      emitGroups (variableName scope.fn.arena.names) keys ⟨out :: more, calls, input⟩
      countFused
      pure ()) := by
    rw [isKeys]
    simp only [bind_assoc, pure_bind, bind_pure_unit]
  rw [shape]
  refine .then (sim_share (pipes.inScope.unknown_call covers.domain) shares _ hidden first m
    (fun isNone cause ofCall => .inl ⟨Option.map_eq_none_iff.mp isNone, ofCall⟩) sound₁
    (pipes.inScope.remembers remembers) schema) sound₁ names ?_ ?_
  · rintro ⟨live, _⟩
    exact live.same rebuilt.sameVars quiet.adds.later (.refl (fun _ => False) m) (fun _ _ => id)
      fun _ _ _ isOpen => (quiet.adds.open_iff pipes.sound.rooted _).mp isOpen
  · rintro args second m₁ sound₂ _ adds made _
    refine .bind (fun _ later => second.Rebuilt later 0) (fun _ _ m' => ∃ share agg',
      tally.share? t = some share ∧ agg.add (joinKeys share.1) share.2 = .ok agg' ∧ m.Gave i agg' m')
      sound₂ (.emit (Onward fun m' => ∃ share agg', tally.share? t = some share ∧
        agg.add (joinKeys share.1) share.2 = .ok agg' ∧ m.Gave i agg' m') sound₂ ?_) ?_
    · rintro completes ready ⟨⟨_, found, here⟩, _, frame, still, carries⟩
      obtain ⟨answer, isAnswer, stable⟩ := carries.stable
      have found₁ : m₁.env.lookup (variableName scope.fn.arena.names) =
          some (.handle (.hashAggregator i)) := by
        rw [frame.lookup_kept]
        · exact found
        · intro above
          have grown := rebuilt.names
          omega
      have here₁ : m₁.hashes[i]? = some agg := by
        rw [still.outside]
        exact here
      refine Ends.accumulate found₁ here₁ (stable.apply completes ready) ?_ ?_
      · rintro cause rfl
        obtain ⟨ofCall, isNone⟩ := isAnswer.error rfl
        exact .inl ⟨Option.map_eq_none_iff.mp isNone, ofCall⟩
      · rintro vs rfl
        obtain ⟨share, isShare, rfl⟩ := Option.map_eq_some_iff.mp isAnswer.same.symm
        refine ⟨_, _, rfl, fun agg' isAdded => ?_, fun cause isRefused =>
          .inr ⟨share, isShare, isRefused⟩⟩
        have alike : m₁.Alike { m₁ with hashes := m₁.hashes.setIfInBounds i agg' } :=
          ⟨_, _, _, _, Nat.le_of_eq Array.size_setIfInBounds.symm, le_rfl, rfl⟩
        exact ⟨ready.alike alike, alike.frame _, rfl, share, agg', isShare, isAdded, m₁, still, rfl⟩
    · rintro _ third m₂ sound₃ current' adds' rebuilt'
      have outermost : third.isNested = false := by
        obtain ⟨arena, rfl⟩ := rebuilt'.same
        rw [made.remembers.same]
        obtain ⟨arena', rfl⟩ := rebuilt.same
        exact pipes.plainly.outermost
      have emitters : third.emitters = [] := by
        obtain ⟨arena, rfl⟩ := rebuilt'.same
        rw [made.remembers.same]
        obtain ⟨arena', rfl⟩ := rebuilt.same
        exact pipes.plainly.emitters
      refine .quietly sound₃ (quiet_emitGroups outermost distinct) ?_
      rintro _ fourth _ sound₄ rfl
      refine sim_counted sound₄ ?_
      rintro later rfl _
      refine .pure ⟨?_, rfl, ?_⟩ fun held => ⟨rfl, held.2.2⟩
      · rw [emitters, List.nil_append]
      · have kept : third.Declares scope.fn.body scope.fn.arena.names (newAggregator kind budget) :=
          (declares.kept adds.later).kept adds'.later
        exact kept

end shares

end Fusion

end QueryFusion

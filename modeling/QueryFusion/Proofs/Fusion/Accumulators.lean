import QueryFusion.Proofs.Fusion.Delivery
import QueryFusion.Proofs.Fusion.HashGroups

/-!
# What aggregates over all records deliver

The function of an aggregate keeps one variable for each of its calls in front of its body. The code
of a record takes the shares of the tuples of the record into these variables, and after the last
record their values are written as one row. A run fails exactly if a call has no share of one of the
tuples.
-/

namespace QueryFusion

open Code
open Plan (Tuple Body Among)

/-! ## Folds -/

namespace Call

/-- What tuples add to an aggregate. -/
def shares? (call : Call) (ts : List Tuple) : Option (List Value) :=
  ts.mapM fun t => call.share? t.known

/-- An aggregate of tuples: its step with their shares in order, from its seed on. -/
def fold? (call : Call) (ts : List Tuple) : Option Value :=
  (call.shares? ts).map (·.foldl call.step call.seed)

end Call

/-- Aggregates over a scalar pipeline over a scan. -/
structure Plan.Aggregation where
  vars : List Var
  steps : List Body
  bindings : List (Var × Call)

theorem mapM_eq_none {α β : Type} {f : α → Option β} {x : α} {xs : List α} (member : x ∈ xs)
    (isNone : f x = none) : xs.mapM f = none := by
  obtain ⟨before, after, rfl⟩ := List.append_of_mem member
  rw [List.mapM_append, List.mapM_cons, isNone]
  cases before.mapM f <;> rfl

namespace Plan.Aggregation

variable {a : Aggregation} {t : Tuple} {records : List Value}

/-- The row of the aggregates of the tuples that the operators make of records. -/
def row? (a : Aggregation) (records : List Value) : Option (List Value) :=
  (tuples? a.steps (Tuple.ofRecords a.vars records)).bind fun ts =>
    a.bindings.mapM fun binding => binding.2.fold? ts

/-- The operators make nothing of a tuple, or some call has no share of what they make of it. -/
def Refuses (a : Aggregation) (t : Tuple) : Prop :=
  tuples? a.steps [t] = none ∨ ∃ t', tuples? a.steps [t] = some [t'] ∧
    ∃ binding ∈ a.bindings, binding.2.share? t'.known = none

/-- There is no row if one of the tuples is refused. -/
theorem row?_eq_none (member : t ∈ Tuple.ofRecords a.vars records) (refuses : a.Refuses t) :
    a.row? records = none := by
  unfold row?
  cases isAll : tuples? a.steps (Tuple.ofRecords a.vars records) with
  | none => rfl
  | some ts =>
    rcases refuses with isNone | ⟨t', isOne, binding, isBinding, isNone⟩
    · cases isAll.symm.trans (tuples?_eq_none member isNone)
    · refine mapM_eq_none isBinding ?_
      unfold Call.fold? Call.shares?
      rw [mapM_eq_none (tuples?_mem member isOne isAll t' (.head _)) isNone]
      rfl

end Plan.Aggregation

namespace Fusion

open Engine

/-- A run of a function over records delivers one row with the aggregates of the tuples that operators
make of the records, or fails if there is none. -/
def Aggregates (fn : Function) (a : Plan.Aggregation) (records : List Value) : Prop :=
  match a.row? records with
  | some row => (Engine.run fn records).result = .ok { rows := [row], flushed := true }
  | none => ∃ cause : RunError, cause.OfCall ∧
      (Engine.run fn records).result = .error (.failed fn.name cause)

/-! ## One accumulator -/

section accumulator

variable {D : Path → Prop} {final scope later : Scope} {spot : Spot} {m m' : Machine}
variable {hidden : Nat → Prop} {seen : Expr → Prop} {known : Expr → Option Value} {call : Call}

/-- The code of an accumulator: its declaration in front of a block, and its update. -/
def accumulation (call : Call) (home : BlockId) : Emit String := do
  let acc ← declare home (seedOf call.fn)
  let share ← aggregatorValue call
  emit (.set acc (.binary call.operator (.ident acc) share))
  pure acc

theorem accumulation_of_accumulate {home : BlockId} {acc : String}
    (done : accumulate call home scope = .ok (acc, later)) :
    accumulation call home scope = .ok (acc, later) := by
  have fails : ∀ cause : FuseError, (declare home (seedOf call.fn) >>= fun _ =>
      (failWith cause : Emit String)) scope ≠ .ok (acc, later) := by
    intro cause failed
    obtain ⟨_, _, never⟩ := Except.bind_eq_ok.mp failed
    cases never
  unfold accumulate at done
  split at done
  · cases done
  · unfold accumulation aggregatorValue Call.operator
    by_cases isCount : call.fn.isCount = true
    · simp only [if_pos isCount] at done ⊢
      exact done
    · simp only [if_neg isCount] at done ⊢
      match isArgs : call.args with
      | [] =>
        rw [isArgs] at done
        exact absurd done (fails _)
      | [arg] =>
        rw [isArgs] at done
        exact done
      | _ :: _ :: _ =>
        rw [isArgs] at done
        exact absurd done (fails _)

theorem literalValue_seedOf (call : Call) :
    ∃ l, seedOf call.fn = .lit l ∧ literalValue l = call.seed := by
  unfold seedOf Call.seed
  split
  · exact ⟨.long 0, rfl, rfl⟩
  · exact ⟨.null, rfl, rfl⟩

theorem sim_accumulate (domain : ∀ e, (known e).isSome ↔ seen e) (sound : Sound D scope)
    (inScope : InScope D scope hidden seen) (within : Expr.AllWithin seen call.args)
    (reads : scope.schema.ReadsArgs D call.args) :
    Sim D final scope.New spot (accumulate call scope.fn.body) scope m
      (Live scope spot hidden seen known m)
      (fun acc later => later.current = scope.current ∧ acc = variableName scope.fn.arena.names ∧
        scope.Remembers later ∧ scope.fn.arena.names < later.fn.arena.names ∧
        InScope D later (fun n => hidden n ∨ n = scope.fn.arena.names) seen ∧
        later.Declares scope.fn.body scope.fn.arena.names (seedOf call.fn))
      (fun _ later => Onward fun m' => m.Still m' ∧
        Live later spot (fun n => hidden n ∨ n = scope.fn.arena.names) seen known m' ∧
        ∃ x share, m.env.lookup (variableName scope.fn.arena.names) = some x ∧
          call.share? known = some share ∧
          m'.env.lookup (variableName scope.fn.arena.names) = some (call.step x share))
      (fun cause => cause.OfCall ∧ call.share? known = none) := by
  suffices sim : Sim D final scope.New spot (accumulation call scope.fn.body) scope m _ _ _ _ from
    fun acc later done => sim acc later (accumulation_of_accumulate done)
  obtain ⟨l, isSeed, _⟩ := literalValue_seedOf call
  refine .quietly sound (quiet_declare sound (isSeed ▸ .lit l)) ?_
  rintro _ first quiet sound₁ ⟨rfl, rebuilt, declares, only⟩
  let acc := scope.fn.arena.names
  let hidden' (n : Nat) : Prop := hidden n ∨ n = acc
  have above : acc < first.fn.arena.names := by
    rw [rebuilt.names]
    exact Nat.lt_succ_self _
  have inScope₁ : InScope D first hidden' seen :=
    inScope.hide rebuilt.sameVars quiet.adds.later le_rfl above
  have remembers := rebuilt.sameVars.remembers quiet.adds.later
  have schema : first.schema = scope.schema := quiet.adds.later.schema
  refine .then (sim_aggregatorValue (inScope.unknown_call domain) within reads _ hidden' first m
    (fun isNone cause ofCall => ⟨ofCall, isNone⟩) sound₁ inScope₁ schema) sound₁
    (fun n => Nat.le_trans remembers.names) ?_ ?_
  · intro live
    have before : Live scope spot hidden' seen known m := live.shows fun n ⟨below, shown⟩ =>
      ⟨below, fun isHidden => isHidden.elim shown fun same => Nat.ne_of_lt below same⟩
    exact before.same rebuilt.sameVars quiet.adds.later (.refl (fun _ => False) m) (fun _ _ => id)
      fun _ _ _ isOpen => (quiet.adds.open_iff sound.rooted _).mp isOpen
  · rintro share second m₁ sound₂ _ adds made _
    have current := made.current
    have isOpen : second.Open scope.fn.body := by
      have later := quiet.adds.later.trans adds.later
      exact later.body ▸ sound₂.rooted.body
    have declares₂ := declares.kept adds.later
    refine .bind (fun _ third => second.Rebuilt third 0) (fun _ _ m₂ => ∃ x v,
      m.env.lookup (variableName acc) = some x ∧ call.share? known = some v ∧
        m₂ = m₁.put (variableName acc) (call.step x v)) sound₂
      ((Sim.set (fun answer => ∃ x, m.env.lookup (variableName acc) = some x ∧
        Answers ((call.share? known).bind fun v => some (call.step x v)) answer) sound₂
        (above.trans_le made.remembers.names) le_rfl ?_ ?_ ?_).mono id
        (fun _ _ => id) ?_ fun _ => id) ?_
    · intro completes b init isOpen' declared
      refine ⟨l, (only b init ?_).trans isSeed⟩
      exact declared.of_completes (completes.before adds sound₁.rooted)
        ((adds.open_iff sound₁.rooted b).mp isOpen') sound₁.rooted above
    · rintro completes ready ⟨_, _, frame, _, carries⟩
      obtain ⟨x, found, _⟩ := ready.declared _ _ _ isOpen (declares₂.completed completes isOpen)
      obtain ⟨answer, isAnswer, stable⟩ := carries.stable
      refine ⟨by rw [found]; rfl, answer >>= fun v => .ok (call.step x v), ⟨x, ?_, ?_⟩, ?_⟩
      · rw [← found, frame.lookup_kept above.not_ge]
      · exact isAnswer.bind fun v => .ok _
      · rw [eval, bind_apply, eval_ident found]
        dsimp only
        rw [bind_apply, stable.apply completes ready]
        cases answer <;> rfl
    · rintro cause _ ⟨x, _, isAnswer⟩
      obtain ⟨ofCall, isNone⟩ := isAnswer.error rfl
      refine ⟨ofCall, ?_⟩
      cases isShare : call.share? known with
      | none => rfl
      | some v =>
        rw [isShare] at isNone
        cases isNone
    · rintro _ third flow m₂ _ _ ⟨rfl, _, ⟨x, found, isAnswer⟩, rfl⟩
      obtain ⟨v, isShare, same⟩ := Option.bind_eq_some_iff.mp isAnswer.same.symm
      cases same
      exact ⟨rfl, x, v, found, isShare, rfl⟩
    · rintro _ third m₂ sound₃ current' adds' rebuilt'
      have remembers' := rebuilt'.sameVars.remembers adds'.later
      refine .pure ⟨?_, rfl, ?_, ?_, ?_, ?_⟩ ?_
      · exact current'.trans (current.trans quiet.current)
      · exact (remembers.trans made.remembers (.inl quiet.current)).trans remembers'
          (.inl (current.trans quiet.current))
      · exact above.trans_le (made.remembers.names.trans remembers'.names)
      · exact (inScope₁.remembers made.remembers).remembers remembers'
      · exact declares₂.kept adds'.later
      · rintro ⟨⟨_, _, frame, still, carries⟩, _, x, v, found, isShare, rfl⟩
        refine ⟨rfl, still.trans (m₁.still_put _ _), ?_, x, v, found, isShare, ?_⟩
        · refine carries.live.same rebuilt'.sameVars adds'.later (m₁.frame_put acc _) ?_ ?_
          · rintro n shown rfl
            exact shown.2 (.inr rfl)
          · exact fun _ memo _ => (adds'.open_iff sound₂.rooted memo.block).mp
        · rw [Machine.lookup_put, if_pos rfl]

end accumulator

/-! ## All accumulators -/

/-- A variable stands for an accumulator. -/
def Scope.Collector (scope : Scope) (v : Var) (n : Nat) : Prop :=
  scope.live.values.find? v = some (.code (.ident (variableName n)) [])

/-- What the code of accumulators leaves behind. -/
structure Scope.Collects (scope : Scope) (bindings : List (Var × Call)) (later : Scope) : Prop where
  each : ∀ binding ∈ bindings, ∃ n, scope.New n ∧ later.Collector binding.1 n ∧
    later.Declares scope.fn.body n (seedOf binding.2.fn)
  others : ∀ v : Var, (∀ binding ∈ bindings, v.id ≠ binding.1.id) →
    later.live.values.find? v = scope.live.values.find? v
  outputs : later.outputs = scope.outputs ++ bindings.map Prod.fst
  emitters : later.emitters = scope.emitters
  flags : later.live.flags = scope.live.flags
  items : later.live.items = scope.live.items

/-- Every accumulator took the share of a tuple. -/
def Collected (bindings : List (Var × Call)) (known : Expr → Option Value) (later : Scope)
    (m m' : Machine) : Prop :=
  ∀ binding ∈ bindings, ∀ n, later.Collector binding.1 n →
    ∃ x share, m.env.lookup (variableName n) = some x ∧ binding.2.share? known = some share ∧
      m'.env.lookup (variableName n) = some (binding.2.step x share)

section accumulators

variable {D : Path → Prop} {final scope later : Scope} {spot : Spot} {m m' : Machine}
variable {hidden : Nat → Prop} {seen : Expr → Prop} {known : Expr → Option Value} {v : Var}
variable {meaning : Meaning}

theorem Scope.Collector.unique {n k : Nat} (first : scope.Collector v n)
    (second : scope.Collector v k) : n = k := by
  have same := Option.some.inj (first.symm.trans second)
  exact variableName_injective (Node.ident.inj (Meaning.code.inj same).1)

/-- Variables stay in scope when another one is bound. -/
theorem InScope.apart (inScope : InScope D scope hidden seen)
    (apart : ∀ w : Var, seen (.var w) → w.id ≠ v.id) :
    InScope D (scope.binding v meaning) hidden seen := by
  have values : ∀ w : Var, seen (.var w) →
      (scope.binding v meaning).live.values.find? w = scope.live.values.find? w := fun w isSeen =>
    (scope.live.values.find?_insert v w meaning).trans (if_neg (apart w isSeen))
  refine { inScope with value := ?_, memos := ?_, plain := ?_ }
  · intro w isSeen
    rw [values w isSeen]
    exact inScope.value w isSeen
  · intro w memo found
    change (scope.live.memos.erase v).find? w = some memo at found
    rw [VarMap.find?_erase] at found
    split at found
    · cases found
    · exact inScope.memos w memo found
  · intro w node readers isSeen found
    exact inScope.plain w node readers isSeen ((values w isSeen).symm.trans found)

theorem Live.apart (live : Live scope spot hidden seen known m)
    (apart : ∀ w : Var, seen (.var w) → w.id ≠ v.id) :
    Live (scope.binding v meaning) spot hidden seen known m := by
  have values : ∀ {w : Var} {x : Value}, known (.var w) = some x →
      (scope.binding v meaning).live.values.find? w = scope.live.values.find? w := by
    intro w x isKnown
    have isSeen := (live.domain (.var w)).mp (by rw [isKnown]; rfl)
    exact (scope.live.values.find?_insert v w meaning).trans (if_neg (apart w isSeen))
  refine { live with code := ?_, path := ?_, memo := ?_ }
  · intro w x node readers isKnown found
    exact live.code w x node readers isKnown ((values isKnown).symm.trans found)
  · intro w x p isKnown found
    exact live.path w x p isKnown ((values isKnown).symm.trans found)
  · intro w x p memo isKnown found isMemo
    change (scope.live.memos.erase v).find? w = some memo at isMemo
    rw [VarMap.find?_erase] at isMemo
    split at isMemo
    · cases isMemo
    · exact live.memo w x p memo isKnown ((values isKnown).symm.trans found) isMemo

/-- A variable is bound and becomes an output. -/
theorem quiet_bindOutput (outermost : scope.isNested = false)
    (isNew : ∀ w ∈ scope.outputs, w.id ≠ v.id) :
    Yields (do bindMeaning v meaning; putOutput v) scope fun _ later => scope.Quiet D later ∧
      later = { scope.binding v meaning with outputs := scope.outputs ++ [v] } := by
  refine .bind (.modifying (.mono (yields_putOutput outermost isNew) ?_))
  rintro _ _ rfl
  exact ⟨.of_notes, rfl⟩

/-- The shares of a tuple go into the accumulators. -/
theorem sim_accumulateAll (domain : ∀ e, (known e).isSome ↔ seen e) :
    ∀ (bindings : List (Var × Call)) (hidden : Nat → Prop) (scope : Scope) (m : Machine), Sound D scope →
    InScope D scope hidden seen → scope.isNested = false →
    (∀ binding ∈ bindings, Expr.AllWithin seen binding.2.args ∧
      scope.schema.ReadsArgs D binding.2.args) →
    (∀ binding ∈ bindings, ∀ w : Var, seen (.var w) → w.id ≠ binding.1.id) →
    ((scope.outputs ++ bindings.map Prod.fst).map Var.id).Nodup →
    Sim D final scope.New spot (accumulateAll (bindings.map Prod.fst) (bindings.map Prod.snd)) scope m
      (Live scope spot hidden seen known m) (fun _ later => scope.Collects bindings later)
      (fun _ later => Onward fun m' => m.Still m' ∧ Collected bindings known later m m')
      (fun cause => cause.OfCall ∧ ∃ binding ∈ bindings, binding.2.share? known = none)
  | [], _, scope, m, _, _, _, _, _, _ => by
    refine .pure ⟨fun _ => List.not_mem_nil.elim, fun _ _ => rfl, by simp, rfl, rfl, rfl⟩ fun _ => ?_
    exact ⟨rfl, .refl m, fun _ => List.not_mem_nil.elim⟩
  | (v, call) :: rest, hidden, scope, m, sound, inScope, outermost, readable, apart, distinct => by
    obtain ⟨within, reads⟩ := readable _ (.head _)
    have isNew : ∀ w ∈ scope.outputs, w.id ≠ v.id := by
      intro w member
      rw [List.map_append, List.nodup_append] at distinct
      exact distinct.2.2 w.id (List.mem_map_of_mem member) v.id (List.mem_map_of_mem (.head _))
    refine .get (.bind (fun acc first => acc = variableName scope.fn.arena.names ∧
        scope.Remembers first ∧ scope.fn.arena.names < first.fn.arena.names ∧
        InScope D first (fun n => hidden n ∨ n = scope.fn.arena.names) seen ∧
        first.Declares scope.fn.body scope.fn.arena.names (seedOf call.fn))
      (fun _ first m₁ => m.Still m₁ ∧
        Live first spot (fun n => hidden n ∨ n = scope.fn.arena.names) seen known m₁ ∧
        ∃ x share, m.env.lookup (variableName scope.fn.arena.names) = some x ∧
          call.share? known = some share ∧
          m₁.env.lookup (variableName scope.fn.arena.names) = some (call.step x share)) sound
      ((sim_accumulate domain sound inScope within reads).mono id (fun _ _ => id)
        (fun _ _ _ _ _ _ => id) fun _ failed => ⟨failed.1, _, .head _, failed.2⟩) ?_)
    rintro _ first m₁ sound₁ current adds ⟨rfl, remembers, above, inScope₁, declares⟩
    have sameOutputs : first.outputs = scope.outputs := by rw [remembers.same]
    have outermost₁ : first.isNested = false := by
      rw [remembers.same]
      exact outermost
    change Sim D final scope.New spot (bindMeaning v (.code (.ident _) []) >>= fun _ =>
      putOutput v >>= fun _ => accumulateAll (rest.map Prod.fst) (rest.map Prod.snd)) _ _ _ _ _ _
    rw [← bind_assoc]
    refine .quietly sound₁ (quiet_bindOutput outermost₁ (sameOutputs ▸ isNew)) ?_
    rintro _ put quiet sound₂ isPut
    have names : put.fn.arena.names = first.fn.arena.names := by rw [isPut]; rfl
    have body : put.fn.body = scope.fn.body := (adds.later.trans quiet.adds.later).body
    have isCollector : put.Collector v scope.fn.arena.names := by
      rw [isPut]
      exact (first.live.values.find?_insert v v _).trans (if_pos rfl)
    have apart' : ∀ binding ∈ rest, v.id ≠ binding.1.id := by
      intro binding member same
      rw [List.map_append, List.nodup_append, List.map_cons, List.map_cons, List.nodup_cons] at distinct
      exact distinct.2.1.1 (same ▸ List.mem_map_of_mem (List.mem_map_of_mem member))
    have others := sim_accumulateAll domain rest (fun n => hidden n ∨ n = scope.fn.arena.names) put m₁
      sound₂ (by rw [isPut]; exact (inScope₁.apart (apart _ (.head _))).congr rfl rfl rfl)
      (by rw [isPut]; exact outermost₁)
      (fun binding member => by
        rw [(adds.later.trans quiet.adds.later).schema]
        exact readable binding (.tail _ member))
      (List.forall_mem_cons.mp apart).2
      (by rw [isPut]; simpa [sameOutputs] using distinct)
    refine (others.framed.weaken ?_).steps.mono ?_ ?_ ?_ ?_
    · exact fun n => Nat.le_trans (adds.later.trans quiet.adds.later).arena.names
    · rintro ⟨_, _, _, live, _⟩
      rw [isPut]
      exact (live.apart (apart _ (.head _))).congr rfl rfl rfl rfl
    · rintro _ later ⟨step, collects⟩
      refine ⟨?_, ?_, ?_, ?_, ?_, ?_⟩
      · refine List.forall_mem_cons.mpr ⟨⟨scope.fn.arena.names, le_rfl, ?_, ?_⟩, ?_⟩
        · exact (collects.others v apart').trans isCollector
        · exact (declares.kept quiet.adds.later).kept step.enters.later
        · intro binding member
          obtain ⟨n, above', collector, declares'⟩ := collects.each binding member
          exact ⟨n, above.le.trans (names ▸ above'), collector, body ▸ declares'⟩
      · intro w isOther
        obtain ⟨notV, notRest⟩ := List.forall_mem_cons.mp isOther
        rw [collects.others w notRest, isPut]
        refine ((first.live.values.find?_insert v w _).trans (if_neg notV)).trans ?_
        rw [remembers.live.1]
      · rw [collects.outputs, isPut, sameOutputs]
        simp
      · rw [collects.emitters, isPut, remembers.same]
        rfl
      · rw [collects.flags, isPut, ← remembers.live.2.1]
        rfl
      · rw [collects.items, isPut, ← remembers.live.2.2.1]
        rfl
    · rintro _ later flow m' ⟨_, frame, still, _, x, share, found, isShare, found₁⟩ ⟨_, collects⟩
        ⟨frame', rfl, still', collected⟩
      refine ⟨rfl, still.trans still', List.forall_mem_cons.mpr ⟨?_, ?_⟩⟩
      · intro n collector
        obtain rfl := collector.unique ((collects.others v apart').trans isCollector)
        refine ⟨x, share, found, isShare, ?_⟩
        rw [frame'.lookup_kept]
        · exact found₁
        · exact Nat.not_le.mpr (names ▸ above)
      · intro binding member n collector
        obtain ⟨n', above', collector', _⟩ := collects.each binding member
        obtain rfl := collector.unique collector'
        obtain ⟨y, share', found', isShare', after⟩ := collected binding member n collector
        refine ⟨y, share', ?_, isShare', after⟩
        rw [← found', frame.lookup_kept]
        exact fun written => Nat.not_le.mpr written.2.1 (names ▸ above')
    · rintro cause ⟨ofCall, binding, member, isNone⟩
      exact ⟨ofCall, binding, .tail _ member, isNone⟩

end accumulators

/-! ## The code of a record -/

/-- Every accumulator took the shares of tuples. -/
def Folded (bindings : List (Var × Call)) (ts : List Tuple) (later : Scope) (m m' : Machine) : Prop :=
  ∀ binding ∈ bindings, ∀ n x, later.Collector binding.1 n → m.env.lookup (variableName n) = some x →
    ∃ shares, binding.2.shares? ts = some shares ∧
      m'.env.lookup (variableName n) = some (shares.foldl binding.2.step x)

/-- A scope holds the code of aggregates. -/
structure Scope.Gathered (scope : Scope) (bindings : List (Var × Call)) (later : Scope) : Prop where
  each : ∀ binding ∈ bindings, ∃ n, later.Collector binding.1 n ∧
    later.Declares scope.fn.body n (seedOf binding.2.fn)
  outputs : later.outputs = bindings.map Prod.fst
  emitters : later.emitters = []
  flags : ∀ v, later.live.flags.find? v = none
  items : ∀ v, later.live.items.find? v = none

section records

variable {D : Path → Prop} {final scope later : Scope} {spot : Spot} {m m' : Machine}
variable {hidden : Nat → Prop} {a : Plan.Aggregation} {t : Tuple}

/-- What aggregates over a scalar pipeline need: their arguments read variables of the pipeline, the
schema has the paths they read, and their variables are others. -/
structure Gathers (D : Path → Prop) (schema : Plan.Schema) (a : Plan.Aggregation) : Prop where
  readable : ∀ binding ∈ a.bindings,
    Expr.AllWithin (Among (Plan.delivered a.vars a.steps)) binding.2.args ∧
      schema.ReadsArgs D binding.2.args
  apart : ∀ binding ∈ a.bindings, ∀ v ∈ Plan.delivered a.vars a.steps, v.id ≠ binding.1.id
  distinct : ((a.bindings.map Prod.fst).map Var.id).Nodup

/-- Dropping the outputs. -/
theorem quiet_clearOutput (outermost : scope.isNested = false) :
    Yields clearOutput scope fun _ later => scope.Quiet D later ∧
      later = { scope with outputs := [] } := by
  refine .modifying ?_
  rw [if_neg (by rw [outermost]; exact Bool.false_ne_true)]
  exact ⟨.of_notes, rfl⟩

/-- The code of a pipeline and of the accumulators over it. -/
theorem sim_aggregation (pipes : Pipes D scope hidden a.vars a.steps) (covers : t.Covers a.vars)
    (gathers : Gathers D scope.schema a) :
    Sim D final scope.New spot (do
      fuseSteps a.steps
      clearOutput
      accumulateAll (a.bindings.map Prod.fst) (a.bindings.map Prod.snd)) scope m
      (Live scope spot hidden (Among a.vars) t.known m)
      (fun _ later => scope.Gathered a.bindings later)
      (fun _ later => Onward fun m' => m.Still m' ∧ ∃ ts, Plan.tuples? a.steps [t] = some ts ∧
        Folded a.bindings ts later m m')
      (fun cause => cause.OfCall ∧ a.Refuses t) := by
  refine (sim_steps (fun reached later => scope.Gathered a.bindings later ∧
      ∀ binding ∈ a.bindings, ∀ n, later.Collector binding.1 n → reached.New n)
    (fun later m' => m.Still m' ∧ ∃ ts, Plan.tuples? a.steps [t] = some ts ∧
      Folded a.bindings ts later m m')
    (fun t' cause => cause.OfCall ∧ ∃ binding ∈ a.bindings, binding.2.share? t'.known = none)
    a.steps a.vars scope m t True _ pipes covers ⟨?_, ?_, ?_, ?_⟩).mono
    (fun live => ⟨trivial, live⟩) (fun _ _ ⟨_, _, held, _⟩ => held) (fun _ _ _ _ _ _ => id) fun _ => id
  · exact fun isNone cause ofCall => ⟨ofCall, .inl isNone⟩
  · exact fun t' cause isOne ⟨ofCall, refused⟩ => ⟨ofCall, .inr ⟨t', isOne, refused⟩⟩
  · rintro reached later m' _ ⟨_, isNew⟩ _ passes isNil
    refine ⟨passes.still, [], isNil, fun binding member n x collector found => ⟨[], rfl, ?_⟩⟩
    rw [passes.frame.lookup_kept (Nat.not_lt.mpr (isNew binding member n collector))]
    exact found
  · intro scope' m₁ t' enters pipes' covers'
    refine .quietly pipes'.sound (quiet_clearOutput pipes'.plainly.outermost) ?_
    rintro _ start quiet sound' isStart
    have inScope' : InScope D start hidden (Among (Plan.delivered a.vars a.steps)) := by
      rw [isStart]
      exact pipes'.inScope.congr rfl rfl rfl
    have later' := enters.later.trans quiet.adds.later
    have names := quiet.adds.later.arena.names
    refine ((sim_accumulateAll covers'.domain a.bindings hidden start m₁ sound' inScope' ?_ ?_ ?_
      ?_).weaken ?_).mono ?_ ?_ ?_ fun _ => id
    · rw [isStart]
      exact pipes'.plainly.outermost
    · rw [later'.schema]
      exact gathers.readable
    · rintro binding member w ⟨w', same, v, isVar, sameId⟩
      cases same
      exact sameId ▸ gathers.apart binding member v isVar
    · rw [isStart]
      exact gathers.distinct
    · exact fun n => Nat.le_trans names
    · rintro ⟨_, _, _, live⟩
      rw [isStart]
      exact live.congr rfl rfl rfl rfl
    · rintro _ later collects
      refine ⟨⟨?_, ?_, ?_, ?_, ?_⟩, ?_⟩
      · intro binding member
        obtain ⟨n, _, collector, declares⟩ := collects.each binding member
        exact ⟨n, collector, later'.body ▸ declares⟩
      · rw [collects.outputs, isStart]
        rfl
      · rw [collects.emitters, isStart]
        exact pipes'.plainly.emitters
      · rw [collects.flags]
        exact inScope'.flags
      · rw [collects.items]
        exact inScope'.items
      · intro binding member n collector
        obtain ⟨n', isNew, collector', _⟩ := collects.each binding member
        obtain rfl := collector.unique collector'
        exact names.trans isNew
    · rintro _ later flow m' ⟨_, isOne, passes, _⟩ collects ⟨rfl, still, collected⟩
      refine ⟨rfl, passes.still.trans still, [t'], isOne, fun binding member n x collector found => ?_⟩
      obtain ⟨n', isNew, collector', _⟩ := collects.each binding member
      obtain rfl := collector.unique collector'
      obtain ⟨y, share, found₁, isShare, after⟩ := collected binding member n collector
      rw [passes.frame.lookup_kept (Nat.not_lt.mpr (names.trans isNew)), found] at found₁
      cases found₁
      refine ⟨[share], ?_, after⟩
      unfold Call.shares?
      rw [List.mapM_cons, isShare]
      rfl

end records

/-! ## The row of the accumulators -/

/-- The code of a variable that stands for an accumulator. -/
def Scope.collectorNode (scope : Scope) (v : Var) : Node :=
  match scope.live.values.find? v with
  | some (.code node _) => node
  | _ => .null

/-- The statement that writes the accumulators as a row. -/
def appendTotals (scope : Scope) (bindings : List (Var × Call)) : Node :=
  .member (.ident Function.sink) Code.Member.append
    (bindings.map fun binding => scope.collectorNode binding.1)

section totals

variable {D : Path → Prop} {scan : Plan.OpId} {dataset : String} {schema : Plan.Schema}
variable {scope later final : Scope} {a : Plan.Aggregation} {records : List Value} {k : Nat}
variable {record : Value} {m m' : Machine} {ts ts' : List Tuple}

theorem Scope.Collector.node {v : Var} {n : Nat} (collector : scope.Collector v n) :
    scope.collectorNode v = .ident (variableName n) := by
  unfold collectorNode
  rw [collector]

theorem yields_collectors : ∀ (bindings : List (Var × Call)),
    (∀ binding ∈ bindings, ∃ n, scope.Collector binding.1 n) →
    (∀ v, scope.live.flags.find? v = none) → (∀ v, scope.live.items.find? v = none) →
    Yields ((bindings.map Prod.fst).mapM inlineValueOf) scope fun nodes later =>
      nodes = bindings.map (fun binding => scope.collectorNode binding.1) ∧ later = scope
  | [], _, _, _ => .pure ⟨rfl, rfl⟩
  | binding :: rest, each, noFlag, noItem => by
    obtain ⟨n, collector⟩ := each binding (.head _)
    have value : Yields (inlineValueOf binding.1) scope fun node later =>
        node = scope.collectorNode binding.1 ∧ later = scope := by
      rw [collector.node]
      refine .bind (.get ?_)
      rw [collector]
      refine .bind (.get ?_)
      rw [noFlag, VarMap.has_eq_false.mpr (noItem _), collector]
      exact .pure ⟨rfl, rfl⟩
    have others := yields_collectors rest (fun other member => each other
      (.tail _ member)) noFlag noItem
    rw [List.map_cons, List.mapM_cons]
    refine .bind (value.mono ?_)
    rintro _ _ ⟨rfl, rfl⟩
    refine .bind (others.mono ?_)
    rintro _ _ ⟨rfl, rfl⟩
    exact .pure ⟨rfl, rfl⟩

/-- The accumulators are written where the records end. -/
theorem Scope.Gathered.writeRows {bindings : List (Var × Call)}
    (gathered : scope.Gathered bindings later) (atBody : later.current = later.fn.body) :
    Yields Fusion.writeRows later fun _ last => ∃ arena,
      later.fn.arena.appendHead later.fn.body (appendTotals later bindings) = .ok arena ∧
        last = { later with fn := { later.fn with arena } } := by
  have values : Yields (later.outputs.mapM inlineValueOf) later fun nodes last =>
      nodes = bindings.map (fun binding => later.collectorNode binding.1) ∧ last = later := by
    rw [gathered.outputs]
    refine yields_collectors bindings (fun binding member => ?_) gathered.flags gathered.items
    obtain ⟨n, collector, _⟩ := gathered.each binding member
    exact ⟨n, collector⟩
  refine .bind (.get ?_)
  rw [if_pos (by rw [gathered.emitters]; rfl)]
  refine .bind (values.mono ?_)
  rintro _ last ⟨rfl, rfl⟩
  rw [← atBody]
  exact yields_emit _ last

theorem Call.fold?_append {call : Call} {x : Value} {shares : List Value}
    (isFold : call.fold? ts = some x) (isShares : call.shares? ts' = some shares) :
    call.fold? (ts ++ ts') = some (shares.foldl call.step x) := by
  obtain ⟨before, isBefore, rfl⟩ := Option.map_eq_some_iff.mp isFold
  unfold Call.fold?
  have isAll : call.shares? (ts ++ ts') = some (before ++ shares) := by
    unfold Call.shares? at isBefore isShares ⊢
    rw [List.mapM_append, isBefore, isShares]
    rfl
  rw [isAll, Option.map_some, List.foldl_append]

/-- The accumulators hold the aggregates of the tuples of some records. -/
structure Totals (a : Plan.Aggregation) (later : Scope) (records : List Value) (ts : List Tuple)
    (m : Machine) : Prop where
  written : m.written = []
  isTuples : Plan.tuples? a.steps (Tuple.ofRecords a.vars records) = some ts
  holds : ∀ binding ∈ a.bindings, ∀ n, later.Collector binding.1 n →
    ∃ x, binding.2.fold? ts = some x ∧ m.env.lookup (variableName n) = some x

/-- The accumulators take the shares of one more record. -/
theorem Totals.next (totals : Totals a later (records.take k) ts m) (isRecord : records[k]? = some record)
    (still : (m.take record).Still m')
    (isTuples : Plan.tuples? a.steps [Tuple.ofRecord a.vars record k] = some ts')
    (folded : Folded a.bindings ts' later (m.take record) m') :
    Totals a later (records.take (k + 1)) (ts ++ ts') m' where
  written := still.written.trans totals.written
  isTuples := by
    rw [Tuple.ofRecords_take a.vars isRecord]
    exact Plan.tuples?_concat totals.isTuples isTuples
  holds := by
    intro binding member n collector
    obtain ⟨x, isFold, found⟩ := totals.holds binding member n collector
    obtain ⟨shares, isShares, after⟩ := folded binding member n x collector found
    exact ⟨_, Call.fold?_append isFold isShares, after⟩

theorem Totals.evalAll (totals : Totals a later records ts m) (gathered : scope.Gathered a.bindings later) :
    ∃ row, a.row? records = some row ∧
      Engine.evalAll (a.bindings.map fun binding => later.collectorNode binding.1)
        { m with record := .null } = some (.ok (row, { m with record := .null })) := by
  have held : ∀ binding ∈ a.bindings, ∃ x, binding.2.fold? ts = some x ∧
      eval (later.collectorNode binding.1) { m with record := .null } =
        some (.ok (x, { m with record := .null })) := by
    intro binding member
    obtain ⟨n, collector, _⟩ := gathered.each binding member
    obtain ⟨x, isFold, found⟩ := totals.holds binding member n collector
    rw [collector.node]
    exact ⟨x, isFold, eval_ident found⟩
  unfold Plan.Aggregation.row?
  rw [totals.isTuples, Option.bind_some]
  generalize a.bindings = bindings at held
  induction bindings with
  | nil => exact ⟨[], rfl, rfl⟩
  | cons binding rest ih =>
    obtain ⟨x, isFold, evaluates⟩ := held binding (.head _)
    obtain ⟨row, isRow, evaluates'⟩ := ih (List.forall_mem_cons.mp held).2
    refine ⟨x :: row, ?_, ?_⟩
    · rw [List.mapM_cons, isFold, isRow]
      rfl
    · rw [List.map_cons, Engine.evalAll, bind_apply, evaluates]
      dsimp only
      rw [bind_apply, evaluates']
      rfl

end totals

/-! ## Runs -/

/-- A scope holds the code of aggregates over a scan. -/
structure Gathering (D : Path → Prop) (scan : Plan.OpId) (dataset : String) (schema : Plan.Schema)
    (a : Plan.Aggregation) (later : Scope) : Prop where
  feeds : Feeds D schema a.vars a.steps
  gathers : Gathers D schema a
  isFused : (do
    fuseSteps a.steps
    clearOutput
    accumulateAll (a.bindings.map Prod.fst) (a.bindings.map Prod.snd) : Emit Unit)
      (.opened scan dataset a.vars schema) = .ok ((), later)

section runs

variable {D : Path → Prop} {scan : Plan.OpId} {dataset : String} {schema : Plan.Schema}
variable {later final : Scope} {a : Plan.Aggregation} {records : List Value} {k : Nat}
variable {record : Value} {m : Machine} {ts : List Tuple}

namespace Gathering

theorem simulates (gathering : Gathering D scan dataset schema a later) (final : Scope) (record : Value)
    (k : Nat) (m : Machine) :
    Simulates D final (Scope.opened scan dataset a.vars schema).New (spotOf record k)
      (.opened scan dataset a.vars schema) m
      (Live (.opened scan dataset a.vars schema) (spotOf record k) (fun _ => False) (Among a.vars)
        (Tuple.ofRecord a.vars record k).known m)
      (fun _ later => (Scope.opened scan dataset a.vars schema).Gathered a.bindings later)
      (fun _ later => Onward fun m' => m.Still m' ∧ ∃ ts,
        Plan.tuples? a.steps [Tuple.ofRecord a.vars record k] = some ts ∧
        Folded a.bindings ts later m m')
      (fun cause => cause.OfCall ∧ a.Refuses (.ofRecord a.vars record k)) () later :=
  sim_aggregation gathering.feeds.pipes (Tuple.covers_ofRecord a.vars record k) gathering.gathers ()
    later gathering.isFused

theorem codes (gathering : Gathering D scan dataset schema a later) :
    (Scope.opened scan dataset a.vars schema).Step D later ∧
      (Scope.opened scan dataset a.vars schema).Gathered a.bindings later := by
  obtain ⟨step, gathered, _⟩ := gathering.simulates later .null 0 (Machine.start later.fn [])
  exact ⟨step, gathered⟩

/-- The function of aggregates delivers their row. -/
theorem aggregates (gathering : Gathering D scan dataset schema a later)
    (ending : Ending [appendTotals later a.bindings] later final) (records : List Value) :
    Aggregates final.fn a records := by
  obtain ⟨step, gathered⟩ := gathering.codes
  have runs : RunsTo final.fn records
      (fun m => ∃ row, a.row? records = some row ∧ m.rows = [row] ∧ m.flushed = true)
      (fun cause => cause.OfCall ∧ a.row? records = none) := by
    refine ending.run gathering.feeds step records
      (fun k m => ∃ ts, Totals a later (records.take k) ts m) ?_ ?_ ?_
    · intro m readies isNew
      refine ⟨[], ?_, Plan.tuples?_nil a.steps, fun binding member n collector => ?_⟩
      · rw [readies.same]
        rfl
      · obtain ⟨n', collector', declares⟩ := gathered.each binding member
        obtain rfl := collector.unique collector'
        obtain ⟨v, found, isNew⟩ := isNew _ _ declares
        obtain ⟨l, isSeed, isValue⟩ := literalValue_seedOf binding.2
        exact ⟨_, rfl, found.trans (by rw [isNew.constant l isSeed, isValue]; rfl)⟩
    · rintro k record m isRecord ⟨ts, totals⟩
      refine ⟨_, _, _, _, gathering.simulates final record k (m.take record), ?_, id, ?_⟩
      · exact fun cause ⟨ofCall, refuses⟩ =>
          ⟨ofCall, Plan.Aggregation.row?_eq_none (mem_ofRecords a.vars isRecord) refuses⟩
      · rintro m' _ ⟨still, ts', isTuples, folded⟩
        exact ⟨_, totals.next isRecord still isTuples folded⟩
    · rintro m wired ⟨ts, totals⟩
      rw [List.take_length] at totals
      obtain ⟨row, isRow, evaluates⟩ := totals.evalAll gathered
      have wired' : ({ m with record := .null } : Machine).Wired final.fn.paths := { wired with }
      refine Ends.cons (Ends.append_row wired' evaluates ⟨rfl, ends_flush wired.sink
        ⟨row, isRow, ?_, rfl⟩⟩)
      rw [totals.written]
      rfl
  unfold Aggregates
  rcases runs with ⟨m, ⟨row, isRow, isOutput, flushed⟩, result⟩ | ⟨cause, ⟨ofCall, isNone⟩, result⟩
  · rw [isRow]
    rw [result, isOutput, flushed]
  · rw [isNone]
    exact ⟨cause, ofCall, result⟩

end Gathering

end runs

end Fusion

end QueryFusion

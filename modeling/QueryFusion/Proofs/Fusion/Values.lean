import QueryFusion.Proofs.Engine.Ends
import QueryFusion.Proofs.Fusion.Variables
import QueryFusion.Proofs.Plan.Schema

/-!
# Code of variables and paths

The code expression of a variable has the value of the variable, wherever it is evaluated next. A
chain of field accesses on a variable that stands for a path is a path again, and its value is the
value at that path. Where several branches may read a path, its reader is advanced before them.
-/

namespace QueryFusion

namespace Fusion

open Code
open Engine

/-- An answer is the value, or the failure of a call if there is none. -/
structure Answers {α : Type} (value : Option α) (answer : Except RunError α) : Prop where
  same : answer.toOption = value
  ofCall : ∀ cause, answer = .error cause → cause.OfCall

variable {α : Type}

theorem Answers.ok (a : α) : Answers (some a) (.ok a) :=
  ⟨rfl, fun _ isError => nomatch isError⟩

theorem Answers.bind {β : Type} {value : Option α} {answer : Except RunError α}
    {more : α → Option β} {after : α → Except RunError β} (answers : Answers value answer)
    (then' : ∀ a, Answers (more a) (after a)) : Answers (value.bind more) (answer >>= after) := by
  obtain ⟨rfl, ofCall⟩ := answers
  cases answer with
  | error cause => exact ⟨rfl, fun _ same => ofCall _ (congrArg _ (Except.error.inj same))⟩
  | ok a => exact then' a

theorem Answers.error {answer : Except RunError α} {cause : RunError} {value : Option α}
    (answers : Answers value answer) (isError : answer = .error cause) :
    cause.OfCall ∧ value = none := by
  subst isError
  exact ⟨answers.ofCall cause rfl, answers.same.symm⟩

/-- What making the code of an expression leaves behind. -/
structure Made (scope later : Scope) : Prop where
  current : later.current = scope.current
  remembers : scope.Remembers later

/-- Variables have their values, and a step of a run has a value from here on. -/
structure Carries (final scope : Scope) (spot : Spot) (hidden : Nat → Prop) (seen : Expr → Prop)
    (known : Expr → Option Value) (m : Machine) {α : Type} (value : Option α) (step : Run α) :
    Prop where
  live : Live scope spot hidden seen known m
  stable : ∃ answer, Answers value answer ∧ Stable final scope spot m step answer

/-- The code of an expression ends where evaluating its node has the value of the expression. -/
def Evaluated (final : Scope) (spot : Spot) (hidden : Nat → Prop) (seen : Expr → Prop)
    (known : Expr → Option Value) (m : Machine) {α : Type} (value : Option α) (step : Run α)
    (later : Scope) : Flow → Machine → Prop :=
  Onward fun m' => m.Still m' ∧ Carries final later spot hidden seen known m' value step

/-- A step makes the code of an expression with the given value. -/
abbrev Computes (D : Path → Prop) (final : Scope) (spot : Spot) (hidden : Nat → Prop)
    (seen : Expr → Prop) (known : Expr → Option Value) (step : Emit Node) (scope : Scope)
    (m : Machine) (value : Option Value) (accepted : RunError → Prop) : Prop :=
  Sim D final scope.New spot step scope m (Live scope spot hidden seen known m)
    (fun node later => Made scope later ∧ later.Plain hidden node)
    (fun node => Evaluated final spot hidden seen known m value (Engine.eval node)) accepted

section values

variable {D : Path → Prop} {final scope later : Scope} {may : Nat → Prop} {spot : Spot} {m m' : Machine}
variable {seen : Expr → Prop} {known : Expr → Option Value} {accepted : RunError → Prop}
variable {pre : Prop} {v : Var} {hidden : Nat → Prop}

theorem Scope.Quiet.trans {third : Scope} (first : scope.Quiet D later)
    (second : later.Quiet D third) : scope.Quiet D third where
  step := first.step.append second.step first.current
  current := second.current.trans first.current
  code := by
    have same := second.code
    rw [first.current] at same
    exact same.trans first.code
  bounds := fun reader bound => first.bounds reader (second.bounds reader bound)

theorem quiet_touches : ∀ (readers : List String) (scope : Scope),
    Yields (readers.forM touch) scope fun _ later => scope.Quiet D later ∧
      scope.SameVars later ∧ later.fn = scope.fn
  | [], scope => .pure ⟨.of_notes, rfl, rfl⟩
  | reader :: rest, scope => by
    have touched : Yields (touch reader) scope fun _ later => scope.Quiet D later ∧
        scope.SameVars later ∧ later.fn = scope.fn := quiet_touch reader
    refine .bind (touched.mono ?_)
    rintro _ middle ⟨quiet, same, fn⟩
    refine (quiet_touches rest middle).mono ?_
    rintro _ later ⟨quiet', same', fn'⟩
    exact ⟨quiet.trans quiet', same.trans same', fn'.trans fn⟩

theorem Evaluated.of_same {node : Node} {value : Value} {mid : Machine}
    (live : Live scope spot hidden seen known m) (same : scope.SameVars later)
    (adds : scope.Adds later) (rooted : scope.Rooted) (still : m.Still mid)
    (frame : m.Frame scope.New mid) (denotes : Denotes final later spot mid node (.ok value)) :
    Evaluated final spot hidden seen known m (some value) (eval node) later .proceed mid := by
  refine ⟨rfl, still, live.same same adds.later frame (fun _ => Scope.Shows.not_new) ?_,
    .ok value, .ok value, denotes⟩
  exact fun _ memo _ isOpen => (adds.open_iff rooted memo.block).mp isOpen

variable {p : Path}

/-- The code of a path that a variable stands for. -/
theorem sim_pathValue {value : Option Value} (sound : Sound D scope) (isPath : D p)
    (isFlat : p.arrayPrefix? = none)
    (isValue : Live scope spot hidden seen known m → value = some (spot.valueAt p)) :
    Computes D final spot hidden seen known (readPath p) scope m value accepted := by
  have reads : Sim D final scope.New spot (readPath p) scope m
      (Live scope spot hidden seen known m) _ _ accepted := sim_readPath sound isPath isFlat
  intro node later done
  obtain ⟨step, ⟨current, same, notName⟩, runs⟩ := reads node later done
  have adds : scope.Adds later := ⟨step.enters.later, current⟩
  refine ⟨step, ⟨⟨current, same.remembers adds.later⟩,
    fun name isName => absurd isName (notName name)⟩, fun completes ready live => ?_⟩
  refine (runs completes ready live).mono ?_ fun _ => id
  rintro flow m' ⟨ready', frame, rfl, still, _, denotes⟩
  refine ⟨ready', frame, ?_⟩
  rw [isValue live]
  exact .of_same live same adds sound.rooted still (frame.mono fun _ written => written.1) denotes

theorem sim_memo {value : Option Value} (sound : Sound D scope)
    (inScope : InScope D scope hidden seen) (isPath : D p)
    (isFlat : p.arrayPrefix? = none) (isMeaning : scope.live.values.find? v = some (.path p))
    (isValue : Live scope spot hidden seen known m → value = some (spot.valueAt p)) :
    Computes D final spot hidden seen known (do
      let node ← readPath p
      let name ← declareHere node
      modify fun scope => { scope with live := { scope.live with
        memos := scope.live.memos.insert v ⟨name, scope.current⟩ } }
      pure (.ident name)) scope m value accepted := by
  refine .bind (fun _ later => scope.SameVars later) (fun node later m' => m.Still m' ∧
    Denotes final later spot m' node (.ok (spot.valueAt p))) sound ?_ ?_
  · refine (sim_readPath sound isPath isFlat).mono id ?_ ?_ fun _ => id
    · rintro node later ⟨current, same, _⟩
      exact ⟨current, same⟩
    · rintro node later flow m' _ _ ⟨rfl, still, _, denotes⟩
      exact ⟨rfl, still, denotes⟩
  · rintro node first m' sound₁ current adds same
    refine .bind (fun name later => first.Rebuilt later 1 ∧
      name = variableName first.fn.arena.names) (fun _ _ m'' =>
        m'' = m'.put (variableName first.fn.arena.names) (spot.valueAt p)) sound₁ ?_ ?_
    · refine (Sim.declareHere (· = m'.put (variableName first.fn.arena.names) (spot.valueAt p)) sound₁
        (fun n => Nat.le_trans adds.later.arena.names) ?_).mono id (fun _ _ => id)
        (fun _ _ _ _ _ _ => id) fun _ => id
      rintro completes ready ⟨_, _, _, denotes⟩
      exact .of_eq (denotes.apply completes ready) ⟨rfl, rfl⟩
    · rintro name second m'' sound₂ current₂ adds₂ ⟨rebuilt, rfl⟩
      refine .quietly sound₂ (quiet_modify .of_notes) fun _ third quiet sound₃ isThird => ?_
      have before : scope.SameVars second := same.trans rebuilt.sameVars
      have adds' : scope.Adds second := adds.trans adds₂
      have names : second.fn.arena.names = first.fn.arena.names + 1 := rebuilt.names
      have isNew : scope.New first.fn.arena.names := adds.later.arena.names
      have shown : third.Shows hidden first.fn.arena.names := by
        refine ⟨?_, fun isHidden => Nat.not_lt.mpr isNew (inScope.hides _ isHidden)⟩
        rw [isThird]
        exact names ▸ Nat.lt_succ_self _
      have remembers : scope.Remembers third := by
        have below := shown.1
        subst isThird
        refine ⟨by rw [before], adds'.later.arena.names, adds'.later.arena.size, ?_⟩
        intro w memo found
        rw [VarMap.find?_insert] at found
        split at found
        · cases found
          exact .inr ⟨.inl adds'.current, sound₂.rooted.current, _, isNew, below, rfl⟩
        · rw [before] at found
          exact .inl found
      refine .pure ⟨⟨?_, remembers⟩, ?_⟩ ?_
      · rw [isThird]
        exact adds'.current
      · intro name isName
        cases isName
        exact ⟨_, shown, rfl⟩
      · rintro ⟨⟨live, frame, still, _⟩, frame', rfl⟩
        have put := m'.frame_put first.fn.arena.names (spot.valueAt p)
        have whole : m.Frame scope.New
            (m'.put (variableName first.fn.arena.names) (spot.valueAt p)) := by
          refine (frame.mono fun _ written => written.1).trans (put.mono ?_)
          rintro _ rfl
          exact isNew
        have fixed : Fixed (third.Shows hidden) spot
            (m'.put (variableName first.fn.arena.names) (spot.valueAt p))
            (.ident (variableName first.fn.arena.names)) (spot.valueAt p) :=
          .name _ _ shown (by rw [Machine.lookup_put, if_pos rfl])
        rw [isValue live]
        refine ⟨rfl, still.trans (m'.still_put _ _), live.remembers remembers whole
          (fun _ => Scope.Shows.not_new) ?_ ?_, .ok (spot.valueAt p), .ok _, fixed.denotes⟩
        · exact fun _ memo _ isOpen =>
            ((adds'.trans quiet.adds).open_iff sound.rooted memo.block).mp isOpen
        · intro w x q memo isKnown isPath' isMemo isNew _
          subst isThird
          rw [VarMap.find?_insert] at isMemo
          split at isMemo
          · next sameId =>
            cases isMemo
            have isMeaning' : scope.live.values.find? w = some (.path p) := by
              rw [scope.live.values.find?_congr sameId, isMeaning]
            rw [live.path w x p isKnown isMeaning']
            exact fixed
          · rw [before] at isMemo
            exact absurd isMemo isNew

/-- The code of a variable. -/
theorem sim_valueOf (sound : Sound D scope) (inScope : InScope D scope hidden seen)
    (isSeen : seen (.var v)) :
    Computes D final spot hidden seen known (valueOf v) scope m (known (.var v)) accepted := by
  obtain ⟨meaning, isMeaning, isPath⟩ := inScope.value v isSeen
  have isKnown : Live scope spot hidden seen known m → ∃ x, known (.var v) = some x := fun live =>
    Option.isSome_iff_exists.mp ((live.domain _).mpr isSeen)
  have fixed : ∀ {node : Node} {later : Scope} {x : Value}, Live scope spot hidden seen known m →
      scope.Quiet D later → scope.SameVars later →
      Fixed (scope.Shows hidden) spot m node x →
      Evaluated final spot hidden seen known m (some x) (eval node) later .proceed m := by
    intro node later x live quiet same fixed
    refine .of_same live same quiet.adds sound.rooted (.refl m) (.refl _ m) ?_
    exact (fixed.mono fun n => (same.remembers quiet.adds.later).shows n).denotes
  refine .get ?_
  rw [inScope.flags v, VarMap.has_eq_false.mpr (inScope.items v), isMeaning]
  cases meaning with
  | code node readers =>
    have touched : Yields (readers.forM touch) scope fun _ later => scope.Quiet D later ∧
        scope.SameVars later ∧ later.fn = scope.fn := quiet_touches readers scope
    refine .quietly sound touched fun _ later quiet sound' held => ?_
    obtain ⟨same, fn⟩ := held
    have remembers := same.remembers quiet.adds.later
    refine .pure ⟨⟨quiet.current, remembers⟩, ?_⟩ fun live => ?_
    · exact (inScope.plain v node readers isSeen isMeaning).kept remembers.names
    · obtain ⟨x, isValue⟩ := isKnown live
      rw [isValue]
      exact fixed live quiet same (live.code v x node readers isValue isMeaning)
  | path p =>
    obtain ⟨isD, isFlat⟩ := isPath p rfl
    refine .ask (yields_isOverridden p scope) fun answer _ => ?_
    cases answer with
    | true =>
      refine sim_pathValue sound isD isFlat fun live => ?_
      obtain ⟨x, isValue⟩ := isKnown live
      rw [isValue, live.path v x p isValue isMeaning]
    | false =>
      refine .ask (yields_visibleMemo? v scope) fun found isVisible => ?_
      cases found with
      | some name =>
        obtain ⟨memo, isMemo, rfl, isOpen⟩ := isVisible name rfl
        cases scope.reader? p with
        | none => exact .throw
        | some reader =>
          refine .quietly sound (quiet_touch reader) fun _ later quiet sound' held => ?_
          obtain ⟨same, fn⟩ := held
          have remembers := same.remembers quiet.adds.later
          refine .pure ⟨⟨quiet.current, remembers⟩, ?_⟩ fun live => ?_
          · intro name isName
            obtain ⟨n, shown, isVariable⟩ := (inScope.memos v memo isMemo).2
            cases isName
            exact ⟨n, remembers.shows n shown, isVariable⟩
          · obtain ⟨x, isValue⟩ := isKnown live
            rw [isValue]
            exact fixed live quiet same (live.memo v x p memo isValue isMeaning isMemo isOpen)
      | none =>
        refine sim_memo sound inScope isD isFlat isMeaning fun live => ?_
        obtain ⟨x, isValue⟩ := isKnown live
        rw [isValue, live.path v x p isValue isMeaning]

/-! ## Paths in expressions -/

theorem callScalar_fieldAccess (v : Value) (name : String) :
    callScalar Func.fieldAccess.name [v, .string name] = .ok (v.navigate [.field name]) := by
  cases v <;> rfl

/-- A chain of field accesses navigates from its variable. -/
theorem InScope.chainFrom (inScope : InScope D scope hidden seen) :
    ∀ (e : Expr) (fields : List String) {root : Var} {all : List String},
      e.Within seen → e.chainFrom fields = some (root, all) →
      seen (.var root) ∧ ∃ before, all = before ++ fields ∧
        ∀ known : Expr → Option Value, (∀ e, (known e).isSome → seen e) →
          e.value? known = (known (.var root)).map (·.navigate (Path.ofFields before)) := by
  intro e fields
  fun_induction Expr.chainFrom e fields with
  | case1 v fields =>
    intro root all within found
    cases found
    refine ⟨within, [], rfl, fun known _ => ?_⟩
    change known (.var v) = _
    cases known (.var v) <;> rfl
  | case2 e name loc fields ih =>
    intro root all within found
    obtain ⟨isSeen, before, rfl, isValue⟩ := ih within.1 found
    refine ⟨isSeen, before ++ [name], by simp, fun known domain => ?_⟩
    have unknown : known (.call .fieldAccess [e, .const (.string name)] loc) = none := by
      rw [← Option.not_isSome_iff_eq_none]
      exact fun isKnown => inScope.not_seen_call _ _ _ (domain _ isKnown)
    rw [Expr.value?, unknown, if_neg (by decide), Expr.values?, isValue known domain]
    cases known (.var root) with
    | none => rfl
    | some x =>
      change (callScalar Func.fieldAccess.name
        [x.navigate (Path.ofFields before), .string name]).toOption = _
      rw [callScalar_fieldAccess]
      unfold Path.ofFields
      rw [List.map_append, Option.map_some, Value.navigate_append]
      rfl
  | case3 => rintro root all _ ⟨⟩

/-- A path is one of fields, and its value is that of an expression. -/
def Located (scope : Scope) (spot : Spot) (hidden : Nat → Prop) (seen : Expr → Prop) (e : Expr)
    (p : Path) : Prop :=
  p.arrayPrefix? = none ∧
    ∀ known m, Live scope spot hidden seen known m → e.value? known = some (spot.valueAt p)

theorem InScope.located_var (inScope : InScope D scope hidden seen)
    (isSeen : seen (.var v)) (isPath : scope.schema.varPath? v = some p) :
    Located scope spot hidden seen (.var v) p := by
  refine ⟨inScope.path v p isSeen isPath, fun known m live => ?_⟩
  obtain ⟨x, isValue⟩ := Option.isSome_iff_exists.mp ((live.domain _).mpr isSeen)
  change known (.var v) = _
  rw [isValue, live.denoted v x p isValue isPath]

theorem InScope.located_chain (inScope : InScope D scope hidden seen) {e : Expr}
    {root : Var} {fields : List String} (within : e.Within seen)
    (isChain : e.fieldChain? = some (root, fields))
    (isPath : (if root.id = scope.schema.record.id then some (Path.ofFields fields)
      else (scope.schema.varPath? root).map (· ++ Path.ofFields fields)) = some p) :
    Located scope spot hidden seen e p := by
  have chain : e.chainFrom [] = some (root, fields) := by
    unfold Expr.fieldChain? at isChain
    split at isChain
    · next root' fields' isFrom =>
      split at isChain
      · cases isChain
      · rw [isFrom]
        exact isChain
    · cases isChain
  obtain ⟨isSeen, before, same, isValue⟩ := inScope.chainFrom e [] within chain
  rw [List.append_nil] at same
  subst same
  split at isPath
  · next isRecord =>
    cases isPath
    refine ⟨Path.arrayPrefix?_ofFields fields, fun known m live => ?_⟩
    obtain ⟨x, isKnown⟩ := Option.isSome_iff_exists.mp ((live.domain _).mpr isSeen)
    rw [isValue known fun e => (live.domain e).mp, isKnown, live.record root x isKnown isRecord]
    rfl
  · obtain ⟨q, denotes, rfl⟩ := Option.map_eq_some_iff.mp isPath
    obtain ⟨isFlat, isRoot⟩ := inScope.located_var isSeen denotes
    refine ⟨by rwa [Path.arrayPrefix?_append_ofFields], fun known m live => ?_⟩
    have isKnown : known (.var root) = _ := isRoot known m live
    rw [isValue known fun e => (live.domain e).mp, isKnown]
    exact congrArg some (Value.navigate_append _ _ _).symm

theorem InScope.pathOf? (inScope : InScope D scope hidden seen) {e : Expr}
    (within : e.Within seen) (isPath : scope.schema.pathOf? e = some p) :
    Located scope spot hidden seen e p := by
  unfold Plan.Schema.pathOf? at isPath
  split at isPath
  · exact inScope.located_var within isPath
  · split at isPath
    · cases isPath
    · next root fields isChain => exact inScope.located_chain within isChain isPath

/-! ## Advances before a case distinction -/

/-- The advance of a reader in advance of reads of its path. -/
theorem sim_advanceUnless (sound : Sound D scope) (isPath : D p) (isFlat : p.arrayPrefix? = none) :
    Sim D final may spot (do unless ← isOverridden p do advance (← readerOf p)) scope m pre
      (fun _ later => later.current = scope.current ∧ scope.SameVars later)
      (fun _ _ => Onward fun m' => m.Still m' ∧ m'.env = m.env) accepted := by
  refine .ask (yields_isOverridden p scope) fun answer found => ?_
  cases answer with
  | true => exact .pure ⟨rfl, rfl⟩ fun _ => ⟨rfl, .refl m, rfl⟩
  | false =>
    refine .quietly sound (quiet_readerOf sound isPath) fun reader later quiet sound' held => ?_
    obtain ⟨same, j, rfl, isReader⟩ := held
    refine (Sim.advance sound' isReader isFlat).mono id ?_ (fun _ _ _ _ _ _ => id) fun _ => id
    rintro _ third ⟨current, rebuilt, _⟩
    exact ⟨current.trans quiet.current, same.trans rebuilt.sameVars⟩

mutual

theorem sim_advanceAll : ∀ (e : Expr) (scope : Scope) (m : Machine), Sound D scope →
    InScope D scope hidden seen → e.Within seen → scope.schema.Reads D e →
    Sim D final may spot (advanceAll e) scope m pre
      (fun _ later => later.current = scope.current ∧ scope.SameVars later)
      (fun _ _ => Onward fun m' => m.Still m' ∧ m'.env = m.env) accepted
  | .absent, _, _, _, _, _, _ => .pure ⟨rfl, rfl⟩ fun _ => ⟨rfl, .refl _, rfl⟩
  | .var v, scope, m, sound, inScope, within, reads => by
    refine .get ?_
    obtain ⟨meaning, isMeaning, isPath⟩ := inScope.value v within
    rw [isMeaning]
    cases meaning with
    | code node readers => exact .pure ⟨rfl, rfl⟩ fun _ => ⟨rfl, .refl _, rfl⟩
    | path p => exact sim_advanceUnless sound (isPath p rfl).1 (isPath p rfl).2
  | .const _, _, _, _, _, _, _ => .pure ⟨rfl, rfl⟩ fun _ => ⟨rfl, .refl _, rfl⟩
  | .call fn args loc, scope, m, sound, inScope, within, reads => by
    refine .get ?_
    dsimp only
    rcases Plan.Schema.reads_call reads with ⟨p, rfl, isPath, isD, has⟩ | ⟨noPath, readsArgs⟩
    · rw [if_pos rfl, isPath, Option.filter_some, if_pos has]
      have located : Located scope spot hidden seen _ p := inScope.pathOf? within isPath
      exact sim_advanceUnless sound isD located.1
    · have noAccess : (if fn = .fieldAccess then scope.schema.pathOf? (.call fn args loc) else none)
          = none := by
        split
        · next isAccess => exact noPath isAccess
        · rfl
      rw [noAccess]
      exact sim_advanceArgs args scope m sound inScope within readsArgs

theorem sim_advanceArgs : ∀ (es : List Expr) (scope : Scope) (m : Machine), Sound D scope →
    InScope D scope hidden seen → Expr.AllWithin seen es →
    scope.schema.ReadsArgs D es →
    Sim D final may spot (advanceArgs es) scope m pre
      (fun _ later => later.current = scope.current ∧ scope.SameVars later)
      (fun _ _ => Onward fun m' => m.Still m' ∧ m'.env = m.env) accepted
  | [], _, _, _, _, _, _ => .pure ⟨rfl, rfl⟩ fun _ => ⟨rfl, .refl _, rfl⟩
  | e :: rest, scope, m, sound, inScope, within, reads => by
    have reads := Plan.Schema.readsArgs_cons.mp reads
    refine .bind (fun _ later => scope.SameVars later) (fun _ _ m' => m.Still m' ∧ m'.env = m.env)
      sound (sim_advanceAll e scope m sound inScope within.1 reads.1) ?_
    rintro _ later m' sound' current adds same
    have schema : later.schema = scope.schema := by rw [same]
    refine (sim_advanceArgs rest later m' sound' (inScope.remembers (same.remembers adds.later))
      within.2 ?_).mono And.left ?_ ?_ fun _ => id
    · rw [schema]
      exact reads.2
    · rintro _ third ⟨current', same'⟩
      exact ⟨current'.trans current, same.trans same'⟩
    · rintro _ third flow m'' ⟨_, _, still, env⟩ _ ⟨rfl, still', env'⟩
      exact ⟨rfl, still.trans still', env'.trans env⟩

end

end values

end Fusion

end QueryFusion

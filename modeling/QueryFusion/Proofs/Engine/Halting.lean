import QueryFusion.Proofs.Engine.Ends

/-!
# Runs that end

A step halts if it has an outcome at all: an answer, an error or a fault. The rules follow the shape
of code, as those for runs that end well do; a loop halts if every round that goes on lowers a
measure.
-/

namespace QueryFusion.Engine

open Code

/-- A step has an outcome, and its answer and state have a property if it answers. -/
def Halts {α : Type} (step : Run α) (m : Machine) (wanted : α → Machine → Prop) : Prop :=
  match step m with
  | some (.ok (a, m')) => wanted a m'
  | some (.error _) => True
  | none => False

section rules

variable {α β : Type} {m : Machine} {wanted : α → Machine → Prop}

variable {step : Run α} {a : α}

theorem Halts.of_eq {m' : Machine} (same : step m = some (.ok (a, m')))
    (held : wanted a m') : Halts step m wanted := by
  unfold Halts
  rw [same]
  exact held

theorem Halts.answer {m' : Machine} (halts : Halts step m wanted)
    (same : step m = some (.ok (a, m'))) : wanted a m' := by
  unfold Halts at halts
  rw [same] at halts
  exact halts

theorem Halts.congr {step' : Run α} (same : step m = step' m) (halts : Halts step' m wanted) :
    Halts step m wanted := by
  unfold Halts at halts ⊢
  rw [same]
  exact halts

theorem Halts.ne_none (halts : Halts step m wanted) : step m ≠ none := by
  intro isNone
  unfold Halts at halts
  rw [isNone] at halts
  exact halts

theorem Halts.pure (held : wanted a m) : Halts (Pure.pure a : Run α) m wanted := held

theorem Halts.throw {stop : Stop} : Halts (MonadExcept.throw stop : Run α) m wanted := trivial

theorem Halts.fail {cause : RunError} : Halts (Engine.fail cause : Run α) m wanted := trivial

theorem Halts.get {wanted : Machine → Machine → Prop} (held : wanted m m) :
    Halts (MonadState.get : Run Machine) m wanted := held

theorem Halts.modifying {wanted : PUnit → Machine → Prop} {change : Machine → Machine}
    (held : wanted ⟨⟩ (change m)) : Halts (modify change : Run PUnit) m wanted := held

theorem Halts.ofAnswer {answer : Except RunError α} (held : ∀ a, answer = .ok a → wanted a m) :
    Halts (Engine.ofAnswer answer) m wanted := by
  cases answer with
  | ok a => exact held a rfl
  | error cause => exact trivial

theorem Halts.ofLookup {answer : Except Fault α} (held : ∀ a, answer = .ok a → wanted a m) :
    Halts (Engine.ofLookup answer) m wanted := by
  cases answer with
  | ok a => exact held a rfl
  | error fault => exact trivial

theorem Halts.bind {next : α → Run β} {wanted : β → Machine → Prop}
    (first : Halts step m fun a m' => Halts (next a) m' wanted) :
    Halts (step >>= next) m wanted := by
  unfold Halts at first ⊢
  rw [bind_apply]
  cases outcome : step m with
  | none => simp only [outcome] at first
  | some answer =>
    cases answer with
    | error stop => trivial
    | ok answer => simpa only [outcome, Halts] using first

theorem Halts.mono {more : α → Machine → Prop} (halts : Halts step m wanted)
    (weaker : ∀ a m', wanted a m' → more a m') : Halts step m more := by
  unfold Halts at halts ⊢
  split at halts
  · exact weaker _ _ halts
  · exact trivial
  · exact halts.elim

theorem Halts.advancing {name : String} (halts : Halts step m wanted) :
    Halts (Engine.advancing name step) m wanted := by
  unfold Halts at halts ⊢
  change match (ExceptT.tryCatch (step m) _ : ExceptT Stop Option (α × Machine)) with
    | some (.ok (a, m')) => wanted a m'
    | some (.error _) => True
    | none => False
  cases outcome : step m with
  | none => simp only [outcome] at halts
  | some answer =>
    cases answer with
    | ok answer =>
      simp only [outcome] at halts
      exact halts
    | error stop => cases stop <;> trivial

end rules

/-! ## Statements -/

section statements

variable {fn : Function} {m : Machine} {wanted : Flow → Machine → Prop}

theorem Halts.nil (held : wanted .proceed m) : Halts (execAll fn []) m wanted := by
  rw [execAll]
  exact .pure held

theorem Halts.cons {n : Node} {rest : List Node}
    (first : Halts (exec fn n) m fun flow m' =>
      (flow = .proceed → Halts (execAll fn rest) m' wanted) ∧ (flow ≠ .proceed → wanted flow m')) :
    Halts (execAll fn (n :: rest)) m wanted := by
  rw [execAll]
  refine .bind (first.mono fun flow m' after => ?_)
  cases flow with
  | proceed => exact after.1 rfl
  | leave => exact .pure (after.2 (by decide))
  | finish => exact .pure (after.2 (by decide))

theorem Halts.assign {target : String} {value : Node} {declares : Bool}
    (evaluated : Halts (eval value) m fun v m' =>
      wanted .proceed { m' with env := Engine.assign target v m'.env }) :
    Halts (exec fn (.assign target value declares)) m wanted := by
  rw [exec]
  refine .bind (evaluated.mono fun v m' held => .bind ?_)
  refine .bind (.get ?_)
  split
  · exact held
  · exact .fail

theorem Halts.branch {cond : Node} {yes no : BlockId}
    (evaluated : Halts (eval cond) m fun v m' =>
      Halts (execBlock fn (if v.truth then yes else no)) m' wanted) :
    Halts (exec fn (.branch cond yes no)) m wanted := by
  rw [exec]
  exact .bind evaluated

theorem Halts.leave (held : wanted .leave m) : Halts (exec fn .leave) m wanted := by
  rw [exec]
  exact .pure held

theorem Halts.block {id : BlockId} (empty : id = emptyBlock → wanted .proceed m)
    (statements : ∀ block, id ≠ emptyBlock → fn.arena.blocks[id]? = some block →
      Halts (execAll fn block.statements) m wanted) : Halts (execBlock fn id) m wanted := by
  rw [execBlock]
  split
  · next isEmpty => exact .pure (empty isEmpty)
  · next isProper =>
    refine .bind (.ofLookup fun block found => statements block isProper ?_)
    unfold Arena.get at found
    split at found
    · next here =>
      cases found
      exact here
    · cases found

/-- Every round of a loop that goes on leads from a state of some measure to one of a smaller
measure. -/
def Declines (fn : Function) (cond : Node) (body : BlockId) (invariant : Nat → Machine → Prop)
    (wanted : Flow → Machine → Prop) : Prop :=
  ∀ measure m, invariant measure m → Halts (eval cond) m fun v m' =>
    if v.truth then
      Halts (execBlock fn body) m' fun flow m'' =>
        (flow = .proceed → ∃ less, less < measure ∧ invariant less m'') ∧
        (flow = .leave → wanted .proceed m'') ∧ (flow = .finish → wanted .finish m'')
    else wanted .proceed m'

/-- A loop halts if its rounds decline. -/
theorem Halts.loop {cond : Node} {body : BlockId} {invariant : Nat → Machine → Prop}
    (round : Declines fn cond body invariant wanted) :
    ∀ measure m, invariant measure m → Halts (exec fn (.loop cond body)) m wanted := by
  intro measure
  induction measure using Nat.strongRecOn with
  | ind measure ih =>
    intro m held
    rw [exec]
    refine .bind ((round measure m held).mono fun v m' goes => ?_)
    split at goes
    · next isTrue =>
      rw [if_pos isTrue]
      refine .bind (goes.mono fun flow m'' after => ?_)
      cases flow with
      | proceed =>
        obtain ⟨less, isLess, held'⟩ := after.1 rfl
        exact ih less isLess m'' held'
      | leave => exact .pure (after.2.1 rfl)
      | finish => exact .pure (after.2.2 rfl)
    · next isFalse =>
      rw [if_neg isFalse]
      exact .pure goes

end statements

end QueryFusion.Engine

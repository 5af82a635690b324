import QueryFusion.Proofs.Engine.Quiet

/-!
# Two runs at the same record

A machine that has come to a record after others and one that begins with it hold different things:
what earlier records have left in variables and columns, the rows written so far, the clock. Code does
not see the difference as long as it reads only variables with the same values, because a column that
was not advanced at the current place cannot be read.

One step follows another if it answers whenever the other does, in a related way. The rules go through
the engine as those for runs that halt do; a loop needs that its rounds decline.
-/

namespace QueryFusion.Engine

open Code

/-- Whenever a step answers from one machine, another step answers from another machine, in a related
way. -/
def Follows {α β : Type} (step : Run α) (other : Run β) (m n : Machine)
    (related : α → β → Machine → Machine → Prop) : Prop :=
  ∀ a m', step m = some (.ok (a, m')) → ∃ b n', other n = some (.ok (b, n')) ∧ related a b m' n'

section rules

variable {α β γ δ : Type} {m n : Machine} {related : α → β → Machine → Machine → Prop}

theorem Follows.pure {a : α} {b : β} (held : related a b m n) :
    Follows (Pure.pure a : Run α) (Pure.pure b : Run β) m n related := by
  intro a' m' done
  cases done
  exact ⟨b, n, rfl, held⟩

variable {other : Run β}

theorem Follows.throw {stop : Stop} :
    Follows (MonadExcept.throw stop : Run α) other m n related := by
  intro a m' done
  cases done

theorem Follows.fail {cause : RunError} :
    Follows (Engine.fail cause : Run α) other m n related := .throw

variable {step : Run α}

theorem Follows.mono {more : α → β → Machine → Machine → Prop}
    (follows : Follows step other m n related)
    (weaker : ∀ a b m' n', related a b m' n' → more a b m' n') : Follows step other m n more := by
  intro a m' done
  obtain ⟨b, n', done', held⟩ := follows a m' done
  exact ⟨b, n', done', weaker a b m' n' held⟩

theorem bind_eq_answer {next : α → Run γ} {c : γ} {m' : Machine}
    (done : (step >>= next) m = some (.ok (c, m'))) :
    ∃ a middle, step m = some (.ok (a, middle)) ∧ next a middle = some (.ok (c, m')) := by
  rw [bind_apply] at done
  split at done
  · next a middle first => exact ⟨a, middle, first, done⟩
  · cases done
  · cases done

theorem Follows.bind {next : α → Run γ} {next' : β → Run δ}
    {related : γ → δ → Machine → Machine → Prop}
    (first : Follows step other m n fun a b m' n' => Follows (next a) (next' b) m' n' related) :
    Follows (step >>= next) (other >>= next') m n related := by
  intro c m' done
  obtain ⟨a, middle, before, after⟩ := bind_eq_answer done
  obtain ⟨b, middle', before', follows⟩ := first a middle before
  obtain ⟨d, n', after', held⟩ := follows c m' after
  refine ⟨d, n', ?_, held⟩
  rw [bind_apply, before']
  exact after'

theorem Follows.get {next : Machine → Run γ} {next' : Machine → Run δ}
    {related : γ → δ → Machine → Machine → Prop} (follows : Follows (next m) (next' n) m n related) :
    Follows (MonadState.get >>= next) (MonadState.get >>= next') m n related :=
  .bind fun a m' done => by
    cases done
    exact ⟨n, n, rfl, follows⟩

theorem Follows.modifying {change change' : Machine → Machine}
    {related : PUnit → PUnit → Machine → Machine → Prop}
    (held : related ⟨⟩ ⟨⟩ (change m) (change' n)) :
    Follows (modify change : Run PUnit) (modify change' : Run PUnit) m n related := by
  intro a m' done
  cases done
  exact ⟨⟨⟩, _, rfl, held⟩

theorem Follows.ofAnswer {answer : Except RunError α} {related : α → α → Machine → Machine → Prop}
    (held : ∀ a, answer = .ok a → related a a m n) :
    Follows (Engine.ofAnswer answer) (Engine.ofAnswer answer) m n related := by
  cases answer with
  | ok a => exact .pure (held a rfl)
  | error cause => exact .fail

theorem Follows.of_halts {wanted : α → Machine → Prop}
    (halts : Halts step m wanted) (answers : ∀ a m', wanted a m' →
      ∃ b n', other n = some (.ok (b, n')) ∧ related a b m' n') : Follows step other m n related :=
  fun a m' done => answers a m' (halts.answer done)

theorem Follows.and_halts {wanted : α → Machine → Prop}
    (follows : Follows step other m n related) (halts : Halts step m wanted) :
    Follows step other m n fun a b m' n' => wanted a m' ∧ related a b m' n' := by
  intro a m' done
  obtain ⟨b, n', done', held⟩ := follows a m' done
  exact ⟨b, n', done', halts.answer done, held⟩

theorem Follows.advancing {name name' : String} (follows : Follows step other m n related) :
    Follows (Engine.advancing name step) (Engine.advancing name' other) m n related := by
  intro a m' done
  have before : step m = some (.ok (a, m')) := by
    change (ExceptT.tryCatch (step m) _ : ExceptT Stop Option (α × Machine)) = _ at done
    cases outcome : step m with
    | none =>
      rw [outcome] at done
      cases done
    | some answer =>
      rw [outcome] at done
      cases answer with
      | ok answer => exact done
      | error stop => cases stop <;> cases done
  obtain ⟨b, n', after, held⟩ := follows a m' before
  exact ⟨b, n', advancing_apply after, held⟩

end rules

/-! ## Statements -/

/-- A step gives the same answer from two machines, if it gives one from the first. -/
def Twins {α : Type} (step : Run α) (m n : Machine) (related : α → Machine → Machine → Prop) : Prop :=
  Follows step step m n fun a b m' n' => b = a ∧ related a m' n'

section statements

variable {fn : Function} {m n : Machine} {related : Flow → Machine → Machine → Prop}

variable {α : Type}

theorem Twins.mono {step : Run α} {related more : α → Machine → Machine → Prop}
    (twins : Twins step m n related) (weaker : ∀ a m' n', related a m' n' → more a m' n') :
    Twins step m n more :=
  Follows.mono twins fun a _ m' n' ⟨same, held⟩ => ⟨same, weaker a m' n' held⟩

theorem Twins.pure {a : α} {related : α → Machine → Machine → Prop}
    (held : related a m n) : Twins (Pure.pure a : Run α) m n related := Follows.pure ⟨rfl, held⟩

theorem Twins.bind {β : Type} {step : Run α} {next : α → Run β}
    {related : β → Machine → Machine → Prop}
    (first : Twins step m n fun a m' n' => Twins (next a) m' n' related) :
    Twins (step >>= next) m n related :=
  Follows.bind (.mono first fun _ _ _ _ ⟨same, twins⟩ => same ▸ twins)

theorem Twins.nil (held : related .proceed m n) : Twins (execAll fn []) m n related := by
  rw [execAll]
  exact .pure held

theorem Twins.cons {s : Node} {rest : List Node}
    (first : Twins (exec fn s) m n fun flow m' n' =>
      (flow = .proceed → Twins (execAll fn rest) m' n' related) ∧
        (flow ≠ .proceed → related flow m' n')) : Twins (execAll fn (s :: rest)) m n related := by
  rw [execAll]
  refine .bind (.mono first fun flow m' n' after => ?_)
  cases flow with
  | proceed => exact after.1 rfl
  | leave => exact .pure (after.2 (by decide))
  | finish => exact .pure (after.2 (by decide))

/-- Code that runs after other code. -/
theorem execAll_append (first second : List Node) : execAll fn (first ++ second) = (do
    match ← execAll fn first with
    | .proceed => execAll fn second
    | flow => Pure.pure flow) := by
  induction first with
  | nil =>
    rw [execAll.eq_def fn []]
    rfl
  | cons s rest ih =>
    rw [List.cons_append, execAll, execAll.eq_def fn (s :: rest), bind_assoc]
    congr 1
    funext flow
    cases flow with
    | proceed => exact ih
    | leave => rfl
    | finish => rfl

theorem Twins.append {first second : List Node}
    (before : Twins (execAll fn first) m n fun flow m' n' =>
      (flow = .proceed → Twins (execAll fn second) m' n' related) ∧
        (flow ≠ .proceed → related flow m' n')) : Twins (execAll fn (first ++ second)) m n related := by
  rw [execAll_append]
  refine .bind (.mono before fun flow m' n' after => ?_)
  cases flow with
  | proceed => exact after.1 rfl
  | leave => exact .pure (after.2 (by decide))
  | finish => exact .pure (after.2 (by decide))

theorem Twins.expr {s : Node} (quiet : s.isQuiet = true)
    (evaluated : Twins (eval s) m n fun _ m' n' => related .proceed m' n') :
    Twins (exec fn s) m n related := by
  rw [exec_of_isQuiet quiet]
  exact .bind (.mono evaluated fun _ _ _ held => .pure held)

theorem Twins.assign {target : String} {value : Node} {declares : Bool}
    (evaluated : Twins (eval value) m n fun v m' n' =>
      (declares = false → (m'.env.lookup target).isSome → (n'.env.lookup target).isSome) ∧
        related .proceed (m'.put target v) (n'.put target v)) :
    Twins (exec fn (.assign target value declares)) m n related := by
  rw [exec]
  refine .bind (.mono evaluated fun v m' n' held => .bind ?_)
  refine .get ?_
  split
  · next allowed =>
    have allowed' : (declares || (n'.env.lookup target).isSome) = true := by
      cases declares with
      | true => rfl
      | false => exact held.1 rfl allowed
    rw [if_pos allowed']
    intro _ m'' done
    cases done
    exact ⟨_, _, rfl, rfl, .pure held.2⟩
  · exact .fail

theorem Twins.branch {cond : Node} {yes no : BlockId}
    (evaluated : Twins (eval cond) m n fun v m' n' =>
      Twins (execBlock fn (if v.truth then yes else no)) m' n' related) :
    Twins (exec fn (.branch cond yes no)) m n related := by
  rw [exec]
  exact .bind evaluated

theorem Twins.leave (held : related .leave m n) : Twins (exec fn .leave) m n related := by
  rw [exec]
  exact .pure held

theorem Twins.block {id : BlockId} (empty : id = emptyBlock → related .proceed m n)
    (statements : ∀ block, id ≠ emptyBlock → fn.arena.blocks[id]? = some block →
      Twins (execAll fn block.statements) m n related) : Twins (execBlock fn id) m n related := by
  rw [execBlock]
  split
  · next isEmpty => exact .pure (empty isEmpty)
  · next isProper =>
    refine .bind ?_
    unfold Arena.get
    split
    · next block here => exact .pure (statements block isProper here)
    · exact .throw

theorem Twins.loop {cond : Node} {body : BlockId} {invariant : Nat → Machine → Prop}
    {wanted : Flow → Machine → Prop} (declines : Declines fn cond body invariant wanted)
    (joint : Machine → Machine → Prop)
    (round : ∀ measure m n, invariant measure m → joint m n → Twins (eval cond) m n fun v m' n' =>
      if v.truth then
        Twins (execBlock fn body) m' n' fun flow m'' n'' =>
          (flow = .proceed → joint m'' n'') ∧ (flow = .leave → related .proceed m'' n'') ∧
            (flow = .finish → related .finish m'' n'')
      else related .proceed m' n') :
    ∀ measure m n, invariant measure m → joint m n →
      Twins (exec fn (.loop cond body)) m n related := by
  intro measure
  induction measure using Nat.strongRecOn with
  | ind measure ih =>
    intro m n held both
    rw [exec]
    refine Twins.bind (Follows.mono
      (Follows.and_halts (round measure m n held both) (declines measure m held)) ?_)
    rintro _ v m' n' ⟨lowers, rfl, goes⟩
    refine ⟨rfl, ?_⟩
    split at goes
    · next isTrue =>
      rw [if_pos isTrue] at lowers ⊢
      refine Twins.bind (Follows.mono (Follows.and_halts goes lowers) ?_)
      rintro _ flow m'' n'' ⟨after, rfl, goes'⟩
      refine ⟨rfl, ?_⟩
      cases flow with
      | proceed =>
        obtain ⟨less, isLess, held'⟩ := after.1 rfl
        exact ih less isLess m'' n'' held' (goes'.1 rfl)
      | leave => exact .pure (goes'.2.1 rfl)
      | finish => exact .pure (goes'.2.2 rfl)
    · next isFalse =>
      rw [if_neg isFalse]
      exact .pure goes

end statements

end QueryFusion.Engine

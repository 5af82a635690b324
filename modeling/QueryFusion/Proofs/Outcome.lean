/-!
# Outcomes of computations and tables

How a computation in sequence comes to its outcome, for the three kinds of computation used here:
those that may fail, those with a state that a failure throws away, and those with a state that
outlives a failure.
-/

namespace Except

variable {ε α β : Type}

variable {f : α → Except ε β}

theorem bind_eq_ok {x : Except ε α} {b : β} : x >>= f = .ok b ↔ ∃ a, x = .ok a ∧ f a = .ok b := by
  cases x with
  | error e =>
    constructor
    · intro h
      cases h
    · rintro ⟨_, h, _⟩
      cases h
  | ok a =>
    constructor
    · intro h
      exact ⟨a, rfl, h⟩
    · rintro ⟨_, same, h⟩
      cases same
      exact h

/-- A computation succeeds if its parts do. -/
theorem exists_ok_bind {x : Except ε α} (first : ∃ a, x = .ok a)
    (second : ∀ a, x = .ok a → ∃ b, f a = .ok b) : ∃ b, x >>= f = .ok b := by
  obtain ⟨a, isFirst⟩ := first
  obtain ⟨b, isSecond⟩ := second a isFirst
  exact ⟨b, bind_eq_ok.mpr ⟨a, isFirst, isSecond⟩⟩

theorem exists_ok_mapM : ∀ as : List α, (∀ a ∈ as, ∃ b, f a = .ok b) → ∃ bs, as.mapM f = .ok bs
  | [], _ => ⟨[], rfl⟩
  | a :: as, each => by
    rw [List.mapM_cons]
    exact exists_ok_bind (each a (.head _)) fun b _ =>
      exists_ok_bind (exists_ok_mapM as (List.forall_mem_cons.mp each).2) fun bs _ => ⟨b :: bs, rfl⟩

theorem exists_eq_ok_singleton {x : Except ε (List α)} (one : x.toOption.map List.length = some 1) :
    ∃ a, x = .ok [a] := by
  cases x with
  | error e => cases one
  | ok as =>
    obtain ⟨a, rfl⟩ := List.length_eq_one_iff.mp (Option.some.inj one)
    exact ⟨a, rfl⟩

end Except

namespace EStateM

variable {ε σ α β : Type}

/-- Two steps in sequence, by the outcome of the first. -/
theorem bind_apply (x : EStateM ε σ α) (f : α → EStateM ε σ β) (s : σ) :
    (x >>= f) s = match x s with
      | .ok a s' => f a s'
      | .error e s' => .error e s' := rfl

theorem get_apply (s : σ) : (get : EStateM ε σ σ) s = .ok s s := rfl

/-- A step followed by others ends well if all of them do. -/
theorem bind_eq_ok {x : EStateM ε σ α} {f : α → EStateM ε σ β} {s s' : σ} {b : β} :
    (x >>= f) s = .ok b s' ↔ ∃ a t, x s = .ok a t ∧ f a t = .ok b s' := by
  rw [bind_apply]
  cases x s with
  | ok a t =>
    constructor
    · intro h
      exact ⟨a, t, rfl, h⟩
    · rintro ⟨_, _, same, h⟩
      cases same
      exact h
  | error e t =>
    constructor
    · intro h
      cases h
    · rintro ⟨_, _, h, _⟩
      cases h

/-- However a step from a state ends, a property holds of the state it ends in. A failure and its state
may be held to another property. -/
def EndsIn (holds : σ → Prop) (x : EStateM ε σ α) (s : σ)
    (lost : ε → σ → Prop := fun _ => holds) : Prop :=
  match x s with
  | .ok _ s' => holds s'
  | .error e s' => lost e s'

/-- A property of the state that a step keeps however it ends. -/
def Keeps (holds : σ → Prop) (x : EStateM ε σ α) (lost : ε → σ → Prop := fun _ => holds) : Prop :=
  ∀ s, holds s → EndsIn holds x s lost

section rules

variable {holds middle : σ → Prop} {lost : ε → σ → Prop} {x : EStateM ε σ α}
  {f : α → EStateM ε σ β} {s s' : σ} {a : α}

theorem Keeps.ok (keeps : Keeps holds x lost) (held : holds s) (outcome : x s = .ok a s') :
    holds s' := by
  have after := keeps s held
  rw [EndsIn, outcome] at after
  exact after

theorem Keeps.pure (a : α) : Keeps holds (pure a : EStateM ε σ α) lost := fun _ held => held

theorem Keeps.throw (e : ε) : Keeps holds (throw e : EStateM ε σ α) := fun _ held => held

/-- Nothing has to hold after a failure. -/
theorem EndsIn.of_ok (ends : ∀ a s', x s = .ok a s' → holds s') :
    EndsIn holds x s fun _ _ => True := by
  unfold EndsIn
  cases outcome : x s with
  | ok a s' => exact ends a s' outcome
  | error e s' => trivial

theorem EndsIn.of_eq (ran : x s = .ok a s') (held : holds s') : EndsIn holds x s lost := by
  rw [EndsIn, ran]
  exact held

theorem EndsIn.bind (first : EndsIn middle x s lost)
    (second : ∀ a s', middle s' → EndsIn holds (f a) s' lost) : EndsIn holds (x >>= f) s lost := by
  unfold EndsIn at first
  rw [EndsIn, bind_apply]
  cases outcome : x s with
  | ok a s' =>
    rw [outcome] at first
    exact second a s' first
  | error e s' =>
    rw [outcome] at first
    exact first

theorem EndsIn.mono (ends : EndsIn middle x s lost) (weaker : ∀ s', middle s' → holds s') :
    EndsIn holds x s lost := by
  unfold EndsIn at ends ⊢
  split
  · next ran =>
    rw [ran] at ends
    exact weaker _ ends
  · next ran =>
    rw [ran] at ends
    exact ends

theorem Keeps.bind (first : Keeps holds x lost) (second : ∀ a, Keeps holds (f a) lost) :
    Keeps holds (x >>= f) lost := fun s held => (first s held).bind second

theorem Keeps.forM {step : α → EStateM ε σ PUnit} :
    ∀ as : List α, (∀ a ∈ as, Keeps holds (step a) lost) → Keeps holds (as.forM step) lost
  | [], _ => .pure _
  | a :: as, each => .bind (each a (.head _)) fun _ =>
    .forM as (List.forall_mem_cons.mp each).2

theorem Keeps.mapM {step : α → EStateM ε σ β} (each : ∀ a, Keeps holds (step a)) :
    ∀ as : List α, Keeps holds (as.mapM step)
  | [] => .pure _
  | a :: as => by
    rw [List.mapM_cons]
    exact .bind (each a) fun _ => .bind (.mapM each as) fun _ => .pure _

end rules

end EStateM

theorem Array.inside {α : Type} {table : Array α} {i : Nat} {a : α} (found : table[i]? = some a) :
    i < table.size := (Array.getElem?_eq_some_iff.mp found).1

/-!
## Tables

Lists of entries that are found by a key, and numbered lists. An entry that is found is one of the
list; where the keys are distinct, every entry is found.
-/

namespace QueryFusion

variable {α β γ : Type}

section lookup

variable [BEq α] [LawfulBEq α] {key : α} {value : β}

theorem mem_of_lookup : ∀ {entries : List (α × β)}, entries.lookup key = some value →
    (key, value) ∈ entries
  | [], found => nomatch found
  | (other, x) :: rest, found => by
    rw [List.lookup_cons] at found
    split at found
    · next same =>
      cases found
      rw [eq_of_beq same]
      exact .head _
    · exact .tail _ (mem_of_lookup found)

theorem lookup_of_mem : ∀ {entries : List (α × β)}, (entries.map Prod.fst).Nodup →
    (key, value) ∈ entries → entries.lookup key = some value
  | (other, x) :: rest, distinct, member => by
    rw [List.map_cons, List.nodup_cons] at distinct
    rw [List.lookup_cons]
    rcases List.mem_cons.mp member with same | later
    · cases same
      rw [beq_self_eq_true]
    · have apart : key ≠ other := by
        rintro rfl
        exact distinct.1 (List.mem_map.mpr ⟨_, later, rfl⟩)
      rw [beq_false_of_ne apart]
      exact lookup_of_mem distinct.2 later

theorem lookup_isSome_of_mem : ∀ {entries : List (α × β)}, (key, value) ∈ entries →
    (entries.lookup key).isSome
  | (other, x) :: rest, member => by
    rw [List.lookup_cons]
    split
    · rfl
    · next apart =>
      rcases List.mem_cons.mp member with same | later
      · obtain ⟨rfl, _⟩ := Prod.mk.inj same
        rw [beq_self_eq_true] at apart
        cases apart
      · exact lookup_isSome_of_mem later

end lookup

theorem zipIdx_map_zipIdx (f : α × Nat → β) : ∀ (xs : List α) (n : Nat),
    ((xs.zipIdx n).map f).zipIdx n = (xs.zipIdx n).map fun entry => (f entry, entry.2)
  | [], _ => rfl
  | x :: rest, n => by
    simp only [List.zipIdx_cons, List.map_cons]
    rw [zipIdx_map_zipIdx f rest (n + 1)]

end QueryFusion

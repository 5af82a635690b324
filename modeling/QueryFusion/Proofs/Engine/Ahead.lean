import Mathlib.Data.List.Flatten
import QueryFusion.Proofs.Code.Arena
import QueryFusion.Proofs.Engine.Halting
import QueryFusion.Proofs.Engine.Motion

/-!
# What a stepper has still ahead

At one record a stepper can step onto finitely many elements: those that are left of its list, and
those of the lists it will load when the stepper around it moves on. Whatever quiet code does, this
list only loses elements, and it loses one whenever the stepper moves onto an element.
-/

namespace QueryFusion

namespace Path

theorem tailChars_append : ∀ p q : Path, tailChars (p ++ q) = tailChars p ++ tailChars q
  | [], _ => rfl
  | .element :: rest, q => by
    rw [List.cons_append, tailChars, tailChars_append rest q, tailChars]
    rfl
  | .field name :: rest, q => by
    rw [List.cons_append, tailChars, tailChars_append rest q, tailChars]
    simp

theorem toChars_append {p : Path} (q : Path) (proper : p ≠ []) :
    toChars (p ++ q) = p.toChars ++ tailChars q := by
  cases p with
  | nil => exact absurd rfl proper
  | cons step rest =>
    cases step with
    | element => exact tailChars_append (.element :: rest) q
    | field name =>
      rw [List.cons_append, toChars, tailChars_append, toChars]
      simp

/-- The text of the list around another one is shorter. -/
theorem toChars_enclosing_lt {p q : Path} (isElement : p.IsElement)
    (encloses : Engine.enclosing? (some p) = some q) : q.toChars.length < p.toChars.length := by
  obtain ⟨r, whole⟩ := prefix_of_arrayPrefix? encloses
  have proper : q ≠ [] := by
    rintro rfl
    exact absurd (isElement_of_arrayPrefix? encloses).length_pos (Nat.lt_irrefl 0)
  have longer : p = q ++ (r ++ [.element]) := by
    rw [← List.append_assoc, whole]
    exact isElement.eq_elements
  rw [longer, toChars_append _ proper, tailChars_append, List.length_append, List.length_append]
  change q.toChars.length < q.toChars.length + ((tailChars r).length + 3)
  omega

theorem toChars_eq_of_text {p q : Path} (same : p.text = q.text) : p.toChars = q.toChars := by
  exact String.ofList_injective same

end Path

namespace Engine

open Code

/-- The list that a stepper goes through inside a value. -/
def Column.listIn (c : Column) (base : Value) : List Value :=
  (base.navigate (c.path.dropLast.drop ((enclosing? (some c.path)).getD []).length)).elements

namespace Machine

/-- The place of a column below a stepper, or at the record. -/
def placeBelow (m : Machine) : Option Column → Place
  | none => { record := m.ordinal }
  | some d => { record := m.ordinal, move := d.move }

/-- The value that a column below a stepper, or at the record, looks into. -/
def baseBelow (m : Machine) : Option Column → Value
  | none => m.record
  | some d => d.element

/-- What is left of the list of a stepper: all of it if it has to be loaded at this place. -/
def remaining (m : Machine) (c : Column) (around : Option Column) : List Value :=
  if c.place = some (m.placeBelow around) then c.elements.drop (c.index + 1)
  else c.listIn (m.baseBelow around)

/-- The elements that a stepper can still step onto at the current record, given the steppers around
it, the innermost first. -/
def ahead (m : Machine) : List Nat → List Value
  | [] => []
  | i :: rest =>
    match m.columns[i]? with
    | none => []
    | some c => m.remaining c (rest.head?.bind (m.columns[·]?)) ++ (m.ahead rest).flatMap c.listIn

/-- A stepper with the steppers around it, the innermost first. -/
inductive Chain (m : Machine) : List Nat → Prop
  | outermost {i : Nat} {c : Column} (here : m.columns[i]? = some c) (isElement : c.path.IsElement)
      (alone : ∀ q, enclosing? (some c.path) = some q → m.steppers.lookup q.text = none) :
      Chain m [i]
  | inside {i d : Nat} {c : Column} {q : Path} {rest : List Nat} (here : m.columns[i]? = some c)
      (isElement : c.path.IsElement) (encloses : enclosing? (some c.path) = some q)
      (around : m.steppers.lookup q.text = some d) (outer : Chain m (d :: rest)) :
      Chain m (i :: d :: rest)

/-- The clock is ahead of all columns, and the table of steppers leads to steppers. -/
structure Tracked (m : Machine) : Prop where
  move : ∀ (i : Nat) (c : Column), m.columns[i]? = some c → c.move ≤ m.clock
  place : ∀ (i : Nat) (c : Column) (place : Place), m.columns[i]? = some c → c.place = some place →
    place.move ≤ m.clock
  stepper : ∀ text i, m.steppers.lookup text = some i →
    ∃ c, m.columns[i]? = some c ∧ c.path.IsElement ∧ c.path.text = text

variable {m m' : Machine} {i j : Nat} {c d : Column} {rest chain : List Nat}

/-- Every stepper has its chain. -/
theorem Tracked.exists_chain (tracked : m.Tracked) :
    ∀ (size i : Nat) (c : Column), c.path.toChars.length = size → m.columns[i]? = some c →
      c.path.IsElement → ∃ rest, m.Chain (i :: rest) := by
  intro size
  induction size using Nat.strongRecOn with
  | ind size ih =>
    intro i c isSize here isElement
    cases encloses : enclosing? (some c.path) with
    | none =>
      refine ⟨[], .outermost here isElement fun q isOuter => ?_⟩
      rw [encloses] at isOuter
      cases isOuter
    | some q =>
      cases around : m.steppers.lookup q.text with
      | none =>
        refine ⟨[], .outermost here isElement fun q' isOuter => ?_⟩
        cases encloses.symm.trans isOuter
        exact around
      | some k =>
        obtain ⟨d, there, isElement', text⟩ := tracked.stepper _ _ around
        have shorter := Path.toChars_enclosing_lt isElement encloses
        rw [← Path.toChars_eq_of_text text, isSize] at shorter
        obtain ⟨rest, outer⟩ := ih _ shorter k d rfl there isElement'
        exact ⟨k :: rest, .inside here isElement encloses around outer⟩

theorem Chain.exists_column (links : m.Chain (i :: rest)) :
    ∃ c, m.columns[i]? = some c ∧ c.path.IsElement := by
  cases links with
  | outermost here isElement => exact ⟨_, here, isElement⟩
  | inside here isElement => exact ⟨_, here, isElement⟩

/-- The steppers around another one have shorter paths. -/
theorem Chain.shorter (tracked : m.Tracked) (links : m.Chain chain) :
    ∀ {i : Nat} {rest : List Nat} {c : Column}, chain = i :: rest → m.columns[i]? = some c →
      ∀ k ∈ rest, ∀ d, m.columns[k]? = some d → d.path.toChars.length < c.path.toChars.length := by
  induction links with
  | outermost =>
    rintro i rest c ⟨rfl, rfl⟩ _ k member
    cases member
  | @inside _ d c q _ here isElement encloses around _ ih =>
    rintro _ _ c' ⟨rfl, rfl⟩ here' k member e there
    cases here.symm.trans here'
    obtain ⟨outer, isOuter, _, text⟩ := tracked.stepper _ _ around
    have shorter := Path.toChars_enclosing_lt isElement encloses
    rw [← Path.toChars_eq_of_text text] at shorter
    rcases List.mem_cons.mp member with rfl | further
    · cases isOuter.symm.trans there
      exact shorter
    · exact Nat.lt_trans (ih rfl isOuter k further e there) shorter

theorem Chain.notMem (tracked : m.Tracked) (links : m.Chain (i :: rest)) : i ∉ rest := by
  intro member
  obtain ⟨c, here, _⟩ := links.exists_column
  exact Nat.lt_irrefl _ (links.shorter tracked rfl here i member c here)

theorem Chain.congr (links : m.Chain chain) (steppers : m'.steppers = m.steppers)
    (columns : ∀ (i : Nat) (c : Column), m.columns[i]? = some c →
      ∃ c', m'.columns[i]? = some c' ∧ c'.path = c.path) : m'.Chain chain := by
  induction links with
  | outermost here isElement alone =>
    obtain ⟨c', here', path⟩ := columns _ _ here
    refine .outermost here' (path ▸ isElement) fun q encloses => ?_
    rw [steppers]
    exact alone q (path ▸ encloses)
  | inside here isElement encloses around _ ih =>
    obtain ⟨c', here', path⟩ := columns _ _ here
    exact .inside here' (path ▸ isElement) (path ▸ encloses) (steppers ▸ around) ih

theorem ahead_congr (columns : m'.columns = m.columns) (ordinal : m'.ordinal = m.ordinal)
    (record : m'.record = m.record) : ∀ chain, m'.ahead chain = m.ahead chain
  | [] => rfl
  | i :: rest => by
    have place : ∀ around, m'.placeBelow around = m.placeBelow around := by
      intro around
      cases around <;> simp [placeBelow, ordinal]
    have base : ∀ around, m'.baseBelow around = m.baseBelow around := by
      intro around
      cases around <;> simp [baseBelow, record]
    simp only [ahead, remaining, columns, place, base, ahead_congr columns ordinal record rest]

/-! ## What advancing does -/

/-- What one advance does to a column. -/
structure Moved (m : Machine) (i : Nat) (c d : Column) : Prop where
  path : d.path = c.path
  name : d.name = c.name
  move : d.move = m.clock + 1
  place : ∃ place, (m.moveColumn i { c with move := m.clock + 1 }).placeAt c.guide = some place ∧
    d.place = some place ∧
    (c.path.IsElement →
      (c.place = some place ∧ d.elements = c.elements ∧ d.index = c.index + 1) ∨
      (c.place ≠ some place ∧ d.index = 0 ∧ ∃ base,
        d.elements = c.listIn base ∧
        match enclosing? (some c.path) with
        | none => base = m.record
        | some q => ∃ k outer, m.steppers.lookup q.text = some k ∧
          (m.moveColumn i { c with move := m.clock + 1 }).columns[k]? = some outer ∧
          base = outer.element))

end Machine

section halts

variable {m : Machine} {i : Nat}

theorem halts_columnAt (i : Nat) (m : Machine) :
    Halts (columnAt i) m fun c m' => m' = m ∧ m.columns[i]? = some c := by
  refine .bind (.get ?_)
  cases here : m.columns[i]? with
  | none => exact .throw
  | some c => exact .pure ⟨rfl, rfl⟩

theorem halts_stepperOf (p : Path) (m : Machine) :
    Halts (stepperOf p) m fun c m' => m' = m ∧
      ∃ k, m.steppers.lookup p.text = some k ∧ m.columns[k]? = some c := by
  refine .bind (.get ?_)
  cases found : m.steppers.lookup p.text with
  | none => exact .fail
  | some k =>
    refine (halts_columnAt k m).mono ?_
    rintro c _ ⟨rfl, here⟩
    exact ⟨rfl, k, rfl, here⟩

theorem halts_placeOf (path : Option Path) (m : Machine) :
    Halts (placeOf path) m fun place m' => m' = m ∧ m.placeAt path = some place := by
  cases path with
  | none => exact .bind (.get (.pure ⟨rfl, rfl⟩))
  | some p =>
    refine .bind ((halts_stepperOf p m).mono ?_)
    rintro c _ ⟨rfl, k, found, here⟩
    refine .bind (.get (.pure ⟨rfl, ?_⟩))
    unfold Machine.placeAt
    simp [found, here]

theorem halts_checkAdvanced (c : Column) (m : Machine) :
    Halts (checkAdvanced c) m fun _ m' => m' = m ∧ m.Advanced c := by
  refine .bind ((halts_placeOf _ m).mono ?_)
  rintro place _ ⟨rfl, isHere⟩
  split
  · next same => exact .pure ⟨rfl, place, isHere, same⟩
  · exact .fail

theorem halts_currentElement (c : Column) (m : Machine) :
    Halts (currentElement c) m fun v m' => m' = m ∧ v = c.element := by
  refine .bind ((halts_checkAdvanced c m).mono ?_)
  rintro _ _ ⟨rfl, _⟩
  exact .pure ⟨rfl, rfl⟩

theorem halts_baseOf (path : Option Path) (m : Machine) :
    Halts (baseOf path) m fun v m' => m' = m ∧
      match path with
      | none => v = m.record
      | some q => ∃ k c, m.steppers.lookup q.text = some k ∧ m.columns[k]? = some c ∧
        v = c.element := by
  cases path with
  | none => exact .bind (.get (.pure ⟨rfl, rfl⟩))
  | some q =>
    refine .bind ((halts_stepperOf q m).mono ?_)
    rintro c _ ⟨rfl, k, found, here⟩
    refine (halts_currentElement c _).mono ?_
    rintro v _ ⟨rfl, rfl⟩
    exact ⟨rfl, k, c, found, here, rfl⟩

theorem halts_listAt (p : Path) (m : Machine) :
    Halts (listAt p) m fun elements m' => m' = m ∧ ∃ base,
      elements = (base.navigate (p.dropLast.drop ((enclosing? (some p)).getD []).length)).elements ∧
      match enclosing? (some p) with
      | none => base = m.record
      | some q => ∃ k c, m.steppers.lookup q.text = some k ∧ m.columns[k]? = some c ∧
        base = c.element := by
  refine .bind ((halts_baseOf _ m).mono ?_)
  rintro base _ ⟨rfl, isBase⟩
  exact .pure ⟨rfl, base, rfl, isBase⟩

/-- Advancing a column changes that column and the clock. -/
theorem halts_advance (i : Nat) (m : Machine) :
    Halts (advance i) m fun _ m' => ∃ c d, m.columns[i]? = some c ∧ m.Moved i c d ∧
      m' = m.moveColumn i d := by
  refine .bind (.modifying (.bind ((halts_columnAt i _).mono ?_)))
  rintro c _ ⟨rfl, here⟩
  refine .bind (.get (.bind (.modifying (.advancing ?_))))
  refine .bind ((halts_placeOf _ _).mono ?_)
  rintro place _ ⟨rfl, isHere⟩
  have sets : ∀ d, setColumn i d (m.moveColumn i { c with move := m.clock + 1 }) =
      some (.ok ((), m.moveColumn i d)) := setColumn_moveColumn m i _
  have stepper : ({ c with move := m.clock + 1 } : Column).isStepper = c.isStepper := rfl
  split
  · next isField =>
    refine .of_eq (sets _) ⟨c, { c with move := m.clock + 1, place := some place }, here,
      ⟨rfl, rfl, rfl, place, isHere, rfl, ?_⟩, rfl⟩
    intro isElement
    rw [stepper, (Column.isStepper_iff c).mpr isElement] at isField
    cases isField
  · split
    · next same =>
      exact .of_eq (sets _) ⟨c, { c with move := m.clock + 1, index := c.index + 1 }, here,
        ⟨rfl, rfl, rfl, place, isHere, same, fun _ => .inl ⟨same, rfl, rfl⟩⟩, rfl⟩
    · next other =>
      refine .bind ((halts_listAt _ _).mono ?_)
      rintro elements _ ⟨rfl, base, isList, isBase⟩
      exact .of_eq (sets _)
        ⟨c, { c with move := m.clock + 1, place := some place, elements, index := 0 }, here,
          ⟨rfl, rfl, rfl, place, isHere, rfl, fun _ => .inr ⟨other, rfl, base, isList, isBase⟩⟩, rfl⟩

end halts

namespace Machine

variable {m : Machine} {i j : Nat} {c d : Column} {rest chain : List Nat}

/-- The stepper right around another one. -/
def around (m : Machine) (rest : List Nat) : Option Column := rest.head?.bind (m.columns[·]?)

theorem ahead_cons (here : m.columns[i]? = some c) (rest : List Nat) :
    m.ahead (i :: rest) = m.remaining c (m.around rest) ++ (m.ahead rest).flatMap c.listIn := by
  rw [ahead, here]
  rfl

theorem placeBelow_moveColumn (m : Machine) (i : Nat) (d : Column) (around : Option Column) :
    (m.moveColumn i d).placeBelow around = m.placeBelow around := by
  cases around <;> rfl

theorem around_moveColumn (here : m.columns[i]? = some c) (apart : rest.head? ≠ some i) :
    (m.moveColumn i d).around rest = m.around rest := by
  unfold around
  cases isHead : rest.head? with
  | none => rfl
  | some k =>
    have other : k ≠ i := fun same => apart (same ▸ isHead)
    simp only [Option.bind_some]
    rw [getElem?_moveColumn here, if_neg other]

/-- A column matters only to the chains it is in. -/
theorem ahead_moveColumn (here : m.columns[i]? = some c) :
    ∀ chain, i ∉ chain → (m.moveColumn i d).ahead chain = m.ahead chain
  | [], _ => rfl
  | j :: rest, outside => by
    have other : j ≠ i := fun same => outside (same ▸ (.head _))
    have outside' : i ∉ rest := fun member => outside (.tail _ member)
    have apart : rest.head? ≠ some i := fun same => outside' (List.mem_of_mem_head? same)
    cases there : m.columns[j]? with
    | none => rw [ahead, ahead, getElem?_moveColumn here, if_neg other, there]
    | some e =>
      have there' : (m.moveColumn i d).columns[j]? = some e := by
        rw [getElem?_moveColumn here, if_neg other, there]
      rw [ahead_cons there, ahead_cons there', around_moveColumn here apart,
        ahead_moveColumn here rest outside']
      rfl

theorem Moved.remaining_eq (tracked : m.Tracked) (links : m.Chain (i :: rest))
    (here : m.columns[i]? = some c) (moved : m.Moved i c d) :
    d.place = some (m.placeBelow (m.around rest)) ∧
      m.remaining c (m.around rest) = d.elements.drop d.index := by
  obtain ⟨place, isHere, isPlace, turns⟩ := moved.place
  obtain ⟨c', here', isElement⟩ := links.exists_column
  cases here.symm.trans here'
  rw [Column.guide_of_isElement isElement] at isHere
  have wanted : place = m.placeBelow (m.around rest) ∧ ∀ base,
      (match enclosing? (some c.path) with
        | none => base = m.record
        | some q => ∃ k outer, m.steppers.lookup q.text = some k ∧
          (m.moveColumn i { c with move := m.clock + 1 }).columns[k]? = some outer ∧
          base = outer.element) → base = m.baseBelow (m.around rest) := by
    have outside := links.notMem tracked
    cases links with
    | outermost here' _ alone =>
      cases here.symm.trans here'
      cases encloses : enclosing? (some c.path) with
      | none =>
        rw [encloses] at isHere
        exact ⟨(Option.some.inj isHere).symm, fun base isBase => isBase⟩
      | some q =>
        rw [encloses] at isHere
        change (m.steppers.lookup q.text).bind _ = _ at isHere
        rw [alone q encloses] at isHere
        cases isHere
    | @inside _ k _ q outer here' _ encloses isAround _ =>
      cases here.symm.trans here'
      obtain ⟨e, there, _⟩ := tracked.stepper _ _ isAround
      have other : k ≠ i := fun same => outside (same ▸ (.head _))
      have there' : (m.moveColumn i { c with move := m.clock + 1 }).columns[k]? = some e := by
        rw [getElem?_moveColumn here, if_neg other, there]
      have isOuter : m.around (k :: outer) = some e := there
      rw [encloses] at isHere ⊢
      change (m.steppers.lookup q.text).bind _ = _ at isHere
      rw [isAround, Option.bind_some, there'] at isHere
      rw [isOuter]
      refine ⟨(Option.some.inj isHere).symm, ?_⟩
      rintro base ⟨k', e', isAround', there'', rfl⟩
      cases isAround.symm.trans isAround'
      cases there'.symm.trans there''
      rfl
  obtain ⟨rfl, isBase⟩ := wanted
  refine ⟨isPlace, ?_⟩
  unfold remaining
  rcases turns isElement with ⟨same, elements, index⟩ | ⟨other, index, base, elements, based⟩
  · rw [if_pos same, elements, index]
  · rw [if_neg other, index, elements, List.drop_zero, isBase base based]

theorem Moved.ahead_self (tracked : m.Tracked) (links : m.Chain (i :: rest))
    (here : m.columns[i]? = some c) (moved : m.Moved i c d) :
    m.ahead (i :: rest) = d.elements.drop d.index ++ (m.ahead rest).flatMap c.listIn ∧
      (m.moveColumn i d).ahead (i :: rest) =
        d.elements.drop (d.index + 1) ++ (m.ahead rest).flatMap c.listIn := by
  obtain ⟨place, left⟩ := moved.remaining_eq tracked links here
  have outside := links.notMem tracked
  have here' : (m.moveColumn i d).columns[i]? = some d := by
    rw [getElem?_moveColumn here, if_pos rfl]
  have apart : rest.head? ≠ some i := fun same => outside (List.mem_of_mem_head? same)
  have lists : d.listIn = c.listIn := by
    funext base
    unfold Column.listIn
    rw [moved.path]
  refine ⟨by rw [ahead_cons here, left], ?_⟩
  rw [ahead_cons here', around_moveColumn here apart, ahead_moveColumn here rest outside, lists]
  congr 1
  unfold remaining
  rw [placeBelow_moveColumn, if_pos place]

theorem drop_index_of_lt (inside : d.index < d.elements.length) :
    d.elements.drop d.index = d.element :: d.elements.drop (d.index + 1) := by
  rw [List.drop_eq_getElem_cons inside]
  unfold Column.element
  rw [List.getD_eq_getElem?_getD, List.getElem?_eq_getElem inside]
  rfl

/-- A list inside a stepper that has passed its end is empty. -/
theorem listIn_element_of_le (c : Column) (passed : d.elements.length ≤ d.index) :
    c.listIn d.element = [] := by
  unfold Column.element Column.listIn
  rw [List.getD_eq_getElem?_getD, List.getElem?_eq_none passed, Option.getD_none,
    Value.navigate_missing]
  rfl

theorem Moved.ahead_sublist (tracked : m.Tracked) (here : m.columns[i]? = some c)
    (moved : m.Moved i c d) (links : m.Chain chain) :
    ((m.moveColumn i d).ahead chain).Sublist (m.ahead chain) := by
  have atSelf : ∀ {rest : List Nat}, m.Chain (i :: rest) →
      ((m.moveColumn i d).ahead (i :: rest)).Sublist (m.ahead (i :: rest)) := by
    intro rest links
    obtain ⟨before, after⟩ := moved.ahead_self tracked links here
    rw [before, after]
    exact (List.drop_sublist_drop_left _ (Nat.le_succ _)).append (List.Sublist.refl _)
  induction links with
  | @outermost j e there isElement alone =>
    by_cases same : j = i
    · subst same
      exact atSelf (.outermost there isElement alone)
    · have apart : i ∉ [j] := by simpa using Ne.symm same
      simpa only [ahead_moveColumn here [j] apart] using List.Sublist.refl _
  | @inside j k e q rest there isElement encloses isAround outer ih =>
    by_cases same : j = i
    · subst same
      exact atSelf (.inside there isElement encloses isAround outer)
    · have there' : (m.moveColumn i d).columns[j]? = some e := by
        rw [getElem?_moveColumn here, if_neg same, there]
      rw [ahead_cons there, ahead_cons there']
      by_cases isOuter : k = i
      · subst isOuter
        obtain ⟨before, after⟩ := moved.ahead_self tracked outer here
        have isAround' : (m.moveColumn k d).around (k :: rest) = some d := by
          change (m.moveColumn k d).columns[k]? = some d
          rw [getElem?_moveColumn here, if_pos rfl]
        have reloads : (m.moveColumn k d).remaining e (some d) = e.listIn d.element := by
          unfold remaining
          rw [if_neg]
          · rfl
          · intro same
            have early := tracked.place j e _ there same
            change d.move ≤ m.clock at early
            rw [moved.move] at early
            omega
        rw [isAround', reloads, before, after]
        rcases Nat.lt_or_ge d.index d.elements.length with inside | passed
        · rw [drop_index_of_lt inside, List.cons_append, List.flatMap_cons]
          exact List.sublist_append_right _ _
        · rw [listIn_element_of_le e passed, List.nil_append, List.drop_eq_nil_of_le passed,
            List.drop_eq_nil_of_le (Nat.le_succ_of_le passed)]
          exact List.sublist_append_right _ _
      · have apart : (k :: rest).head? ≠ some i := fun head => isOuter (Option.some.inj head)
        rw [around_moveColumn here apart]
        exact (List.Sublist.refl _).append (ih.flatMap _)

theorem Tracked.placeAt_le (tracked : m.Tracked) (here : m.columns[i]? = some c)
    {path : Option Path} {place : Place}
    (isHere : (m.moveColumn i { c with move := m.clock + 1 }).placeAt path = some place) :
    place.move ≤ m.clock + 1 := by
  cases path with
  | none =>
    cases isHere
    exact Nat.zero_le _
  | some q =>
    obtain ⟨k, _, isHere⟩ := Option.bind_eq_some_iff.mp isHere
    obtain ⟨e, there, isHere⟩ := Option.bind_eq_some_iff.mp isHere
    cases isHere
    rw [getElem?_moveColumn here] at there
    split at there
    · cases there
      exact le_rfl
    · exact Nat.le_succ_of_le (tracked.move k e there)

theorem Tracked.moveColumn (tracked : m.Tracked) (here : m.columns[i]? = some c)
    (moved : m.Moved i c d) : (m.moveColumn i d).Tracked where
  move := by
    intro j e there
    rw [getElem?_moveColumn here] at there
    split at there
    · cases there
      exact Nat.le_of_eq moved.move
    · exact Nat.le_succ_of_le (tracked.move j e there)
  place := by
    intro j e place there isPlace
    rw [getElem?_moveColumn here] at there
    split at there
    · cases there
      obtain ⟨wanted, isHere, isWanted, _⟩ := moved.place
      cases isWanted.symm.trans isPlace
      exact tracked.placeAt_le here isHere
    · exact Nat.le_succ_of_le (tracked.place j e place there isPlace)
  stepper := by
    intro text j found
    obtain ⟨e, there, isElement, isText⟩ := tracked.stepper text j found
    rw [getElem?_moveColumn here]
    split
    · next same =>
      subst same
      cases here.symm.trans there
      exact ⟨d, rfl, moved.path ▸ isElement, moved.path ▸ isText⟩
    · exact ⟨e, there, isElement, isText⟩

end Machine

end Engine

end QueryFusion

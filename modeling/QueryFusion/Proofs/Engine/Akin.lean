import QueryFusion.Proofs.Engine.Twins

/-!
# Machines that are akin

Two machines are akin if they are at the same record, with the same lists under the columns that
were advanced there, and have written the same rows since. Evaluating a quiet and local expression
gives the same value on both if its names do, and leaves them akin.
-/

namespace QueryFusion.Engine

open Code

variable {m m' : Machine} {c : Column} {p : Path} {i : Nat} {path : Option Path} {place : Place}
variable {α : Type} {step : Run α} {member : String} {before before' : List (List Value)}

namespace Machine

/-- Two columns cannot be told apart by reading them. -/
structure SameColumn (m n : Machine) (c d : Column) : Prop where
  name : d.name = c.name
  path : d.path = c.path
  advanced : n.Advanced d ↔ m.Advanced c
  list : m.Advanced c → c.path.IsElement → d.elements = c.elements ∧ d.index = c.index

/-- Two machines cannot be told apart by code that reads the same names on both. They wrote the same
rows on top of what was written before. -/
structure Akin (before before' : List (List Value)) (m n : Machine) : Prop where
  record : n.record = m.record
  started : m.ordinal ≠ 0
  started' : n.ordinal ≠ 0
  steppers : n.steppers = m.steppers
  size : n.columns.size = m.columns.size
  column : ∀ (i : Nat) (c d : Column), m.columns[i]? = some c → n.columns[i]? = some d →
    m.SameColumn n c d
  tracked : m.Tracked
  tracked' : n.Tracked
  hashes : m.hashes = #[]
  hashes' : n.hashes = #[]
  topKs : m.topKs = #[]
  topKs' : n.topKs = #[]
  written : ∃ rows, m.written = rows ++ before ∧ n.written = rows ++ before'

theorem SameColumn.symm {n : Machine} {d : Column} (same : m.SameColumn n c d) :
    n.SameColumn m d c where
  name := same.name.symm
  path := same.path.symm
  advanced := same.advanced.symm
  list := by
    intro advanced isElement
    rw [same.path] at isElement
    obtain ⟨elements, index⟩ := same.list (same.advanced.mp advanced) isElement
    exact ⟨elements.symm, index.symm⟩

theorem SameColumn.element {n : Machine} {d : Column} (same : m.SameColumn n c d)
    (advanced : m.Advanced c) (isElement : c.path.IsElement) : d.element = c.element := by
  obtain ⟨elements, index⟩ := same.list advanced isElement
  unfold Column.element
  rw [elements, index]

theorem SameColumn.isStepper {n : Machine} {d : Column} (same : m.SameColumn n c d) :
    d.isStepper = c.isStepper := by
  unfold Column.isStepper Column.fieldPath Column.arrayPath?
  rw [same.path]

namespace Akin

variable {n : Machine} {d : Column}

theorem symm (akin : m.Akin before before' n) : n.Akin before' before m where
  record := akin.record.symm
  started := akin.started'
  started' := akin.started
  steppers := akin.steppers.symm
  size := akin.size.symm
  column := fun i c d here there => (akin.column i d c there here).symm
  tracked := akin.tracked'
  tracked' := akin.tracked
  hashes := akin.hashes'
  hashes' := akin.hashes
  topKs := akin.topKs'
  topKs' := akin.topKs
  written := akin.written.imp fun _ => And.symm

theorem exists_column (akin : m.Akin before before' n) (here : m.columns[i]? = some c) :
    ∃ d, n.columns[i]? = some d ∧ m.SameColumn n c d := by
  have below := Array.inside here
  rw [← akin.size] at below
  have there := Array.getElem?_eq_getElem below
  exact ⟨_, there, akin.column i c _ here there⟩

theorem exists_stepper (akin : m.Akin before before' n) (found : m.steppers.lookup p.text = some i)
    (here : m.columns[i]? = some c) :
    c.path.IsElement ∧ ∃ d, n.steppers.lookup p.text = some i ∧ n.columns[i]? = some d ∧
      m.SameColumn n c d := by
  obtain ⟨c', here', isElement, _⟩ := akin.tracked.stepper _ _ found
  cases here.symm.trans here'
  obtain ⟨d, there, same⟩ := akin.exists_column here
  exact ⟨isElement, d, akin.steppers ▸ found, there, same⟩

end Akin

theorem placeAt_stepper (found : m.steppers.lookup p.text = some i)
    (here : m.columns[i]? = some c) :
    m.placeAt (some p) = some { record := m.ordinal, move := c.move } := by
  unfold placeAt
  simp [found, here]

theorem guide_congr {d : Column} (path : d.path = c.path) : d.guide = c.guide := by
  unfold Column.guide Column.isStepper Column.fieldPath Column.arrayPath?
  rw [path]

namespace Akin

variable {n : Machine} {d : Column}

theorem exists_placeAt (akin : m.Akin before before' n) (isHere : m.placeAt path = some place) :
    ∃ place', n.placeAt path = some place' := by
  cases path with
  | none => exact ⟨_, rfl⟩
  | some p =>
    obtain ⟨i, c, found, here, _⟩ := exists_of_placeAt isHere
    obtain ⟨_, d, found', there, _⟩ := akin.exists_stepper found here
    exact ⟨_, placeAt_stepper found' there⟩

end Akin

end Machine

/-! ## Reading columns -/

section reading

open Machine (Akin SameColumn)

variable {n : Machine} {d : Column}

theorem follows_columnAt (akin : m.Akin before before' n) (i : Nat) :
    Follows (columnAt i) (columnAt i) m n fun c d m' n' => (m' = m ∧ n' = n) ∧
      m.columns[i]? = some c ∧ n.columns[i]? = some d ∧ m.SameColumn n c d := by
  refine .of_halts (halts_columnAt i m) ?_
  rintro c _ ⟨rfl, here⟩
  obtain ⟨d, there, same⟩ := akin.exists_column here
  exact ⟨d, n, columnAt_apply there, ⟨rfl, rfl⟩, here, there, same⟩

theorem follows_stepperOf (akin : m.Akin before before' n) (p : Path) :
    Follows (stepperOf p) (stepperOf p) m n fun c d m' n' => (m' = m ∧ n' = n) ∧
      c.path.IsElement ∧ m.SameColumn n c d := by
  refine .of_halts (halts_stepperOf p m) ?_
  rintro c _ ⟨rfl, i, found, here⟩
  obtain ⟨isElement, d, found', there, same⟩ := akin.exists_stepper found here
  exact ⟨d, n, stepperOf_apply found' there, ⟨rfl, rfl⟩, isElement, same⟩

theorem follows_checkAdvanced (same : m.SameColumn n c d) :
    Follows (checkAdvanced c) (checkAdvanced d) m n fun _ _ m' n' => (m' = m ∧ n' = n) ∧
      m.Advanced c := by
  refine .of_halts (halts_checkAdvanced c m) ?_
  rintro _ _ ⟨rfl, advanced⟩
  exact ⟨(), n, checkAdvanced_apply (same.advanced.mpr advanced), ⟨rfl, rfl⟩, advanced⟩

theorem follows_currentElement (same : m.SameColumn n c d) (isElement : c.path.IsElement) :
    Follows (currentElement c) (currentElement d) m n fun v w m' n' => w = v ∧ m' = m ∧ n' = n := by
  refine .bind (.mono (follows_checkAdvanced same) ?_)
  rintro _ _ _ _ ⟨⟨rfl, rfl⟩, advanced⟩
  exact .pure ⟨same.element advanced isElement, rfl, rfl⟩

theorem twins_baseOf (akin : m.Akin before before' n) (path : Option Path) :
    Twins (baseOf path) m n fun _ m' n' => m' = m ∧ n' = n := by
  cases path with
  | none => exact .get (.pure ⟨akin.record, rfl, rfl⟩)
  | some p =>
    refine Follows.bind (Follows.mono (follows_stepperOf akin p) ?_)
    rintro c d _ _ ⟨⟨rfl, rfl⟩, isElement, same⟩
    exact follows_currentElement same isElement

theorem twins_listAt (akin : m.Akin before before' n) (p : Path) :
    Twins (listAt p) m n fun _ m' n' => m' = m ∧ n' = n := by
  refine .bind (.mono (twins_baseOf akin _) ?_)
  rintro base _ _ ⟨rfl, rfl⟩
  exact .pure ⟨rfl, rfl⟩

theorem follows_columnValue (akin : m.Akin before before' n) (same : m.SameColumn n c d) :
    Follows (columnValue c) (columnValue d) m n fun v w m' n' => w = v ∧ m' = m ∧ n' = n := by
  unfold columnValue
  rw [same.isStepper]
  split
  · next isStepper => exact follows_currentElement same ((Column.isStepper_iff c).mp isStepper)
  · refine .bind (.mono (follows_checkAdvanced same) ?_)
    rintro _ _ _ _ ⟨⟨rfl, rfl⟩, _⟩
    unfold Column.fieldPath Column.arrayPath?
    rw [same.path]
    refine Twins.bind (.mono (twins_baseOf akin _) ?_)
    rintro base _ _ ⟨rfl, rfl⟩
    exact .pure ⟨rfl, rfl⟩

theorem follows_columnAtEnd (same : m.SameColumn n c d) :
    Follows (columnAtEnd c) (columnAtEnd d) m n fun v w m' n' => w = v ∧ m' = m ∧ n' = n := by
  unfold columnAtEnd
  rw [same.isStepper]
  split
  · next isStepper =>
    refine .bind (.mono (follows_checkAdvanced same) ?_)
    rintro _ _ _ _ ⟨⟨rfl, rfl⟩, advanced⟩
    obtain ⟨elements, index⟩ := same.list advanced ((Column.isStepper_iff c).mp isStepper)
    refine .pure ⟨?_, rfl, rfl⟩
    unfold Column.atEnd
    rw [elements, index]
  · exact .fail

theorem follows_columnValues (akin : m.Akin before before' n) (same : m.SameColumn n c d) :
    Follows (columnValues c) (columnValues d) m n fun v w m' n' => w = v ∧ m' = m ∧ n' = n := by
  unfold columnValues Column.fieldPath Column.arrayPath?
  rw [same.path]
  split
  · exact .fail
  · refine Twins.bind (.mono (twins_listAt akin _) ?_)
    rintro elements _ _ ⟨rfl, rfl⟩
    exact .pure ⟨rfl, rfl⟩

end reading

/-! ## Moving columns -/

namespace Machine

/-- The machine with another column. -/
def withColumn (m : Machine) (i : Nat) (c : Column) : Machine :=
  { m with columns := m.columns.setIfInBounds i c }

variable {n : Machine} {j : Nat} {c' d d' e : Column}

theorem getElem?_withColumn (here : m.columns[i]? = some c) :
    (m.withColumn i c').columns[j]? = if j = i then some c' else m.columns[j]? := by
  have below := Array.inside here
  unfold withColumn
  rw [Array.getElem?_setIfInBounds]
  split
  · next same => rw [if_pos same.symm]
  · next apart => rw [if_neg (Ne.symm apart)]

theorem placeAt_withColumn (here : m.columns[i]? = some c) (move : c'.move = c.move)
    (path : Option Path) : (m.withColumn i c').placeAt path = m.placeAt path := by
  cases path with
  | none => rfl
  | some p =>
    change (m.steppers.lookup p.text).bind _ = (m.steppers.lookup p.text).bind _
    congr 1
    funext k
    change ((m.withColumn i c').columns[k]?).bind _ = (m.columns[k]?).bind _
    rw [getElem?_withColumn here]
    split
    · next same =>
      subst same
      rw [here, Option.bind_some, Option.bind_some, move]
      rfl
    · rfl

theorem advanced_withColumn (here : m.columns[i]? = some c) (move : c'.move = c.move) :
    (m.withColumn i c').Advanced e ↔ m.Advanced e := by
  unfold Advanced
  rw [placeAt_withColumn here move]

theorem Tracked.placeAt_le_clock (tracked : m.Tracked) (isHere : m.placeAt path = some place) :
    place.move ≤ m.clock := by
  cases path with
  | none =>
    cases isHere
    exact Nat.zero_le _
  | some p =>
    obtain ⟨i, c, _, here, rfl⟩ := exists_of_placeAt isHere
    exact tracked.move i c here

theorem Tracked.withColumn (tracked : m.Tracked) (here : m.columns[i]? = some c)
    (path : c'.path = c.path) (move : c'.move ≤ m.clock)
    (place : ∀ place, c'.place = some place → place.move ≤ m.clock) : (m.withColumn i c').Tracked where
  move := by
    intro j e there
    rw [getElem?_withColumn here] at there
    split at there
    · exact Option.some.inj there ▸ move
    · exact tracked.move j e there
  place := by
    intro j e at' there isPlace
    rw [getElem?_withColumn here] at there
    split at there
    · exact place at' (Option.some.inj there ▸ isPlace)
    · exact tracked.place j e at' there isPlace
  stepper := by
    intro text j found
    obtain ⟨e, there, isElement, isText⟩ := tracked.stepper text j found
    rw [getElem?_withColumn here]
    split
    · next same =>
      subst same
      cases here.symm.trans there
      exact ⟨c', rfl, path ▸ isElement, path ▸ isText⟩
    · exact ⟨e, there, isElement, isText⟩

/-- A column of both machines was advanced to the same list. -/
theorem Akin.withColumn (akin : m.Akin before before' n) (here : m.columns[i]? = some c)
    (there : n.columns[i]? = some d) (name : c'.name = c.name) (name' : d'.name = d.name)
    (path : c'.path = c.path) (path' : d'.path = d.path) (move : c'.move = c.move)
    (move' : d'.move = d.move) (advanced : m.Advanced c') (advanced' : n.Advanced d')
    (list : c.path.IsElement → d'.elements = c'.elements ∧ d'.index = c'.index) :
    (m.withColumn i c').Akin before before' (n.withColumn i d') := by
  have placed : ∀ {m : Machine} {c : Column}, m.Tracked → m.Advanced c →
      ∀ place, c.place = some place → place.move ≤ m.clock := by
    rintro m c tracked ⟨place, isHere, isPlace⟩ place' isPlace'
    cases isPlace.symm.trans isPlace'
    exact tracked.placeAt_le_clock isHere
  have same := akin.column i c d here there
  refine
    { akin with
      size := ?_
      column := ?_
      tracked := akin.tracked.withColumn here path (move ▸ akin.tracked.move i c here)
        (placed akin.tracked advanced)
      tracked' := akin.tracked'.withColumn there path' (move' ▸ akin.tracked'.move i d there)
        (placed akin.tracked' advanced') }
  · unfold Machine.withColumn
    simp only [Array.size_setIfInBounds]
    exact akin.size
  · intro j e f atJ atJ'
    rw [getElem?_withColumn here] at atJ
    rw [getElem?_withColumn there] at atJ'
    split at atJ
    · next isHere =>
      rw [if_pos isHere] at atJ'
      cases atJ
      cases atJ'
      refine ⟨name'.trans (same.name.trans name.symm), path'.trans (same.path.trans path.symm), ?_, ?_⟩
      · rw [advanced_withColumn here move, advanced_withColumn there move']
        exact iff_of_true advanced' advanced
      · exact fun _ isElement => list (path ▸ isElement)
    · next isElsewhere =>
      rw [if_neg isElsewhere] at atJ'
      have others := akin.column j e f atJ atJ'
      refine ⟨others.name, others.path, ?_, ?_⟩
      · rw [advanced_withColumn here move, advanced_withColumn there move']
        exact others.advanced
      · rw [advanced_withColumn here move]
        exact others.list

/-- The machine when a column is about to be advanced. -/
def restamped (m : Machine) (i : Nat) (c : Column) : Machine :=
  { m with clock := m.clock + 1 }.withColumn i { c with move := m.clock + 1 }

theorem advanced_restamped (here : m.columns[i]? = some c) (path : e.path = d.path)
    (place : e.place = d.place) (bound : ∀ place, d.place = some place → place.move ≤ m.clock) :
    (m.restamped i c).Advanced e ↔
      (∀ p, d.guide = some p → m.steppers.lookup p.text ≠ some i) ∧ m.Advanced d := by
  have guide := guide_congr path
  unfold Advanced
  rw [guide, place]
  by_cases apart : ∀ p, d.guide = some p → m.steppers.lookup p.text ≠ some i
  · have same : (m.restamped i c).placeAt d.guide = m.placeAt d.guide := placeAt_moveColumn here apart
    rw [same]
    exact (and_iff_right apart).symm
  · refine iff_of_false ?_ fun both => apart both.1
    rintro ⟨wanted, isHere, isPlace⟩
    refine apart fun p isGuide found => ?_
    rw [isGuide] at isHere
    have moved : (m.restamped i c).columns[i]? = some { c with move := m.clock + 1 } :=
      (getElem?_moveColumn here).trans (if_pos rfl)
    rw [placeAt_stepper (m := m.restamped i c) found moved] at isHere
    cases isHere
    exact Nat.not_succ_le_self _ (bound _ isPlace)

theorem Akin.restamped (akin : m.Akin before before' n) (here : m.columns[i]? = some c)
    (there : n.columns[i]? = some d) :
    (m.restamped i c).Akin before before' (n.restamped i d) := by
  have tracked : ∀ {m : Machine} {c : Column}, m.Tracked → m.columns[i]? = some c →
      (m.restamped i c).Tracked := by
    intro m c tracked here
    have later : ({ m with clock := m.clock + 1 } : Machine).Tracked :=
      ⟨fun j e there => Nat.le_succ_of_le (tracked.move j e there),
        fun j e place there isPlace => Nat.le_succ_of_le (tracked.place j e place there isPlace),
        tracked.stepper⟩
    exact later.withColumn here rfl le_rfl
      fun place isPlace => Nat.le_succ_of_le (tracked.place i c place here isPlace)
  have others : ∀ {j : Nat} {e f : Column} (x y : Nat), m.columns[j]? = some e →
      n.columns[j]? = some f →
      (m.restamped i c).SameColumn (n.restamped i d) { e with move := x } { f with move := y } := by
    intro j e f x y atJ atJ'
    have same := akin.column j e f atJ atJ'
    have onM := advanced_restamped (d := e) (e := { e with move := x }) here rfl rfl
      fun place => akin.tracked.place j e place atJ
    have onN := advanced_restamped (d := f) (e := { f with move := y }) there rfl rfl
      fun place => akin.tracked'.place j f place atJ'
    refine ⟨same.name, same.path, ?_, fun advanced => same.list (onM.mp advanced).2⟩
    rw [onN, onM, guide_congr same.path, akin.steppers]
    exact and_congr_right fun _ => same.advanced
  refine
    { akin with
      size := ?_
      column := ?_
      tracked := tracked akin.tracked here
      tracked' := tracked akin.tracked' there }
  · unfold Machine.restamped Machine.withColumn
    simp only [Array.size_setIfInBounds]
    exact akin.size
  · intro j e f atJ atJ'
    change (m.moveColumn i _).columns[j]? = some e at atJ
    change (n.moveColumn i _).columns[j]? = some f at atJ'
    rw [getElem?_moveColumn here] at atJ
    rw [getElem?_moveColumn there] at atJ'
    split at atJ
    · next isHere =>
      rw [if_pos isHere] at atJ'
      cases atJ
      cases atJ'
      exact others _ _ here there
    · next isElsewhere =>
      rw [if_neg isElsewhere] at atJ'
      exact others e.move f.move atJ atJ'

end Machine

/-! ## Evaluating expressions -/

/-- Names are as they were, and two machines stand akin. -/
structure Standing (before before' : List (List Value)) (m n m' n' : Machine) : Prop where
  env : m'.env = m.env
  env' : n'.env = n.env
  akin : m'.Akin before before' n'

section members

variable {n : Machine}

theorem Standing.refl (akin : m.Akin before before' n) : Standing before before' m n m n :=
  ⟨rfl, rfl, akin⟩

theorem Standing.trans {n' m'' n'' : Machine} (first : Standing before before' m n m' n')
    (second : Standing before before' m' n' m'' n'') : Standing before before' m n m'' n'' :=
  ⟨second.env.trans first.env, second.env'.trans first.env', second.akin⟩

/-- A step that leaves both machines standing akin, for each value it can have. -/
def Stands {α : Type} (before before' : List (List Value)) (step : Run α) (m n : Machine) : Prop :=
  Twins step m n fun _ m' n' => Standing before before' m n m' n'

theorem Stands.bind {β : Type} {next : α → Run β} (first : Stands before before' step m n)
    (second : ∀ a m' n', Standing before before' m n m' n' → Stands before before' (next a) m' n') :
    Stands before before' (step >>= next) m n :=
  Twins.bind (.mono first fun a m' n' standing =>
    Twins.mono (second a m' n' standing) fun _ _ _ standing' => standing.trans standing')

theorem Stands.pure {a : α} (akin : m.Akin before before' n) :
    Stands before before' (Pure.pure a : Run α) m n := Twins.pure (.refl akin)

/-- A step that only asks. -/
theorem Stands.of_same (akin : m.Akin before before' n)
    (twins : Twins step m n fun _ m' n' => m' = m ∧ n' = n) : Stands before before' step m n := by
  refine .mono twins ?_
  rintro _ _ _ ⟨rfl, rfl⟩
  exact .refl akin

theorem stands_advance (akin : m.Akin before before' n) (i : Nat) :
    Stands before before' (advance i) m n := by
  refine Follows.bind (Follows.modifying (Follows.bind (.of_halts (halts_columnAt i _) ?_)))
  rintro c _ ⟨rfl, here⟩
  obtain ⟨d, there, same⟩ := akin.exists_column here
  refine ⟨d, _, columnAt_apply there, ?_⟩
  refine .get (.bind (.modifying (.advancing ?_)))
  have stamped := akin.restamped here there
  have atI : (m.restamped i c).columns[i]? = some { c with move := m.clock + 1 } :=
    (Machine.getElem?_moveColumn here).trans (if_pos rfl)
  have atI' : (n.restamped i d).columns[i]? = some { d with move := n.clock + 1 } :=
    (Machine.getElem?_moveColumn there).trans (if_pos rfl)
  have same' := stamped.column i _ _ atI atI'
  refine .bind (.of_halts (halts_placeOf _ _) ?_)
  rintro place _ ⟨rfl, isHere⟩
  replace isHere : (m.restamped i c).placeAt c.guide = some place := isHere
  obtain ⟨place', isHere'⟩ := stamped.exists_placeAt isHere
  rw [← Machine.guide_congr same.path] at isHere'
  refine ⟨place', _, placeOf_apply isHere', ?_⟩
  have sets : ∀ (elements elements' : List Value) (index index' : Nat),
      (c.path.IsElement → elements' = elements ∧ index' = index) →
      Follows (setColumn i { c with move := m.clock + 1, place := some place, elements, index })
        (setColumn i { d with
          move := n.clock + 1, place := some place', elements := elements', index := index' })
        (m.restamped i c) (n.restamped i d) fun a b m' n' => b = a ∧ Standing before before' m n m' n' :=
    fun elements elements' index index' list => .modifying ⟨rfl, rfl, rfl,
      stamped.withColumn atI atI' rfl rfl rfl rfl rfl rfl ⟨place, isHere, rfl⟩
        ⟨place', isHere', rfl⟩ list⟩
  have reached : d.place = some place' ↔ c.place = some place := by
    constructor
    · intro isPlace
      obtain ⟨found, atFound, isFound⟩ := same'.advanced.mp ⟨place', isHere', isPlace⟩
      exact isFound.trans (atFound.symm.trans isHere)
    · intro isPlace
      obtain ⟨found, atFound, isFound⟩ := same'.advanced.mpr ⟨place, isHere, isPlace⟩
      exact isFound.trans (atFound.symm.trans isHere')
  have stepper : ({ d with move := n.clock + 1 } : Column).isStepper =
    ({ c with move := m.clock + 1 } : Column).isStepper := same'.isStepper
  rw [stepper]
  split
  · next isField =>
    refine sets c.elements d.elements c.index d.index fun isElement => ?_
    have isStepper := (Column.isStepper_iff { c with move := m.clock + 1 }).mpr isElement
    rw [isStepper] at isField
    cases isField
  · next isStepper =>
    rw [Bool.not_eq_true, Bool.not_eq_false'] at isStepper
    split
    · next isPlace =>
      rw [if_pos (reached.mpr isPlace)]
      obtain ⟨elements, index⟩ := same'.list ⟨place, isHere, isPlace⟩
        ((Column.isStepper_iff { c with move := m.clock + 1 }).mp isStepper)
      have goesOn := sets c.elements d.elements (c.index + 1) (d.index + 1)
        fun _ => ⟨elements, congrArg (· + 1) index⟩
      rw [← isPlace, ← reached.mpr isPlace] at goesOn
      exact goesOn
    · next isElsewhere =>
      rw [if_neg fun isPlace => isElsewhere (reached.mp isPlace)]
      have lists : Follows (listAt c.path) (listAt d.path) (m.restamped i c) (n.restamped i d)
          fun a b m' n' => b = a ∧ m' = m.restamped i c ∧ n' = n.restamped i d := by
        rw [same.path]
        exact twins_listAt stamped c.path
      refine .bind (.mono lists ?_)
      rintro _ elements _ _ ⟨rfl, rfl, rfl⟩
      exact sets elements elements 0 0 fun _ => ⟨rfl, rfl⟩

theorem stands_columnMember (akin : m.Akin before before' n) (i : Nat) (member : String) :
    Stands before before' (columnMember i member) m n := by
  have reads : ∀ {read : Column → Run Value}, (∀ c d, m.SameColumn n c d →
      Follows (read c) (read d) m n fun v w m' n' => w = v ∧ m' = m ∧ n' = n) →
      Stands before before' (do read (← columnAt i)) m n := by
    intro read each
    refine Stands.of_same akin (Follows.bind (Follows.mono (follows_columnAt akin i) ?_))
    rintro c d _ _ ⟨⟨rfl, rfl⟩, _, _, same⟩
    exact each c d same
  unfold columnMember
  split
  · exact .bind (stands_advance akin i) fun _ _ _ standing => .pure standing.akin
  · split
    · exact reads fun _ _ same => follows_columnValue akin same
    · split
      · exact reads fun _ _ same => follows_columnAtEnd same
      · split
        · exact reads fun _ _ same => follows_columnValues akin same
        · exact .fail

theorem stands_cursorMember (akin : m.Akin before before' n) (quiet : member ≠ Member.hasNext)
    (isLocal : member ≠ Member.describe) : Stands before before' (cursorMember member) m n := by
  refine .get ?_
  rw [if_neg quiet, if_neg isLocal, if_neg quiet, if_neg isLocal]
  split
  · rw [if_neg akin.started, if_neg akin.started']
    exact .pure ⟨akin.record, .refl akin⟩
  · exact .fail

/-- The machine stands where it stood; names and output apart. -/
structure Machine.StandsStill (m m' : Machine) : Prop where
  record : m'.record = m.record
  ordinal : m'.ordinal = m.ordinal
  clock : m'.clock = m.clock
  steppers : m'.steppers = m.steppers
  columns : m'.columns = m.columns
  hashes : m'.hashes = m.hashes
  topKs : m'.topKs = m.topKs

theorem Machine.StandsStill.advanced (still : m.StandsStill m') (c : Column) :
    m'.Advanced c ↔ m.Advanced c := by
  have places : ∀ path, m'.placeAt path = m.placeAt path := by
    intro path
    unfold Machine.placeAt
    rw [still.ordinal, still.steppers, still.columns]
  unfold Machine.Advanced
  rw [places]

theorem Machine.StandsStill.tracked (still : m.StandsStill m') (tracked : m.Tracked) :
    m'.Tracked where
  move := by
    rw [still.columns, still.clock]
    exact tracked.move
  place := by
    rw [still.columns, still.clock]
    exact tracked.place
  stepper := by
    rw [still.columns, still.steppers]
    exact tracked.stepper

theorem Machine.Akin.still {n' : Machine} (akin : m.Akin before before' n)
    (still : m.StandsStill m') (still' : n.StandsStill n')
    (written : ∃ rows, m'.written = rows ++ before ∧ n'.written = rows ++ before') :
    m'.Akin before before' n' where
  record := still'.record.trans (akin.record.trans still.record.symm)
  started := still.ordinal ▸ akin.started
  started' := still'.ordinal ▸ akin.started'
  steppers := still'.steppers.trans (akin.steppers.trans still.steppers.symm)
  size := by
    rw [still'.columns, still.columns]
    exact akin.size
  column := by
    rw [still'.columns, still.columns]
    intro i c d here there
    have same := akin.column i c d here there
    refine ⟨same.name, same.path, ?_, ?_⟩
    · rw [still.advanced, still'.advanced]
      exact same.advanced
    · rw [still.advanced]
      exact same.list
  tracked := still.tracked akin.tracked
  tracked' := still'.tracked akin.tracked'
  hashes := still.hashes.trans akin.hashes
  hashes' := still'.hashes.trans akin.hashes'
  topKs := still.topKs.trans akin.topKs
  topKs' := still'.topKs.trans akin.topKs'
  written := written

theorem stands_sinkMember (akin : m.Akin before before' n) (member : String) (args : List Value) :
    Stands before before' (sinkMember member args) m n := by
  have changes : ∀ change : Machine → Machine, (change m).env = m.env → (change n).env = n.env →
      (change m).Akin before before' (change n) →
      Stands before before' (do modify change; pure (f := Run) Value.null) m n :=
    fun change env env' akin' => Follows.bind (Follows.modifying (Follows.pure ⟨rfl, env, env', akin'⟩))
  unfold sinkMember
  split
  · obtain ⟨rows, onM, onN⟩ := akin.written
    refine changes (fun m => { m with written := args :: m.written }) rfl rfl
      (akin.still ⟨rfl, rfl, rfl, rfl, rfl, rfl, rfl⟩ ⟨rfl, rfl, rfl, rfl, rfl, rfl, rfl⟩
        ⟨args :: rows, ?_, ?_⟩)
    · rw [onM]
      rfl
    · rw [onN]
      rfl
  · split
    · exact changes (fun m => { m with flushed := true }) rfl rfl
        (akin.still ⟨rfl, rfl, rfl, rfl, rfl, rfl, rfl⟩ ⟨rfl, rfl, rfl, rfl, rfl, rfl, rfl⟩
          akin.written)
    · exact .fail

theorem halts_absentAggregator {type : String} {add : Value → Value → Run Unit}
    {rows : Run (List (List Value))} (adds : ∀ k v, Halts (add k v) m fun _ _ => False)
    (lists : Halts rows m fun _ _ => False) (member : String) (args : List Value) :
    Halts (aggregatorMember type add rows member args) m fun _ _ => False := by
  unfold aggregatorMember
  split
  · exact .bind (.ofAnswer fun _ _ => .bind ((adds _ _).mono fun _ _ => False.elim))
  · split
    · refine .bind (.ofAnswer fun _ _ => ?_)
      split
      · exact .bind (lists.mono fun _ _ => False.elim)
      · exact .fail
    · exact .fail

theorem halts_hashAt_absent (isEmpty : m.hashes = #[]) (i : Nat) :
    Halts (hashAt i) m fun _ _ => False := by
  refine .bind (.get ?_)
  rw [isEmpty]
  exact .throw

theorem halts_topKAt_absent (isEmpty : m.topKs = #[]) (i : Nat) :
    Halts (topKAt i) m fun _ _ => False := by
  refine .bind (.get ?_)
  rw [isEmpty]
  exact .throw

theorem stands_callMember (akin : m.Akin before before' n) (object : Value) (args : List Value)
    (quiet : member ≠ Member.hasNext) (isLocal : member ≠ Member.describe) :
    Stands before before' (callMember object member args) m n := by
  unfold callMember
  split
  · exact stands_cursorMember akin quiet isLocal
  · exact stands_sinkMember akin member args
  · exact stands_columnMember akin _ member
  · have absent := halts_hashAt_absent akin.hashes
    refine .of_halts (halts_absentAggregator (fun k v => ?_) ?_ member args) fun _ _ => False.elim
    · exact .bind ((absent _).mono fun _ _ => False.elim)
    · exact .bind ((absent _).mono fun _ _ => False.elim)
  · have absent := halts_topKAt_absent akin.topKs
    refine .of_halts (halts_absentAggregator (fun k v => ?_) ?_ member args) fun _ _ => False.elim
    · exact .bind ((absent _).mono fun _ _ => False.elim)
    · exact .bind ((absent _).mono fun _ _ => False.elim)
  · exact .fail

theorem stands_callBuiltin (akin : m.Akin before before' n) {name : String} (args : List Value)
    (noHash : name ≠ Builtin.newHashAggregator) (noTopK : name ≠ Builtin.newTopKAggregator) :
    Stands before before' (callBuiltin name args) m n := by
  have answers : ∀ (expected : Nat) (v : Value),
      Stands before before' (do ofAnswer (expectArgs name args expected); pure v) m n :=
    fun expected v => Follows.bind (Follows.ofAnswer fun _ _ => Stands.pure akin)
  unfold callBuiltin
  split
  · exact answers 1 _
  · split
    · exact answers 1 _
    · split
      · exact answers 1 _
      · split
        · exact .pure akin
        · exact .ofAnswer fun _ _ => ⟨rfl, .refl akin⟩

end members

mutual

theorem stands_eval : ∀ (e : Node) (m n : Machine),
    m.Akin before before' n → e.isQuiet = true → e.isLocal = true →
    (∀ name ∈ e.names, n.env.lookup name = m.env.lookup name) → Stands before before' (eval e) m n
  | .lit l, m, n, akin, _, _, _ => by
    exact .pure akin
  | .ident name, m, n, akin, _, _, names => by
    refine .get ?_
    rw [names name (by rw [Node.names]; exact List.mem_singleton.mpr rfl)]
    split
    · exact .pure ⟨rfl, .refl akin⟩
    · exact .fail
  | .not operand, m, n, akin, quiet, isLocal, names => by
    exact .bind (stands_eval operand m n akin quiet isLocal names)
      fun _ _ _ standing => .pure standing.akin
  | .binary op left right, m, n, akin, quiet, isLocal, names => by
    rw [Node.isQuiet, Bool.and_eq_true] at quiet
    rw [Node.isLocal, Bool.and_eq_true] at isLocal
    refine .bind (stands_eval left m n akin quiet.1 isLocal.1
      fun name member => names name (List.mem_append_left _ member)) fun _ m' n' standing => ?_
    refine .bind (stands_eval right m' n' standing.akin quiet.2 isLocal.2 ?_)
      fun _ _ _ standing => .pure standing.akin
    intro name member
    rw [standing.env, standing.env']
    exact names name (List.mem_append_right _ member)
  | .call fn args, m, n, akin, quiet, isLocal, names => by
    rw [Node.isLocal, Bool.and_eq_true, Bool.and_eq_true] at isLocal
    exact .bind (stands_evalAll args m n akin quiet isLocal.2 names) fun vs _ _ standing =>
      stands_callBuiltin standing.akin vs (by simpa using isLocal.1.1) (by simpa using isLocal.1.2)
  | .member object name args, m, n, akin, quiet, isLocal, names => by
    rw [Node.isQuiet, Bool.and_eq_true, Bool.and_eq_true] at quiet
    rw [Node.isLocal, Bool.and_eq_true, Bool.and_eq_true] at isLocal
    refine .bind (stands_eval object m n akin quiet.1.2 isLocal.1.2
      fun name member => names name (List.mem_append_left _ member)) fun target m' n' standing => ?_
    refine .bind (stands_evalAll args m' n' standing.akin quiet.2 isLocal.2 ?_)
      fun vs _ _ standing => stands_callMember standing.akin target vs (by simpa using quiet.1.1)
        (by simpa using isLocal.1.1)
    intro name member
    rw [standing.env, standing.env']
    exact names name (List.mem_append_right _ member)
  | .element array index, m, n, akin, quiet, isLocal, names => by
    rw [Node.isQuiet, Bool.and_eq_true] at quiet
    rw [Node.isLocal, Bool.and_eq_true] at isLocal
    refine .bind (stands_eval array m n akin quiet.1 isLocal.1
      fun name member => names name (List.mem_append_left _ member)) fun _ m' n' standing => ?_
    refine .bind (stands_eval index m' n' standing.akin quiet.2 isLocal.2 ?_)
      fun _ _ _ standing => .pure standing.akin
    intro name member
    rw [standing.env, standing.env']
    exact names name (List.mem_append_right _ member)
  | .absent, _, _, _, quiet, _, _ | .assign _ _ _, _, _, _, quiet, _, _
  | .branch _ _ _, _, _, _, quiet, _, _ | .loop _ _, _, _, _, quiet, _, _
  | .leave, _, _, _, quiet, _, _ | .finish _, _, _, _, quiet, _, _ => by
    cases quiet

theorem stands_evalAll : ∀ (args : List Node) (m n : Machine),
    m.Akin before before' n → Node.areQuiet args = true → Node.areLocal args = true →
    (∀ name ∈ Node.namesOf args, n.env.lookup name = m.env.lookup name) →
    Stands before before' (evalAll args) m n
  | [], m, n, akin, _, _, _ => by
    exact .pure akin
  | arg :: rest, m, n, akin, quiet, isLocal, names => by
    rw [Node.areQuiet, Bool.and_eq_true] at quiet
    rw [Node.areLocal, Bool.and_eq_true] at isLocal
    refine .bind (stands_eval arg m n akin quiet.1 isLocal.1
      fun name member => names name (List.mem_append_left _ member)) fun _ m' n' standing => ?_
    refine .bind (stands_evalAll rest m' n' standing.akin quiet.2 isLocal.2 ?_)
      fun _ _ _ standing => .pure standing.akin
    intro name member
    rw [standing.env, standing.env']
    exact names name (List.mem_append_right _ member)

end

end QueryFusion.Engine

import QueryFusion.Proofs.Code.Arena
import QueryFusion.Proofs.Engine.Ends
import QueryFusion.Proofs.Path

/-!
# Where a run stands and what moves in it

A run stands at a record. This spot alone decides what a path of fields denotes. A column answers
with the value that its path denotes if it was advanced since the record was taken; the column of a
path through a list also depends on where the stepper of the list stands.
-/

namespace QueryFusion.Engine

open Code

variable {c : Column} {m' m : Machine}

/-- A record. -/
structure Spot where
  record : Value
  /-- The ordinal of the record, counted from one. -/
  ordinal : Nat

namespace Spot

/-- The value at a path of fields. -/
def valueAt (spot : Spot) (p : Path) : Value := spot.record.navigate p

/-- Where a column of fields is after it was advanced at the record. -/
def place (spot : Spot) : Place := { record := spot.ordinal }

end Spot

/-! ## Columns of a machine -/

namespace Column

theorem isStepper_iff (c : Column) : c.isStepper = true ↔ c.path.IsElement := by
  rw [← Path.fieldPart_eq_nil_iff]
  unfold isStepper arrayPath?
  rw [Bool.and_eq_true, List.isEmpty_iff]
  rfl

/-- The list whose stepper decides where a column has to be. -/
def guide (c : Column) : Option Path := if c.isStepper then enclosing? c.arrayPath? else c.arrayPath?

theorem guide_of_isElement (isElement : c.path.IsElement) : c.guide = enclosing? (some c.path) := by
  unfold guide
  rw [if_pos ((isStepper_iff c).mpr isElement)]
  unfold arrayPath?
  rw [isElement]

/-- A column of fields steps through no list. -/
theorem isStepper_of_flat (isFlat : c.path.arrayPrefix? = none) : c.isStepper = false := by
  unfold isStepper arrayPath?
  rw [isFlat]
  rfl

theorem guide_of_flat (isFlat : c.path.arrayPrefix? = none) : c.guide = none := by
  unfold guide
  rw [isStepper_of_flat isFlat]
  exact isFlat

end Column

namespace Machine

/-- The current place inside a list, or at the record. -/
def placeAt (m : Machine) : Option Path → Option Place
  | none => some { record := m.ordinal }
  | some element => do
    let c ← m.columns[← m.steppers.lookup element.text]?
    some { record := m.ordinal, move := c.move }

/-- A column was advanced at the current place. -/
def Advanced (m : Machine) (c : Column) : Prop :=
  ∃ place, m.placeAt c.guide = some place ∧ c.place = some place

/-- The names of the parameters are bound and there is a column for every path. -/
structure Wired (paths : List Path) (m : Machine) : Prop where
  cursor : m.env.lookup Function.cursor = some (.handle .cursor)
  sink : m.env.lookup Function.sink = some (.handle .sink)
  reader : ∀ j, j < paths.length → m.env.lookup (Function.readerName j) = some (.handle (.column j))
  column : ∀ j p, paths[j]? = some p →
    ∃ c, m.columns[j]? = some c ∧ c.name = Function.readerName j ∧ c.path = p
  size : m.columns.size = paths.length

/-- A machine stands at a spot. -/
structure Stands (paths : List Path) (spot : Spot) (m : Machine) : Prop where
  wired : m.Wired paths
  record : m.record = spot.record
  ordinal : m.ordinal = spot.ordinal

end Machine

section answers

variable {paths : List Path} {spot : Spot} {j : Nat}

theorem columnAt_apply (here : m.columns[j]? = some c) : columnAt j m = some (.ok (c, m)) := by
  rw [columnAt, get_bind_apply, here]
  rfl

theorem stepperOf_apply {element : Path} (found : m.steppers.lookup element.text = some j)
    (here : m.columns[j]? = some c) : stepperOf element m = some (.ok (c, m)) := by
  rw [stepperOf, get_bind_apply, found]
  exact columnAt_apply here

theorem placeOf_apply : ∀ {path : Option Path} {place : Place}, m.placeAt path = some place →
    placeOf path m = some (.ok (place, m))
  | none, place, found => by
    cases found
    rfl
  | some element, place, found => by
    obtain ⟨j, isStepper, found⟩ := Option.bind_eq_some_iff.mp found
    obtain ⟨c, here, found⟩ := Option.bind_eq_some_iff.mp found
    cases found
    change (stepperOf element >>= fun stepper => do
      pure { record := (← get).ordinal, move := stepper.move } : Run Place) m = _
    rw [bind_apply, stepperOf_apply isStepper here]
    rfl

theorem checkAdvanced_apply (advanced : m.Advanced c) : checkAdvanced c m = some (.ok ((), m)) := by
  obtain ⟨place, isHere, same⟩ := advanced
  unfold checkAdvanced
  rw [bind_apply]
  have wanted : wantedPlace c m = some (.ok (place, m)) := placeOf_apply isHere
  rw [wanted]
  simp only [if_pos same]
  rfl

theorem Machine.Stands.columnValue_apply (stands : m.Stands paths spot)
    (isFlat : c.path.arrayPrefix? = none) (isHere : c.place = some spot.place) :
    columnValue c m = some (.ok (spot.valueAt c.path, m)) := by
  have advanced : m.Advanced c := by
    refine ⟨spot.place, ?_, isHere⟩
    rw [Column.guide_of_flat isFlat, Spot.place, ← stands.ordinal]
    rfl
  unfold columnValue
  rw [if_neg (by rw [Column.isStepper_of_flat isFlat]; exact Bool.false_ne_true), bind_apply,
    checkAdvanced_apply advanced]
  unfold Column.fieldPath Column.arrayPath?
  rw [isFlat]
  change some (Except.ok (m.record.navigate c.path, m)) = _
  rw [stands.record]
  rfl

end answers

/-!
## What moves in a run

Advancing a column changes that column and the clock. A column of fields takes the place of the
record. A machine still stands at its spot after columns were moved and variables were written.
-/

variable {v : Value}

namespace Machine

/-- Replaces a column and ticks the clock. -/
def moveColumn (m : Machine) (j : Nat) (c : Column) : Machine :=
  { m with clock := m.clock + 1, columns := m.columns.setIfInBounds j c }

variable {paths : List Path} {spot : Spot} {j k : Nat} {d : Column}

theorem getElem?_moveColumn (here : m.columns[j]? = some c) :
    (m.moveColumn j d).columns[k]? = if k = j then some d else m.columns[k]? := by
  have bound := Array.inside here
  change (m.columns.setIfInBounds j d)[k]? = _
  by_cases same : j = k
  · subst same
    simp [bound]
  · simp [same, Ne.symm same]

theorem placeAt_moveColumn (here : m.columns[j]? = some c) {path : Option Path}
    (apart : ∀ element, path = some element → m.steppers.lookup element.text ≠ some j) :
    (m.moveColumn j d).placeAt path = m.placeAt path := by
  cases path with
  | none => rfl
  | some element =>
    change (m.steppers.lookup element.text).bind _ = (m.steppers.lookup element.text).bind _
    cases isStepper : m.steppers.lookup element.text with
    | none => rfl
    | some k =>
      have other : k ≠ j := fun same => apart element rfl (same ▸ isStepper)
      simp only [Option.bind_some]
      rw [getElem?_moveColumn here, if_neg other]
      rfl

/-! ## What stays -/

/-- A value is an aggregator of a machine. -/
def Groups (m : Machine) (v : Value) : Prop :=
  (∃ i, v = .handle (.hashAggregator i) ∧ i < m.hashes.size) ∨
    ∃ i, v = .handle (.topKAggregator i) ∧ i < m.topKs.size

theorem Groups.mono (groups : m.Groups v) (hashes : m.hashes.size ≤ m'.hashes.size)
    (topKs : m.topKs.size ≤ m'.topKs.size) : m'.Groups v := by
  rcases groups with ⟨i, isHandle, below⟩ | ⟨i, isHandle, below⟩
  · exact .inl ⟨i, isHandle, below.trans_le hashes⟩
  · exact .inr ⟨i, isHandle, below.trans_le topKs⟩

/-- Only the variables of some numbers got other values, and the records are read no further. -/
structure Frame (written : Nat → Prop) (m m' : Machine) : Prop where
  names : ∀ name, (∀ n, written n → name ≠ Code.variableName n) →
    m'.env.lookup name = m.env.lookup name
  defined : ∀ name, (m.env.lookup name).isSome → (m'.env.lookup name).isSome
  records : m'.records = m.records
  position : m'.position = m.position

namespace Frame

variable {written written' more : Nat → Prop} {m'' : Machine}

theorem refl (written : Nat → Prop) (m : Machine) : m.Frame written m where
  names := fun _ _ => rfl
  defined := fun _ => id
  records := rfl
  position := rfl

theorem trans (first : m.Frame written m') (second : m'.Frame written m'') :
    m.Frame written m'' where
  names := fun name apart => (second.names name apart).trans (first.names name apart)
  defined := fun name known => second.defined name (first.defined name known)
  records := second.records.trans first.records
  position := second.position.trans first.position

theorem mono (frame : m.Frame written m') (weaker : ∀ n, written n → more n) : m.Frame more m' :=
  { frame with names := fun name apart =>
    frame.names name fun n isWritten => apart n (weaker n isWritten) }

theorem lookup_kept (frame : m.Frame written m') {n : Nat} (kept : ¬ written n) :
    m'.env.lookup (variableName n) = m.env.lookup (variableName n) :=
  frame.names _ fun _ isWritten same => kept (variableName_injective same ▸ isWritten)

end Frame

/-- Nothing but columns and variables changed. -/
structure Still (m m' : Machine) : Prop where
  outside : m' = { m with clock := m'.clock, env := m'.env, columns := m'.columns }
  size : m'.columns.size = m.columns.size
  column : ∀ (j : Nat) (c : Column), m.columns[j]? = some c →
    ∃ d, m'.columns[j]? = some d ∧ d.name = c.name ∧ d.path = c.path

namespace Still

variable {m'' : Machine}

theorem refl (m : Machine) : m.Still m where
  outside := rfl
  size := rfl
  column := fun _ c here => ⟨c, here, rfl, rfl⟩

theorem trans (first : m.Still m') (second : m'.Still m'') : m.Still m'' where
  outside := by
    rw [second.outside, first.outside]
  size := second.size.trans first.size
  column := by
    intro j c here
    obtain ⟨d, here', name, path⟩ := first.column j c here
    obtain ⟨e, here'', name', path'⟩ := second.column j d here'
    exact ⟨e, here'', name'.trans name, path'.trans path⟩

theorem ordinal (still : m.Still m') : m'.ordinal = m.ordinal := by rw [still.outside]

theorem written (still : m.Still m') : m'.written = m.written := by rw [still.outside]

theorem groups (still : m.Still m') (groups : m.Groups v) : m'.Groups v := by
  refine groups.mono ?_ ?_ <;> rw [still.outside]

end Still

theorem Wired.still {written : Nat → Prop} (wired : m.Wired paths) (still : m.Still m')
    (frame : m.Frame written m') : m'.Wired paths where
  cursor := (frame.names _ fun n _ => (variableName_ne_cursor n).symm).trans wired.cursor
  sink := (frame.names _ fun n _ => (variableName_ne_sink n).symm).trans wired.sink
  reader := fun j bound =>
    (frame.names _ fun n _ => (variableName_ne_readerName n j).symm).trans (wired.reader j bound)
  column := by
    intro j p isPath
    obtain ⟨c, here, name, path⟩ := wired.column j p isPath
    obtain ⟨d, here', name', path'⟩ := still.column j c here
    exact ⟨d, here', name'.trans name, path'.trans path⟩
  size := still.size.trans wired.size

theorem Stands.still {written : Nat → Prop} (stands : m.Stands paths spot) (still : m.Still m')
    (frame : m.Frame written m') : m'.Stands paths spot where
  wired := stands.wired.still still frame
  record := by
    rw [still.outside]
    exact stands.record
  ordinal := still.ordinal.trans stands.ordinal

end Machine

/-! ## Stores -/

theorem lookup_assign (name other : String) (v : Value) (env : List (String × Value)) :
    (assign name v env).lookup other = if other = name then some v else env.lookup other := by
  induction env with
  | nil =>
    by_cases same : other = name <;> simp [assign, same]
  | cons entry rest ih =>
    obtain ⟨key, w⟩ := entry
    unfold assign
    by_cases isKey : key = name
    · subst isKey
      by_cases same : other = key
      · simp [same]
      · simp [List.lookup_cons, beq_false_of_ne same, same]
    · by_cases isOther : other = key
      · subst isOther
        simp [isKey]
      · simp [List.lookup_cons, beq_false_of_ne isOther, isKey, ih]

/-- A machine after a store. -/
def Machine.put (m : Machine) (name : String) (v : Value) : Machine :=
  { m with env := assign name v m.env }

theorem Machine.lookup_put (m : Machine) (name other : String) (v : Value) :
    (m.put name v).env.lookup other = if other = name then some v else m.env.lookup other :=
  lookup_assign name other v m.env

theorem Machine.still_put (m : Machine) (name : String) (v : Value) : m.Still (m.put name v) where
  outside := rfl
  size := rfl
  column := fun _ c here => ⟨c, here, rfl, rfl⟩

theorem Machine.frame_put (m : Machine) (n : Nat) (v : Value) :
    m.Frame (· = n) (m.put (variableName n) v) where
  names := by
    intro name apart
    rw [lookup_put, if_neg (apart n rfl)]
  defined := by
    intro name known
    rw [lookup_put]
    split
    · rfl
    · exact known
  records := rfl
  position := rfl

variable {name : String}

theorem store_apply {declares : Bool} (v : Value)
    (allowed : declares = true ∨ (m.env.lookup name).isSome) :
    store name declares v m = some (.ok ((), m.put name v)) := by
  change (if declares || (m.env.lookup name).isSome then
    (set { m with env := assign name v m.env } : Run Unit) else fail (.undeclared name)) m = _
  rw [if_pos (by simpa using allowed)]
  rfl

section advance

variable {paths : List Path} {spot : Spot} {j : Nat}

theorem advancing_apply {α : Type} {step : Run α} {a : α} (done : step m = some (.ok (a, m'))) :
    advancing name step m = some (.ok (a, m')) := by
  change (ExceptT.tryCatch (step m) _ : ExceptT Stop Option (α × Machine)) = _
  rw [done]
  rfl

/-- What advancing does before it looks at the place. -/
theorem advance_apply (here : m.columns[j]? = some c) (done : (do
      let c := { c with move := m.clock + 1 }
      let wanted ← wantedPlace c
      if !c.isStepper then setColumn j { c with place := some wanted }
      else if c.place = some wanted then setColumn j { c with index := c.index + 1 }
      else
        let elements ← listAt c.path
        setColumn j { c with place := some wanted, elements, index := 0 } : Run Unit)
      (m.moveColumn j { c with move := m.clock + 1 }) = some (.ok ((), m'))) :
    advance j m = some (.ok ((), m')) := by
  unfold advance
  rw [bind_apply]
  change ((columnAt j >>= _ : Run Unit) { m with clock := m.clock + 1 }) = _
  rw [bind_apply, columnAt_apply (m := { m with clock := m.clock + 1 }) here]
  exact advancing_apply done

theorem setColumn_moveColumn (m : Machine) (j : Nat) (c d : Column) :
    setColumn j d (m.moveColumn j c) = some (.ok ((), m.moveColumn j d)) := by
  change some (Except.ok ((), { m.moveColumn j c with
    columns := (m.columns.setIfInBounds j c).setIfInBounds j d })) = _
  rw [Array.setIfInBounds_setIfInBounds]
  rfl

/-- Advancing a column of fields brings it to the record. -/
theorem advance_flat (stands : m.Stands paths spot) (here : m.columns[j]? = some c)
    (isFlat : c.path.arrayPrefix? = none) :
    advance j m = some (.ok ((), m.moveColumn j
      { c with move := m.clock + 1, place := some spot.place })) := by
  have isPlain : Column.isStepper { c with move := m.clock + 1 } = false :=
    Column.isStepper_of_flat (c := { c with move := m.clock + 1 }) isFlat
  have wanted : wantedPlace { c with move := m.clock + 1 }
    (m.moveColumn j { c with move := m.clock + 1 })
      = some (.ok (spot.place, m.moveColumn j { c with move := m.clock + 1 })) := by
    refine placeOf_apply ?_
    change Machine.placeAt _ (Column.guide { c with move := m.clock + 1 }) = _
    rw [Column.guide_of_flat (c := { c with move := m.clock + 1 }) isFlat, Spot.place, ← stands.ordinal]
    rfl
  refine advance_apply here ?_
  rw [bind_apply, wanted]
  simp only [isPlain, Bool.not_false, if_true]
  exact setColumn_moveColumn ..

theorem Machine.still_moveColumn {d : Column} (here : m.columns[j]? = some c) (name : d.name = c.name)
    (path : d.path = c.path) : m.Still (m.moveColumn j d) where
  outside := rfl
  size := Array.size_setIfInBounds ..
  column := by
    intro k e there
    rw [Machine.getElem?_moveColumn here]
    split
    · next same =>
      subst same
      cases here.symm.trans there
      exact ⟨d, rfl, name, path⟩
    · exact ⟨e, there, rfl, rfl⟩

theorem Machine.frame_moveColumn (written : Nat → Prop) (m : Machine) (j : Nat) (d : Column) :
    m.Frame written (m.moveColumn j d) := ⟨fun _ _ => rfl, fun _ => id, rfl, rfl⟩

end advance

/-! ## Members -/

section members

variable {paths : List Path} {j : Nat} {p : Path}

theorem lookupName_apply (found : m.env.lookup name = some v) :
    lookupName name m = some (.ok (v, m)) := by
  rw [lookupName, get_bind_apply, found]
  rfl

theorem eval_ident (found : m.env.lookup name = some v) :
    eval (.ident name) m = some (.ok (v, m)) := by
  exact lookupName_apply found

theorem eval_member {object : Node} (found : eval object m = some (.ok (v, m)))
    (name : String) : eval (.member object name []) m = callMember v name [] m := by
  rw [eval, bind_apply, found]
  rfl

theorem Machine.Wired.eval_reader (wired : m.Wired paths) (isPath : paths[j]? = some p)
    (name : String) :
    eval (.member (.ident (Function.readerName j)) name []) m = columnMember j name m :=
  eval_member (eval_ident (wired.reader j (List.getElem?_eq_some_iff.mp isPath).1)) name

theorem Machine.Wired.eval_next (wired : m.Wired paths) (isPath : paths[j]? = some p)
    (advanced : advance j m = some (.ok ((), m'))) :
    eval (.member (.ident (Function.readerName j)) Member.next []) m = some (.ok (.null, m')) := by
  rw [wired.eval_reader isPath]
  change (advance j >>= fun _ => (pure .null : Run Value)) m = _
  rw [bind_apply, advanced]
  rfl

theorem Machine.Wired.eval_getValue (wired : m.Wired paths) (isPath : paths[j]? = some p)
    (here : m.columns[j]? = some c) :
    eval (.member (.ident (Function.readerName j)) Member.getValue []) m = columnValue c m := by
  rw [wired.eval_reader isPath]
  change (columnAt j >>= columnValue) m = _
  rw [bind_apply, columnAt_apply here]

end members

end QueryFusion.Engine

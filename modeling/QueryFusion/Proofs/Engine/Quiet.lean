import QueryFusion.Proofs.Engine.Ahead

/-!
# Quiet expressions

Evaluating a quiet expression has an outcome, leaves names as they are and stays at the record. All
it can move are columns, so that no stepper gets more elements ahead of it.
-/

namespace QueryFusion.Engine

open Code

variable {m : Machine} {place : Place} {member : String}

/-- No column was advanced at a record that is yet to come. -/
def Machine.Past (m : Machine) : Prop :=
  ∀ (i : Nat) (c : Column) (place : Place), m.columns[i]? = some c → c.place = some place →
    place.record ≤ m.ordinal

/-- The machine is still at the same record, with nothing more ahead of any stepper. -/
structure Machine.Steps (m m' : Machine) : Prop where
  records : m'.records = m.records
  position : m'.position = m.position
  ordinal : m'.ordinal = m.ordinal
  record : m'.record = m.record
  steppers : m'.steppers = m.steppers
  column : ∀ (i : Nat) (c : Column), m.columns[i]? = some c →
    ∃ c', m'.columns[i]? = some c' ∧ c'.path = c.path
  size : m'.columns.size = m.columns.size
  name : ∀ (i : Nat) (c c' : Column), m.columns[i]? = some c → m'.columns[i]? = some c' →
    c'.name = c.name
  past : m.Past → m'.Past
  tracked : m.Tracked → m'.Tracked
  ahead : m.Tracked → ∀ chain, m.Chain chain → (m'.ahead chain).Sublist (m.ahead chain)

theorem Machine.exists_of_placeAt {p : Path} (isHere : m.placeAt (some p) = some place) :
    ∃ i c, m.steppers.lookup p.text = some i ∧
      m.columns[i]? = some c ∧ place = { record := m.ordinal, move := c.move } := by
  obtain ⟨i, found, isHere⟩ := Option.bind_eq_some_iff.mp isHere
  obtain ⟨c, here, isPlace⟩ := Option.bind_eq_some_iff.mp isHere
  exact ⟨i, c, found, here, (Option.some.inj isPlace).symm⟩

theorem Machine.record_of_placeAt {path : Option Path} (isHere : m.placeAt path = some place) :
    place.record = m.ordinal := by
  cases path with
  | none => rw [← Option.some.inj isHere]
  | some p =>
    obtain ⟨_, _, _, _, isPlace⟩ := exists_of_placeAt isHere
    rw [isPlace]

namespace Machine.Steps

variable {m' m'' : Machine} {i : Nat} {c d : Column}

theorem refl (m : Machine) : m.Steps m where
  records := rfl
  position := rfl
  ordinal := rfl
  record := rfl
  steppers := rfl
  column := fun _ c here => ⟨c, here, rfl⟩
  size := rfl
  name := fun _ c c' here here' => by rw [Option.some.inj (here.symm.trans here')]
  past := id
  tracked := id
  ahead := fun _ _ _ => List.Sublist.refl _

theorem chain (steps : m.Steps m') {chain : List Nat} (links : m.Chain chain) : m'.Chain chain :=
  links.congr steps.steppers steps.column

theorem trans (first : m.Steps m') (second : m'.Steps m'') : m.Steps m'' where
  records := second.records.trans first.records
  position := second.position.trans first.position
  ordinal := second.ordinal.trans first.ordinal
  record := second.record.trans first.record
  steppers := second.steppers.trans first.steppers
  column := by
    intro i c here
    obtain ⟨c', here', path⟩ := first.column i c here
    obtain ⟨c'', here'', path'⟩ := second.column i c' here'
    exact ⟨c'', here'', path'.trans path⟩
  size := second.size.trans first.size
  name := by
    intro i c c'' here here''
    obtain ⟨c', here', _⟩ := first.column i c here
    exact (second.name i c' c'' here' here'').trans (first.name i c c' here here')
  past := fun past => second.past (first.past past)
  tracked := fun tracked => second.tracked (first.tracked tracked)
  ahead := fun tracked chain links =>
    (second.ahead (first.tracked tracked) chain (first.chain links)).trans
      (first.ahead tracked chain links)

/-- A change of names, aggregators and output only. -/
theorem of_same (records : m'.records = m.records) (position : m'.position = m.position)
    (ordinal : m'.ordinal = m.ordinal) (record : m'.record = m.record)
    (steppers : m'.steppers = m.steppers) (columns : m'.columns = m.columns)
    (clock : m'.clock = m.clock) : m.Steps m' where
  records := records
  position := position
  ordinal := ordinal
  record := record
  steppers := steppers
  column := fun _ c here => ⟨c, columns ▸ here, rfl⟩
  size := by rw [columns]
  name := fun _ c c' here here' => by
    rw [columns] at here'
    rw [Option.some.inj (here.symm.trans here')]
  past := fun past i c place here isPlace => by
    rw [ordinal]
    exact past i c place (columns ▸ here) isPlace
  tracked := fun tracked =>
    { move := by
        rw [columns, clock]
        exact tracked.move
      place := by
        rw [columns, clock]
        exact tracked.place
      stepper := by
        rw [columns, steppers]
        exact tracked.stepper }
  ahead := by
    intro _ chain _
    simpa only [ahead_congr columns ordinal record] using List.Sublist.refl _

theorem moveColumn (here : m.columns[i]? = some c) (moved : m.Moved i c d) :
    m.Steps (m.moveColumn i d) where
  records := rfl
  position := rfl
  ordinal := rfl
  record := rfl
  steppers := rfl
  column := by
    intro j e there
    rw [getElem?_moveColumn here]
    split
    · next same =>
      subst same
      cases here.symm.trans there
      exact ⟨d, rfl, moved.path⟩
    · exact ⟨e, there, rfl⟩
  size := Array.size_setIfInBounds
  name := by
    intro j e e' there there'
    rw [getElem?_moveColumn here] at there'
    split at there'
    · next same =>
      subst same
      cases here.symm.trans there
      rw [← Option.some.inj there', moved.name]
    · rw [Option.some.inj (there.symm.trans there')]
  past := by
    intro past j e place there isPlace
    rw [getElem?_moveColumn here] at there
    split at there
    · cases there
      obtain ⟨place', isHere, isPlace', _⟩ := moved.place
      cases isPlace.symm.trans isPlace'
      have atRecord := record_of_placeAt isHere
      exact Nat.le_of_eq atRecord
    · exact past j e place there isPlace
  tracked := fun tracked => tracked.moveColumn here moved
  ahead := fun tracked _ links => moved.ahead_sublist tracked here links

end Machine.Steps

/-- Names are as they were, and the machine is still at the same record. -/
structure Machine.Calm (m m' : Machine) : Prop where
  env : m'.env = m.env
  steps : m.Steps m'

theorem Machine.Calm.refl (m : Machine) : m.Calm m := ⟨rfl, .refl m⟩

theorem Machine.Calm.trans {m' m'' : Machine} (first : m.Calm m') (second : m'.Calm m'') :
    m.Calm m'' :=
  ⟨second.env.trans first.env, first.steps.trans second.steps⟩

section members

/-- A step that only asks. -/
theorem Halts.calm_of_same {α : Type} {step : Run α} {holds : α → Machine → Prop}
    (halts : Halts step m fun a m' => m' = m ∧ holds a m') :
    Halts step m fun _ m' => m.Calm m' := by
  refine halts.mono ?_
  rintro _ _ ⟨rfl, _⟩
  exact .refl _

theorem Halts.calm_bind {α β : Type} {step : Run α} {next : α → Run β}
    (first : Halts step m fun _ m' => m.Calm m')
    (second : ∀ a m', Halts (next a) m' fun _ m'' => m'.Calm m'') :
    Halts (step >>= next) m fun _ m' => m.Calm m' :=
  .bind (first.mono fun a m' calm => (second a m').mono fun _ _ calm' => calm.trans calm')

theorem halts_columnValue (c : Column) (m : Machine) :
    Halts (columnValue c) m fun _ m' => m.Calm m' := by
  unfold columnValue
  split
  · exact (halts_currentElement c m).calm_of_same
  · refine .bind ((halts_checkAdvanced c m).mono ?_)
    rintro _ _ ⟨rfl, _⟩
    refine .bind ((halts_baseOf _ _).mono ?_)
    rintro base _ ⟨rfl, _⟩
    exact .pure (.refl _)

/-- A stepper that is not at its end says so without moving. -/
theorem halts_columnAtEnd (c : Column) (m : Machine) :
    Halts (columnAtEnd c) m fun v m' => m' = m ∧ v = .bool c.atEnd ∧ c.path.IsElement := by
  unfold columnAtEnd
  split
  · next isStepper =>
    refine .bind ((halts_checkAdvanced c m).mono ?_)
    rintro _ _ ⟨rfl, _⟩
    exact .pure ⟨rfl, rfl, (Column.isStepper_iff c).mp isStepper⟩
  · exact .fail

theorem halts_columnValues (c : Column) (m : Machine) :
    Halts (columnValues c) m fun _ m' => m.Calm m' := by
  unfold columnValues
  split
  · exact .fail
  · refine .bind ((halts_listAt _ m).mono ?_)
    rintro elements _ ⟨rfl, _⟩
    exact .pure (.refl _)

theorem halts_columnMember (i : Nat) (member : String) (m : Machine) :
    Halts (columnMember i member) m fun _ m' => m.Calm m' := by
  unfold columnMember
  split
  · refine .bind ((halts_advance i m).mono ?_)
    rintro _ _ ⟨c, d, here, moved, rfl⟩
    exact .pure ⟨rfl, .moveColumn here moved⟩
  · split
    · exact .calm_bind (halts_columnAt i m).calm_of_same halts_columnValue
    · split
      · exact .calm_bind (halts_columnAt i m).calm_of_same
          fun c m' => (halts_columnAtEnd c m').calm_of_same
      · split
        · exact .calm_bind (halts_columnAt i m).calm_of_same halts_columnValues
        · exact .fail

theorem halts_cursorMember (quiet : member ≠ Member.hasNext) (m : Machine) :
    Halts (cursorMember member) m fun _ m' => m.Calm m' := by
  refine .bind (.get ?_)
  rw [if_neg quiet]
  split
  · split
    · exact .fail
    · exact .pure (.refl m)
  · split
    · split
      · exact .fail
      · exact .pure (.refl m)
    · exact .fail

theorem halts_sinkMember (member : String) (args : List Value) (m : Machine) :
    Halts (sinkMember member args) m fun _ m' => m.Calm m' := by
  unfold sinkMember
  split
  · exact .bind (.modifying (.pure ⟨rfl, .of_same rfl rfl rfl rfl rfl rfl rfl⟩))
  · split
    · exact .bind (.modifying (.pure ⟨rfl, .of_same rfl rfl rfl rfl rfl rfl rfl⟩))
    · exact .fail

theorem halts_expectArgs (name : String) (args : List Value) (expected : Nat) (m : Machine) :
    Halts (ofAnswer (expectArgs name args expected)) m fun _ m' => m.Calm m' :=
  .ofAnswer fun _ _ => .refl m

theorem halts_aggregatorMember {type : String} {add : Value → Value → Run Unit}
    {rows : Run (List (List Value))} (adds : ∀ k v m, Halts (add k v) m fun _ m' => m.Calm m')
    (lists : ∀ m, Halts rows m fun _ m' => m.Calm m') (member : String) (args : List Value)
    (m : Machine) :
    Halts (aggregatorMember type add rows member args) m fun _ m' => m.Calm m' := by
  unfold aggregatorMember
  split
  · refine .calm_bind (halts_expectArgs _ _ _ m) fun _ m => ?_
    exact .calm_bind (adds _ _ m) fun _ m => .pure (.refl m)
  · split
    · refine .calm_bind (halts_expectArgs _ _ _ m) fun _ m => ?_
      split
      · refine .calm_bind (lists m) fun found m => ?_
        exact .bind (.modifying (.pure ⟨rfl, .of_same rfl rfl rfl rfl rfl rfl rfl⟩))
      · exact .fail
    · exact .fail

theorem halts_hashAt (i : Nat) (m : Machine) : Halts (hashAt i) m fun _ m' => m.Calm m' := by
  refine .bind (.get ?_)
  split
  · exact .pure (.refl m)
  · exact .throw

theorem halts_topKAt (i : Nat) (m : Machine) : Halts (topKAt i) m fun _ m' => m.Calm m' := by
  refine .bind (.get ?_)
  split
  · exact .pure (.refl m)
  · exact .throw

theorem halts_callMember (object : Value) (args : List Value) (quiet : member ≠ Member.hasNext)
    (m : Machine) : Halts (callMember object member args) m fun _ m' => m.Calm m' := by
  unfold callMember
  split
  · exact halts_cursorMember quiet m
  · exact halts_sinkMember member args m
  · exact halts_columnMember _ member m
  · refine halts_aggregatorMember (fun k v m => ?_) (fun m => ?_) member args m
    · refine .calm_bind (halts_hashAt _ m) fun agg m => ?_
      refine .bind (.ofAnswer fun agg _ => ?_)
      exact .modifying ⟨rfl, .of_same rfl rfl rfl rfl rfl rfl rfl⟩
    · exact .calm_bind (halts_hashAt _ m) fun _ m => .pure (.refl m)
  · refine halts_aggregatorMember (fun k v m => ?_) (fun m => ?_) member args m
    · refine .calm_bind (halts_topKAt _ m) fun agg m => ?_
      exact .modifying ⟨rfl, .of_same rfl rfl rfl rfl rfl rfl rfl⟩
    · exact .calm_bind (halts_topKAt _ m) fun _ m => .pure (.refl m)
  · exact .fail

theorem halts_newHashAggregator (kind budget : Value) (m : Machine) :
    Halts (newHashAggregator kind budget) m fun _ m' => m.Calm m' := by
  unfold newHashAggregator
  dsimp only
  split
  · exact .fail
  · exact .bind (.get (.bind (.modifying (.pure ⟨rfl, .of_same rfl rfl rfl rfl rfl rfl rfl⟩))))

theorem halts_newTopKAggregator (limit least : Value) (m : Machine) :
    Halts (newTopKAggregator limit least) m fun _ m' => m.Calm m' := by
  exact .bind (.get (.bind (.modifying (.pure ⟨rfl, .of_same rfl rfl rfl rfl rfl rfl rfl⟩))))

theorem halts_callBuiltin (name : String) (args : List Value) (m : Machine) :
    Halts (callBuiltin name args) m fun _ m' => m.Calm m' := by
  have answers : ∀ (expected : Nat) (v : Value) (m : Machine),
      Halts (do ofAnswer (expectArgs name args expected); pure v : Run Value) m
        fun _ m' => m.Calm m' := fun expected v m =>
    .calm_bind (halts_expectArgs _ _ _ m) fun _ m => .pure (.refl m)
  unfold callBuiltin
  split
  · exact answers 1 _ m
  · split
    · exact answers 1 _ m
    · split
      · exact answers 1 _ m
      · split
        · exact .pure (.refl m)
        · split
          · exact .calm_bind (halts_expectArgs _ _ _ m) fun _ m => halts_newHashAggregator _ _ m
          · split
            · exact .calm_bind (halts_expectArgs _ _ _ m) fun _ m => halts_newTopKAggregator _ _ m
            · exact .ofAnswer fun _ _ => .refl m

end members

mutual

theorem halts_eval : ∀ (n : Node) (m : Machine), n.isQuiet = true →
    Halts (eval n) m fun _ m' => m.Calm m'
  | .lit l, m, _ => by
    exact .pure (.refl m)
  | .ident name, m, _ => by
    refine .bind (.get ?_)
    split
    · exact .pure (.refl m)
    · exact .fail
  | .not operand, m, quiet => by
    exact .calm_bind (halts_eval operand m quiet) fun _ m => .pure (.refl m)
  | .binary op left right, m, quiet => by
    rw [Node.isQuiet, Bool.and_eq_true] at quiet
    refine .calm_bind (halts_eval left m quiet.1) fun _ m => ?_
    exact .calm_bind (halts_eval right m quiet.2) fun _ m => .pure (.refl m)
  | .call fn args, m, quiet => by
    exact .calm_bind (halts_evalAll args m quiet) fun vs m => halts_callBuiltin fn vs m
  | .member object name args, m, quiet => by
    rw [Node.isQuiet, Bool.and_eq_true, Bool.and_eq_true] at quiet
    refine .calm_bind (halts_eval object m quiet.1.2) fun target m => ?_
    refine .calm_bind (halts_evalAll args m quiet.2) fun vs m => ?_
    exact halts_callMember target vs (by simpa using quiet.1.1) m
  | .element array index, m, quiet => by
    rw [Node.isQuiet, Bool.and_eq_true] at quiet
    refine .calm_bind (halts_eval array m quiet.1) fun _ m => ?_
    exact .calm_bind (halts_eval index m quiet.2) fun _ m => .pure (.refl m)
  | .absent, _, quiet | .assign _ _ _, _, quiet | .branch _ _ _, _, quiet | .loop _ _, _, quiet
  | .leave, _, quiet | .finish _, _, quiet => by
    cases quiet

theorem halts_evalAll : ∀ (args : List Node) (m : Machine), Node.areQuiet args = true →
    Halts (evalAll args) m fun _ m' => m.Calm m'
  | [], m, _ => by
    exact .pure (.refl m)
  | arg :: rest, m, quiet => by
    rw [Node.areQuiet, Bool.and_eq_true] at quiet
    refine .calm_bind (halts_eval arg m quiet.1) fun _ m => ?_
    exact .calm_bind (halts_evalAll rest m quiet.2) fun _ m => .pure (.refl m)

end

/-- A quiet expression as a statement. -/
theorem exec_of_isQuiet {fn : Function} {n : Node} (quiet : n.isQuiet = true) :
    exec fn n = (do
      let _ ← eval n
      pure .proceed) := by
  cases n with
  | absent | assign | branch | loop | leave | finish =>
    cases quiet
  | lit | ident | not | binary | call | member | element => rw [exec] <;> simp

end QueryFusion.Engine

import QueryFusion.Code.Function
import QueryFusion.Engine.Aggregator
import QueryFusion.Engine.Scalar

/-!
# The running engine

A run holds the records, the current one, the values of names, the columns of the readers, the
aggregators and the rows written. Expressions are evaluated left to right, all operands before the
operation; an error ends the run.
-/

namespace QueryFusion.Engine

/-!
## Columns

A column delivers the values at one path, relative to where the run stands: at a record, and inside
lists at the element another column has been advanced to. A column whose path ends in an element
step is the stepper of its list: advancing it steps through the elements. Other columns take the
place of the stepper of the list they lie in, and must be advanced again whenever that stepper
moves.
-/

/-- A place in the run: a record and, inside a list, the move of the stepper that led there. -/
structure Place where
  /-- The ordinal of the record, counted from one. -/
  record : Nat := 0
  /-- The move of the enclosing stepper; zero outside of lists. -/
  move : Nat := 0
deriving DecidableEq, Repr

/-- The state of one reader. -/
structure Column where
  name : String
  path : Path
  /-- The elements of the list a stepper steps through. -/
  elements : List Value := []
  /-- The position of a stepper in its list. -/
  index : Nat := 0
  /-- The number of the column's last move. -/
  move : Nat := 0
  /-- The place the column was last advanced at, if it was: for a stepper the place its list was
  loaded at, else the place of the element it reads from. -/
  place : Option Place := none

namespace Column

/-- The list element the path leads through last. -/
def arrayPath? (c : Column) : Option Path := c.path.arrayPrefix?

/-- The field steps after the last list element. -/
def fieldPath (c : Column) : Path := c.path.drop (c.arrayPath?.getD []).length

/-- Whether the column steps through a list itself. -/
def isStepper (c : Column) : Bool := c.arrayPath?.isSome && c.fieldPath.isEmpty

/-- The element under a stepper; missing past the end of its list. -/
def element (c : Column) : Value := c.elements.getD c.index .missing

/-- Whether a stepper has passed the last element. -/
def atEnd (c : Column) : Bool := decide (c.elements.length ≤ c.index)

end Column

/-- The list element that encloses the list with the given element path. -/
def enclosing? : Option Path → Option Path
  | none => none
  | some path => Path.arrayPrefix? path.dropLast

/-! ## Machines -/

open Code (Node Function)

/-- The state of a run. -/
structure Machine where
  records : Array Value
  /-- How many records the cursor has delivered. -/
  position : Nat := 0
  /-- The ordinal of the current record, counted from one; zero before the first. -/
  ordinal : Nat := 0
  /-- The current record; null before the first and after the last. -/
  record : Value := .null
  clock : Nat := 0
  env : List (String × Value) := []
  columns : Array Column := #[]
  /-- The column that steps through each list, by the text of the list's element path; the last
  entry for a text counts. -/
  steppers : List (String × Nat) := []
  hashes : Array HashAggregator := #[]
  topKs : Array TopKAggregator := #[]
  /-- The rows written, the last one first. -/
  written : List (List Value) := []
  flushed : Bool := false

/-- A step of a run. It has no outcome at all if it does not end. -/
abbrev Run := StateT Machine (ExceptT Stop Option)

def fail {α : Type} (cause : RunError) : Run α := throw (.error cause)

/-- Takes over the answer of a computation that may fail. -/
def ofAnswer {α : Type} : Except RunError α → Run α
  | .ok a => pure a
  | .error cause => fail cause

/-- Takes over the answer of a lookup. -/
def ofLookup {α : Type} : Except Fault α → Run α
  | .ok a => pure a
  | .error fault => throw (.fault fault)

def assign (name : String) (v : Value) : List (String × Value) → List (String × Value)
  | [] => [(name, v)]
  | (other, w) :: rest =>
    if other == name then (name, v) :: rest else (other, w) :: assign name v rest

namespace Machine

def rows (m : Machine) : List (List Value) := m.written.reverse

def start (fn : Function) (records : List Value) : Machine :=
  let columns := fn.schemas.zipIdx.map fun (path, i) =>
    ({ name := Function.readerName i, path } : Column)
  let steppers := columns.zipIdx.filterMap fun (c, i) =>
    if c.isStepper then some (c.path.text, i) else none
  { records := records.toArray
    env := [(Function.cursor, .handle .cursor), (Function.sink, .handle .sink)] ++
      columns.zipIdx.map fun (c, i) => (c.name, .handle (.column i))
    columns := columns.toArray
    steppers := steppers.reverse }

end Machine

def writeRow (row : List Value) : Run Unit :=
  modify fun m => { m with written := row :: m.written }

def columnAt (i : Nat) : Run Column := do
  match (← get).columns[i]? with
  | some c => pure c
  | none => throw (.fault .outOfRange)

def setColumn (i : Nat) (c : Column) : Run Unit :=
  modify fun m => { m with columns := m.columns.setIfInBounds i c }

/-- The column that steps through a list. -/
def stepperOf (path : Path) : Run Column := do
  match (← get).steppers.lookup path.text with
  | some i => columnAt i
  | none => fail (.noReader path.text)

/-- The current place inside a list, or at the record. -/
def placeOf : Option Path → Run Place
  | none => do pure { record := (← get).ordinal }
  | some path => do
    let stepper ← stepperOf path
    pure { record := (← get).ordinal, move := stepper.move }

/-- The place a column has to be at to be read. -/
def wantedPlace (c : Column) : Run Place :=
  placeOf (if c.isStepper then enclosing? c.arrayPath? else c.arrayPath?)

/-- Refuses to read a column that was not advanced at the current place. -/
def checkAdvanced (c : Column) : Run Unit := do
  let wanted ← wantedPlace c
  if c.place = some wanted then pure () else fail (.notAdvanced c.name)

def currentElement (c : Column) : Run Value := do
  checkAdvanced c
  pure c.element

/-- What a path's fields are looked up in: the current element of its list, or the record. -/
def baseOf : Option Path → Run Value
  | none => do pure (← get).record
  | some path => do currentElement (← stepperOf path)

/-- The list that an element path runs through, inside the current enclosing element. -/
def listAt (path : Path) : Run (List Value) := do
  let outer := enclosing? (some path)
  let base ← baseOf outer
  pure (base.navigate (path.dropLast.drop (outer.getD []).length)).elements

/-- Names the reader whose advance failed. -/
def advancing {α : Type} (name : String) (step : Run α) : Run α :=
  tryCatch step fun stop =>
    match stop with
    | .error cause => fail (.advancing name cause)
    | other => throw other

/-- Advances a column: a stepper to the next element of its list, loading the list at a new place;
any other column to the current element. -/
def advance (i : Nat) : Run Unit := do
  modify fun m => { m with clock := m.clock + 1 }
  let c := { (← columnAt i) with move := (← get).clock }
  setColumn i c
  advancing c.name do
    let wanted ← wantedPlace c
    if !c.isStepper then setColumn i { c with place := some wanted }
    else if c.place = some wanted then setColumn i { c with index := c.index + 1 }
    else
      let elements ← listAt c.path
      setColumn i { c with place := some wanted, elements, index := 0 }

def columnValue (c : Column) : Run Value :=
  if c.isStepper then currentElement c
  else do
    checkAdvanced c
    let base ← baseOf c.arrayPath?
    pure (base.navigate c.fieldPath)

/-- Whether a stepper has passed the end of its list. -/
def columnAtEnd (c : Column) : Run Value :=
  if c.isStepper then do
    checkAdvanced c
    pure (.bool c.atEnd)
  else fail (.notAnElement c.name c.path.text)

/-- The values of a column for every element of its list. -/
def columnValues (c : Column) : Run Value :=
  match c.arrayPath? with
  | none => fail (.notInList c.name c.path.text)
  | some path => do
    let elements ← listAt path
    pure (.list (elements.map (·.navigate c.fieldPath)))

def cursorMember (member : String) : Run Value := do
  let m ← get
  if member = Code.Member.hasNext then
    match m.records[m.position]? with
    | some record =>
      set { m with record, position := m.position + 1, ordinal := m.position + 1 }
      pure (.bool true)
    | none =>
      set { m with record := Value.null }
      pure (.bool false)
  else if member = Code.Member.record then
    if m.ordinal = 0 then fail .noRecord else pure m.record
  else if member = Code.Member.describe then
    if m.ordinal = 0 then fail .noRecord else pure (.int (Int64.ofNat (m.ordinal - 1)))
  else fail (.noMember Handle.cursor.typeName member)

def sinkMember (member : String) (args : List Value) : Run Value := do
  if member = Code.Member.append then
    writeRow args
    pure .null
  else if member = Code.Member.flush then
    modify fun m => { m with flushed := true }
    pure .null
  else fail (.noMember Handle.sink.typeName member)

def columnMember (i : Nat) (member : String) : Run Value := do
  if member = Code.Member.next then
    advance i
    pure .null
  else if member = Code.Member.getValue then columnValue (← columnAt i)
  else if member = Code.Member.isEndOfArray then columnAtEnd (← columnAt i)
  else if member = Code.Member.materialize then columnValues (← columnAt i)
  else fail (.noMember (Handle.column i).typeName member)

/-- A member of an aggregator, given how to add a value and what rows there are. -/
def aggregatorMember (type : String) (add : Value → Value → Run Unit)
    (rows : Run (List (List Value))) (member : String) (args : List Value) : Run Value := do
  if member = Code.Member.accumulate then
    ofAnswer (expectArgs member args 2)
    add (args.getD 0 .null) (args.getD 1 .null)
    pure .null
  else if member = Code.Member.emit then
    ofAnswer (expectArgs member args 1)
    match args.getD 0 .null with
    | .handle .sink =>
      let found ← rows
      modify fun m => { m with written := found.reverse ++ m.written }
      pure .null
    | other => fail (.noSink other.typeName)
  else fail (.noMember type member)

def hashAt (i : Nat) : Run HashAggregator := do
  match (← get).hashes[i]? with
  | some agg => pure agg
  | none => throw (.fault .outOfRange)

def topKAt (i : Nat) : Run TopKAggregator := do
  match (← get).topKs[i]? with
  | some agg => pure agg
  | none => throw (.fault .outOfRange)

def callMember (object : Value) (member : String) (args : List Value) : Run Value :=
  match object with
  | .handle .cursor => cursorMember member
  | .handle .sink => sinkMember member args
  | .handle (.column i) => columnMember i member
  | .handle (.hashAggregator i) =>
    aggregatorMember object.typeName
      (fun k v => do
        let agg ← ofAnswer ((← hashAt i).add k v)
        modify fun m => { m with hashes := m.hashes.setIfInBounds i agg })
      (do pure (← hashAt i).rows) member args
  | .handle (.topKAggregator i) =>
    aggregatorMember object.typeName
      (fun k v => do
        let agg := (← topKAt i).add k v
        modify fun m => { m with topKs := m.topKs.setIfInBounds i agg })
      (do pure (← topKAt i).rows) member args
  | other => fail (.noMember other.typeName member)

def newHashAggregator (kind : Value) (budget : Value) : Run Value := do
  let name := match kind with
    | .string s => s
    | _ => ""
  let bytes := match budget with
    | .int n => n
    | _ => 0
  match HashKind.ofName? name with
  | none => fail (.unknownAggregate name)
  | some kind =>
    let i := (← get).hashes.size
    modify fun m => { m with hashes := m.hashes.push { kind, budget := bytes } }
    pure (.handle (.hashAggregator i))

def newTopKAggregator (limit : Value) (least : Value) : Run Value := do
  let count : Int := match limit with
    | .int n => n.toInt
    | _ => 0
  let i := (← get).topKs.size
  modify fun m => { m with topKs := m.topKs.push { limit := count, least := least.truth } }
  pure (.handle (.topKAggregator i))

def callBuiltin (name : String) (args : List Value) : Run Value := do
  let first := args.getD 0 .null
  let second := args.getD 1 .null
  if name = Code.Builtin.isUnknown then
    ofAnswer (expectArgs name args 1)
    pure (.bool first.isUnknown)
  else if name = Code.Builtin.oneOrZero then
    ofAnswer (expectArgs name args 1)
    pure (oneOrZero first)
  else if name = Code.Builtin.length then
    ofAnswer (expectArgs name args 1)
    pure (listLength first)
  else if name = Code.Builtin.makeKey then pure (.key args)
  else if name = Code.Builtin.newHashAggregator then
    ofAnswer (expectArgs name args 2)
    newHashAggregator first second
  else if name = Code.Builtin.newTopKAggregator then
    ofAnswer (expectArgs name args 2)
    newTopKAggregator first second
  else ofAnswer (callScalar name args)

def literalValue : Code.Literal → Value
  | .null => .null
  | .missing => .missing
  | .bool b => .bool b
  | .long n => .int n
  | .double x => .double x
  | .string s | .columnString s => .string s

/-- The element of a list at a position; missing outside of it. -/
def elementAt (array index : Value) : Value :=
  match index with
  | .int n => if n < 0 then .missing else array.elements.getD n.toInt.toNat .missing
  | _ => .missing

def lookupName (name : String) : Run Value := do
  match (← get).env.lookup name with
  | some v => pure v
  | none => fail (.undefined name)

mutual

def eval : Node → Run Value
  | .lit l => pure (literalValue l)
  | .ident name => lookupName name
  | .not operand => do
    let v ← eval operand
    pure v.negation
  | .binary op left right => do
    let a ← eval left
    let b ← eval right
    pure (Value.binary op a b)
  | .call fn args => do
    let vs ← evalAll args
    callBuiltin fn vs
  | .member object name args => do
    let target ← eval object
    let vs ← evalAll args
    callMember target name vs
  | .element array index => do
    let a ← eval array
    let i ← eval index
    pure (elementAt a i)
  | .absent => fail (.noValue Node.absent.formName)
  | .assign target value declares => fail (.noValue (Node.assign target value declares).formName)
  | .branch cond yes no => fail (.noValue (Node.branch cond yes no).formName)
  | .loop cond body => fail (.noValue (Node.loop cond body).formName)
  | .leave => fail (.noValue Node.leave.formName)
  | .finish value => fail (.noValue (Node.finish value).formName)

/-- The values of arguments, left to right. -/
def evalAll : List Node → Run (List Value)
  | [] => pure []
  | n :: rest => do
    let v ← eval n
    let vs ← evalAll rest
    pure (v :: vs)

end

end QueryFusion.Engine

import QueryFusion.Code.Function
import QueryFusion.Fusion.Error
import QueryFusion.Plan.Schema

/-!
# Scopes

A scope is the code of one scan function while operators are fused into it. It knows the block that
new statements go to, what each variable stands for, and which variables the function writes.

Values that are paths of the record are read through readers. A reader is advanced at most once on
the way from the body of the function to a block: the first read that sees no earlier advance emits
it. Inside a loop by position the reads of an array go to its materialized copy instead.

The state of variables is kept apart in a frame, which a nested scope saves and restores.
-/

namespace QueryFusion.Fusion

/-!
## Maps from variables

A finite map whose keys are variables, told apart by their number. Inserting replaces, so a variable
has at most one entry.
-/

/-- A finite map from variables. -/
structure VarMap (α : Type) where
  entries : List (Var × α) := []

namespace VarMap

variable {α : Type}

def find? (m : VarMap α) (v : Var) : Option α :=
  (m.entries.find? fun (w, _) => w.id == v.id).map Prod.snd

def has (m : VarMap α) (v : Var) : Bool := (m.find? v).isSome

def erase (m : VarMap α) (v : Var) : VarMap α := ⟨m.entries.filter fun (w, _) => w.id != v.id⟩

def insert (m : VarMap α) (v : Var) (a : α) : VarMap α := ⟨(m.erase v).entries ++ [(v, a)]⟩

def keys (m : VarMap α) : List Var := m.entries.map Prod.fst

end VarMap

def VarMap.increment (m : VarMap Nat) (v : Var) : VarMap Nat := m.insert v ((m.find? v).getD 0 + 1)

def VarMap.count (m : VarMap Nat) (v : Var) : Nat := (m.find? v).getD 0

/-! ## Scopes of functions -/

open Code (BlockId Node Arena)

/-- What a variable stands for. -/
inductive Meaning where
  /-- A code expression, with the readers it depends on. -/
  | code (node : Node) (readers : List String)
  | path (p : Path)

/-- A declared copy of the value at a path. -/
structure Memo where
  name : String
  block : BlockId

/-- The state of variables that nested scopes must not leak. -/
structure Frame where
  values : VarMap Meaning := {}
  memos : VarMap Memo := {}
  /-- The flags that replace counts compared with zero. -/
  flags : VarMap String := {}
  /-- The first items of lists of which no more is kept. -/
  items : VarMap String := {}

/-- The code of one scan function in the making. -/
structure Scope where
  scan : Plan.OpId
  dataset : String
  scanVars : List Var
  schema : Plan.Schema
  fn : Code.Function
  current : BlockId
  /-- The element path that each unnest loop goes through, by the body of the loop. -/
  loops : List (BlockId × Path) := []
  live : Frame := {}
  /-- The states saved by nested scopes, the innermost first. -/
  saved : List Frame := []
  outputs : List Var := []
  emitters : List String := []
  /-- The readers touched since tracking began, if it did. -/
  touched : Option (List String) := none
  /-- How often each flag and first item was read. -/
  consumed : VarMap Nat := {}
  fused : Nat := 0

/-- A step that makes code. -/
abbrev Emit := StateT Scope (Except Abort)

def failWith {α : Type} (cause : FuseError) : Emit α := throw (.error cause)

def orAbort {α : Type} (step : Except Fault α) : Except Abort α := step.mapError .fault

def askArena {α : Type} (ask : Arena → Except Fault α) : Emit α := do
  let scope ← get
  liftM (orAbort (ask scope.fn.arena))

def changeArena (change : Arena → Except Fault Arena) : Emit Unit := do
  let scope ← get
  let arena ← liftM (orAbort (change scope.fn.arena))
  set { scope with fn := { scope.fn with arena } }

/-- Changes the blocks of the function and gives something out. -/
def drawArena {α : Type} (draw : Arena → Except Fault (α × Arena)) : Emit α := do
  let scope ← get
  let (a, arena) ← liftM (orAbort (draw scope.fn.arena))
  set { scope with fn := { scope.fn with arena } }
  pure a

def emit (n : Node) : Emit Unit := do
  let scope ← get
  changeArena (·.appendHead scope.current n)

def declare (block : BlockId) (init : Node) : Emit String := drawArena (·.declare block init)

def declareHere (init : Node) : Emit String := do
  let scope ← get
  drawArena (·.declareHere scope.current init)

def openBlock (parent : BlockId) (tag : Code.Tag) : Emit BlockId :=
  drawArena fun arena => pure (arena.new (some parent) tag)

def moveTo (block : BlockId) : Emit Unit := modify fun scope => { scope with current := block }

/-- A code expression as a variable, declared unless it is one. -/
def temp : Node → Emit String
  | .ident name => pure name
  | n => declareHere n

/-! ## Readers -/

namespace Scope

def reader? (scope : Scope) (p : Path) : Option String :=
  (scope.fn.paths.findIdx? fun q => q.text == p.text).map Code.Function.readerName

def readerPath? (scope : Scope) (reader : String) : Option Path :=
  (scope.fn.readers.zip scope.fn.paths).lookup reader

def isNested (scope : Scope) : Bool := !scope.saved.isEmpty

end Scope

/-- The parts of a path before its end that lead to elements of a list, the longest first. -/
def elementPrefixes (p : Path) : List Path :=
  ((List.range (p.length - 1)).reverse.map fun i => p.take (i + 1)).filter fun q =>
    q.getLast? == some .element

def touch (reader : String) : Emit Unit :=
  modify fun scope =>
    { scope with touched := scope.touched.map fun seen =>
        if seen.contains reader then seen else seen ++ [reader] }

/-- The reader of a path, added on first use. -/
def readerOf (p : Path) : Emit String := do
  let scope ← get
  match scope.reader? p with
  | some reader => pure reader
  | none =>
    if scope.schema.has p then
      let (reader, fn) ← liftM (orAbort (scope.fn.addReader p))
      set { scope with fn }
      pure reader
    else failWith (.noReader p.text scope.dataset)

/-- The closest redirection of a reader seen from the current block. -/
def overrideOf (reader : String) : Emit (Option (Code.Override × BlockId)) := do
  let scope ← get
  askArena (·.lookupOverride (some scope.current) reader)

/-- The first redirection among the readers of some paths. -/
def firstOverride : List Path → Emit (Option (Code.Override × BlockId))
  | [] => pure none
  | p :: rest => do
    let found ← match (← get).reader? p with
      | some reader => overrideOf reader
      | none => pure none
    match found with
    | some target => pure (some target)
    | none => firstOverride rest

/-- Whether the reads of a path go to a materialized list. -/
def isOverridden (p : Path) : Emit Bool := do
  let own ← match (← get).reader? p with
    | some reader => overrideOf reader
    | none => pure none
  match own with
  | some _ => pure true
  | none => return (← firstOverride (elementPrefixes p)).isSome

/-- Advances a reader in the current block unless it is advanced there or further out. -/
def advance (reader : String) : Emit Unit := do
  let block := (← get).current
  unless ← askArena (·.isBound (some block) reader) do
    emit (.member (.ident reader) Code.Member.next [])
    changeArena (·.bind block reader)

def parentOf (block : BlockId) : Emit BlockId := do
  match (← askArena (·.get block)).parent with
  | some parent => pure parent
  | none => throw (.fault .outOfRange)

/-- The expression that reads a path in the current block. Inside a loop by position over an outer
list, the column is materialized once beside that list and read at the same position. -/
def readPath (p : Path) : Emit Node := do
  let reader ← readerOf p
  touch reader
  match ← overrideOf reader with
  | some (target, _) => pure (.element (.ident target.array) (.ident target.index))
  | none =>
    match ← firstOverride (elementPrefixes p) with
    | some (target, block) =>
      let home ← parentOf block
      let array ← declare home (.member (.ident reader) Code.Member.materialize [])
      changeArena (·.setOverride block reader ⟨array, target.index⟩)
      pure (.element (.ident array) (.ident target.index))
    | none =>
      advance reader
      pure (.member (.ident reader) Code.Member.getValue [])

mutual

/-- Advances, in the current block, every reader that evaluating an expression would advance. -/
def advanceAll : Expr → Emit Unit
  | .absent => pure ()
  | .var v => do
    match (← get).live.values.find? v with
    | some (.path p) => unless ← isOverridden p do advance (← readerOf p)
    | _ => pure ()
  | .const _ => pure ()
  | .call fn args loc => do
    let schema := (← get).schema
    let accessed := if fn = .fieldAccess then schema.pathOf? (.call fn args loc) else none
    match accessed.filter schema.has with
    | some p => unless ← isOverridden p do advance (← readerOf p)
    | none => advanceArgs args

def advanceArgs : List Expr → Emit Unit
  | [] => pure ()
  | arg :: rest => do
    advanceAll arg
    advanceArgs rest

end

/-! ## Variables -/

/-- The declared copy of a variable's path that the current block sees. -/
def visibleMemo? (v : Var) : Emit (Option String) := do
  let scope ← get
  match scope.live.memos.find? v with
  | none => pure none
  | some memo =>
    if ← askArena (·.isAncestor memo.block (some scope.current)) then pure (some memo.name)
    else pure none

/-- The expression that evaluates a variable in the current block. The value at a path is declared
once on the way to a block. -/
def valueOf (v : Var) : Emit Node := do
  let scope ← get
  match scope.live.flags.find? v with
  | some flag => pure (.ident flag)
  | none =>
    if scope.live.items.has v then failWith (.neverMaterialized v)
    else
      match scope.live.values.find? v with
      | none => failWith (.unboundVar v)
      | some (.code node readers) =>
        readers.forM touch
        pure node
      | some (.path p) =>
        if ← isOverridden p then readPath p
        else
          match ← visibleMemo? v with
          | some name =>
            match scope.reader? p with
            | some reader =>
              touch reader
              pure (.ident name)
            | none => throw (.fault .outOfRange)
          | none =>
            let value ← readPath p
            let name ← declareHere value
            modify fun scope =>
              { scope with live := { scope.live with
                  memos := scope.live.memos.insert v ⟨name, scope.current⟩ } }
            pure (.ident name)

/-- The expression that evaluates a variable in the current block, without declaring the value at a
path. -/
def inlineValueOf (v : Var) : Emit Node := do
  match (← get).live.values.find? v with
  | some (.path p) =>
    match ← visibleMemo? v with
    | some name => pure (.ident name)
    | none => readPath p
  | _ => valueOf v

/-- Runs a step and tells which readers it touched. -/
def tracking {α : Type} (step : Emit α) : Emit (α × List String) := do
  let outer := (← get).touched
  modify fun scope => { scope with touched := some [] }
  let a ← step
  let readers := (← get).touched.getD []
  modify fun scope => { scope with touched := outer }
  readers.forM touch
  pure (a, readers)

def bindMeaning (v : Var) (meaning : Meaning) : Emit Unit :=
  modify fun scope =>
    { scope with live := { scope.live with
        values := scope.live.values.insert v meaning, memos := scope.live.memos.erase v } }

/-! ## Outputs -/

/-- Adds an output. Nested scopes have none. -/
def putOutput (v : Var) : Emit Unit :=
  modify fun scope =>
    if scope.isNested || scope.outputs.any (·.id == v.id) then scope
    else { scope with outputs := scope.outputs ++ [v] }

def clearOutput : Emit Unit :=
  modify fun scope => if scope.isNested then scope else { scope with outputs := [] }

def distinctVars (vars : List Var) : List Var :=
  vars.foldl (fun seen v => if seen.any (·.id == v.id) then seen else seen ++ [v]) []

def projectOutput (vars : List Var) : Emit Unit :=
  modify fun scope => if scope.isNested then scope else { scope with outputs := distinctVars vars }

def Scope.canProject (scope : Scope) (vars : List Var) : Bool :=
  vars.all fun v => !scope.scanVars.any (·.id == v.id)

/-! ## Nested scopes -/

/-- Runs a step in a nested scope: what it makes of variables is forgotten, and the current block is
restored. -/
def nestedScope {α : Type} (step : Emit α) : Emit α := do
  let outer ← get
  set { outer with saved := outer.live :: outer.saved }
  let a ← step
  let inner ← get
  match inner.saved with
  | live :: saved =>
    set { inner with live, saved, current := outer.current }
    pure a
  | [] => throw (.fault (.violated "fuse: unbalanced nested scope"))

/-! ## Dependence on loops -/

namespace Scope

def dependsOn (scope : Scope) (v : Var) : List String :=
  match scope.live.values.find? v with
  | none => []
  | some (.path p) => (scope.reader? p).toList
  | some (.code _ readers) => readers

/-- Whether a variable reads an element of the list that a loop goes through. -/
def varInLoop (scope : Scope) (loop : BlockId) (element : Path) (v : Var) : Except Fault Bool := do
  let readers := scope.dependsOn v
  let bound ← readers.anyM fun reader => scope.fn.arena.boundIn loop reader
  let reads := match scope.live.values.find? v with
    | some (.path p) => p.startsWith element
    | _ => false
  let inside := readers.any fun reader =>
    ((scope.readerPath? reader).getD []).startsWith element
  pure (bound || reads || inside)

/-- Whether evaluating an expression reads an element of the list that a loop goes through. -/
def exprInLoop (scope : Scope) (loop : BlockId) (e : Expr) : Except Fault Bool := do
  let element := (scope.loops.lookup loop).getD []
  if (scope.schema.pathsOf e).any (·.startsWith element) then pure true
  else e.vars.anyM (scope.varInLoop loop element)

/-- How many readers the function would have after reading some expressions and all outputs. -/
def pendingReaders (scope : Scope) (exprs : List Expr) : Nat :=
  let outputs := scope.outputs.filterMap fun v =>
    match scope.live.values.find? v with
    | some (.path p) => some p
    | _ => none
  let texts := (exprs.flatMap scope.schema.pathsOf ++ outputs).filterMap fun p =>
    if (scope.reader? p).isSome then none else some p.text
  scope.fn.paths.length + texts.eraseDups.length

/-- A new scope: a loop over the records, in which the variables of the scan hold the record and its
description. -/
def new (scan : Plan.OpId) (dataset : String) (scanVars : List Var) (schema : Plan.Schema) :
    Except Fault Scope := do
  let fn := Code.Function.new ""
  let (records, arena) := fn.arena.new (some fn.body) .records
  let cursor := Node.ident Code.Function.cursor
  let arena ← arena.appendHead fn.body (.loop (.member cursor Code.Member.hasNext []) records)
  let meaning (i : Nat) : Meaning :=
    if i = 0 then .code (.member cursor Code.Member.record []) []
    else .code (.member cursor Code.Member.describe [.long (Int64.ofNat i)]) []
  let values := scanVars.zipIdx.foldl (fun (m : VarMap Meaning) (v, i) => m.insert v (meaning i)) {}
  pure {
    scan, dataset, scanVars, schema
    fn := { fn with arena }
    current := records
    live := { values }
    outputs := scanVars }

end Scope

end QueryFusion.Fusion

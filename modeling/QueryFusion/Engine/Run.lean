import QueryFusion.Engine.Machine

/-!
# Running functions

Statements run one after the other until one of them leaves the enclosing loop or the function. A
loop runs its body for as long as its condition holds; a run that does not end has no outcome.
-/

namespace QueryFusion

/-- What an engine runs. -/
abbrev Engine := Code.Function

namespace Engine

open Code (Node Function BlockId)

/-- What happens after a statement. -/
inductive Flow where
  /-- The next statement runs. -/
  | proceed
  /-- The innermost loop is left. -/
  | leave
  /-- The function is left. -/
  | finish
deriving DecidableEq, Repr

/-- Stores a value into a name that is declared, or declares it. -/
def store (target : String) (declares : Bool) (v : Value) : Run Unit := do
  let m ← get
  if declares || (m.env.lookup target).isSome then
    set { m with env := assign target v m.env }
  else fail (.undeclared target)

mutual

def exec (fn : Engine) (n : Node) : Run Flow :=
  match n with
  | .assign target value declares => do
    let v ← eval value
    store target declares v
    pure .proceed
  | .branch cond yes no => do
    let c ← eval cond
    fn |>.execBlock (if c.truth then yes else no)
  | .loop cond body => do
    let c ← eval cond
    if c.truth then
      match ← fn |>.execBlock body with
      | .proceed => fn |>.exec (.loop cond body)
      | .leave => pure .proceed
      | .finish => pure .finish
    else pure .proceed
  | .leave => pure .leave
  | .finish _ => pure .finish
  | n => do
    let _ ← eval n
    pure .proceed
partial_fixpoint

/-- Runs statements in order while they let the next one run. -/
def execAll (fn : Engine) (statements : List Node) : Run Flow :=
  match statements with
  | [] => pure .proceed
  | n :: rest => do
    match ← fn |>.exec n with
    | .proceed => fn |>.execAll rest
    | flow => pure flow
partial_fixpoint

def execBlock (fn : Engine) (id : BlockId) : Run Flow :=
  if id = Code.emptyBlock then pure .proceed
  else do
    let block ← ofLookup (fn.arena.get id)
    fn |>.execAll block.statements
partial_fixpoint

end

/-- The rows a run has written. -/
structure Output where
  rows : List (List Value)
  flushed : Bool

/-- Why a function could not be run to its end. -/
inductive Failure where
  | notFrozen (name : String)
  | failed (name : String) (cause : RunError)
  | fault (fault : Fault)
  | endless
deriving DecidableEq, Repr

def Failure.message : Failure → String
  | notFrozen name => s!"vm.Run: function {name} is not frozen"
  | failed name cause => s!"vm.Run: {name}: " ++ cause.message
  | fault _ => "fault"
  | endless => "endless"

/-- The answer of a run with the lines it logs. -/
structure Report where
  result : Except Failure Output
  log : List String

def run (fn : Function) (records : List Value) : Report :=
  if fn.frozen then
    match execBlock fn fn.body (Machine.start fn records) with
    | some (.ok (_, m)) =>
      { result := .ok { rows := m.rows, flushed := m.flushed }
        log := [s!"vm: {fn.name}: {m.position} records, {m.written.length} rows"] }
    | some (.error (.error cause)) =>
      { result := .error (.failed fn.name cause)
        log := [s!"error: vm: {fn.name}: " ++ cause.message] }
    | some (.error (.fault fault)) => { result := .error (.fault fault), log := [] }
    | none => { result := .error .endless, log := [] }
  else { result := .error (.notFrozen fn.name), log := [] }

end Engine

end QueryFusion

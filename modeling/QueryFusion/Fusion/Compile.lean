import QueryFusion.Fusion.GroupBy
import QueryFusion.Fusion.Subplan
import QueryFusion.Plan.Edit

/-!
# Compilation

The compiler walks a plan once, inputs first. A scan of a columnar dataset opens a scope; the
operators above it that can be expressed as code for each record are compiled into the scope and
taken out of the plan, until one that cannot be fused closes it. The scan is then marked with the
name and outputs of the function.

A failed compilation takes back all edits of the plan.
-/

namespace QueryFusion.Fusion

open Code (Node)
open Plan (OpId Operator Body)

/-- A function and the scan above which it replaces the operators. -/
structure ScanFunction where
  scan : OpId
  fn : Code.Function
  /-- What first asked for each path, by the text of the path. -/
  callSites : List (String × Plan.CallSite)
  /-- The variables of the rows it writes, in order. -/
  outputs : List Var
  /-- A digest of the code and the paths it reads. -/
  fingerprint : List UInt8

/-! ## Uses of variables -/

mutual

/-- Every use of a variable in an expression; `true` marks an index at a constant position. -/
def usesIn : Expr → List (Var × Bool)
  | .absent => []
  | .var v => [(v, false)]
  | .const _ => []
  | .call fn args _ =>
    match fn, args with
    | .getItem, [.var v, .const _] => [(v, true)]
    | _, args => usesInArgs args

def usesInArgs : List Expr → List (Var × Bool)
  | [] => []
  | arg :: rest => usesIn arg ++ usesInArgs rest

end

def usesBelow (plan : Plan) (root : OpId) : Except Fault (List (Var × Bool)) := do
  let ids ← plan.walk root
  let ops ← ids.mapM plan.get
  pure (ops.flatMap fun op => op.body.exprs.flatMap usesIn)

/-! ## The compiler's state -/

/-- What stays the same during a compilation. -/
structure Setting where
  config : Plan.Config
  catalog : Plan.Catalog
  schemas : Plan.Schemas
  /-- Every use of a variable in the plan. -/
  uses : List (Var × Bool)
  stem : String

def Setting.useCount (s : Setting) (v : Var) : Nat := (s.uses.filter fun (w, _) => w.id == v.id).length

/-- Whether a variable is used other than at constant positions. -/
def Setting.isUsedWhole (s : Setting) (v : Var) : Bool :=
  s.uses.any fun (w, isIndexed) => w.id == v.id && !isIndexed

/-- What changes during a compilation. -/
structure State where
  /-- The plan with the edits that can be taken back. -/
  draft : Plan.Draft
  /-- The notes, the latest last. -/
  notes : List Note := []
  visited : List OpId := []
  scope : Option Scope := none
  functions : List ScanFunction := []
  /-- The bound on groups that holds here. -/
  topK : Option TopK := none
  groupOrders : List OpId := []

/-- A compilation step. -/
abbrev Fuse := EStateM Abort State

def note (n : Note) : Fuse Unit := modify fun st => { st with notes := st.notes ++ [n] }

def orFault {α : Type} (step : Except Fault α) : Fuse α :=
  match step with
  | .ok a => pure a
  | .error fault => throw (.fault fault)

def operator (id : OpId) : Fuse Operator := do orFault ((← get).draft.plan.get id)

def onScope {α : Type} (step : Emit α) : Fuse α := do
  match (← get).scope with
  | none => throw (.fault .outOfRange)
  | some scope =>
    match step scope with
    | .ok (a, scope) =>
      modify fun st => { st with scope := some scope }
      pure a
    | .error abort => throw abort

def onDraft {α : Type} (wrap : Plan.PlanError → FuseError) (step : Plan.Drafting α) : Fuse α :=
  fun st =>
    match step st.draft with
    | .ok a draft => .ok a { st with draft }
    | .error (.error cause) draft => .error (.error (wrap cause)) { st with draft }
    | .error (.fault fault) draft => .error (.fault fault) { st with draft }

def countFused : Emit Unit := modify fun scope => { scope with fused := scope.fused + 1 }

/-! ## Opening and closing scopes -/

/-- Refuses a function whose inner values are still read outside of it. -/
def checkEscapes (s : Setting) (scope : Scope) : Except FuseError Unit :=
  match (scope.live.flags.keys ++ scope.live.items.keys).find? fun v =>
      scope.consumed.count v < s.useCount v with
  | some v => throw (.readOutside v scope.dataset)
  | none => pure ()

def functionName (s : Setting) (dataset : String) (count : Nat) : String :=
  s!"{s.stem}_{dataset}_{count}"

/-- Writes the output of the function: the aggregators write their groups after the record loop;
without any, the outputs are written where the code stands. -/
def writeOutput : Emit Unit := do
  let scope ← get
  let sink := Node.ident Code.Function.sink
  if scope.emitters.isEmpty then
    let values ← scope.outputs.mapM inlineValueOf
    emit (.member sink Code.Member.append values)
  else
    scope.emitters.forM fun aggregator =>
      changeArena (·.appendHead scope.fn.body (.member (.ident aggregator) Code.Member.emit [sink]))
  changeArena (·.appendTail scope.fn.body (.member sink Code.Member.flush []))

/-- Completes the function of a scope and marks the scan. The answer is the name of the function. -/
def finalize (s : Setting) (scope : Scope) : Fuse String := do
  match writeOutput scope with
  | .error abort => throw abort
  | .ok (_, scope) =>
    let name := functionName s scope.dataset (← get).functions.length
    let fn ← orFault { scope.fn with name }.freeze
    onDraft (.scanEnv scope.dataset) do
      Plan.markScan scope.scan name scope.outputs
      Plan.onPlan (Plan.computeEnv scope.scan)
    let fingerprint ← orFault fn.fingerprint
    let done : ScanFunction :=
      { scan := scope.scan, fn, callSites := scope.schema.callSites, outputs := scope.outputs
        fingerprint }
    modify fun st => { st with functions := st.functions ++ [done] }
    pure name

/-- Ends the open scope, if there is one. It becomes a function if anything was fused into it. -/
def closeScope (s : Setting) (reason : ClosingReason) : Fuse Unit := do
  match (← get).scope with
  | none => pure ()
  | some scope =>
    modify fun st => { st with scope := none }
    if scope.isNested then throw (.fault (.violated "fuse: scope closed while nested"))
    else
      match checkEscapes s scope with
      | .error cause => throw (.error cause)
      | .ok _ =>
        if scope.fused = 0 then note (.nothingFused scope.dataset reason)
        else
          let name ← finalize s scope
          note (.closed scope.dataset name scope.fused reason)

/-- Opens a scope for a scan that can be fused. -/
def openScope (s : Setting) (scan : OpId) (dataset : String) (vars : List Var)
    (function : String) : Fuse Unit := do
  closeScope s .newScan
  if !function.isEmpty || vars.isEmpty then pure ()
  else
    match s.catalog.find dataset with
    | .error cause => note (.unknownDataset dataset cause.message)
    | .ok d =>
      if !d.isColumnar then note (.notColumnar dataset)
      else
        match s.schemas.lookup scan with
        | none => note (.noSchema dataset)
        | some schema =>
          let scope ← orFault (Scope.new scan dataset vars schema)
          modify fun st => { st with scope := some scope }
          note (.opened dataset schema.paths.length schema.digest)

/-! ## Fusing operators -/

/-- Takes a fused operator out of the plan. -/
def removeOp (op parent : OpId) : Fuse Unit := do
  onDraft .removal (Plan.remove op (some parent))
  onScope countFused

def fuseSelect (s : Setting) (op parent : OpId) (cond : Expr) : Fuse Unit := do
  if isScalar cond then
    onScope (selectOn cond)
    removeOp op parent
  else closeScope s (.select (← orFault cond.text))

/-- Fuses a project, unless it keeps a variable of the scan. -/
def fuseProject (s : Setting) (op parent : OpId) (vars : List Var) : Fuse Unit := do
  if (← onScope get).canProject vars then
    onScope (projectOutput vars)
    removeOp op parent
  else closeScope s .scanProject

/-- Compiles the leading scalar bindings of an assign and counts them. -/
def assignLeading : List Var → List Expr → Emit Nat
  | [], _ => pure 0
  | _ :: _, [] => throw (.fault .outOfRange)
  | v :: vars, e :: exprs => do
    if isScalar e then
      assignVar v e
      return (← assignLeading vars exprs) + 1
    else pure 0

/-- Fuses the leading scalar bindings of an assign; later ones may read them and stay. -/
def fuseAssign (s : Setting) (op parent : OpId) (vars : List Var) (exprs : List Expr) :
    Fuse Unit := do
  let count ← onScope (assignLeading vars exprs)
  (List.range count).reverse.forM fun i => onDraft .removal (Plan.removeBinding op i)
  if vars.length = count then removeOp op parent
  else
    if 0 < count then onScope countFused
    closeScope s (.unfusedBindings (vars.length - count))

/-- Accumulates aggregates in the body of the function and makes them its outputs. -/
def accumulateAll : List Var → List Call → Emit Unit
  | _, [] => pure ()
  | vars, call :: calls => do
    let body := (← get).fn.body
    let acc ← accumulate call body
    match vars with
    | [] => throw (.fault .outOfRange)
    | v :: vars =>
      bindMeaning v (.code (.ident acc) [])
      putOutput v
      accumulateAll vars calls

def fuseAggregate (s : Setting) (op parent : OpId) (vars : List Var) (calls : List Call) :
    Fuse Unit := do
  match calls.find? fun call => !isAccumulable call with
  | some call => closeScope s (.aggregate call.fn)
  | none =>
    onScope do
      clearOutput
      accumulateAll vars calls
      moveTo (← get).fn.body
    removeOp op parent

/-- The order below a group-by, if there is one. -/
def orderBelow? (op : OpId) : Fuse (Option OpId) := do
  match ← orFault ((← get).draft.plan.input? op) with
  | some (input, { body := .order .., .. }) => pure (some input)
  | _ => pure none

def fuseGroupBy (s : Setting) (op parent : OpId) (keys : List Plan.Binding)
    (nested : Option OpId) : Fuse Unit := do
  let st ← get
  match (nestedAggregate? st.draft.plan nested).filter (isLocalGroupBy st.draft.plan keys) with
  | none => closeScope s .groupBy
  | some aggregate =>
    match ← onScope (groupLocally s.config st.topK keys aggregate) with
    | none => closeScope s .groupBy
    | some grouping =>
      let scope ← onScope get
      note (.grouped scope.dataset grouping keys.length)
      match ← orderBelow? op with
      | some order => if st.groupOrders.contains order then removeOp order op
      | none => pure ()
      removeOp op parent
      closeScope s .groupByOutput

/-- Whether the only use of a variable is a select of `parent` that it differs from zero. -/
def isTestedOnce (s : Setting) (v : Var) (parent : Body) : Bool :=
  match parent with
  | .select (.call .neq [left, right] _) =>
    let tests (e other : Expr) : Bool := match e with
      | .var w => w.id == v.id && isZero other
      | _ => false
    s.useCount v == 1 && (tests left right || tests right left)
  | _ => false

/-- Compiles the nested plan of a subplan into the current block if it has one of the supported
shapes: whether there is a tuple, a count that is only tested against zero, or a list of which only
constant positions are read. -/
def fuseSubplan (s : Setting) (op : OpId) (parent : Body) (nested : Option OpId) : Fuse Bool := do
  let plan := (← get).draft.plan
  match nestedAggregate? plan nested with
  | some ⟨[out], [call], top⟩ =>
    if call.fn = .nonEmptyStream then onScope do
      match ← nestedChain? plan op top with
      | none => pure false
      | some chain =>
        let flag ← existsFlag chain true
        bindMeaning out (.code (.ident flag) [])
        putOutput out
        pure true
    else if call.fn.isCount && countsTuples call && isTestedOnce s out parent then onScope do
      match ← nestedChain? plan op top with
      | none => pure false
      | some chain =>
        let flag ← existsFlag chain false
        modify fun scope =>
          { scope with live := { scope.live with flags := scope.live.flags.insert out flag } }
        pure true
    else
      match call.fn, call.args with
      | .listify, [item] =>
        if s.isUsedWhole out then pure false else onScope (fuseList plan op top item out)
      | _, _ => pure false
  | _ => pure false

/-! ## The walk -/

def isFusible : Body → Bool
  | .select _ | .project _ | .assign .. | .unnest .. | .subplan _ => true
  | .aggregate _ _ isGlobal | .groupBy _ _ isGlobal => !isGlobal
  | _ => false

def nestedExprs (plan : Plan) (body : Body) : Except Fault (List Expr) := do
  let nested ← body.nested?.toList.mapM fun root => do
    let ids ← plan.walk root
    let ops ← ids.mapM plan.get
    pure (ops.flatMap fun op => op.body.exprs)
  pure (body.exprs ++ nested.flatten)

/-- Whether the readers for some expressions stay within the limit. -/
def fits (s : Setting) (scope : Scope) (exprs : List Expr) : Bool :=
  s.config.maxReaders ≤ 0 || decide ((scope.pendingReaders exprs : Int) ≤ s.config.maxReaders.toInt)

/-- Whether an operator selects on a flag, and so must be fused for the plan to stay valid. -/
def readsFlag (scope : Scope) : Body → Bool
  | .select cond => cond.vars.any scope.live.flags.has
  | _ => false

def fuseOp (s : Setting) (op : OpId) (o : Operator) (parent : OpId) (p : Operator) : Fuse Unit := do
  match o.body with
  | .select cond => fuseSelect s op parent cond
  | .project vars => fuseProject s op parent vars
  | .assign vars exprs => fuseAssign s op parent vars exprs
  | .unnest v pos e =>
    if ← onScope (fuseUnnest v pos e) then removeOp op parent
    else closeScope s (.unnest (← orFault e.text))
  | .aggregate vars calls _ => fuseAggregate s op parent vars calls
  | .groupBy keys nested _ => fuseGroupBy s op parent keys nested
  | .subplan nested =>
    if ← fuseSubplan s op p.body nested then removeOp op parent
    else closeScope s .subplan
  | _ => pure ()

/-- Whether an operator lets the scope below it stay open and stays in the plan. -/
def passesScope (st : State) (op : OpId) : Body → Bool
  | .order .. => st.groupOrders.contains op
  | .exchange redistributes => !redistributes
  | _ => false

def process (s : Setting) (op : OpId) (parent : Option OpId) : Fuse Unit := do
  let o ← operator op
  match o.body with
  | .scan dataset vars function _ => openScope s op dataset vars function
  | body =>
    let st ← get
    match st.scope with
    | none => pure ()
    | some scope =>
      if passesScope st op body then pure ()
      else if !isFusible body then closeScope s (.notFusible o.kind)
      else
        let parentOp ← parent.mapM fun id => do pure (id, ← operator id)
        match parentOp with
        | none => closeScope s (.notRemovable o.kind)
        | some (consumer, p) =>
          if p.inputs.length ≠ 1 || o.inputs.length ≠ 1 then closeScope s (.notRemovable o.kind)
          else
            let exprs ← orFault (nestedExprs st.draft.plan body)
            if !fits s scope exprs && !readsFlag scope body then
              closeScope s (.readerLimit s.config.maxReaders.toInt o.kind)
            else fuseOp s op o consumer p

/-- Prepares for the inputs of a group-by: a global one may bound the groups that are consumed, a
local one takes the order below it along. -/
def enterGroupBy (op : OpId) (parent : Option OpId) (o : Operator) : Fuse Unit := do
  match o.body with
  | .groupBy keys nested true =>
    let topK := topKBelow? (← get).draft.plan keys nested parent
    modify fun st => { st with topK }
    match topK with
    | some k => note (.candidate k.count k.least o.kind)
    | none => pure ()
  | .groupBy _ _ false =>
    match ← orderBelow? op with
    | some order => modify fun st => { st with groupOrders := order :: st.groupOrders }
    | none => pure ()
  | _ => pure ()

/-- Compiles an operator after its inputs, each operator once, to a bounded depth. An operator that
is reached again ends the scope that reached it. -/
def visit (s : Setting) : Nat → OpId → Option OpId → Fuse Unit
  | 0, _, _ => throw (.fault .outOfRange)
  | depth + 1, op, parent => do
    let o ← operator op
    if (← get).visited.contains op then closeScope s (.shared o.kind)
    else
      modify fun st => { st with visited := op :: st.visited }
      let topK := (← get).topK
      enterGroupBy op parent o
      (List.range o.inputs.length).forM fun i => do
        match (← operator op).inputs[i]? with
        | some input =>
          visit s depth input (some op)
          if 1 < o.inputs.length then closeScope s (.inputOf o.kind)
        | none => throw (.fault .outOfRange)
      modify fun st => { st with topK }
      process s op parent

def compileAll (s : Setting) (root : OpId) : Fuse Unit := do
  visit s ((← get).draft.plan.ops.size + 2) root none
  closeScope s .endOfPlan

/-! ## The compiler -/

/-- What a compilation leaves behind. -/
structure Outcome where
  /-- The functions, or why there are none. -/
  result : Except Abort (List ScanFunction)
  plan : Plan
  notes : List Note

/-- Gives up: takes all edits back. -/
def giveUp (root : OpId) (abort : Abort) (message : String) (st : State) : Outcome :=
  let notes := st.notes ++ [.aborted message]
  match Plan.undo (some root) st.draft with
  | .ok _ draft => ⟨.error abort, draft.plan, notes⟩
  | .error (.error cause) draft => ⟨.error abort, draft.plan, notes ++ [.restoring cause.message]⟩
  | .error (.fault fault) draft => ⟨.error (.fault fault), draft.plan, notes⟩

def finish (root : OpId) : EStateM.Result Abort State Unit → Outcome
  | .ok _ st =>
    match Plan.onPlan (Plan.recompute root) st.draft with
    | .ok _ draft =>
      ⟨.ok st.functions, draft.plan, st.notes ++ [.finished st.functions.length]⟩
    | .error (.error cause) draft => giveUp root (.plan cause) cause.message { st with draft }
    | .error (.fault fault) draft => ⟨.error (.fault fault), draft.plan, st.notes⟩
  | .error (.error cause) st => giveUp root (.error cause) cause.message st
  | .error (.plan cause) st => giveUp root (.plan cause) cause.message st
  | .error (.fault fault) st => ⟨.error (.fault fault), st.draft.plan, st.notes⟩

def defaultStem : String := "scan"

/-- Fuses the operators of a plan into scan functions. Without schemas the expected ones are
computed. -/
def compile (plan : Plan) (root : OpId) (config : Plan.Config) (catalog : Plan.Catalog)
    (schemas : Option Plan.Schemas) (stem : String) : Outcome :=
  let setting : Except Fault Setting := do
    let schemas ← match schemas with
      | some schemas => pure schemas
      | none => Plan.expectedSchemas plan root
    let uses ← usesBelow plan root
    pure { config, catalog, schemas, uses, stem }
  match setting with
  | .error fault => ⟨.error (.fault fault), plan, []⟩
  | .ok s => finish root (compileAll s root { draft := { plan } })

end QueryFusion.Fusion

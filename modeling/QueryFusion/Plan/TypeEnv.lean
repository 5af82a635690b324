import QueryFusion.Plan.Operator

/-!
# Live variables

Every operator stores the variables that are live at its output. They follow from those at its
inputs; computing them for an operator first computes those of inputs and nested plans that have
none yet. What was computed before a failure stays.
-/

namespace QueryFusion.Plan

namespace TypeEnv

def insert (v : Var) : TypeEnv → TypeEnv
  | [] => [v]
  | w :: rest =>
    if v.id < w.id then v :: w :: rest
    else if v.id = w.id then v :: rest
    else w :: insert v rest

def extend (env : TypeEnv) (vars : List Var) : TypeEnv := vars.foldl (fun env v => insert v env) env

def ofVars (vars : List Var) : TypeEnv := extend [] vars

def has (env : TypeEnv) (v : Var) : Bool := env.any (·.id == v.id)

def texts (env : TypeEnv) : List String := env.map fun v => v.text ++ ":" ++ v.type.name

end TypeEnv

/-- A computation on a plan; changes made before a failure stay. -/
abbrev Editing := EStateM Failure Plan

def fetch (id : OpId) : Editing Operator := do
  match (← get).get id with
  | .ok op => pure op
  | .error fault => throw (.fault fault)

def onlyEnv (kind : OpKind) : List TypeEnv → Except PlanError TypeEnv
  | [env] => pure env
  | envs => throw (.inputCount kind envs.length 1)

def aggregateVars (plan : Plan) (id : OpId) : List Var :=
  match plan.ops[id]? with
  | some { body := .aggregate vars _ _, .. } => vars
  | _ => []

/-- The variables that a nested plan's leaf passes on: those at the input of its owner. -/
def outerEnv (plan : Plan) (outer : Option OpId) : TypeEnv :=
  match outer with
  | none => []
  | some owner =>
    match plan.input? owner with
    | .ok (some (_, input)) => input.env.getD []
    | _ => []

/-- The variables at the output of an operator, from those at its inputs. -/
def produce (plan : Plan) (body : Body) (envs : List TypeEnv) : Except PlanError TypeEnv :=
  match body with
  | .scan _ vars function outputs =>
    pure (TypeEnv.ofVars (if function.isEmpty then vars else outputs))
  | .emptySource =>
    if envs.isEmpty then pure [] else throw (.inputCount body.kind envs.length 0)
  | .nestedSource outer =>
    if envs.isEmpty then pure (outerEnv plan outer)
    else throw (.inputCount body.kind envs.length 0)
  | .project vars => do
    let _ ← onlyEnv body.kind envs
    pure (TypeEnv.ofVars vars)
  | .assign vars exprs => do
    let env ← onlyEnv body.kind envs
    if vars.length = exprs.length then pure (env.extend vars)
    else throw (.unevenAssign vars.length exprs.length)
  | .unnest v pos _ => do
    let env ← onlyEnv body.kind envs
    pure (env.extend (v :: pos.toList))
  | .aggregate vars _ _ => do
    let _ ← onlyEnv body.kind envs
    pure (TypeEnv.ofVars vars)
  | .groupBy keys nested _ => do
    let _ ← onlyEnv body.kind envs
    pure (TypeEnv.ofVars (keys.map Binding.var ++ nested.toList.flatMap (aggregateVars plan)))
  | .subplan nested => do
    let env ← onlyEnv body.kind envs
    pure (env.extend (nested.toList.flatMap (aggregateVars plan)))
  | .select _ | .order .. | .limit _ | .exchange _ => onlyEnv body.kind envs
  | .join .. =>
    match envs with
    | [left, right] => pure (left.extend right)
    | envs => throw (.inputCount body.kind envs.length 2)
  | .boundary _ vars => pure ((envs.foldl TypeEnv.extend []).extend vars)

/-- Computes and stores the variables of an operator, to a bounded depth of operators that have
none yet. -/
def computeEnvWithin : Nat → OpId → Editing Unit
  | 0, _ => throw (.fault .outOfRange)
  | depth + 1, id => do
    let op ← fetch id
    let require (next : OpId) : Editing TypeEnv := do
      if (← fetch next).env.isNone then computeEnvWithin depth next
      pure ((← fetch next).env.getD [])
    let envs ← op.inputs.mapM require
    let _ ← op.body.nested?.toList.mapM require
    match produce (← get) op.body envs with
    | .ok env => modifyGet fun plan => ((), plan.modify id fun op => { op with env := some env })
    | .error cause => throw (.error cause)

def computeEnv (id : OpId) : Editing Unit := do
  computeEnvWithin ((← get).ops.size + 1) id

/-- Computes the variables of every operator reachable from a root, inputs first. -/
def recompute (root : OpId) : Editing Unit := do
  match (← get).walk root with
  | .ok ids => ids.forM computeEnv
  | .error fault => throw (.fault fault)

end QueryFusion.Plan

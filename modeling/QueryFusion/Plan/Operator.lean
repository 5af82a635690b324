import QueryFusion.Expr.Basic

/-!
# Logical plans

A plan is a table of operators that refer to each other by their number, so that an operator can
have several consumers and can be edited in place. Group-bys and subplans own a nested plan rooted
at an aggregate; the leaf of a nested plan refers back to its owner.

Walks go from an operator down its inputs and nested plan and visit every operator once.
-/

namespace QueryFusion

namespace Plan

/-! ## Kinds of operators -/

/-- The kind of an operator. -/
inductive OpKind where
  | dataScan | emptyTupleSource | nestedTupleSource
  | select | project | assign | unnest | aggregate | groupBy | subplan
  | order | limit | exchange | innerJoin | leftOuterJoin
  | distinct | replicate | split | materialize | unionAll | intersect
  | tokenize | forward | window | script | write | insertDeleteUpsert
  | unnestMap | distributeResult
  | unnamed (code : UInt8)
deriving DecidableEq, Repr

namespace OpKind

def all : List OpKind := [
  dataScan, emptyTupleSource, nestedTupleSource,
  select, project, assign, unnest, aggregate, groupBy, subplan,
  order, limit, exchange, innerJoin, leftOuterJoin,
  distinct, replicate, split, materialize, unionAll, intersect,
  tokenize, forward, window, script, write, insertDeleteUpsert,
  unnestMap, distributeResult]

def name : OpKind → String
  | dataScan => "data-scan"
  | emptyTupleSource => "empty-tuple-source"
  | nestedTupleSource => "nested-tuple-source"
  | select => "select"
  | project => "project"
  | assign => "assign"
  | unnest => "unnest"
  | aggregate => "aggregate"
  | groupBy => "group-by"
  | subplan => "subplan"
  | order => "order"
  | limit => "limit"
  | exchange => "exchange"
  | innerJoin => "inner-join"
  | leftOuterJoin => "left-outer-join"
  | distinct => "distinct"
  | replicate => "replicate"
  | split => "split"
  | materialize => "materialize"
  | unionAll => "union-all"
  | intersect => "intersect"
  | tokenize => "tokenize"
  | forward => "forward"
  | window => "window"
  | script => "script"
  | write => "write"
  | insertDeleteUpsert => "insert-delete-upsert"
  | unnestMap => "unnest-map"
  | distributeResult => "distribute-result"
  | unnamed code => s!"OpKind({code.toNat})"

def ofName? (s : String) : Option OpKind := all.find? (·.name == s)

def ofCode (code : UInt8) : OpKind := all.getD code.toNat (unnamed code)

def code : OpKind → Nat
  | unnamed n => n.toNat
  | kind => all.idxOf kind

end OpKind

end Plan

/-! ## Operators -/

/-- The application of a function. -/
structure Call where
  fn : Func
  args : List Expr
  loc : Location

def Call.expr (c : Call) : Expr := .call c.fn c.args c.loc

namespace Plan

/-- The number of an operator. -/
abbrev OpId := Nat

/-- The live variables at the output of an operator, ascending by number. -/
abbrev TypeEnv := List Var

/-- A variable with the expression that computes it. -/
structure Binding where
  var : Var
  expr : Expr

/-- A sort key. -/
structure OrderKey where
  expr : Expr
  descending : Bool

/-- What an operator does. -/
inductive Body where
  /-- Scans a dataset. The first variable is the record, the others describe it. A fused scan has
  the name and outputs of the function that replaces the operators above it. -/
  | scan (dataset : String) (vars : List Var) (function : String) (outputs : List Var)
  | emptySource
  /-- The current tuple of the input of the owner of a nested plan. -/
  | nestedSource (outer : Option OpId)
  | select (cond : Expr)
  | project (vars : List Var)
  /-- Extends tuples, binding by binding. -/
  | assign (vars : List Var) (exprs : List Expr)
  /-- One tuple for each element of a list, with its position where asked for. -/
  | unnest (var : Var) (pos : Option Var) (expr : Expr)
  /-- Reduces all tuples to one. The global phase merges partial results. -/
  | aggregate (vars : List Var) (calls : List Call) (isGlobal : Bool)
  /-- Evaluates the nested plan once for each group. -/
  | groupBy (keys : List Binding) (nested : Option OpId) (isGlobal : Bool)
  /-- Evaluates the nested plan once for each tuple. -/
  | subplan (nested : Option OpId)
  /-- Sorts; a non-negative `topK` tells how many leading tuples are consumed. -/
  | order (keys : List OrderKey) (topK : Int)
  | limit (count : Int64)
  | exchange (redistributes : Bool)
  | join (cond : Expr) (isOuter : Bool)
  /-- Any other kind, with the variables it adds. -/
  | boundary (kind : OpKind) (vars : List Var)
deriving Inhabited

def Body.kind : Body → OpKind
  | scan .. => .dataScan
  | emptySource => .emptyTupleSource
  | nestedSource _ => .nestedTupleSource
  | select _ => .select
  | project _ => .project
  | assign .. => .assign
  | unnest .. => .unnest
  | aggregate .. => .aggregate
  | groupBy .. => .groupBy
  | subplan _ => .subplan
  | order .. => .order
  | limit _ => .limit
  | exchange _ => .exchange
  | join _ isOuter => if isOuter then .leftOuterJoin else .innerJoin
  | boundary kind _ => kind

def Body.nested? : Body → Option OpId
  | groupBy _ nested _ => nested
  | subplan nested => nested
  | _ => none

def Body.exprs : Body → List Expr
  | select cond => [cond]
  | project vars => vars.map Expr.var
  | assign _ exprs => exprs
  | unnest _ _ expr => [expr]
  | aggregate _ calls _ => calls.map Call.expr
  | groupBy keys _ _ => keys.map Binding.expr
  | order keys _ => keys.map OrderKey.expr
  | join cond _ => [cond]
  | _ => []

/-- One operator. -/
structure Operator where
  body : Body
  inputs : List OpId
  /-- The variables at its output as last computed, if they were. -/
  env : Option TypeEnv := none
deriving Inhabited

def Operator.kind (op : Operator) : OpKind := op.body.kind

def Operator.input? (op : Operator) : Option OpId :=
  match op.inputs with
  | [input] => some input
  | _ => none

end Plan

/-- A table of operators. -/
structure Plan where
  ops : Array Plan.Operator := #[]

namespace Plan

protected def get (plan : Plan) (id : OpId) : Except Fault Operator :=
  match plan.ops[id]? with
  | some op => pure op
  | none => throw .outOfRange

protected def modify (plan : Plan) (id : OpId) (change : Operator → Operator) : Plan :=
  { plan with ops := plan.ops.modify id change }

def setInput (plan : Plan) (id : OpId) (i : Nat) (input : OpId) : Except Fault Plan := do
  let op ← plan.get id
  if i < op.inputs.length then
    pure (plan.modify id fun op => { op with inputs := op.inputs.set i input })
  else throw .outOfRange

def add (plan : Plan) (op : Operator) : OpId × Plan :=
  (plan.ops.size, { plan with ops := plan.ops.push op })

def input? (plan : Plan) (id : OpId) : Except Fault (Option (OpId × Operator)) := do
  let op ← plan.get id
  match op.input? with
  | some input => pure (some (input, ← plan.get input))
  | none => pure none

/-- Visits an operator and what is below it, to a bounded depth. The state holds the operators met
and those finished, both latest first. -/
def walkFrom (plan : Plan) : Nat → OpId → List OpId × List OpId →
    Except Fault (List OpId × List OpId)
  | 0, _, _ => throw .outOfRange
  | depth + 1, id, (met, finished) =>
    if met.contains id then pure (met, finished)
    else do
      let op ← plan.get id
      let below := op.inputs ++ op.body.nested?.toList
      let (met, finished) ← below.foldlM (fun state next => walkFrom plan depth next state)
        (id :: met, finished)
      pure (met, id :: finished)

/-- The operators reachable from a root, each once, inputs before their consumers and nested plans
before their owners. -/
def walk (plan : Plan) (root : OpId) : Except Fault (List OpId) := do
  let (_, finished) ← plan.walkFrom (plan.ops.size + 1) root ([], [])
  pure finished.reverse

/-! ## Errors -/

/-- The cause of a failed operation on a plan. -/
inductive PlanError where
  | inputCount (kind : OpKind) (got expected : Nat)
  | unevenAssign (vars exprs : Nat)
  | noParent (kind : OpKind)
  /-- The operator to remove or its consumer has not exactly one input. -/
  | notUnary (kind : OpKind) (inputs : Nat) (parent : OpKind) (parentInputs : Nat)
  /-- The operator to remove is not the input of the consumer. -/
  | notInput (kind parent : OpKind)
deriving DecidableEq, Repr

def PlanError.message : PlanError → String
  | inputCount kind got expected => s!"{kind.name}: {got} inputs; expected {expected}"
  | unevenAssign vars exprs => s!"assign: {vars} variables but {exprs} expressions"
  | noParent kind => s!"cannot remove {kind.name}: no parent"
  | notUnary kind inputs parent parentInputs =>
    s!"cannot remove {kind.name} ({inputs} inputs) from {parent.name} ({parentInputs} inputs): both must be unary"
  | notInput kind parent => s!"cannot remove {kind.name}: not the input of {parent.name}"

/-- Why an operation on a plan ended early. -/
inductive Failure where
  | error (cause : PlanError)
  | fault (fault : Fault)
deriving DecidableEq, Repr

end Plan

end QueryFusion

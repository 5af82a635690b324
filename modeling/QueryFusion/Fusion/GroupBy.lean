import QueryFusion.Fusion.ScalarCode
import QueryFusion.Fusion.Note
import QueryFusion.Plan.Dataset

/-!
# Group-bys

A local group-by can be fused in three ways. Over the elements of one list, with keys that are the
same for all of them, every record is a group of its own. Below an ordering that consumes only the
best groups, an aggregator keeps just those. Otherwise a single count or sum goes to an aggregator
that groups by hashing.
-/

namespace QueryFusion.Fusion

open Code (Node)

/-- A bound on the groups that an ordering consumes. -/
structure TopK where
  count : Int
  /-- Whether the least values win. -/
  least : Bool
deriving DecidableEq, Repr

/-- The aggregate at the root of a nested plan. -/
structure NestedAggregate where
  vars : List Var
  calls : List Call
  input : Option Plan.OpId

def nestedAggregate? (plan : Plan) (nested : Option Plan.OpId) : Option NestedAggregate := do
  let op ← plan.ops[← nested]?
  match op.body with
  | .aggregate vars calls _ => some ⟨vars, calls, op.input?⟩
  | _ => none

def isNestedSource (plan : Plan) (id : Option Plan.OpId) : Bool :=
  match id.bind fun i => plan.ops[i]? with
  | some { body := .nestedSource _, .. } => true
  | _ => false

/-- The bound on the groups of a global group-by with one key that only feeds an ordering by its
least or greatest values. -/
def topKBelow? (plan : Plan) (keys : List Plan.Binding) (nested : Option Plan.OpId)
    (parent : Option Plan.OpId) : Option TopK :=
  match nestedAggregate? plan nested, parent.bind fun i => plan.ops[i]? with
  | some aggregate, some { body := .order orderKeys count, .. } =>
    let extremes := aggregate.calls.all fun call => call.fn == .globalMax || call.fn == .globalMin
    let ordered := orderKeys.all fun key =>
      match key.expr with
      | .var v => aggregate.vars.any (·.id == v.id)
      | _ => false
    match orderKeys with
    | first :: _ =>
      if keys.length == 1 && 0 ≤ count && !aggregate.calls.isEmpty && extremes && ordered then
        some ⟨count, !first.descending⟩
      else none
    | [] => none
  | _, _ => none

/-- Whether a group-by aggregates its tuples directly, by scalar keys. -/
def isLocalGroupBy (plan : Plan) (keys : List Plan.Binding) (aggregate : NestedAggregate) : Bool :=
  isNestedSource plan aggregate.input &&
    keys.all (fun key => isScalar key.expr) && aggregate.calls.all fun call => areScalar call.args

/-- The first variable of an aggregate. -/
def firstVar : List Var → Emit Var
  | v :: _ => pure v
  | [] => throw (.fault .outOfRange)

/-- Groups by record: the loop over a list aggregates, and the group is written after the loop if
the list had elements. -/
def groupPerRecord (keys : List Plan.Binding) (aggregate : NestedAggregate) : Emit Bool := do
  let scope ← get
  let loop? ← askArena (·.enclosing (some scope.current) (· == .unnest))
  match loop?, aggregate.calls with
  | some loop, [call] =>
    if !isAccumulable call then pure false
    else if ← liftM (orAbort (keys.anyM fun key => scope.exprInLoop loop key.expr)) then pure false
    else
      let outer ← parentOf loop
      let flag ← declare outer (.bool false)
      let acc ← accumulate call outer
      emit (.set flag (.bool true))
      let yes ← openBlock outer .groupBy
      changeArena (·.appendHead outer (.branch (.ident flag) yes Code.emptyBlock))
      moveTo yes
      clearOutput
      keys.forM fun key => assignVar key.var key.expr
      let out ← firstVar aggregate.vars
      bindMeaning out (.code (.ident acc) [])
      putOutput out
      pure true
  | _, _ => pure false

/-- Lets an aggregator write the rows of a group-by. -/
def emitGroups (aggregator : String) (keys : List Plan.Binding) (aggregate : NestedAggregate) :
    Emit Unit := do
  modify fun scope => { scope with emitters := scope.emitters ++ [aggregator] }
  clearOutput
  keys.forM fun key => putOutput key.var
  putOutput (← firstVar aggregate.vars)

/-- Keeps only the best groups, if that is what an ordering above consumes. -/
def groupBest (topK : Option TopK) (keys : List Plan.Binding) (aggregate : NestedAggregate) :
    Emit Bool := do
  match topK, keys, aggregate.calls with
  | some k, [key], [call] =>
    match call.args with
    | [arg] =>
      if (call.fn.isMin && k.least) || (call.fn.isMax && !k.least) then
        let body := (← get).fn.body
        let aggregator ← declare body
          (.call Code.Builtin.newTopKAggregator [.long (Int64.ofInt k.count), .bool k.least])
        let keyNode ← codeOf key.expr
        let value ← codeOf arg
        emit (.member (.ident aggregator) Code.Member.accumulate [keyNode, value])
        emitGroups aggregator keys aggregate
        pure true
      else pure false
    | _ => pure false
  | _, _, _ => pure false

/-- Groups by hashing. Several keys are joined to one. -/
def groupByHash (config : Plan.Config) (keys : List Plan.Binding) (aggregate : NestedAggregate) :
    Emit Bool := do
  match keys, aggregate.calls with
  | _ :: _, [call] =>
    match aggregatorKind? call with
    | none => pure false
    | some kind =>
      let body := (← get).fn.body
      let aggregator ← declare body
        (.call Code.Builtin.newHashAggregator [.string kind, .long config.groupByMemory])
      let nodes ← codesOf (keys.map Plan.Binding.expr)
      let keyNode := match nodes with
        | [node] => node
        | nodes => Node.call Code.Builtin.makeKey nodes
      let value ← aggregatorValue call
      emit (.member (.ident aggregator) Code.Member.accumulate [keyNode, value])
      emitGroups aggregator keys aggregate
      pure true
  | _, _ => pure false

/-- Fuses a local group-by in the first way that applies. -/
def groupLocally (config : Plan.Config) (topK : Option TopK) (keys : List Plan.Binding)
    (aggregate : NestedAggregate) : Emit (Option Grouping) := do
  if ← groupPerRecord keys aggregate then pure (some .perRecord)
  else if ← groupBest topK keys aggregate then pure (topK.map fun k => .best k.count)
  else if ← groupByHash config keys aggregate then pure (some .hash)
  else pure none

end QueryFusion.Fusion

import QueryFusion.Plan.Operator

/-!
# Text of plans

A plan is shown with one operator a line, the inputs indented below their consumer and a nested
plan between braces before the inputs. A binding without an expression has no text, which is a
fault.
-/

namespace QueryFusion.Plan

def varsText (vars : List Var) : String := "[" ++ ", ".intercalate (vars.map Var.text) ++ "]"

/-- The texts of bindings: each variable needs an expression. -/
def bindingTexts : List Var → List Expr → Except Fault (List String)
  | [], _ => pure []
  | _ :: _, [] => throw .outOfRange
  | v :: vars, e :: exprs => do
    let text ← e.text
    let rest ← bindingTexts vars exprs
    pure ((v.text ++ " <- " ++ text) :: rest)

def bindingsText (vars : List Var) (exprs : List Expr) : Except Fault String := do
  let texts ← bindingTexts vars exprs
  pure ("[" ++ ", ".intercalate texts ++ "]")

def OrderKey.text (key : OrderKey) : Except Fault String := do
  let text ← key.expr.text
  pure (" " ++ text ++ (if key.descending then " desc" else " asc"))

def globalMark (isGlobal : Bool) : String := if isGlobal then " global" else ""

def Body.text (body : Body) : Except Fault String :=
  match body with
  | .scan dataset vars function outputs =>
    let base := s!"{body.kind.name} {dataset} {varsText vars}"
    pure (if function.isEmpty then base else base ++ s!" -> {function} {varsText outputs}")
  | .select cond | .join cond _ => do
    let text ← cond.text
    pure s!"{body.kind.name} ({text})"
  | .project vars => pure s!"{body.kind.name} {varsText vars}"
  | .assign vars exprs => do
    let text ← bindingsText vars exprs
    pure s!"{body.kind.name} {text}"
  | .unnest v pos expr => do
    let text ← expr.text
    let place := match pos with
      | some p => " at " ++ p.text
      | none => ""
    pure s!"{body.kind.name} {v.text}{place} <- {text}"
  | .aggregate vars calls isGlobal => do
    let text ← bindingsText vars (calls.map Call.expr)
    pure s!"{body.kind.name} {text}{globalMark isGlobal}"
  | .groupBy keys _ isGlobal => do
    let text ← bindingsText (keys.map Binding.var) (keys.map Binding.expr)
    pure s!"{body.kind.name} {text}{globalMark isGlobal}"
  | .order keys topK => do
    let texts ← keys.mapM OrderKey.text
    let bound := if 0 ≤ topK then s!" topk {topK}" else ""
    pure (body.kind.name ++ String.join texts ++ bound)
  | .limit count => pure s!"{body.kind.name} {count.toInt}"
  | .exchange redistributes =>
    pure (body.kind.name ++ (if redistributes then " redistribute" else ""))
  | .boundary _ vars =>
    pure (if vars.isEmpty then body.kind.name else s!"{body.kind.name} {varsText vars}")
  | .emptySource | .nestedSource _ | .subplan _ => pure body.kind.name

def indent (level : Nat) : String := String.ofList (List.replicate (2 * level) ' ')

def describeFrom (plan : Plan) : Nat → OpId → Nat → Except Fault String
  | 0, _, _ => throw .outOfRange
  | depth + 1, id, level => do
    let op ← plan.get id
    let text ← op.body.text
    let nested ← op.body.nested?.toList.mapM fun next => do
      let inner ← describeFrom plan depth next (level + 2)
      pure (indent level ++ "  \x7b\n" ++ inner ++ indent level ++ "  \x7d\n")
    let inputs ← op.inputs.mapM fun next => describeFrom plan depth next (level + 1)
    pure (indent level ++ text ++ "\n" ++ String.join nested ++ String.join inputs)

def describe (plan : Plan) (root : OpId) : Except Fault String :=
  plan.describeFrom (plan.ops.size + 1) root 0

end QueryFusion.Plan

import QueryFusion.Plan.TypeEnv

/-!
# Edits that can be taken back

A draft is a plan together with the edits made to it since the last commit. Each edit remembers
what it replaced; undoing takes the edits back, the latest first, and computes the live variables
anew. An edit refused before it changes anything is not recorded.
-/

namespace QueryFusion.Plan

/-- How to take back one edit. -/
inductive Edit where
  | input (op old : OpId)
  /-- Puts a binding of an assign back in its place. -/
  | binding (op : OpId) (i : Nat) (var : Var) (expr : Expr)
  /-- Restores the function and outputs of a scan. -/
  | scan (op : OpId) (function : String) (outputs : List Var)

def insertAt {α : Type} (i : Nat) (a : α) (as : List α) : List α := as.take i ++ a :: as.drop i

def Body.mapAssign (onVars : List Var → List Var) (onExprs : List Expr → List Expr) : Body → Body
  | .assign vars exprs => .assign (onVars vars) (onExprs exprs)
  | body => body

def Body.mark (function : String) (outputs : List Var) : Body → Body
  | .scan dataset vars _ _ => .scan dataset vars function outputs
  | body => body

def Edit.revert (plan : Plan) : Edit → Plan
  | input op old => plan.modify op fun o => { o with inputs := o.inputs.set 0 old }
  | binding op i v e =>
    plan.modify op fun o => { o with body := o.body.mapAssign (insertAt i v) (insertAt i e) }
  | scan op function outputs =>
    plan.modify op fun o => { o with body := o.body.mark function outputs }

/-- A plan with the edits that can be taken back, the latest first. -/
structure Draft where
  plan : Plan
  edits : List Edit := []

/-- A computation on a draft; changes made before a failure stay. -/
abbrev Drafting := EStateM Failure Draft

def onPlan {α : Type} (step : Editing α) : Drafting α := fun draft =>
  match step draft.plan with
  | .ok a plan => .ok a { draft with plan }
  | .error failure plan => .error failure { draft with plan }

def refuse {α : Type} (cause : PlanError) : Drafting α := throw (.error cause)

/-- Connects the input of `op` to `parent` in place of `op`. Both must be unary, and `op` the input
of `parent`. The edit is recorded before the live variables are computed, so a failure there can be
taken back. -/
def remove (op : OpId) (parent : Option OpId) : Drafting Unit := do
  let o ← onPlan (fetch op)
  match parent with
  | none => refuse (.noParent o.kind)
  | some consumer =>
    let p ← onPlan (fetch consumer)
    match o.inputs, p.inputs with
    | [input], [current] =>
      if current = op then
        modify fun draft =>
          { plan := draft.plan.modify consumer fun c => { c with inputs := c.inputs.set 0 input }
            edits := .input consumer op :: draft.edits }
        onPlan (computeEnv input)
        onPlan (computeEnv consumer)
      else refuse (.notInput o.kind p.kind)
    | inputs, parentInputs =>
      refuse (.notUnary o.kind inputs.length p.kind parentInputs.length)

def removeBinding (op : OpId) (i : Nat) : Drafting Unit := do
  let o ← onPlan (fetch op)
  match o.body with
  | .assign vars exprs =>
    match vars[i]?, exprs[i]? with
    | some v, some e =>
      modify fun draft =>
        { plan := draft.plan.modify op fun c =>
            { c with body := c.body.mapAssign (·.eraseIdx i) (·.eraseIdx i) }
          edits := .binding op i v e :: draft.edits }
    | _, _ => throw (.fault .outOfRange)
  | _ => throw (.fault .outOfRange)

/-- Marks a scan with the function that replaces the operators above it. -/
def markScan (op : OpId) (function : String) (outputs : List Var) : Drafting Unit := do
  let o ← onPlan (fetch op)
  match o.body with
  | .scan _ _ oldFunction oldOutputs =>
    modify fun draft =>
      { plan := draft.plan.modify op fun c => { c with body := c.body.mark function outputs }
        edits := .scan op oldFunction oldOutputs :: draft.edits }
  | _ => throw (.fault .outOfRange)

def Draft.revert (draft : Draft) : Draft :=
  { plan := draft.edits.foldl Edit.revert draft.plan, edits := [] }

/-- Takes back all edits and computes the live variables below a root. -/
def undo (root : Option OpId) : Drafting Unit := do
  modify Draft.revert
  match root with
  | some r => onPlan (recompute r)
  | none => pure ()

def commit : Drafting Unit := modify fun draft => { draft with edits := [] }

end QueryFusion.Plan

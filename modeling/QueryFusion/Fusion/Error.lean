import QueryFusion.Plan.Operator

/-!
# Compilation errors

Why a plan cannot be compiled. Every cause belongs to a class, and most name the expression that was
being compiled; where that is a call, its function and position are part of the text.
-/

namespace QueryFusion.Fusion

/-- The class of a cause. -/
inductive ErrorClass where
  | unknownFunction
  /-- An operator that is not unary would have to leave the plan. -/
  | illegalRemoval
  /-- Something other than a scalar expression was met. -/
  | nonScalar
  /-- A path or variable has no value here. -/
  | unboundPath
  | unsupportedConstant
  | unnamed (code : UInt8)
deriving DecidableEq, Repr

def ErrorClass.ofCode (code : UInt8) : ErrorClass :=
  match code.toNat with
  | 1 => unknownFunction
  | 2 => illegalRemoval
  | 3 => nonScalar
  | 4 => unboundPath
  | 5 => unsupportedConstant
  | _ => unnamed code

def ErrorClass.name : ErrorClass → String
  | unknownFunction => "unknown function"
  | illegalRemoval => "illegal removal"
  | nonScalar => "non-scalar expression"
  | unboundPath => "unbound path"
  | unsupportedConstant => "unsupported constant"
  | unnamed code => s!"Code({code.toNat})"

/-- Why a plan cannot be compiled. -/
inductive FuseError where
  /-- A path is read that is not in the schema of the scan. -/
  | noReader (path dataset : String)
  /-- A list that only its first item is kept of is read as a whole. -/
  | neverMaterialized (v : Var)
  | unboundVar (v : Var)
  | noLiteral (c : Constant)
  | unexpectedExpr
  | argumentCount (call : Call) (expected : Nat)
  | nonScalarCall (call : Call)
  /-- A field access denotes a path that is not in the schema of the scan. -/
  | notPushedDown (call : Call) (path : String)
  | noArguments (call : Call)
  /-- A case distinction has no default. -/
  | switchArity (call : Call)
  /-- Something other than a kept list is indexed. -/
  | notIndexable (call : Call) (target : String)
  /-- A kept list is indexed by something that is not a constant integer. -/
  | indexNotConstant (call : Call) (index : String) (v : Var)
  /-- A value that exists only inside the function is read outside of it. -/
  | readOutside (v : Var) (dataset : String)
  /-- An array of a nested plan cannot be iterated. -/
  | cannotIterate (e : Expr) (text : String)
  | noAccumulator (call : Call)
  | removal (cause : Plan.PlanError)
  /-- The live variables of a fused scan cannot be computed. -/
  | scanEnv (dataset : String) (cause : Plan.PlanError)

namespace FuseError

def errorClass : FuseError → ErrorClass
  | noReader .. | unboundVar _ | notPushedDown .. | cannotIterate .. => .unboundPath
  | neverMaterialized _ | unexpectedExpr | nonScalarCall _ | readOutside .. | noAccumulator _ =>
    .nonScalar
  | noLiteral _ => .unsupportedConstant
  | argumentCount .. | noArguments _ | switchArity _ | notIndexable .. | indexNotConstant .. =>
    .unknownFunction
  | removal _ | scanEnv .. => .illegalRemoval

def expr? : FuseError → Option Expr
  | neverMaterialized v | unboundVar v | readOutside v _ => some (.var v)
  | noLiteral c => some (.const c)
  | argumentCount call _ | nonScalarCall call | notPushedDown call _ | noArguments call
  | switchArity call | notIndexable call _ | indexNotConstant call _ _ | noAccumulator call =>
    some call.expr
  | cannotIterate .absent _ => none
  | cannotIterate e _ => some e
  | noReader .. | unexpectedExpr | removal _ | scanEnv .. => none

def fn? (e : FuseError) : Option Func :=
  match e.expr? with
  | some (.call fn _ _) => some fn
  | _ => none

def loc (e : FuseError) : Location :=
  match e.expr? with
  | some (.call _ _ loc) => loc
  | _ => Location.none

def detail : FuseError → String
  | noReader path dataset => s!"no reader for path {path} of {dataset}"
  | neverMaterialized v =>
    s!"list {v.text} is never materialized; only its first item can be read"
  | unboundVar v => s!"variable {v.text} is not bound in this scope"
  | noLiteral c =>
    let typeName := match c with
      | .foreign f => f.typeName
      | _ => ""
    s!"constant {c.text} ({typeName}) has no literal form"
  | unexpectedExpr => "unexpected expression <nil>"
  | argumentCount call expected => s!"{call.args.length} arguments; expected {expected}"
  | nonScalarCall call =>
    s!"{call.fn.kind.name} function {call.fn.name} reached the scalar translator"
  | notPushedDown _ path => s!"path {path} was not pushed down"
  | noArguments _ => "no arguments"
  | switchArity call =>
    s!"{call.args.length} arguments; expected (condition, value) pairs and a default"
  | notIndexable _ target => s!"indexing into {target} is not supported"
  | indexNotConstant _ index v => s!"index {index} into {v.text} is not a constant integer"
  | readOutside v dataset => s!"{v.text} is read outside of {dataset}"
  | cannotIterate _ text => s!"cannot iterate {text} in nested plan"
  | noAccumulator call => s!"aggregate {call.fn.name} has no accumulator"
  | removal cause => cause.message
  | scanEnv dataset cause => s!"scan {dataset}: {cause.message}"

def message (e : FuseError) : String :=
  match e.fn? with
  | some fn => s!"fuse: {e.errorClass.name} {fn.name} at {e.loc.text}: {e.detail}"
  | none => s!"fuse: {e.errorClass.name}: {e.detail}"

/-- The text of a cause after the expression it arose in. -/
def report (e : FuseError) : Except Fault String :=
  match e.expr? with
  | none => pure (e.message ++ "\n")
  | some inner => do
    let text ← inner.text
    pure s!"in expression:\n\t{text}\n{e.message}\n"

end FuseError

/-- Why code could not be made. -/
inductive Abort where
  | error (cause : FuseError)
  /-- The live variables of the compiled plan cannot be computed. -/
  | plan (cause : Plan.PlanError)
  | fault (fault : Fault)

end QueryFusion.Fusion

import QueryFusion.Fusion.Scope

/-!
# Code of scalar expressions

A scalar expression becomes a code expression for the current block. Most calls become calls of the
engine's function of the same name. Comparisons and arithmetic become operators, connectives nest to
the left, and a case distinction becomes a chain of branches that store into a fresh variable; the
readers of all its branches are advanced before the chain, so that no branch advances one.
-/

namespace QueryFusion.Fusion

open Code (Node BlockId BinaryOp)

mutual

/-- Whether every function applied in an expression is scalar. -/
def isScalar : Expr → Bool
  | .call fn args _ => fn.kind == .scalar && areScalar args
  | _ => true

def areScalar : List Expr → Bool
  | [] => true
  | e :: rest => isScalar e && areScalar rest

end

def operatorOf? : Func → Option BinaryOp
  | .eq => some .eq
  | .neq => some .ne
  | .lt => some .lt
  | .le => some .le
  | .gt => some .gt
  | .ge => some .ge
  | .add => some .add
  | .subtract => some .sub
  | .multiply => some .mul
  | .divide => some .div
  | .mod => some .mod
  | _ => none

def literalOf (c : Constant) : Except FuseError Node :=
  match c with
  | .null => pure .null
  | .missing => pure .missing
  | .bool b => pure (.bool b)
  | .int n => pure (.long n)
  | .double x => pure (.lit (.double x))
  | .string s => pure (.lit (.columnString s))
  | .foreign _ => throw (.noLiteral c)

def isZero : Expr → Bool
  | .const (.int n) => n == 0
  | _ => false

def textOf (e : Expr) : Emit String := liftM (orAbort e.text)

/-- The flag of a count that a comparison tests against zero. -/
def flagOf? (left right : Expr) : Emit (Option String) := do
  let flagged (tested other : Expr) : Emit (Option String) := do
    match tested with
    | .var v =>
      match (← get).live.flags.find? v with
      | some flag =>
        if isZero other then
          modify fun scope => { scope with consumed := scope.consumed.increment v }
          pure (some flag)
        else pure none
      | none => pure none
    | _ => pure none
  match ← flagged left right with
  | some flag => pure (some flag)
  | none => flagged right left

/-- The code of an index into a list of which only the first item is kept. -/
def itemAt (call : Call) : Emit Node := do
  match call.args with
  | [target, index] =>
    match target with
    | .var v =>
      match (← get).live.items.find? v with
      | none => failWith (.notIndexable call v.text)
      | some item =>
        match index with
        | .const (.int n) =>
          modify fun scope => { scope with consumed := scope.consumed.increment v }
          pure (if n = 0 then .ident item else .missing)
        | _ => failWith (.indexNotConstant call (← textOf index) v)
    | _ => failWith (.notIndexable call (← textOf target))
  | _ => failWith (.argumentCount call 2)

mutual

/-- The code expression that evaluates an expression in the current block. -/
def codeOf : Expr → Emit Node
  | .absent => failWith .unexpectedExpr
  | .var v => valueOf v
  | .const c => liftM ((literalOf c).mapError Abort.error)
  | .call fn args loc => do
    let call : Call := ⟨fn, args, loc⟩
    if fn.kind ≠ .scalar then failWith (.nonScalarCall call)
    else
      match operatorOf? fn with
      | some op => pairCode call op args
      | none =>
        match fn with
        | .not => notCode call args
        | .and => foldCode call .and args
        | .or => foldCode call .or args
        | .switchCase =>
          if args.length % 2 = 0 then failWith (.switchArity call)
          else
            let result ← declareHere .null
            advanceArgs args
            let home := (← get).current
            armsCode result args
            moveTo home
            pure (.ident result)
        | .getItem => itemAt call
        | .fieldAccess =>
          let schema := (← get).schema
          match schema.pathOf? call.expr with
          | some p =>
            if schema.has p then readPath p else failWith (.notPushedDown call p.text)
          | none => return .call fn.name (← codesOf args)
        | _ => return .call fn.name (← codesOf args)

def codesOf : List Expr → Emit (List Node)
  | [] => pure []
  | arg :: rest => do
    let first ← codeOf arg
    let others ← codesOf rest
    pure (first :: others)

/-- The code of an operator; a comparison of a replaced count with zero is its flag. -/
def pairCode (call : Call) (op : BinaryOp) : List Expr → Emit Node
  | [left, right] => do
    let flag? ← if op = .eq ∨ op = .ne then flagOf? left right else pure none
    match flag? with
    | some flag => pure (if op = .eq then .not (.ident flag) else .ident flag)
    | none =>
      let l ← codeOf left
      let r ← codeOf right
      pure (.binary op l r)
  | _ => failWith (.argumentCount call 2)

def notCode (call : Call) : List Expr → Emit Node
  | [arg] => return .not (← codeOf arg)
  | _ => failWith (.argumentCount call 1)

/-- The code of a connective of any positive number of arguments. -/
def foldCode (call : Call) (op : BinaryOp) : List Expr → Emit Node
  | [] => failWith (.noArguments call)
  | arg :: rest => do
    let first ← codeOf arg
    foldCodeFrom op first rest

/-- Joins the code of further arguments to what is there. -/
def foldCodeFrom (op : BinaryOp) (folded : Node) : List Expr → Emit Node
  | [] => pure folded
  | arg :: rest => do
    let next ← codeOf arg
    foldCodeFrom op (.binary op folded next) rest

/-- The branches of a case distinction: conditions with their values, then the default. -/
def armsCode (result : String) : List Expr → Emit Unit
  | [] => pure ()
  | [default] => do emit (.set result (← codeOf default))
  | cond :: value :: rest => do
    let test ← codeOf cond
    let here := (← get).current
    let yes ← openBlock here .case
    let no ← openBlock here .case
    emit (.branch test yes no)
    moveTo yes
    emit (.set result (← codeOf value))
    moveTo no
    armsCode result rest

end

/-- Binds a variable to the value of an expression and makes it an output. The value at a path is
read on first use; anything else is evaluated in the current block. -/
def assignVar (v : Var) (e : Expr) : Emit Unit := do
  let schema := (← get).schema
  match (schema.pathOf? e).filter schema.has with
  | some p => bindMeaning v (.path p)
  | none =>
    let (name, readers) ← tracking do temp (← codeOf e)
    bindMeaning v (.code (.ident name) readers)
  putOutput v

/-- Guards the rest of the current block with a condition. -/
def selectOn (cond : Expr) : Emit Unit := do
  let test ← codeOf cond
  let here := (← get).current
  let yes ← openBlock here .select
  emit (.branch test yes Code.emptyBlock)
  moveTo yes

/-!
## Accumulators

Counts, sums, least and greatest values are accumulated in a variable. It starts from zero for
counts and for partial sums and from null otherwise, and is updated once for each tuple.
-/

def isAccumulable (call : Call) : Bool :=
  call.fn.isCount || call.fn.isSum || call.fn.isMin || call.fn.isMax

/-- Whether a count counts tuples and not known values. -/
def countsTuples (call : Call) : Bool :=
  match call.args with
  | [] => true
  | arg :: _ => arg.isConstant

/-- What a count adds for the current tuple. -/
def incrementOf (call : Call) : Emit Node :=
  match call.args with
  | [] => pure (.long 1)
  | arg :: _ =>
    if arg.isConstant then pure (.long 1)
    else return .call Code.Builtin.oneOrZero [← codeOf arg]

def seedOf (fn : Func) : Node := if fn.isZeroSeeded then .long 0 else .null

def combinatorOf (fn : Func) : BinaryOp :=
  if fn.isSum then .aggAdd else if fn.isMin then .aggMin else .aggMax

/-- Declares an accumulator in a block and updates it in the current one. -/
def accumulate (call : Call) (home : BlockId) : Emit String := do
  if !isAccumulable call then failWith (.noAccumulator call)
  else
    let acc ← declare home (seedOf call.fn)
    if call.fn.isCount then
      let step ← incrementOf call
      emit (.set acc (.binary .add (.ident acc) step))
      pure acc
    else
      match call.args with
      | [arg] =>
        let value ← codeOf arg
        emit (.set acc (.binary (combinatorOf call.fn) (.ident acc) value))
        pure acc
      | _ => failWith (.argumentCount call 1)

def aggregatorKind? (call : Call) : Option String :=
  if call.fn.isCount then some "COUNT"
  else if call.fn.isSum && call.args.length == 1 then
    some (if call.fn.isZeroSeeded then "LOCAL_SUM" else "SUM")
  else none

/-- What an aggregate gives to the engine's aggregator for the current tuple. -/
def aggregatorValue (call : Call) : Emit Node :=
  if call.fn.isCount then incrementOf call
  else
    match call.args with
    | arg :: _ => codeOf arg
    | [] => throw (.fault .outOfRange)

end QueryFusion.Fusion

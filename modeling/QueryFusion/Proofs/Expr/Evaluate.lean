import QueryFusion.Engine.Scalar
import QueryFusion.Expr.Basic

/-!
# Values of expressions

The value of an expression, given the values of some expressions in it: of variables, and of calls
that are not evaluated because their value is kept elsewhere. Operands are evaluated left to right
and all of them before the operation; only a case distinction evaluates no more than the conditions
up to the first one that is true, and the value after that. There is no value if a function does not
exist or gets a wrong number of arguments.
-/

namespace QueryFusion

open Engine (callScalar)

/-- The value of a constant; a foreign one has none. -/
def Constant.value? : Constant → Option Value
  | null => some .null
  | missing => some .missing
  | bool b => some (.bool b)
  | int n => some (.int n)
  | double x => some (.double x)
  | string s => some (.string s)
  | foreign _ => none

/-- A scalar function on the values of its arguments. -/
def Func.onValues? : Func → List Value → Option Value
  | .not, [a] => some a.negation
  | .and, a :: rest => some (rest.foldl (Value.binary .and) a)
  | .or, a :: rest => some (rest.foldl (Value.binary .or) a)
  | .eq, [a, b] => some (Value.binary .eq a b)
  | .neq, [a, b] => some (Value.binary .ne a b)
  | .lt, [a, b] => some (Value.binary .lt a b)
  | .le, [a, b] => some (Value.binary .le a b)
  | .gt, [a, b] => some (Value.binary .gt a b)
  | .ge, [a, b] => some (Value.binary .ge a b)
  | .add, [a, b] => some (Value.binary .add a b)
  | .subtract, [a, b] => some (Value.binary .sub a b)
  | .multiply, [a, b] => some (Value.binary .mul a b)
  | .divide, [a, b] => some (Value.binary .div a b)
  | .mod, [a, b] => some (Value.binary .mod a b)
  | fn, vs => (callScalar fn.name vs).toOption

namespace Expr

mutual

/-- The value of an expression, given the values of some. -/
def value? (known : Expr → Option Value) : Expr → Option Value
  | absent => none
  | var v => known (var v)
  | const c => c.value?
  | call fn args loc =>
    match known (call fn args loc) with
    | some value => some value
    | none =>
      if fn = .switchCase then caseValue? known args
      else do
        let vs ← values? known args
        fn.onValues? vs

/-- The values of expressions, left to right. -/
def values? (known : Expr → Option Value) : List Expr → Option (List Value)
  | [] => some []
  | e :: rest => do
    let v ← value? known e
    let vs ← values? known rest
    some (v :: vs)

/-- The value of a case distinction: conditions with their values, then the default. -/
def caseValue? (known : Expr → Option Value) : List Expr → Option Value
  | [] => some .null
  | [default] => value? known default
  | cond :: value :: rest => do
    let c ← value? known cond
    if c.truth then value? known value else caseValue? known rest

end

end Expr

end QueryFusion

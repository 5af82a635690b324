import QueryFusion.Code.Node
import QueryFusion.Value.Encode

/-!
# Operators on values

Arithmetic wraps around at 64 bits, divides toward zero, and is null for a zero divisor; an unknown
operand or one that is no number makes it missing. Comparisons are null for unknown operands.
Conjunction and disjunction are three-valued. The combinators of accumulators pass over unknown
operands.
-/

namespace QueryFusion.Value

open QueryFusion.Code (BinaryOp)

/-- The arithmetic operators. -/
inductive Arithmetic where
  | add | sub | mul | div | mod
deriving DecidableEq, Repr

def Arithmetic.onInts (op : Arithmetic) (x y : Int64) : Value :=
  match op with
  | add => int (x + y)
  | sub => int (x - y)
  | mul => int (x * y)
  | div => if y = 0 then null else int (x / y)
  | mod => if y = 0 then null else int (x % y)

def Arithmetic.onDoubles (op : Arithmetic) (x y : Float) : Value :=
  match op with
  | add => double (x + y)
  | sub => double (x - y)
  | mul => double (x * y)
  | div => if y == 0 then null else double (x / y)
  | mod => if y == 0 then null else double (Decimal.remainder x y)

/-- Arithmetic on any two values: exact on integers, otherwise in doubles. -/
def Arithmetic.apply (op : Arithmetic) (a b : Value) : Value :=
  match a, b with
  | int x, int y => op.onInts x y
  | a, b =>
    match a.number?, b.number? with
    | some x, some y => op.onDoubles x y
    | _, _ => missing

/-- The combinators of accumulators. -/
inductive Combinator where
  | add | least | greatest
deriving DecidableEq, Repr

/-- Combines two accumulators; an unknown one yields the other. -/
def Combinator.apply (op : Combinator) (a b : Value) : Value :=
  if b.isUnknown then a
  else if a.isUnknown then b
  else match op with
    | add => Arithmetic.add.apply a b
    | least =>
      match compare? a b with
      | some .gt => b
      | _ => a
    | greatest =>
      match compare? a b with
      | some .lt | some .eq => b
      | _ => a

def conj : Value → Value → Value
  | bool false, _ => bool false
  | _, bool false => bool false
  | bool true, bool true => bool true
  | _, _ => null

def disj : Value → Value → Value
  | bool true, _ => bool true
  | _, bool true => bool true
  | bool false, bool false => bool false
  | _, _ => null

/-- A comparison: null when an operand is unknown. -/
def comparison (test : Value → Value → Value) (a b : Value) : Value :=
  if a.isUnknown || b.isUnknown then null else test a b

/-- A test on the order of two values: null when they have none. -/
def ordered (test : Ordering → Bool) (a b : Value) : Value :=
  match compare? a b with
  | some order => bool (test order)
  | none => null

/-- Applies a binary operator. A number that stands for no operator compares like "at least". -/
def binary : BinaryOp → Value → Value → Value
  | .add => Arithmetic.add.apply
  | .sub => Arithmetic.sub.apply
  | .mul => Arithmetic.mul.apply
  | .div => Arithmetic.div.apply
  | .mod => Arithmetic.mod.apply
  | .and => conj
  | .or => disj
  | .eq => comparison fun a b => bool (a.equal b)
  | .ne => comparison fun a b => bool !(a.equal b)
  | .lt => comparison (ordered (· == .lt))
  | .le => comparison (ordered (· != .gt))
  | .gt => comparison (ordered (· == .gt))
  | .ge | .unnamed _ => comparison (ordered (· != .lt))
  | .aggAdd => Combinator.add.apply
  | .aggMax => Combinator.greatest.apply
  | .aggMin => Combinator.least.apply

/-- Negation: null for anything but a boolean. -/
def negation : Value → Value
  | bool b => bool !b
  | _ => null

end QueryFusion.Value

import QueryFusion.Expr.Func
import QueryFusion.Text.LetterCase
import QueryFusion.Value.Operation
import QueryFusion.Engine.Error

/-!
# Scalar functions

The functions that are called by name on evaluated arguments. Apart from the tests for unknown
values, a missing first argument makes the result missing and a null one makes it null; an argument
of the wrong sort makes it missing.
-/

namespace QueryFusion.Engine

open Value

def expectArgs (name : String) (args : List Value) (expected : Nat) : Except RunError Unit :=
  if args.length = expected then pure ()
  else throw (.argumentCount name args.length expected)

def containsText (needle : List Char) : List Char → Bool
  | [] => needle.isEmpty
  | c :: rest => needle.isPrefixOf (c :: rest) || containsText needle rest

def arity : Func → Nat
  | .contains | .startsWith | .fieldAccess => 2
  | _ => 1

def oneOrZero (v : Value) : Value := if v.isUnknown then int 0 else int 1

def listLength : Value → Value
  | list vs => int (Int64.ofNat vs.length)
  | _ => missing

def onText (f : String → Value) : Value → Value
  | string s => f s
  | _ => missing

def onTexts (f : String → String → Bool) : Value → Value → Value
  | string s, string t => bool (f s t)
  | _, _ => missing

/-- The absolute value; the least integer stays as it is. -/
def absolute : Value → Value
  | int n => if n < 0 then int (-n) else int n
  | double x => if x < 0 then double (-x) else double x
  | _ => missing

def fieldAccess (v : Value) : Value → Value
  | string name => v.navigate [.field name]
  | _ => missing

/-- A scalar function on a first argument that is known, and a second one where it takes two. -/
def applyKnown (fn : Func) (v w : Value) : Except RunError Value :=
  match fn with
  | .lowercase => pure (onText (fun s => string (Text.lowercase s)) v)
  | .uppercase => pure (onText (fun s => string (Text.uppercase s)) v)
  | .stringLength => pure (onText (fun s => int (Int64.ofNat s.length)) v)
  | .contains => pure (onTexts (fun s t => containsText t.toList s.toList) v w)
  | .startsWith => pure (onTexts (fun s t => t.toList.isPrefixOf s.toList) v w)
  | .abs => pure (absolute v)
  | .negate => pure (Arithmetic.sub.apply (int 0) v)
  | fn => throw (.notCallable fn.name)

/-- A scalar function on arguments of the right number. -/
def applyScalar (fn : Func) (v w : Value) : Except RunError Value :=
  match fn, v with
  | .isMissing, missing => pure (bool true)
  | .isMissing, _ => pure (bool false)
  | .isNull, null => pure (bool true)
  | .isNull, _ => pure (bool false)
  | .isUnknown, v => pure (bool v.isUnknown)
  | _, missing => pure missing
  | .fieldAccess, v => pure (fieldAccess v w)
  | .arrayLength, v => pure (listLength v)
  | _, null => pure null
  | fn, v => applyKnown fn v w

def callScalar (name : String) (args : List Value) : Except RunError Value :=
  match Func.ofName? name with
  | some fn =>
    if fn.kind = .scalar then do
      expectArgs name args (arity fn)
      applyScalar fn (args.getD 0 missing) (args.getD 1 missing)
    else throw (.unknownFunction name)
  | none => throw (.unknownFunction name)

end QueryFusion.Engine

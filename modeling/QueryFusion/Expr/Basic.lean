import QueryFusion.Path
import QueryFusion.Text.Quoted
import QueryFusion.Decimal
import QueryFusion.Expr.Func

/-!
# Logical expressions

An expression is a variable, a constant or a call. Variables are told apart by their number alone;
their name is only for printing. An expression may also be absent; inside a call an absent argument
has no text, which is a fault.
-/

namespace QueryFusion

/-- The static type of a variable. -/
inductive VarType where
  | any | boolean | bigint | double | string | list | record
  | unnamed (code : UInt8)
deriving DecidableEq, Repr

def VarType.ofCode (code : UInt8) : VarType :=
  match code.toNat with
  | 0 => .any
  | 1 => .boolean
  | 2 => .bigint
  | 3 => .double
  | 4 => .string
  | 5 => .list
  | 6 => .record
  | _ => .unnamed code

def VarType.name : VarType → String
  | .any => "any"
  | .boolean => "boolean"
  | .bigint => "bigint"
  | .double => "double"
  | .string => "string"
  | .list => "list"
  | .record => "record"
  | .unnamed code => s!"Type({code.toNat})"

/-- A logical variable. -/
structure Var where
  id : Nat
  /-- The name it is printed with; the number is printed when it is empty. -/
  name : String
  type : VarType
deriving DecidableEq, Repr

def Var.text (v : Var) : String :=
  if v.name.isEmpty then s!"$${v.id}" else s!"$${v.name}"

/-- A constant that is no value of the engine. -/
inductive Foreign where
  | longs (ns : List Int64)
  | int32 (n : Int32)
deriving DecidableEq, Repr

def Foreign.text : Foreign → String
  | .longs ns => "[" ++ " ".intercalate (ns.map fun n => s!"{n.toInt}") ++ "]"
  | .int32 n => s!"{n.toInt}"

/-- The name of the representation of a foreign constant. -/
def Foreign.typeName : Foreign → String
  | .longs _ => "[]int64"
  | .int32 _ => "int32"

/-- A literal value. -/
inductive Constant where
  | null
  | missing
  | bool (b : Bool)
  | int (n : Int64)
  | double (x : Float)
  | string (s : String)
  | foreign (f : Foreign)
deriving Repr

namespace Constant

/-- The number of a constant's runtime type. -/
def tag : Constant → Nat
  | foreign _ => 0
  | missing => 1
  | null => 2
  | bool _ => 3
  | int _ => 4
  | double _ => 5
  | string _ => 6

def text : Constant → String
  | null => "null"
  | missing => "missing"
  | bool b => if b then "true" else "false"
  | int n => s!"{n.toInt}"
  | double x => Decimal.text x
  | string s => Text.quote s
  | foreign f => f.text

/-- Equality of constants: of one type and equal there. A double that is not a number differs from
itself, and foreign constants are compared by their text. -/
def equal : Constant → Constant → Bool
  | null, null => true
  | missing, missing => true
  | bool a, bool b => a == b
  | int a, int b => a == b
  | double a, double b => a == b
  | string a, string b => a == b
  | foreign a, foreign b => a.text == b.text
  | _, _ => false

end Constant

/-- A position in the query text. -/
structure Location where
  line : Int
  column : Int
deriving DecidableEq, Repr, Inhabited

def Location.none : Location := ⟨0, 0⟩

def Location.text (loc : Location) : String := s!"{loc.line}:{loc.column}"

/-- A logical expression. -/
inductive Expr where
  | absent
  | var (v : Var)
  | const (c : Constant)
  | call (fn : Func) (args : List Expr) (loc : Location)
deriving Repr, Inhabited

namespace Expr

def field (e : Expr) (name : String) : Expr :=
  call .fieldAccess [e, const (.string name)] Location.none

def isConstant : Expr → Bool
  | const _ => true
  | _ => false

mutual

/-- The text of an expression inside another one. -/
def textWithin : Expr → Except Fault String
  | absent => throw .outOfRange
  | var v => pure v.text
  | const c => pure c.text
  | call fn args _ => do
    let parts ← textArgs args
    pure (fn.name ++ "(" ++ ", ".intercalate parts ++ ")")

def textArgs : List Expr → Except Fault (List String)
  | [] => pure []
  | arg :: rest => do
    let first ← textWithin arg
    let others ← textArgs rest
    pure (first :: others)

end

def text : Expr → Except Fault String
  | absent => pure "<nil>"
  | e => e.textWithin

mutual

/-- Structural equality; positions are not looked at. -/
def equal : Expr → Expr → Bool
  | absent, absent => true
  | var a, var b => a.id == b.id
  | const a, const b => a.equal b
  | call f as _, call g bs _ => f == g && equalArgs as bs
  | _, _ => false

/-- Equality of argument lists: of one length and equal one by one. -/
def equalArgs : List Expr → List Expr → Bool
  | [], [] => true
  | a :: as, b :: bs => a.equal b && equalArgs as bs
  | _, _ => false

end

mutual

def occurrences : Expr → List Var
  | absent => []
  | var v => [v]
  | const _ => []
  | call _ args _ => occurrencesArgs args

def occurrencesArgs : List Expr → List Var
  | [] => []
  | arg :: rest => occurrences arg ++ occurrencesArgs rest

end

/-- The variables an expression refers to, in the order in which they first appear. -/
def vars (e : Expr) : List Var :=
  e.occurrences.foldl (fun seen v => if seen.any (·.id == v.id) then seen else seen ++ [v]) []

/-- Reads a chain of field accesses down to its variable; the fields come outermost first. -/
def chainFrom : Expr → List String → Option (Var × List String)
  | var v, fields => some (v, fields)
  | call .fieldAccess [e, const (.string name)] _, fields => chainFrom e (name :: fields)
  | _, _ => none

/-- The root variable and the fields of a chain of at least one field access. -/
def fieldChain? (e : Expr) : Option (Var × List String) :=
  match chainFrom e [] with
  | some (root, fields) => if fields.isEmpty then none else some (root, fields)
  | none => none

end Expr

end QueryFusion

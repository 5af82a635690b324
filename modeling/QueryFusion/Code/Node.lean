import QueryFusion.Text.Quoted
import QueryFusion.Decimal

/-!
# Code nodes

The expressions and statements of a scan function. Statements that open a block refer to it by its
number. Any node can stand anywhere; which places make sense is decided when the code runs.
-/

namespace QueryFusion.Code

abbrev BlockId := Nat

/-- A constant. -/
inductive Literal where
  | null
  | missing
  | bool (b : Bool)
  | long (n : Int64)
  | double (x : Float)
  | string (s : String)
  /-- A text in the form in which columns hold texts. -/
  | columnString (s : String)
deriving Repr

def Literal.text : Literal → String
  | null => "null"
  | missing => "missing"
  | bool b => if b then "true" else "false"
  | long n => s!"{n.toInt}"
  | double x => Decimal.text x
  | string s => Text.quote s
  | columnString s => "u" ++ Text.quote s

/-- A binary operator. The last three named ones combine accumulators: an unknown operand yields
the other one. -/
inductive BinaryOp where
  | add | sub | mul | div | mod
  | and | or
  | eq | ne | lt | le | gt | ge
  | aggAdd | aggMax | aggMin
  | unnamed (code : UInt8)
deriving DecidableEq, Repr

namespace BinaryOp

/-- The named operators in the order of their numbers. -/
def all : List BinaryOp :=
  [add, sub, mul, div, mod, and, or, eq, ne, lt, le, gt, ge, aggAdd, aggMax, aggMin]

def ofCode (code : UInt8) : BinaryOp := all.getD code.toNat (unnamed code)

def text : BinaryOp → String
  | add => "+"
  | sub => "-"
  | mul => "*"
  | div => "/"
  | mod => "%"
  | and => "&&"
  | or => "||"
  | eq => "=="
  | ne => "!="
  | lt => "<"
  | le => "<="
  | gt => ">"
  | ge => ">="
  | aggAdd => "agg-add"
  | aggMax => "agg-max"
  | aggMin => "agg-min"
  | unnamed code => s!"BinaryKind({code.toNat})"

def ofText? (s : String) : Option BinaryOp := all.find? (·.text == s)

/-- Whether an operator combines accumulators; numbers without an operator count among them. -/
def isCombinator : BinaryOp → Bool
  | aggAdd | aggMax | aggMin | unnamed _ => true
  | _ => false

end BinaryOp

/-- An expression or statement. -/
inductive Node where
  | absent
  | lit (l : Literal)
  | ident (name : String)
  | not (operand : Node)
  | binary (op : BinaryOp) (left right : Node)
  /-- A function of the engine, by its name. -/
  | call (fn : String) (args : List Node)
  /-- A member of a reader, the cursor, the sink or an aggregator. -/
  | member (object : Node) (name : String) (args : List Node)
  | element (array index : Node)
  /-- A store into a variable; `declares` marks the statement that introduces it. -/
  | assign (target : String) (value : Node) (declares : Bool)
  | branch (cond : Node) (yes no : BlockId)
  | loop (cond : Node) (body : BlockId)
  | leave
  | finish (value : Node)
deriving Repr, Inhabited

/-! Names of the engine's functions that the compiler calls itself. -/
namespace Builtin

def isUnknown : String := "is-unknown"
def oneOrZero : String := "one-or-zero"
def length : String := "array-length"
def makeKey : String := "make-key"
def newHashAggregator : String := "new-hash-aggregator"
def newTopKAggregator : String := "new-topk-aggregator"

end Builtin

/-! Names of the members of readers, the cursor, the sink and aggregators. -/
namespace Member

def hasNext : String := "hasNext"
def next : String := "next"
def getValue : String := "getValue"
def isEndOfArray : String := "isEndOfArray"
def materialize : String := "materialize"
def append : String := "append"
def flush : String := "flush"
def accumulate : String := "add"
def emit : String := "emit"
def record : String := "record"
def describe : String := "meta"

end Member

namespace Node

def null : Node := lit .null
def missing : Node := lit .missing
def bool (b : Bool) : Node := lit (.bool b)
def long (n : Int64) : Node := lit (.long n)
def string (s : String) : Node := lit (.string s)

/-- A store into a variable that is declared elsewhere. -/
def set (target : String) (value : Node) : Node := assign target value false

/-- The name of a node's form, for forms that have no text of their own. -/
def formName : Node → String
  | absent => "<nil>"
  | lit _ => "*ir.Literal"
  | ident _ => "*ir.Identifier"
  | not _ => "*ir.UnaryOp"
  | binary .. => "*ir.BinaryOp"
  | call .. => "*ir.BuiltinCall"
  | member .. => "*ir.MemberAccess"
  | element .. => "*ir.ArrayGetValue"
  | assign .. => "*ir.Assign"
  | branch .. => "*ir.If"
  | loop .. => "*ir.While"
  | leave => "*ir.Break"
  | finish _ => "*ir.Return"

mutual

def text : Node → String
  | absent => "<nil>"
  | lit l => l.text
  | ident name => name
  | not operand => "!" ++ operand.text
  | binary op left right =>
    if op.isCombinator then op.text ++ "(" ++ left.text ++ ", " ++ right.text ++ ")"
    else "(" ++ left.text ++ " " ++ op.text ++ " " ++ right.text ++ ")"
  | call fn args => fn ++ "(" ++ textArgs args ++ ")"
  | member object name args => object.text ++ "." ++ name ++ "(" ++ textArgs args ++ ")"
  | element array index => array.text ++ "[" ++ index.text ++ "]"
  | assign target value _ => target ++ " = " ++ value.text
  | leave => "break"
  | branch cond yes no => "<" ++ formName (branch cond yes no) ++ ">"
  | loop cond body => "<" ++ formName (loop cond body) ++ ">"
  | finish value => "<" ++ formName (finish value) ++ ">"

def textArgs : List Node → String
  | [] => ""
  | [arg] => arg.text
  | arg :: rest => arg.text ++ ", " ++ textArgs rest

end

end Node

end QueryFusion.Code

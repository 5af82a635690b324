/-!
# Functions

The functions an expression can apply. They are numbered from zero in the order of `Func.all`; a
number without a function is kept as it is and counts as scalar.
-/

namespace QueryFusion

/-- How a function consumes its input. -/
inductive FuncKind where
  /-- One row to one value. -/
  | scalar
  /-- A stream of rows to one value. -/
  | aggregate
  /-- Keeps state across rows. -/
  | stateful
  /-- One row to any number of rows. -/
  | unnesting
  | unnamed (code : UInt8)
deriving DecidableEq, Repr

def FuncKind.ofCode (code : UInt8) : FuncKind :=
  match code.toNat with
  | 0 => .scalar
  | 1 => .aggregate
  | 2 => .stateful
  | 3 => .unnesting
  | _ => .unnamed code

def FuncKind.name : FuncKind → String
  | .scalar => "scalar"
  | .aggregate => "aggregate"
  | .stateful => "stateful"
  | .unnesting => "unnesting"
  | .unnamed code => s!"Kind({code.toNat})"

/-- The identity of a function. -/
inductive Func where
  | not | and | or | eq | neq | lt | le | gt | ge
  | add | subtract | multiply | divide | mod | negate
  | switchCase | getItem | fieldAccess | isMissing | isNull | isUnknown
  | lowercase | uppercase | stringLength | contains | startsWith | abs | arrayLength
  | count | sqlCount | localCount
  | sum | sqlSum | localSum | serialLocalSum
  | min | max | sqlMin | sqlMax | localMin | localMax | globalMin | globalMax
  | nonEmptyStream | listify
  | scanCollection
  | createQueryUid
  | unnamed (code : Int)
deriving DecidableEq, Repr

namespace Func

def all : List Func := [
  not, and, or, eq, neq, lt, le, gt, ge,
  add, subtract, multiply, divide, mod, negate,
  switchCase, getItem, fieldAccess, isMissing, isNull, isUnknown,
  lowercase, uppercase, stringLength, contains, startsWith, abs, arrayLength,
  count, sqlCount, localCount,
  sum, sqlSum, localSum, serialLocalSum,
  min, max, sqlMin, sqlMax, localMin, localMax, globalMin, globalMax,
  nonEmptyStream, listify,
  scanCollection,
  createQueryUid]

def name : Func → String
  | not => "not"
  | and => "and"
  | or => "or"
  | eq => "eq"
  | neq => "neq"
  | lt => "lt"
  | le => "le"
  | gt => "gt"
  | ge => "ge"
  | add => "numeric-add"
  | subtract => "numeric-subtract"
  | multiply => "numeric-multiply"
  | divide => "numeric-divide"
  | mod => "numeric-mod"
  | negate => "numeric-unary-minus"
  | switchCase => "switch-case"
  | getItem => "get-item"
  | fieldAccess => "field-access-by-name"
  | isMissing => "is-missing"
  | isNull => "is-null"
  | isUnknown => "is-unknown"
  | lowercase => "lowercase"
  | uppercase => "uppercase"
  | stringLength => "string-length"
  | contains => "contains"
  | startsWith => "starts-with"
  | abs => "abs"
  | arrayLength => "array-length"
  | count => "count"
  | sqlCount => "sql-count"
  | localCount => "local-count"
  | sum => "sum"
  | sqlSum => "sql-sum"
  | localSum => "local-sum"
  | serialLocalSum => "serial-local-sum"
  | min => "min"
  | max => "max"
  | sqlMin => "sql-min"
  | sqlMax => "sql-max"
  | localMin => "local-min"
  | localMax => "local-max"
  | globalMin => "global-min"
  | globalMax => "global-max"
  | nonEmptyStream => "non-empty-stream"
  | listify => "listify"
  | scanCollection => "scan-collection"
  | createQueryUid => "create-query-uid"
  | unnamed code => s!"Func({code})"

def ofName? (s : String) : Option Func := all.find? (·.name == s)

def ofCode (code : Int) : Func :=
  if 0 ≤ code then all.getD code.toNat (unnamed code) else unnamed code

def code : Func → Int
  | unnamed n => n
  | fn => all.idxOf fn

def kind : Func → FuncKind
  | count | sqlCount | localCount | sum | sqlSum | localSum | serialLocalSum
  | min | max | sqlMin | sqlMax | localMin | localMax | globalMin | globalMax
  | nonEmptyStream | listify => .aggregate
  | scanCollection => .unnesting
  | createQueryUid => .stateful
  | _ => .scalar

def isCount : Func → Bool
  | count | sqlCount | localCount => true
  | _ => false

def isSum : Func → Bool
  | sum | sqlSum | localSum | serialLocalSum => true
  | _ => false

def isMin : Func → Bool
  | min | sqlMin | localMin | globalMin => true
  | _ => false

def isMax : Func → Bool
  | max | sqlMax | localMax | globalMax => true
  | _ => false

/-- Whether an aggregate is zero, and not null, over no rows. -/
def isZeroSeeded : Func → Bool
  | localSum | serialLocalSum => true
  | fn => fn.isCount

end Func

end QueryFusion

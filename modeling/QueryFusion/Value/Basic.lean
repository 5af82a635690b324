import QueryFusion.Path

/-!
# Values

The values a running scan function computes with. Records are made of the plain forms; composite
keys and handles to parts of the running engine arise only inside a run. Raw data is what a document
delivers and normalization has not yet turned into a plain form.

The fields of a structure are kept in ascending order of their names, each name once, so that a
structure has one representation.
-/

namespace QueryFusion

/-- A datum as a document delivers it. -/
inductive Raw where
  /-- The characters of a number that is not yet interpreted. -/
  | token (s : String)
  | int (n : Int64)
  | int32 (n : Int32)
  | uint64 (n : UInt64)
  | uint8 (n : UInt8)
  | float32 (x : Float32)
  /-- A mapping whose keys are not all texts. -/
  | mapping
deriving Repr

def Raw.typeName : Raw → String
  | token _ => "json.Number"
  | int _ => "int"
  | int32 _ => "int32"
  | uint64 _ => "uint64"
  | uint8 _ => "uint8"
  | float32 _ => "float32"
  | mapping => "map[interface \x7b\x7d]interface \x7b\x7d"

/-- A reference to a part of the running engine. -/
inductive Handle where
  | cursor
  | sink
  | column (i : Nat)
  | hashAggregator (i : Nat)
  | topKAggregator (i : Nat)
deriving DecidableEq, Repr

def Handle.typeName : Handle → String
  | cursor => "*vm.cursor"
  | sink => "*vm.sink"
  | column _ => "*vm.column"
  | hashAggregator _ => "*vm.hashAggregator"
  | topKAggregator _ => "*vm.topKAggregator"

/-- A value. -/
inductive Value where
  | null
  | missing
  | bool (b : Bool)
  | int (n : Int64)
  | double (x : Float)
  | string (s : String)
  | list (vs : List Value)
  | key (vs : List Value)
  /-- A structure; its fields ascend by name. -/
  | struct (fields : List (String × Value))
  | handle (h : Handle)
  | raw (n : Raw)
deriving Repr, Inhabited

namespace Value

def typeName : Value → String
  | null => "<nil>"
  | missing => "expr.missing"
  | bool _ => "bool"
  | int _ => "int64"
  | double _ => "float64"
  | string _ => "string"
  | list _ => "[]interface \x7b\x7d"
  | key _ => "vm.Key"
  | struct _ => "map[string]interface \x7b\x7d"
  | handle h => h.typeName
  | raw n => n.typeName

/-- Puts a field into ascending fields; a field of that name is replaced. -/
def insertField (name : String) (v : Value) : List (String × Value) → List (String × Value)
  | [] => [(name, v)]
  | (other, w) :: rest =>
    if name < other then (name, v) :: (other, w) :: rest
    else if name = other then (name, v) :: rest
    else (other, w) :: insertField name v rest

/-- The structure with the given fields; of several with one name the last counts. -/
def ofFields (fields : List (String × Value)) : Value :=
  struct (fields.foldl (fun kept (name, v) => insertField name v kept) [])

def isUnknown : Value → Bool
  | null | missing => true
  | _ => false

/-- A value as a condition: anything but `true` is false. -/
def truth : Value → Bool
  | bool b => b
  | _ => false

/-- The elements of a list; other values have none. -/
def elements : Value → List Value
  | list vs => vs
  | _ => []

def field? : Value → String → Option Value
  | struct fields, name => fields.lookup name
  | _, _ => none

/-- Follows the field steps of a path; where a step leads nowhere the answer is missing. -/
def navigate : Value → Path → Value
  | v, [] => v
  | v, .field name :: rest =>
    match v.field? name with
    | some inner => navigate inner rest
    | none => missing
  | _, .element :: _ => missing

/-!
## Order of values

Numbers, texts and booleans are ordered among themselves; two integers are compared exactly, any
other two numbers as doubles. Values of different sorts, unknown values, lists and structures have
no order.
-/

def number? : Value → Option Float
  | int n => some n.toFloat
  | double x => some x
  | _ => none

/-- The order of two doubles; neither is less when one of them is not a number. -/
def compareDoubles (x y : Float) : Ordering :=
  if x < y then .lt else if y < x then .gt else .eq

def compare? : Value → Value → Option Ordering
  | int x, int y => some (if x < y then .lt else if y < x then .gt else .eq)
  | string s, string t => some (if s < t then .lt else if t < s then .gt else .eq)
  | bool b, bool c => some (if b = c then .eq else if b then .gt else .lt)
  | a, b =>
    match a.number?, b.number? with
    | some x, some y => some (compareDoubles x y)
    | _, _ => none

end Value

end QueryFusion

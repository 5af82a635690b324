import Std.Data.HashMap
import QueryFusion.Heap.Bounded
import QueryFusion.Value.Operation
import QueryFusion.Engine.Error

/-!
# Aggregators

An aggregator accumulates values by key. Keys are the same when their encodings are; they are found
through the hash of the encoding, and groups keep the order in which their keys were first seen.

The hash aggregator counts or sums and charges each group against a memory budget. The top-K
aggregator keeps the least or greatest value of each key and delivers the best groups, best first.
-/

namespace QueryFusion.Engine

open Value

/-- A key with what has been accumulated for it. -/
structure Group where
  /-- The key as it was first seen. -/
  key : Value
  code : List UInt8
  value : Value

/-- Groups in the order of their first appearance, found by the hash of their key's encoding. -/
structure GroupTable where
  groups : Array Group := #[]
  /-- For each hash the positions of its groups. -/
  buckets : Std.HashMap UInt64 (List Nat) := {}

def groupHashKey : Digest.Sip.Key := ⟨0x657375666e616373, 0x217370756f72672d⟩

def hashCode (code : List UInt8) : UInt64 := Digest.Sip.hash groupHashKey code

namespace GroupTable

def find? (hash : List UInt8 → UInt64) (table : GroupTable) (code : List UInt8) : Option Nat :=
  (table.buckets.getD (hash code) []).find? fun i =>
    match table.groups[i]? with
    | some group => group.code == code
    | none => false

def insert (hash : List UInt8 → UInt64) (table : GroupTable) (group : Group) : GroupTable where
  groups := table.groups.push group
  buckets := table.buckets.insert (hash group.code)
    (table.buckets.getD (hash group.code) [] ++ [table.groups.size])

def update (table : GroupTable) (i : Nat) (change : Value → Value) : GroupTable :=
  { table with groups := table.groups.modify i fun group =>
      { group with value := change group.value } }

end GroupTable

/-- A group as a row: the key, a composite one spread out, and the value. -/
def Group.row (group : Group) : List Value :=
  match group.key with
  | .key vs => vs ++ [group.value]
  | k => [k, group.value]

/-- What a hash aggregator computes. -/
inductive HashKind where
  | count
  | sum
  | localSum
deriving DecidableEq, Repr

def HashKind.ofName? (name : String) : Option HashKind :=
  if name = "COUNT" then some count
  else if name = "SUM" then some sum
  else if name = "LOCAL_SUM" then some localSum
  else none

/-- The value of a group before anything is added to it. -/
def HashKind.seed : HashKind → Value
  | sum => null
  | count | localSum => int 0

def HashKind.step : HashKind → Value → Value → Value
  | count => Arithmetic.add.apply
  | sum | localSum => Combinator.add.apply

/-- Counts or sums by key. -/
structure HashAggregator where
  kind : HashKind
  /-- The memory budget in bytes; there is none unless it is positive. -/
  budget : Int64
  used : Nat := 0
  table : GroupTable := {}

/-- The bytes a group is charged with: the encoding of its key and a fixed part. -/
def groupCost (code : List UInt8) : Nat := code.length + 32

def exceeds (used : Nat) (budget : Int64) : Bool :=
  decide (0 < budget.toInt) && decide (budget.toInt < used)

namespace HashAggregator

/-- Adds a value under a key, by the given hash function. -/
def addWith (hash : List UInt8 → UInt64) (agg : HashAggregator) (k v : Value) :
    Except RunError HashAggregator :=
  let code := k.encode
  match agg.table.find? hash code with
  | some i => pure { agg with table := agg.table.update i (agg.kind.step · v) }
  | none =>
    let used := agg.used + groupCost code
    if exceeds used agg.budget then
      throw (.overBudget (agg.table.groups.size + 1) agg.budget)
    else
      let group : Group := { key := k, code, value := agg.kind.step agg.kind.seed v }
      pure { agg with used, table := agg.table.insert hash group }

def add (agg : HashAggregator) (k v : Value) : Except RunError HashAggregator :=
  agg.addWith hashCode k v

/-- The rows of all groups, in the order of first appearance. -/
def rows (agg : HashAggregator) : List (List Value) := agg.table.groups.toList.map Group.row

end HashAggregator

/-- Keeps the least or greatest value by key and delivers the best groups. -/
structure TopKAggregator where
  limit : Int
  /-- Whether least values are the best. -/
  least : Bool
  table : GroupTable := {}

namespace TopKAggregator

def combinator (agg : TopKAggregator) : Combinator := if agg.least then .least else .greatest

/-- Adds a value under a key, by the given hash function. -/
def addWith (hash : List UInt8 → UInt64) (agg : TopKAggregator) (k v : Value) : TopKAggregator :=
  let code := k.encode
  match agg.table.find? hash code with
  | some i => { agg with table := agg.table.update i (agg.combinator.apply · v) }
  | none =>
    let group : Group := { key := k, code, value := agg.combinator.apply null v }
    { agg with table := agg.table.insert hash group }

def add (agg : TopKAggregator) (k v : Value) : TopKAggregator := agg.addWith hashCode k v

/-- Whether one group ranks below another; unknown values rank below all others. -/
def worse (least : Bool) (a b : Group) : Bool :=
  match compare? a.value b.value with
  | none => a.value.isUnknown && !b.value.isUnknown
  | some order => if least then order == .gt else order == .lt

def best (agg : TopKAggregator) : List Group :=
  let heap := agg.table.groups.foldl (fun heap group => (heap.push group).2)
    (Heap.Bounded.new agg.limit (worse agg.least))
  heap.drain.1

def rows (agg : TopKAggregator) : List (List Value) := agg.best.map Group.row

end TopKAggregator

end QueryFusion.Engine

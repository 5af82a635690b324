import QueryFusion.Yaml.Resolve

/-!
# Document trees

A document as the decoder sees it: scalars resolved, and the entries of a mapping in ascending order
of their keys. Plan documents must have distinct text keys; configuration documents are read with
more patience, and of equal keys the last counts. Numbers that are not finite are refused in both.
-/

namespace QueryFusion.Document

/-- A document. -/
inductive Tree where
  | null
  | bool (b : Bool)
  | int (n : Int)
  | float (x : Float)
  | text (s : String)
  | list (items : List Tree)
  | map (entries : List (String × Tree))
deriving Repr, Inhabited

/-- What is asked of the keys of a mapping. -/
inductive KeyRule where
  /-- Keys are texts, and no two are equal. -/
  | distinct
  /-- Any scalar but null counts as its text, and of equal keys the last counts. -/
  | latest
deriving DecidableEq, Repr

/-- Puts an entry in its place; one with the same key is replaced. -/
def insertEntry (key : String) (value : Tree) : List (String × Tree) → List (String × Tree)
  | [] => [(key, value)]
  | (other, held) :: rest =>
    if key < other then (key, value) :: (other, held) :: rest
    else if key = other then (key, value) :: rest
    else (other, held) :: insertEntry key value rest

def KeyRule.keyText? (rule : KeyRule) : Yaml.Node → Option String
  | .scalar text isPlain =>
    match Yaml.resolve text isPlain, rule with
    | .text s, _ => some s
    | .null, _ => none
    | _, .distinct => none
    | _, .latest => some text
  | _ => none

def Tree.ofScalar? : Yaml.Scalar → Option Tree
  | .null => some null
  | .bool b => some (bool b)
  | .int n => some (int n)
  | .float x => if x.isFinite then some (float x) else none
  | .text s => some (text s)

mutual

def Tree.ofNode? (rule : KeyRule) : Yaml.Node → Option Tree
  | .scalar written isPlain => Tree.ofScalar? (Yaml.resolve written isPlain)
  | .seq items => (Tree.ofNodes? rule items).map .list
  | .map entries =>
    if rule = .latest || Yaml.hasDistinctKeys entries then
      (Tree.ofEntries? rule entries []).map .map
    else none

def Tree.ofNodes? (rule : KeyRule) : List Yaml.Node → Option (List Tree)
  | [] => some []
  | node :: rest => do
    let first ← Tree.ofNode? rule node
    let others ← Tree.ofNodes? rule rest
    some (first :: others)

/-- The entries of a mapping, added to those already found. -/
def Tree.ofEntries? (rule : KeyRule) :
    List (Yaml.Node × Yaml.Node) → List (String × Tree) → Option (List (String × Tree))
  | [], found => some found
  | (key, value) :: rest, found => do
    let name ← rule.keyText? key
    let tree ← Tree.ofNode? rule value
    Tree.ofEntries? rule rest (insertEntry name tree found)

end

namespace Tree

def read? (rule : KeyRule) (text : String) : Option Tree := do
  let node ← Yaml.read? text
  ofNode? rule node

/-- The whole number whose shortest decimal is that of a double, if that has no fraction and at most
21 digits. -/
def whole? (x : Float) : Option Int :=
  if x == 0 then some 0
  else
    let d := (Decimal.Binary.ofBits x.toBits).shortest
    if 0 ≤ d.exponent ∧ x.abs < 1e21 then
      let magnitude : Int := (d.digits * Nat.pow 10 d.exponent.toNat : Nat)
      some (if Decimal.isNegative x then -magnitude else magnitude)
    else none

/-- A 64-bit integer; a double counts when it is written without a fraction. -/
def int64? : Tree → Option Int64
  | int n => if Decimal.fitsInt64 n then some (Int64.ofInt n) else none
  | float x =>
    match whole? x with
    | some n => if Decimal.fitsInt64 n then some (Int64.ofInt n) else none
    | none => none
  | _ => none

def double? : Tree → Option Float
  | int n => some (Float.ofInt n)
  | float x => some x
  | _ => none

def text? : Tree → Option String
  | text s => some s
  | _ => none

def bool? : Tree → Option Bool
  | bool b => some b
  | _ => none

/-- What `read` makes of a tree; null is nothing. The outer option tells whether the tree has the
right form. -/
def orNull {α : Type} (read : Tree → Option α) : Tree → Option (Option α)
  | null => some none
  | t => (read t).map some

/-- The items of a list; null has none. -/
def items? : Tree → Option (List Tree)
  | null => some []
  | list items => some items
  | _ => none

end Tree

/-- A field name without regard to letter case; two signs that only look like a letter count as
that letter. -/
def foldName (s : String) : String :=
  String.ofList (s.toList.map fun c =>
    if c == '\u017f' then 's' else if c == '\u212a' then 'k' else c.toLower)

end QueryFusion.Document

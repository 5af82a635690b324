import QueryFusion.Decimal
import QueryFusion.Yaml.Read

/-!
# What scalars stand for

A quoted scalar is a text. A plain one may be null, a truth value, an integer in base ten, sixteen,
eight or two, or a decimal number; anything else is a text as well. Underscores in numbers are only
for the eye.
-/

namespace QueryFusion.Yaml

/-- What a scalar stands for. -/
inductive Scalar where
  | null
  | bool (b : Bool)
  /-- An integer of 64 bits, with or without a sign. -/
  | int (n : Int)
  | float (x : Float)
  | text (s : String)
deriving Repr

def digitValue? (base : Nat) (c : Char) : Option Nat :=
  let value? :=
    if '0' ≤ c ∧ c ≤ '9' then some (c.toNat - 48)
    else if 'a' ≤ c.toLower ∧ c.toLower ≤ 'f' then some (c.toLower.toNat - 87)
    else none
  match value? with
  | some value => if value < base then some value else none
  | none => none

def valueIn? (base : Nat) (cs : List Char) : Option Nat :=
  cs.foldlM (fun value c => (digitValue? base c).map (value * base + ·)) 0

/-- An unsigned integer. A leading zero with a letter names the base; alone it stands for eight. -/
def unsigned? : List Char → Option Nat
  | [] => none
  | '0' :: mark :: digit :: rest =>
    match mark.toLower with
    | 'x' => valueIn? 16 (digit :: rest)
    | 'o' => valueIn? 8 (digit :: rest)
    | 'b' => valueIn? 2 (digit :: rest)
    | _ => valueIn? 8 (mark :: digit :: rest)
  | '0' :: rest => valueIn? 8 rest
  | cs => valueIn? 10 cs

/-- An integer that fits in 64 bits, with a sign or without. -/
def integer? (cs : List Char) : Option Int :=
  let (negative, digits) := Decimal.splitSign cs
  match unsigned? digits with
  | none => none
  | some magnitude =>
    let n : Int := if negative then -magnitude else magnitude
    if Decimal.fitsInt64 n then some n
    else if digits.length = cs.length ∧ n < Int.pow 2 64 then some n
    else none

def decimal? (cs : List Char) : Option Float :=
  let (negative, rest) := Decimal.splitSign cs
  match Decimal.readMagnitude? rest with
  | none => none
  | some magnitude =>
    if magnitude.isInf then none else some (if negative then -magnitude else magnitude)

/-- The number a plain scalar stands for. -/
def number? (cs : List Char) : Option Scalar :=
  match cs with
  | [] => none
  | '.' :: _ => (decimal? cs).map .float
  | c :: _ =>
    if c.isDigit || c == '+' || c == '-' then
      let digits := cs.filter (· != '_')
      match integer? digits with
      | some n => some (.int n)
      | none => (decimal? digits).map .float
    else none

/-- The words that stand for a value of their own. -/
def words : List (String × Scalar) := [
  ("", .null), ("~", .null), ("null", .null), ("Null", .null), ("NULL", .null),
  ("true", .bool true), ("True", .bool true), ("TRUE", .bool true),
  ("false", .bool false), ("False", .bool false), ("FALSE", .bool false),
  (".nan", .float (0.0 / 0.0)), (".NaN", .float (0.0 / 0.0)), (".NAN", .float (0.0 / 0.0)),
  (".inf", .float (1.0 / 0.0)), (".Inf", .float (1.0 / 0.0)), (".INF", .float (1.0 / 0.0)),
  ("+.inf", .float (1.0 / 0.0)), ("+.Inf", .float (1.0 / 0.0)), ("+.INF", .float (1.0 / 0.0)),
  ("-.inf", .float (-1.0 / 0.0)), ("-.Inf", .float (-1.0 / 0.0)), ("-.INF", .float (-1.0 / 0.0))]

/-- What a scalar stands for. -/
def resolve (text : String) (isPlain : Bool) : Scalar :=
  if isPlain then
    match words.lookup text with
    | some value => value
    | none => (number? text.toList).getD (.text text)
  else .text text

/-- Whether no two scalar keys have the same text. -/
def hasDistinctKeys : List (Node × Node) → Bool
  | [] => true
  | (.scalar text _, _) :: rest =>
    rest.all (fun (key, _) =>
      match key with
      | .scalar other _ => other != text
      | _ => true) && hasDistinctKeys rest
  | _ :: rest => hasDistinctKeys rest

end QueryFusion.Yaml

import QueryFusion.Decimal
import QueryFusion.Value.Basic
import QueryFusion.Digest

/-!
# Normalization and encoding of values

Every value has an encoding as a byte string that tells where it ends. A letter gives the form;
integers follow in eight bytes, texts, lists, keys and structures after their length. A double that
is a whole number in the range of integers is encoded as that integer, so that values that compare
as equal numbers have one encoding.
-/

namespace QueryFusion

/-!
## Normalization

Documents deliver numbers in many representations. Normalizing turns integers into 64-bit integers
and other numbers into doubles, inside lists and structures too; composite keys are left as they
are.
-/

/-- Whether a double is a whole number of a magnitude below `bound`. -/
def isWholeBelow (bound : Float) (x : Float) : Bool :=
  let whole := if x < 0 then x.ceil else x.floor
  x == whole && x.abs < bound

/-- A number token as a value: an integer if it reads as one, else the nearest double. -/
def Raw.ofToken (s : String) : Value :=
  match Decimal.readInt64? s with
  | some n => .int n
  | none => .double ((Decimal.readFloat? s).getD 0)

/-- The value a raw datum stands for; bytes, large unsigned integers and mappings stay. -/
def Raw.normalize : Raw → Value
  | token s => Raw.ofToken s
  | int n => .int n
  | int32 n => .int n.toInt64
  | float32 x => .double x.toFloat
  | n => .raw n

namespace Value

mutual

/-- The value with every number in its plain form. A double that is whole and below 2^53 in
magnitude becomes an integer. -/
def normalize : Value → Value
  | raw n => n.normalize
  | double x => if isWholeBelow 9007199254740992 x then int x.toInt64 else double x
  | list vs => list (normalizeAll vs)
  | struct fields => struct (normalizeFields fields)
  | v => v

def normalizeAll : List Value → List Value
  | [] => []
  | v :: rest => v.normalize :: normalizeAll rest

def normalizeFields : List (String × Value) → List (String × Value)
  | [] => []
  | (name, v) :: rest => (name, v.normalize) :: normalizeFields rest

end

/-! ## Encoding -/

def encodeInt (n : Int64) : List UInt8 := 105 :: Digest.bigEndian 8 n.toUInt64

def encodeDouble (x : Float) : List UInt8 :=
  if isWholeBelow 9223372036854775808 x then encodeInt x.toInt64
  else 100 :: Digest.bigEndian 8 x.toBits

def encodeString (s : String) : List UInt8 :=
  115 :: Digest.varint (Digest.textBytes s).length ++ Digest.textBytes s

mutual

def encode : Value → List UInt8
  | null => [110]
  | missing => [120]
  | bool true => [116]
  | bool false => [102]
  | int n => encodeInt n
  | double x => encodeDouble x
  | string s => encodeString s
  | list vs => 108 :: Digest.varint vs.length ++ encodeAll vs
  | key vs => 107 :: Digest.varint vs.length ++ encodeAll vs
  | struct fields => 109 :: Digest.varint fields.length ++ encodeFields fields
  | handle h => Digest.textBytes ("?" ++ h.typeName)
  | raw n => Digest.textBytes ("?" ++ n.typeName)

def encodeAll : List Value → List UInt8
  | [] => []
  | v :: rest => v.encode ++ encodeAll rest

def encodeFields : List (String × Value) → List UInt8
  | [] => []
  | (name, v) :: rest => encodeString name ++ v.encode ++ encodeFields rest

end

/-- Equality of values: by their order where they have one, else by their encoding. -/
def equal (a b : Value) : Bool :=
  match compare? a b with
  | some order => order == .eq
  | none => a.encode == b.encode

end Value

end QueryFusion

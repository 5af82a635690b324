/-!
# Decimals of doubles

A finite double is a natural number times a power of two. It is read off the bits, reduced modulo
another exactly, written with its shortest decimal and read back from a decimal.
-/

namespace QueryFusion.Decimal

/-- A finite non-negative double, `mantissa * 2 ^ exponent`. -/
structure Binary where
  mantissa : Nat
  exponent : Int
  /-- Whether the gap to the value below is half the gap to the value above. -/
  narrowBelow : Bool

/-- The magnitude that the bits of a finite double stand for; the sign bit is not looked at. -/
def Binary.ofBits (bits : UInt64) : Binary :=
  let scale := ((bits >>> 52) &&& 0x7FF).toNat
  let fraction := (bits &&& 0xFFFFFFFFFFFFF).toNat
  if scale == 0 then ⟨fraction, -1074, false⟩
  else ⟨Nat.pow 2 52 + fraction, (scale : Int) - 1075, fraction == 0 && scale > 1⟩

def isNegative (x : Float) : Bool := x.toBits >>> 63 == 1

/-- A decimal `digits * 10 ^ exponent`. -/
structure Scaled where
  /-- The digits, read as one natural number. -/
  digits : Nat
  /-- The power of ten of the last digit. -/
  exponent : Int
deriving DecidableEq

/-- Compares `a * 10 ^ i` with `n * 2 ^ j` exactly. -/
def compareScaled (a : Nat) (i : Int) (n : Nat) (j : Int) : Ordering :=
  compare (a * Nat.pow 10 i.toNat * Nat.pow 2 (-j).toNat)
    (n * Nat.pow 2 j.toNat * Nat.pow 10 (-i).toNat)

/-- Whether a decimal lies among the reals that round to the value: between the midpoints to both
neighbours, the midpoints themselves counting when the mantissa is even. -/
def Binary.readsBack (x : Binary) (d : Scaled) : Bool :=
  let low := if x.narrowBelow then 4 * x.mantissa - 1 else 4 * x.mantissa - 2
  let high := 4 * x.mantissa + 2
  let closed := x.mantissa % 2 == 0
  let toLow := compareScaled d.digits d.exponent low (x.exponent - 2)
  let toHigh := compareScaled d.digits d.exponent high (x.exponent - 2)
  (toLow == .gt || (closed && toLow == .eq)) && (toHigh == .lt || (closed && toHigh == .eq))

/-- The double nearest to `n * 2 ^ j`, exact whenever that number is a double. -/
def scaleToFloat (n : Nat) (j : Int) : Float :=
  if n = 0 then 0 else Float.scaleB (Float.ofNat (n / Nat.pow 2 (n.log2 - 63)))
    (j + ((n.log2 - 63 : Nat) : Int))

/-- The remainder of truncated division of two doubles; it has the sign of `x` and is exact. -/
def remainder (x y : Float) : Float :=
  if x.isNaN || y.isNaN || x.isInf || y == 0 then 0.0 / 0.0
  else if y.isInf then x
  else
    let a := Binary.ofBits x.toBits
    let b := Binary.ofBits y.toBits
    let unit := min a.exponent b.exponent
    let rest := (a.mantissa * Nat.pow 2 (a.exponent - unit).toNat) %
      (b.mantissa * Nat.pow 2 (b.exponent - unit).toNat)
    let magnitude := scaleToFloat rest unit
    if isNegative x then -magnitude else magnitude

/-!
## Shortest decimals

The shortest decimal of a double has the fewest digits among all decimals that round to it; among
those it is the nearest, and of two equally near the one with the even last digit. The search walks
the decimal grids from coarse to fine and tests the two neighbours of the value on each grid.
-/

/-- The least `k` with `n * 2 ^ j < 10 ^ k`, looked for upwards from `k`. -/
def scaleFrom (n : Nat) (j : Int) : Nat → Int → Int
  | 0, k => k
  | tries + 1, k =>
    if compareScaled 1 k n j == .gt then k else scaleFrom n j tries (k + 1)

/-- The decimal order of a positive value: the least `k` with `value < 10 ^ k`. The start value is
a lower estimate from the binary order, off by at most two. -/
def Binary.order (x : Binary) : Int :=
  let binaryOrder : Int := x.exponent + x.mantissa.log2
  scaleFrom x.mantissa x.exponent 8 (Int.fdiv (binaryOrder * 30103) 100000 - 1)

/-- The neighbour at or below the value on the grid of multiples of `10 ^ grid`. -/
def Binary.floorOn (x : Binary) (grid : Int) : Nat :=
  (x.mantissa * Nat.pow 2 x.exponent.toNat * Nat.pow 10 (-grid).toNat) /
    (Nat.pow 2 (-x.exponent).toNat * Nat.pow 10 grid.toNat)

/-- The candidate on one grid: the nearer of the two neighbours that round to the value. -/
def Binary.candidate? (x : Binary) (grid : Int) : Option Scaled :=
  let below : Scaled := ⟨x.floorOn grid, grid⟩
  let above : Scaled := ⟨x.floorOn grid + 1, grid⟩
  match x.readsBack below, x.readsBack above with
  | false, false => none
  | true, false => some below
  | false, true => some above
  | true, true =>
    match compareScaled (below.digits + above.digits) grid (2 * x.mantissa) x.exponent with
    | .gt => some below
    | .lt => some above
    | .eq => if below.digits % 2 == 0 then some below else some above

/-- The first grid with a candidate, from `10 ^ grid` downwards. -/
def Binary.search (x : Binary) : Nat → Int → Option Scaled
  | 0, _ => none
  | tries + 1, grid =>
    match x.candidate? grid with
    | some found => some found
    | none => x.search tries (grid - 1)

/-- Removes trailing zeros from the digits. -/
def Scaled.trim : Nat → Scaled → Scaled
  | 0, d => d
  | tries + 1, d =>
    if d.digits ≠ 0 ∧ d.digits % 10 = 0 then Scaled.trim tries ⟨d.digits / 10, d.exponent + 1⟩
    else d

/-- The shortest decimal that rounds to a positive value; should seventeen digits not suffice, the
exact decimal value. -/
def Binary.shortest (x : Binary) : Scaled :=
  match x.search 18 (x.order - 1) with
  | some found => found.trim 20
  | none => ⟨x.mantissa * Nat.pow 2 x.exponent.toNat * Nat.pow 5 (-x.exponent).toNat, min x.exponent 0⟩

/-!
## Number notation

A double is written with its shortest digits. Which values are written positionally, and how an
exponent looks, are the decisions of a `Layout`.
-/

/-- How the digits of a double are laid out. -/
structure Layout where
  /-- The least power of ten of a leading digit that is written positionally. -/
  leastPlain : Int
  /-- The least power of ten of a leading digit above it that takes an exponent again. -/
  exponentFrom : Int
  /-- The least number of exponent digits. -/
  exponentWidth : Nat
  /-- The text of a value that is not a number. -/
  notANumber : String
  positiveInfinity : String
  negativeInfinity : String

def digitsOf (n : Nat) : String := String.ofList (Nat.toDigits 10 n)

def zeros (n : Nat) : String := String.ofList (List.replicate n '0')

/-- Digits with their point: `digits * 10 ^ exponent` written positionally. -/
def plain (d : Scaled) : String :=
  let text := digitsOf d.digits
  if 0 ≤ d.exponent then text ++ zeros d.exponent.toNat
  else
    let places := (-d.exponent).toNat
    let padded := zeros (places + 1 - text.length) ++ text
    let whole := padded.toList.take (padded.length - places)
    let fraction := padded.toList.drop (padded.length - places)
    String.ofList (whole ++ '.' :: fraction)

/-- Digits with an exponent: one digit before the point, the sign of the exponent always shown. -/
def Layout.scientific (layout : Layout) (d : Scaled) : String :=
  let text := digitsOf d.digits
  let order : Int := d.exponent + text.length - 1
  let fraction := text.toList.drop 1
  let mantissa := text.toList.take 1 ++ (if fraction.isEmpty then [] else '.' :: fraction)
  let power := digitsOf order.natAbs
  String.ofList mantissa ++ (if order < 0 then "e-" else "e+") ++
    zeros (layout.exponentWidth - power.length) ++ power

/-- A positive finite magnitude. -/
def Layout.magnitude (layout : Layout) (d : Scaled) : String :=
  let order : Int := d.exponent + (digitsOf d.digits).length - 1
  if order < layout.leastPlain ∨ layout.exponentFrom ≤ order then layout.scientific d else plain d

def Layout.write (layout : Layout) (x : Float) : String :=
  if x.isNaN then layout.notANumber
  else if x.isInf then
    if isNegative x then layout.negativeInfinity else layout.positiveInfinity
  else
    let body := if x == 0 then "0" else layout.magnitude (Binary.ofBits x.toBits).shortest
    if isNegative x then "-" ++ body else body

/-- Doubles in plans, functions and rows: positional from `0.0001` up to a million, otherwise with
a signed exponent of at least two digits. -/
def general : Layout where
  leastPlain := -4
  exponentFrom := 6
  exponentWidth := 2
  notANumber := "NaN"
  positiveInfinity := "+Inf"
  negativeInfinity := "-Inf"

/-- The text of a double as plans, functions and rows show it. -/
def text (x : Float) : String := general.write x

/-!
## Reading numbers

Decimal texts denote exact numbers; a 64-bit integer is read only when it is in range, a double is
the one nearest to the number, infinite beyond the range and zero below it.
-/

def digitsValue (digits : List Char) : Nat :=
  digits.foldl (fun value c => value * 10 + (c.toNat - 48)) 0

/-- Splits an optional sign off a text; `true` stands for a minus sign. -/
def splitSign : List Char → Bool × List Char
  | '-' :: rest => (true, rest)
  | '+' :: rest => (false, rest)
  | rest => (false, rest)

/-- An integer: an optional sign and at least one digit. -/
def readInt? (s : String) : Option Int :=
  match splitSign s.toList with
  | (negative, digits) =>
    if !digits.isEmpty && digits.all Char.isDigit then
      let magnitude : Int := digitsValue digits
      some (if negative then -magnitude else magnitude)
    else none

def fitsInt64 (n : Int) : Bool := decide (-Int.pow 2 63 ≤ n) && decide (n < Int.pow 2 63)

/-- A 64-bit integer; refuses one that is out of range. -/
def readInt64? (s : String) : Option Int64 :=
  match readInt? s with
  | some n => if fitsInt64 n then some (Int64.ofInt n) else none
  | none => none

/-- The double nearest to `digits * 10 ^ exponent`. Exponents far outside the range of doubles are
answered without computing the power. -/
def nearest (digits : Nat) (exponent : Int) : Float :=
  if digits = 0 then 0
  else
    let order : Int := exponent + (Nat.toDigits 10 digits).length
    if 400 < order then 1.0 / 0.0
    else if order < -400 then 0
    else if 0 ≤ exponent then Float.ofScientific digits false exponent.toNat
    else Float.ofScientific digits true (-exponent).toNat

/-- The exponent part of a number: nothing, or a mark, an optional sign and digits. -/
def readExponent? : List Char → Option Int
  | [] => some 0
  | mark :: rest =>
    if mark = 'e' ∨ mark = 'E' then
      match splitSign rest with
      | (negative, digits) =>
        if !digits.isEmpty && digits.all Char.isDigit then
          let magnitude : Int := digitsValue digits
          some (if negative then -magnitude else magnitude)
        else none
    else none

/-- The magnitude of a number without sign: digits with at most one point, at least one digit, and
an optional exponent. -/
def readMagnitude? (cs : List Char) : Option Float :=
  let whole := cs.takeWhile Char.isDigit
  let rest := cs.dropWhile Char.isDigit
  let (fraction, rest) := match rest with
    | '.' :: tail => (tail.takeWhile Char.isDigit, tail.dropWhile Char.isDigit)
    | _ => ([], rest)
  if whole.isEmpty && fraction.isEmpty then none
  else
    (readExponent? rest).map fun exponent =>
      nearest (digitsValue (whole ++ fraction)) (exponent - fraction.length)

/-- A double: an optional sign and a magnitude, or a spelled special value in any letter case. -/
def readFloat? (s : String) : Option Float :=
  let (negative, rest) := splitSign s.toList
  let spelled := String.ofList (rest.map Char.toLower)
  let magnitude? :=
    if spelled = "inf" ∨ spelled = "infinity" then some (1.0 / 0.0)
    else if s.toLower = "nan" then some (0.0 / 0.0)
    else readMagnitude? rest
  magnitude?.map fun magnitude => if negative then -magnitude else magnitude

end QueryFusion.Decimal

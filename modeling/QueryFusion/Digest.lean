/-!
# Bytes and digests

Byte strings are lists of bytes; words are read from and written to them in either byte order.
-/

namespace QueryFusion.Digest

def textBytes (s : String) : List UInt8 := s.toUTF8.toList

/-- The `count` low bytes of a word, least significant first. -/
def littleEndian : Nat → UInt64 → List UInt8
  | 0, _ => []
  | count + 1, word => word.toUInt8 :: littleEndian count (word >>> 8)

/-- The `count` low bytes of a word, most significant first. -/
def bigEndian (count : Nat) (word : UInt64) : List UInt8 := (littleEndian count word).reverse

/-- The word whose least significant byte comes first. -/
def wordOf : List UInt8 → UInt64
  | [] => 0
  | byte :: rest => byte.toUInt64 ||| (wordOf rest <<< 8)

/-- A length in groups of seven bits, the lowest first; all but the last carry the high bit. -/
def varint (n : Nat) : List UInt8 :=
  if n < 128 then [n.toUInt8] else (n % 128 + 128).toUInt8 :: varint (n / 128)
termination_by n

/-- The bytes in hexadecimal, two lower-case digits each. -/
def hex (bytes : List UInt8) : String :=
  let digit (n : Nat) : Char := if n < 10 then Char.ofNat (48 + n) else Char.ofNat (87 + n)
  String.ofList (bytes.flatMap fun byte => [digit (byte.toNat / 16), digit (byte.toNat % 16)])

def hexWord (word : UInt64) : String := String.ofList (Nat.toDigits 16 word.toNat)

def hexWordFull (word : UInt64) : String := hex (bigEndian 8 word)

end QueryFusion.Digest

/-!
## Keyed 64-bit hash

SipHash with two compression rounds per word and four final rounds. The message is read in
little-endian words of eight bytes; the last word carries the remaining bytes and, in its top byte,
the length of the message modulo 256.
-/

namespace QueryFusion.Digest.Sip

/-- The four words of the running state. -/
structure State where
  v0 : UInt64
  v1 : UInt64
  v2 : UInt64
  v3 : UInt64

/-- A 128-bit key in two words. -/
structure Key where
  k0 : UInt64
  k1 : UInt64

def rotateLeft (word : UInt64) (amount : UInt64) : UInt64 :=
  (word <<< amount) ||| (word >>> (64 - amount))

def State.round (s : State) : State :=
  let v0 := s.v0 + s.v1
  let v1 := rotateLeft s.v1 13 ^^^ v0
  let v0 := rotateLeft v0 32
  let v2 := s.v2 + s.v3
  let v3 := rotateLeft s.v3 16 ^^^ v2
  let v0 := v0 + v3
  let v3 := rotateLeft v3 21 ^^^ v0
  let v2 := v2 + v1
  let v1 := rotateLeft v1 17 ^^^ v2
  let v2 := rotateLeft v2 32
  ⟨v0, v1, v2, v3⟩

def State.initial (key : Key) : State where
  v0 := key.k0 ^^^ 0x736f6d6570736575
  v1 := key.k1 ^^^ 0x646f72616e646f6d
  v2 := key.k0 ^^^ 0x6c7967656e657261
  v3 := key.k1 ^^^ 0x7465646279746573

def State.absorb (s : State) (word : UInt64) : State :=
  let mixed := State.round (State.round { s with v3 := s.v3 ^^^ word })
  { mixed with v0 := mixed.v0 ^^^ word }

/-- Takes in the rest of a message of `length` bytes, whole words first. -/
def State.absorbAll (length : Nat) (s : State) : List UInt8 → State
  | b0 :: b1 :: b2 :: b3 :: b4 :: b5 :: b6 :: b7 :: rest =>
    (s.absorb (wordOf [b0, b1, b2, b3, b4, b5, b6, b7])).absorbAll length rest
  | rest => s.absorb (wordOf rest ||| (length.toUInt64 <<< 56))

/-- The hash that a state stands for at the end of the message. -/
def State.finish (s : State) : UInt64 :=
  let s := { s with v2 := s.v2 ^^^ 0xff }
  let s := s.round.round.round.round
  s.v0 ^^^ s.v1 ^^^ s.v2 ^^^ s.v3

/-- The keyed hash of a byte string. -/
def hash (key : Key) (message : List UInt8) : UInt64 :=
  ((State.initial key).absorbAll message.length message).finish

end QueryFusion.Digest.Sip

/-!
## Unkeyed 256-bit digest

BLAKE2b with a 32-byte result and no key. The message is cut into blocks of 128 bytes, the last one
padded with zeros; each block is mixed into eight chaining words by twelve rounds, together with the
number of bytes taken in so far and a mark on the last block.
-/

namespace QueryFusion.Digest.Blake

def start : Array UInt64 := #[
  0x6a09e667f3bcc908, 0xbb67ae8584caa73b, 0x3c6ef372fe94f82b, 0xa54ff53a5f1d36f1,
  0x510e527fade682d1, 0x9b05688c2b3e6c1f, 0x1f83d9abfb41bd6b, 0x5be0cd19137e2179]

/-- The order in which each round takes the words of the block. -/
def schedule : List (Array Nat) := [
  #[0, 1, 2, 3, 4, 5, 6, 7, 8, 9, 10, 11, 12, 13, 14, 15],
  #[14, 10, 4, 8, 9, 15, 13, 6, 1, 12, 0, 2, 11, 7, 5, 3],
  #[11, 8, 12, 0, 5, 2, 15, 13, 10, 14, 3, 6, 7, 1, 9, 4],
  #[7, 9, 3, 1, 13, 12, 11, 14, 2, 6, 5, 10, 4, 0, 15, 8],
  #[9, 0, 5, 7, 2, 4, 10, 15, 14, 1, 11, 12, 6, 8, 3, 13],
  #[2, 12, 6, 10, 0, 11, 8, 3, 4, 13, 7, 5, 15, 14, 1, 9],
  #[12, 5, 1, 15, 14, 13, 4, 10, 0, 7, 6, 3, 9, 2, 8, 11],
  #[13, 11, 7, 14, 12, 1, 3, 9, 5, 0, 15, 4, 8, 6, 2, 10],
  #[6, 15, 14, 9, 11, 3, 0, 8, 12, 2, 13, 7, 1, 4, 10, 5],
  #[10, 2, 8, 4, 7, 6, 1, 5, 15, 11, 9, 14, 3, 12, 13, 0],
  #[0, 1, 2, 3, 4, 5, 6, 7, 8, 9, 10, 11, 12, 13, 14, 15],
  #[14, 10, 4, 8, 9, 15, 13, 6, 1, 12, 0, 2, 11, 7, 5, 3]]

/-- The eight quadruples mixed in a round: the columns, then the diagonals. -/
def quadruples : List (Nat × Nat × Nat × Nat) := [
  (0, 4, 8, 12), (1, 5, 9, 13), (2, 6, 10, 14), (3, 7, 11, 15),
  (0, 5, 10, 15), (1, 6, 11, 12), (2, 7, 8, 13), (3, 4, 9, 14)]

def rotateRight (word : UInt64) (amount : UInt64) : UInt64 :=
  (word >>> amount) ||| (word <<< (64 - amount))

/-- Mixes two message words into four state words. -/
def mix (v : Array UInt64) (at4 : Nat × Nat × Nat × Nat) (x y : UInt64) : Array UInt64 :=
  let (ia, ib, ic, id) := at4
  let a := v.getD ia 0 + v.getD ib 0 + x
  let d := rotateRight (v.getD id 0 ^^^ a) 32
  let c := v.getD ic 0 + d
  let b := rotateRight (v.getD ib 0 ^^^ c) 24
  let a := a + b + y
  let d := rotateRight (d ^^^ a) 16
  let c := c + d
  let b := rotateRight (b ^^^ c) 63
  ((((v.setIfInBounds ia a).setIfInBounds ib b).setIfInBounds ic c).setIfInBounds id d)

def round (block : Array UInt64) (v : Array UInt64) (order : Array Nat) : Array UInt64 :=
  quadruples.zipIdx.foldl (fun v (at4, i) =>
    mix v at4 (block.getD (order.getD (2 * i) 0) 0) (block.getD (order.getD (2 * i + 1) 0) 0)) v

/-- Mixes one block of sixteen words into the chaining words. -/
def compress (chain block : Array UInt64) (taken : Nat) (last : Bool) : Array UInt64 :=
  let v := chain ++ start
  let v := v.modify 12 (· ^^^ taken.toUInt64)
  let v := v.modify 13 (· ^^^ (taken / Nat.pow 2 64).toUInt64)
  let v := if last then v.modify 14 (· ^^^ 0xffffffffffffffff) else v
  let v := schedule.foldl (round block) v
  (Array.range 8).map fun i => chain.getD i 0 ^^^ v.getD i 0 ^^^ v.getD (i + 8) 0

/-- The sixteen little-endian words of a block, zero bytes filling it up. -/
def blockWords (bytes : List UInt8) : Array UInt64 :=
  (Array.range 16).map fun i => wordOf ((bytes.drop (8 * i)).take 8)

/-- Takes in the rest of the message; `taken` bytes came before it. -/
def absorb (chain : Array UInt64) (taken : Nat) (rest : List UInt8) : Array UInt64 :=
  if 128 < rest.length then
    absorb (compress chain (blockWords (rest.take 128)) (taken + 128) false) (taken + 128)
      (rest.drop 128)
  else compress chain (blockWords rest) (taken + rest.length) true
termination_by rest.length
decreasing_by
  rename_i longer
  rw [List.length_drop]
  omega

/-- The 32-byte digest of a byte string. -/
def digest (message : List UInt8) : List UInt8 :=
  let chain := absorb (start.modify 0 (· ^^^ 0x01010020)) 0 message
  (chain.toList.take 4).flatMap (littleEndian 8)

end QueryFusion.Digest.Blake

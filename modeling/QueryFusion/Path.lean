/-!
# Faults and paths into records

A path walks from a record to a nested value: by field name into a structure, or to every element
of a list. Its text joins field names with points and writes `[*]` for an element step; reading a
text back drops empty names.
-/

namespace QueryFusion

/-!
## Faults

A fault is the discovery that a caller broke a precondition. It is kept apart from ordinary errors:
it is never caught on the way out, and no edit made before it is taken back.
-/

/-- Why an operation could not go on. -/
inductive Fault where
  /-- Something was asked for that is not there: a position outside a table, or an absent part. -/
  | outOfRange
  /-- A stated precondition does not hold. -/
  | violated (message : String)
deriving DecidableEq, Repr

/-! ## Paths -/

/-- One step of a path. -/
inductive Step where
  | field (name : String)
  /-- Every element of a list. -/
  | element
deriving DecidableEq, Repr

/-- A walk from a record to a nested value. -/
abbrev Path := List Step

namespace Path

def ofFields (names : List String) : Path := names.map Step.field

def elements (p : Path) : Path := p ++ [.element]

def child (p : Path) (name : String) : Path := p ++ [.field name]

/-- The text of the steps after the first one. -/
def tailChars : Path → List Char
  | [] => []
  | .element :: rest => '[' :: '*' :: ']' :: tailChars rest
  | .field name :: rest => '.' :: name.toList ++ tailChars rest

/-- The characters of a path's text; a leading field has no point before it. -/
def toChars : Path → List Char
  | .field name :: rest => name.toList ++ tailChars rest
  | path => tailChars path

def text (p : Path) : String := String.ofList p.toChars

/-- The longest leading part that ends in an element step. -/
def arrayPrefix? : Path → Option Path
  | [] => none
  | step :: rest =>
    match arrayPrefix? rest, step with
    | some inner, _ => some (step :: inner)
    | none, .element => some [.element]
    | none, .field _ => none

def startsWith (p q : Path) : Bool := q.isPrefixOf p

def splitPoints : List Char → List (List Char)
  | [] => [[]]
  | '.' :: rest => [] :: splitPoints rest
  | c :: rest =>
    match splitPoints rest with
    | part :: parts => (c :: part) :: parts
    | [] => [[c]]

/-- Takes the element marks off the front of a reversed part: how many, and what is left. -/
def stripElements : List Char → Nat × List Char
  | ']' :: '*' :: '[' :: rest =>
    let (count, left) := stripElements rest
    (count + 1, left)
  | rest => (0, rest)

/-- The steps of one part: its name unless that is empty, then its element marks. -/
def partSteps (part : List Char) : Path :=
  let (count, left) := stripElements part.reverse
  (if left.isEmpty then [] else [Step.field (String.ofList left.reverse)]) ++
    List.replicate count .element

def ofChars (cs : List Char) : Path := (splitPoints cs).flatMap partSteps

def parse (s : String) : Path := ofChars s.toList

end Path

end QueryFusion

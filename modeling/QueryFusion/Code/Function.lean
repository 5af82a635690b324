import QueryFusion.Digest
import QueryFusion.Code.Block

/-!
# Scan functions

A scan function takes the record cursor, the result sink, and one reader for each path it reads.
Freezing it fixes the paths of its readers; only then can it run, and only then has it a
fingerprint. The fingerprint is the digest of the function's text followed by the paths.
-/

namespace QueryFusion.Code

/-- A function with its code. -/
structure Function where
  name : String
  arena : Arena
  body : BlockId
  /-- The path of each reader, in the order of the reader parameters. -/
  paths : List Path := []
  frozen : Bool := false

namespace Function

def cursor : String := "cursor"

def sink : String := "sink"

def readerName (i : Nat) : String := s!"reader_{i}"

def new (name : String) : Function :=
  let (body, arena) := Arena.new {} none .function
  { name, arena, body }

def readers (fn : Function) : List String := (List.range fn.paths.length).map readerName

def params (fn : Function) : List String := cursor :: sink :: fn.readers

def addReader (fn : Function) (path : Path) : Except Fault (String × Function) :=
  if fn.frozen then throw (.violated s!"ir: AddReader on frozen function {fn.name}")
  else pure (readerName fn.paths.length, { fn with paths := fn.paths ++ [path] })

def freeze (fn : Function) : Except Fault Function :=
  if fn.frozen then throw (.violated s!"ir: function {fn.name} frozen twice")
  else pure { fn with frozen := true }

/-- The path of each reader, known once the function is frozen. -/
def schemas (fn : Function) : List Path := if fn.frozen then fn.paths else []

def line (depth : Nat) (s : String) : String :=
  String.ofList (List.replicate depth '\t') ++ s ++ "\n"

/-- The text of a statement; `block` gives the text of a block inside it. -/
def statementText (arena : Arena) (block : BlockId → Nat → Except Fault String) (depth : Nat) :
    Node → Except Fault String
  | .branch cond yes no => do
    let onYes ← block yes (depth + 1)
    let hasNo ← if no = emptyBlock then pure false else do
      let other ← arena.get no
      pure !other.statements.isEmpty
    let onNo ← if hasNo then do
        let body ← block no (depth + 1)
        pure (line depth "\x7d else \x7b" ++ body)
      else pure ""
    pure (line depth ("if " ++ cond.text ++ " \x7b") ++ onYes ++ onNo ++ line depth "\x7d")
  | .loop cond body => do
    let inner ← block body (depth + 1)
    pure (line depth ("while " ++ cond.text ++ " \x7b") ++ inner ++ line depth "\x7d")
  | .assign target value declares =>
    pure (line depth ((if declares then "var " else "") ++ target ++ " = " ++ value.text))
  | .leave => pure (line depth "break")
  | .finish .absent => pure (line depth "return")
  | .finish value => pure (line depth ("return " ++ value.text))
  | n => pure (line depth n.text)

/-- The text of a block and what is nested in it, to a bounded depth of nesting. -/
def blockText (arena : Arena) : Nat → BlockId → Nat → Except Fault String
  | 0, _, _ => throw .outOfRange
  | nesting + 1, id, depth => do
    let block ← arena.get id
    let parts ← block.statements.mapM (statementText arena (blockText arena nesting) depth)
    pure (String.join parts)

/-- The text of a function: its parameters and its nested blocks, one statement a line. -/
def text (fn : Function) : Except Fault String := do
  let body ← blockText fn.arena (fn.arena.size + 1) fn.body 1
  pure ("func " ++ fn.name ++ "(" ++ ", ".intercalate fn.params ++ ") \x7b\n" ++ body ++ "\x7d\n")

/-- What the fingerprint is taken of: the text, then each path after a zero byte. -/
def identity (fn : Function) : Except Fault (List UInt8) := do
  let body ← fn.text
  pure (Digest.textBytes body ++
    fn.schemas.flatMap fun path => (0 : UInt8) :: Digest.textBytes path.text)

/-- A digest that identifies a frozen function. -/
def fingerprint (fn : Function) : Except Fault (List UInt8) :=
  if fn.frozen then do
    let bytes ← fn.identity
    pure (Digest.Blake.digest bytes)
  else throw (.violated s!"ir: Fingerprint of unfrozen function {fn.name}")

end Function

end QueryFusion.Code

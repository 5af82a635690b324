import QueryFusion.Path
import QueryFusion.Code.Node

/-!
# Blocks

The code of a function is a tree of blocks kept in one table. Block 0 is the shared empty block: it
stands for absent branches and is never changed. A block knows its parent, the operator it was
opened for, the variables it declares, the readers advanced in it and the readers whose reads it
redirects to an element of a list.

Searches go from a block to its ancestors. They are bounded by the size of the table, which no
search in a tree of blocks exceeds.
-/

namespace QueryFusion.Code

/-- The kind of operator a block was opened for. -/
inductive Tag where
  | none | function | records | select | unnest | subplan | groupBy | case
  | unnamed (code : UInt8)
deriving DecidableEq, Repr

namespace Tag

def ofCode (code : UInt8) : Tag :=
  [none, function, records, select, unnest, subplan, groupBy, case].getD code.toNat (unnamed code)

def text : Tag → String
  | none => "none"
  | function => "function"
  | records => "records"
  | select => "select"
  | unnest => "unnest"
  | subplan => "subplan"
  | groupBy => "group-by"
  | case => "case"
  | unnamed code => s!"Tag({code.toNat})"

/-- Whether blocks with this tag are bodies of loops. -/
def isLoop : Tag → Bool
  | records | unnest => true
  | _ => false

end Tag

/-- Redirects the reads of a reader to an element of a list. -/
structure Override where
  /-- The variable that holds the list. -/
  array : String
  /-- The variable that holds the position. -/
  index : String
deriving DecidableEq, Repr

/-- An ordered list of statements: the front runs first, then the rest, then the tail. -/
structure Block where
  /-- The enclosing block; a root has none. -/
  parent : Option BlockId
  tag : Tag
  /-- The statements put before all others, the latest first. -/
  front : List Node := []
  /-- The statements after the front, in the order in which they were added. -/
  rest : List Node := []
  /-- The statements that run last, such as the step of a loop. -/
  tail : List Node := []
  /-- The variables declared here with their starting values. -/
  vars : List (String × Node) := []
  /-- The readers advanced here. -/
  bound : List String := []
  /-- The readers redirected here; the last entry for a reader counts. -/
  overrides : List (String × Override) := []

/-- The statements before the tail. -/
def Block.head (block : Block) : List Node := block.front ++ block.rest

/-- All statements of a block in the order in which they run. -/
def Block.statements (block : Block) : List Node := block.head ++ block.tail

def emptyBlock : BlockId := 0

/-- The blocks of one function and the number of variable names handed out. -/
structure Arena where
  blocks : Array Block := #[{ parent := none, tag := .none }]
  /-- How many names have been handed out. -/
  names : Nat := 0

namespace Arena

def size (arena : Arena) : Nat := arena.blocks.size

def new (arena : Arena) (parent : Option BlockId) (tag : Tag) : BlockId × Arena :=
  (arena.blocks.size, { arena with blocks := arena.blocks.push { parent, tag } })

def get (arena : Arena) (id : BlockId) : Except Fault Block :=
  match arena.blocks[id]? with
  | some block => pure block
  | none => throw .outOfRange

/-- Changes a block; the empty block cannot be changed. -/
def update (arena : Arena) (id : BlockId) (change : Block → Block) : Except Fault Arena :=
  if id = emptyBlock then throw (.violated "ir: cannot modify the empty block")
  else do
    let block ← arena.get id
    pure { arena with blocks := arena.blocks.setIfInBounds id (change block) }

def appendHead (arena : Arena) (id : BlockId) (n : Node) : Except Fault Arena :=
  arena.update id fun block => { block with rest := block.rest ++ [n] }

def appendTail (arena : Arena) (id : BlockId) (n : Node) : Except Fault Arena :=
  arena.update id fun block => { block with tail := block.tail ++ [n] }

def prependHead (arena : Arena) (id : BlockId) (n : Node) : Except Fault Arena :=
  arena.update id fun block => { block with front := n :: block.front }

def newName (arena : Arena) : String × Arena :=
  (s!"v{arena.names}", { arena with names := arena.names + 1 })

/-- Declares a fresh variable as the first statement of a block, so that it is visible before
anything else the block does. -/
def declare (arena : Arena) (id : BlockId) (init : Node) : Except Fault (String × Arena) := do
  let (name, named) := arena.newName
  let arena ← named.update id fun block =>
    { block with vars := block.vars ++ [(name, init)], front := .assign name init true :: block.front }
  pure (name, arena)

/-- Declares a fresh variable at the current end of the head of a block. -/
def declareHere (arena : Arena) (id : BlockId) (init : Node) : Except Fault (String × Arena) := do
  let (name, named) := arena.newName
  let arena ← named.update id fun block =>
    { block with vars := block.vars ++ [(name, init)], rest := block.rest ++ [.assign name init true] }
  pure (name, arena)

/-- Walks from a block through its ancestors, up to `steps` of them, to the first block on which
`probe` answers. -/
def findUp {β : Type} (arena : Arena) (probe : BlockId → Block → Option β) :
    Nat → Option BlockId → Except Fault (Option β)
  | _, none => pure none
  | 0, some _ => throw .outOfRange
  | steps + 1, some id => do
    let block ← arena.get id
    match probe id block with
    | some found => pure (some found)
    | none => arena.findUp probe steps block.parent

/-- The closest block at or above `id` on which `probe` answers. -/
def search {β : Type} (arena : Arena) (id : Option BlockId) (probe : BlockId → Block → Option β) :
    Except Fault (Option β) :=
  arena.findUp probe (arena.size + 1) id

/-- The closest block at or above `id` that declares a variable. -/
def declaring (arena : Arena) (id : Option BlockId) (name : String) :
    Except Fault (Option BlockId) :=
  arena.search id fun here block => if block.vars.any (·.1 == name) then some here else none

/-- Whether `ancestor` is met on the way up from `id`, within a number of steps. -/
def meets (arena : Arena) (ancestor : BlockId) : Nat → Option BlockId → Except Fault Bool
  | _, none => pure false
  | 0, some _ => throw .outOfRange
  | steps + 1, some id =>
    if id = ancestor then pure true
    else do
      let block ← arena.get id
      arena.meets ancestor steps block.parent

/-- Whether `ancestor` is `id` itself or encloses it. -/
def isAncestor (arena : Arena) (ancestor : BlockId) (id : Option BlockId) : Except Fault Bool :=
  arena.meets ancestor (arena.size + 1) id

/-- Records that a reader is advanced in a block, at most once in each. -/
def bind (arena : Arena) (id : BlockId) (reader : String) : Except Fault Arena := do
  let updated ← arena.update id fun block => { block with bound := block.bound ++ [reader] }
  let block ← arena.get id
  if block.bound.contains reader then
    throw (.violated s!"ir: reader {reader} bound twice in block {id}")
  else pure updated

def boundIn (arena : Arena) (id : BlockId) (reader : String) : Except Fault Bool := do
  let block ← arena.get id
  pure (block.bound.contains reader)

/-- Whether a reader is advanced in a block or one of its ancestors. -/
def isBound (arena : Arena) (id : Option BlockId) (reader : String) : Except Fault Bool := do
  let found ← arena.search id fun _ block =>
    if block.bound.contains reader then some () else none
  pure found.isSome

/-- Redirects the reads of a reader in a block and the blocks below it. -/
def setOverride (arena : Arena) (id : BlockId) (reader : String) (target : Override) :
    Except Fault Arena :=
  arena.update id fun block =>
    { block with overrides := block.overrides.filter (·.1 != reader) ++ [(reader, target)] }

def overrideIn (arena : Arena) (id : BlockId) (reader : String) : Except Fault Bool := do
  let block ← arena.get id
  pure (block.overrides.any (·.1 == reader))

/-- The closest redirection of a reader that a block sees, with the block that holds it. -/
def lookupOverride (arena : Arena) (id : Option BlockId) (reader : String) :
    Except Fault (Option (Override × BlockId)) :=
  arena.search id fun here block => (block.overrides.lookup reader).map (·, here)

/-- The closest block at or above `id` whose tag is accepted. -/
def enclosing (arena : Arena) (id : Option BlockId) (accept : Tag → Bool) :
    Except Fault (Option BlockId) :=
  arena.search id fun here block => if accept block.tag then some here else none

end Arena

end QueryFusion.Code

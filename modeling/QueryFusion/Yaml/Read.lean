import QueryFusion.Yaml.Scalar

/-!
# Reading documents

The first document of a text: block collections told apart by indentation, flow collections between
brackets, plain and quoted scalars, comments, and a marker before the document. What follows the
root node is not looked at. A text that is not of this form has no document.

The reader goes down with a bound on its steps; each step takes at least one character, so a bound
linear in the length of the text is never met.
-/

namespace QueryFusion.Yaml

/-!
## Document nodes

A document is a tree of scalars, sequences and mappings. A scalar keeps its text and whether it was
written plain, because only plain scalars can stand for anything but a text.
-/

/-- A node of a document. -/
inductive Node where
  | scalar (text : String) (isPlain : Bool)
  | seq (items : List Node)
  /-- Keys with their values, in the order they were written. -/
  | map (entries : List (Node × Node))
deriving Repr, Inhabited

/-- The node that stands where nothing was written. -/
def Node.empty : Node := .scalar "" true

/-! ## Readers -/

/-- Whether the sign that ends a key of a block mapping stands here. -/
def endsKey : List Char → Bool
  | ':' :: rest => endsToken rest
  | _ => false

/-- Whether the sign of a sequence entry stands here. -/
def startsEntry : List Char → Bool
  | '-' :: rest => endsToken rest
  | _ => false

def Cursor.atEnd (c : Cursor) : Bool := c.rest.isEmpty || isMarker c.column c.rest

def Cursor.skipBlanks (c : Cursor) : Cursor := c.advance (c.rest.takeWhile isBlank).length

mutual

/-- A scalar or a flow collection. -/
def readLeaf : Nat → Bool → Nat → Cursor → Option (Node × Cursor)
  | 0, _, _, _ => none
  | steps + 1, inFlow, indent, c =>
    match c.rest with
    | '[' :: _ => readFlowSeq steps [] (c.advance 1)
    | '\x7b' :: _ => readFlowMap steps [] (c.advance 1)
    | '"' :: _ => (quoted? '"' c).map fun (text, after) => (.scalar text false, after)
    | '\'' :: _ => (quoted? '\'' c).map fun (text, after) => (.scalar text false, after)
    | rest =>
      if startsPlain inFlow rest then
        (plain? inFlow indent c).map fun (text, after) => (.scalar text true, after)
      else none

/-- The rest of a flow sequence after an opening bracket or a comma; the items come latest first.
An item with a value is a mapping of one entry. -/
def readFlowSeq : Nat → List Node → Cursor → Option (Node × Cursor)
  | 0, _, _ => none
  | steps + 1, items, c => do
    let c := c.skipInFlow
    match c.rest with
    | ']' :: _ => some (.seq items.reverse, c.advance 1)
    | _ =>
      let (key, value?, after) ← readFlowEntry steps c
      let item := match value? with
        | some value => .map [(key, value)]
        | none => key
      let after := after.skipInFlow
      match after.rest with
      | ',' :: _ => readFlowSeq steps (item :: items) (after.advance 1)
      | ']' :: _ => some (.seq (item :: items).reverse, after.advance 1)
      | _ => none

/-- The rest of a flow mapping after an opening brace or a comma; the entries come latest first. -/
def readFlowMap : Nat → List (Node × Node) → Cursor → Option (Node × Cursor)
  | 0, _, _ => none
  | steps + 1, entries, c => do
    let c := c.skipInFlow
    match c.rest with
    | '\x7d' :: _ => some (.map entries.reverse, c.advance 1)
    | _ =>
      let (key, value?, after) ← readFlowEntry steps c
      let entry := (key, value?.getD Node.empty)
      let after := after.skipInFlow
      match after.rest with
      | ',' :: _ => readFlowMap steps (entry :: entries) (after.advance 1)
      | '\x7d' :: _ => some (.map (entry :: entries).reverse, after.advance 1)
      | _ => none

/-- A node of a flow collection, with its value if a colon follows on the same line. -/
def readFlowEntry : Nat → Cursor → Option (Node × Option Node × Cursor)
  | 0, _ => none
  | steps + 1, c => do
    let (key, after) ← match c.rest with
      | ':' :: _ => some (Node.empty, c)
      | _ => readLeaf steps true 0 c
    let next := after.skipInFlow
    match next.rest with
    | ':' :: _ =>
      if next.line = c.line then
        let start := (next.advance 1).skipInFlow
        match start.rest with
        | ',' :: _ | ']' :: _ | '\x7d' :: _ => some (key, some Node.empty, start)
        | _ =>
          let (value, after) ← readLeaf steps true 0 start
          some (key, some value, after)
      else some (key, none, after)
    | _ => some (key, none, after)

/-- The node of a block collection in column `parent`, or of the document when there is none.
`keyAllowed` tells whether a key or an entry may stand on this line, `entriesAllowed` whether
entries may stand in the column of the parent itself. -/
def readBlock : Nat → Option Nat → Bool → Bool → Cursor → Option (Node × Cursor)
  | 0, _, _, _, _ => none
  | steps + 1, parent, keyAllowed, entriesAllowed, start => do
    let (c, keyAllowed) := start.skip keyAllowed
    let indent := match parent with
      | some column => column + 1
      | none => 0
    if c.atEnd then some (Node.empty, c)
    else if c.column < indent then
      if entriesAllowed && c.column + 1 = indent && startsEntry c.rest then
        readSeq steps c.column true [] c
      else some (Node.empty, c)
    else if startsEntry c.rest then
      if keyAllowed then readSeq steps c.column false [] c else none
    else
      let (node, after) ← readLeaf steps false indent c
      let next := after.skipBlanks
      if endsKey next.rest then
        if keyAllowed && next.line = c.line then
          readMap steps c.column [] node (next.advance 1)
        else none
      else some (node, after)

/-- A block mapping from the value of `key` on; the entries come latest first. -/
def readMap : Nat → Nat → List (Node × Node) → Node → Cursor → Option (Node × Cursor)
  | 0, _, _, _, _ => none
  | steps + 1, column, entries, key, start => do
    let (value, after) ← readBlock steps (some column) false true start
    let entries := (key, value) :: entries
    let (c, _) := after.skip true
    if c.atEnd || c.column < column then some (.map entries.reverse, c)
    else if column < c.column || startsEntry c.rest then none
    else
      let (key, after) ← readLeaf steps false (column + 1) c
      let next := after.skipBlanks
      if endsKey next.rest && next.line = c.line then
        readMap steps column entries key (next.advance 1)
      else none

/-- A block sequence from an entry on; the items come latest first. A sequence in the column of its
parent ends at the next key of the parent. -/
def readSeq : Nat → Nat → Bool → List Node → Cursor → Option (Node × Cursor)
  | 0, _, _, _, _ => none
  | steps + 1, column, inParent, items, start => do
    let (item, after) ← readBlock steps (some column) true false (start.advance 1)
    let items := item :: items
    let (c, _) := after.skip true
    if c.atEnd || c.column < column then some (.seq items.reverse, c)
    else if column < c.column then none
    else if startsEntry c.rest then readSeq steps column inParent items c
    else if inParent then some (.seq items.reverse, c)
    else none

end

/-- The root node of a text; a text without tokens has an empty one. -/
def read? (text : String) : Option Node :=
  let chars := match text.toList with
    | '\ufeff' :: rest => rest
    | chars => chars
  if chars.all isAllowed then
    let (c, _) := Cursor.skip ⟨unifyBreaks chars, 0, 0⟩ true
    let (start, keyAllowed) :=
      match c.rest with
      | '-' :: '-' :: '-' :: _ => if isMarker c.column c.rest then (c.advance 3, false) else (c, true)
      | _ => (c, true)
    (readBlock (4 * chars.length + 8) none keyAllowed false start).map Prod.fst
  else none

end QueryFusion.Yaml

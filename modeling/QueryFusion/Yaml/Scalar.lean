/-!
# Scalar texts

A scalar may run over several lines. Blanks around a line end are dropped; a single line end becomes
a blank, and of several the first is dropped. Double quotes know escapes, single quotes only the
doubled quote.
-/

namespace QueryFusion.Yaml

/-!
## Reading positions

A cursor is the rest of a text with the line and column it starts at. Blanks separate tokens, breaks
end lines, and a comment runs from a number sign to the end of its line.
-/

/-- A position in a text. -/
structure Cursor where
  rest : List Char
  line : Nat := 0
  column : Nat := 0

def isBlank (c : Char) : Bool := c == ' ' || c == '\t'

def isBreak (c : Char) : Bool := c == '\n' || c == '\u2028' || c == '\u2029'

/-- Whether a token ends here: at a blank, a break or the end of the text. -/
def endsToken : List Char → Bool
  | [] => true
  | c :: _ => isBlank c || isBreak c

/-- Whether a character may stand in a document. -/
def isAllowed (c : Char) : Bool :=
  let n := c.toNat
  n == 0x09 || n == 0x0A || n == 0x0D || (0x20 ≤ n && n ≤ 0x7E) || n == 0x85 ||
    (0xA0 ≤ n && n ≤ 0xFFFD) || 0x10000 ≤ n

/-- Writes every line end of one or two characters as a line feed. -/
def unifyBreaks : List Char → List Char
  | '\r' :: '\n' :: rest => '\n' :: unifyBreaks rest
  | '\r' :: rest => '\n' :: unifyBreaks rest
  | '\u0085' :: rest => '\n' :: unifyBreaks rest
  | c :: rest => c :: unifyBreaks rest
  | [] => []

/-- Whether a marker between documents stands at a position. -/
def isMarker (column : Nat) : List Char → Bool
  | '-' :: '-' :: '-' :: rest => column == 0 && endsToken rest
  | '.' :: '.' :: '.' :: rest => column == 0 && endsToken rest
  | _ => false

def Cursor.advance (c : Cursor) (count : Nat) : Cursor :=
  { c with rest := c.rest.drop count, column := c.column + count }

/-- Skips blanks, breaks and comments. The second part tells whether a key of a block mapping may
stand at the token found: a new line allows it. A tab is skipped only where no key may stand. -/
def skipFrom (inFlow : Bool) : List Char → Nat → Nat → Bool → Bool → Cursor × Bool
  | [], line, column, keyAllowed, _ => (⟨[], line, column⟩, keyAllowed)
  | c :: rest, line, column, keyAllowed, inComment =>
    if isBreak c then skipFrom inFlow rest (line + 1) 0 (keyAllowed || !inFlow) false
    else if inComment then skipFrom inFlow rest line (column + 1) keyAllowed true
    else if c == ' ' || (c == '\t' && (inFlow || !keyAllowed)) then
      skipFrom inFlow rest line (column + 1) keyAllowed false
    else if c == '#' then skipFrom inFlow rest line (column + 1) keyAllowed true
    else (⟨c :: rest, line, column⟩, keyAllowed)

/-- Skips to the next token of a block collection. -/
def Cursor.skip (c : Cursor) (keyAllowed : Bool) : Cursor × Bool :=
  skipFrom false c.rest c.line c.column keyAllowed false

/-- Skips to the next token of a flow collection. -/
def Cursor.skipInFlow (c : Cursor) : Cursor := (skipFrom true c.rest c.line c.column true false).1

/-! ## Scalars -/

/-- Blanks and line ends met since the last character of a scalar, the latest first. -/
structure Gap where
  /-- Blanks before any line end. -/
  blanks : List Char := []
  isBroken : Bool := false
  /-- The first line end, unless it was escaped. -/
  first : Option Char := none
  others : List Char := []

namespace Gap

def isEmpty (g : Gap) : Bool := g.blanks.isEmpty && !g.isBroken

/-- What a gap contributes to the text, the latest first. -/
def fill (g : Gap) : List Char :=
  if g.isBroken then
    match g.first with
    | some c =>
      if c == '\n' then (if g.others.isEmpty then [' '] else g.others) else g.others ++ [c]
    | none => g.others
  else g.blanks

/-- Adds a blank; after a line end it does not count. -/
def addBlank (g : Gap) (c : Char) : Gap := if g.isBroken then g else { g with blanks := c :: g.blanks }

def addBreak (g : Gap) (c : Char) : Gap :=
  if g.isBroken then { g with others := c :: g.others }
  else { isBroken := true, first := some c }

def escaped : Gap := { isBroken := true }

end Gap

/-- Reads a plain scalar. `indent` is the least column of a continuation line outside of flow
collections. -/
def plainFrom (inFlow : Bool) (indent : Nat) :
    List Char → Nat → Nat → List Char → Gap → Option (List Char × Cursor)
  | [], line, column, text, _ => some (text, ⟨[], line, column⟩)
  | c :: rest, line, column, text, gap =>
    if isBlank c then
      if gap.isBroken && c == '\t' && column < indent then none
      else plainFrom inFlow indent rest line (column + 1) text (gap.addBlank c)
    else if isBreak c then plainFrom inFlow indent rest (line + 1) 0 text (gap.addBreak c)
    else
      let stops :=
        (gap.isBroken && ((!inFlow && column < indent) || isMarker column (c :: rest))) ||
        (!gap.isEmpty && c == '#') ||
        (c == ':' && endsToken rest) ||
        (inFlow && [',', '?', '[', ']', '\x7b', '\x7d'].contains c)
      if stops then some (text, ⟨c :: rest, line, column⟩)
      else plainFrom inFlow indent rest line (column + 1) (c :: (gap.fill ++ text)) {}

def hexDigit? (c : Char) : Option Nat :=
  if '0' ≤ c ∧ c ≤ '9' then some (c.toNat - 48)
  else if 'a' ≤ c ∧ c ≤ 'f' then some (c.toNat - 87)
  else if 'A' ≤ c ∧ c ≤ 'F' then some (c.toNat - 55)
  else none

/-- The character whose number is written in the first `count` hexadecimal digits. -/
def hexChar? (count : Nat) (cs : List Char) : Option Char := do
  let digits ← (cs.take count).mapM hexDigit?
  if digits.length ≠ count then none
  else
    let n := digits.foldl (fun value d => value * 16 + d) 0
    if n.isValidChar then some (Char.ofNat n) else none

/-- The character an escape stands for, and how many characters follow the backslash. -/
def escape? : List Char → Option (Char × Nat)
  | [] => none
  | c :: rest =>
    let hex (count : Nat) : Option (Char × Nat) := (hexChar? count rest).map fun d => (d, count + 1)
    match c with
    | '0' => some ('\x00', 1)
    | 'a' => some ('\x07', 1)
    | 'b' => some ('\x08', 1)
    | 't' | '\t' => some ('\t', 1)
    | 'n' => some ('\n', 1)
    | 'v' => some ('\x0b', 1)
    | 'f' => some ('\x0c', 1)
    | 'r' => some ('\r', 1)
    | 'e' => some ('\x1b', 1)
    | ' ' => some (' ', 1)
    | '"' => some ('"', 1)
    | '\'' => some ('\'', 1)
    | '/' => some ('/', 1)
    | '\\' => some ('\\', 1)
    | 'N' => some ('\u0085', 1)
    | '_' => some ('\u00a0', 1)
    | 'L' => some ('\u2028', 1)
    | 'P' => some ('\u2029', 1)
    | 'x' => hex 2
    | 'u' => hex 4
    | 'U' => hex 8
    | _ => none

/-- Reads the rest of a quoted scalar, up to and with the closing quote. -/
def quotedFrom (quote : Char) (cs : List Char) (line column : Nat) (text : List Char) (gap : Gap) :
    Option (List Char × Cursor) :=
  match cs with
  | [] => none
  | c :: rest =>
    if isBlank c then quotedFrom quote rest line (column + 1) text (gap.addBlank c)
    else if isBreak c then quotedFrom quote rest (line + 1) 0 text (gap.addBreak c)
    else if isMarker column (c :: rest) then none
    else
      let text := gap.fill ++ text
      if c == quote then
        match quote, rest with
        | '\'', '\'' :: after => quotedFrom quote after line (column + 2) ('\'' :: text) {}
        | _, _ => some (text, ⟨rest, line, column + 1⟩)
      else if quote == '"' && c == '\\' then
        match rest with
        | [] => none
        | d :: after =>
          if isBreak d then quotedFrom quote after (line + 1) 0 text Gap.escaped
          else
            match escape? (d :: after) with
            | none => none
            | some (e, count) =>
              quotedFrom quote (after.drop (count - 1)) line (column + 1 + count) (e :: text) {}
      else quotedFrom quote rest line (column + 1) (c :: text) {}
termination_by cs.length
decreasing_by all_goals simp +arith [List.length_drop]

def plain? (inFlow : Bool) (indent : Nat) (c : Cursor) : Option (String × Cursor) :=
  (plainFrom inFlow indent c.rest c.line c.column [] {}).map fun (text, after) =>
    (String.ofList text.reverse, after)

/-- A quoted scalar whose opening quote stands at a cursor. -/
def quoted? (quote : Char) (c : Cursor) : Option (String × Cursor) :=
  (quotedFrom quote (c.rest.drop 1) c.line (c.column + 1) [] {}).map fun (text, after) =>
    (String.ofList text.reverse, after)

/-- Whether a plain scalar may start here. -/
def startsPlain (inFlow : Bool) : List Char → Bool
  | [] => false
  | c :: rest =>
    if c == '-' then !endsToken rest
    else if c == '?' || c == ':' then !inFlow && !endsToken rest
    else
      !isBlank c && !isBreak c &&
        !(['-', ',', '[', ']', '\x7b', '\x7d', '#', '&', '*', '!', '|', '>', '\'', '"', '%', '@',
          '\x60'].contains c)

end QueryFusion.Yaml

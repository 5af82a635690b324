import QueryFusion.Digest
import QueryFusion.Text.LetterCase
import QueryFusion.Text.Quoted

/-!
# Command line arguments

A command line is a command with its files, among which flags may stand anywhere. A long flag takes
its value after an equals sign or from the next argument; the flag for verbosity needs none. Two
dashes alone end the flags. The refusal of an unknown command names the commands that are spelt like
it.
-/

namespace QueryFusion.Text

/-!
## Edit distance

How many insertions, deletions and replacements of single elements turn one list into another. The
distances to all beginnings of the second list are kept in a row, which every element of the first
list turns into the next row.
-/

variable {α : Type} [BEq α]

/-- The rest of the next row: `left` is the distance just found, and the row before it is given from
the distance above and to the left on. -/
def nextDistances (a : α) : List α → Nat → List Nat → List Nat
  | b :: target, left, corner :: above :: row =>
    let here := if a == b then corner else min left (min above corner) + 1
    here :: nextDistances a target here (above :: row)
  | _, _, _ => []

/-- The distances to all beginnings of `target` after one more element. -/
def stepDistances (target : List α) (row : List Nat) (a : α) : List Nat :=
  let first := row.headD 0 + 1
  first :: nextDistances a target first row

def editDistance (source target : List α) : Nat :=
  (source.foldl (stepDistances target) (List.range (target.length + 1))).getLastD 0

end QueryFusion.Text

/-! ## Command lines -/

namespace QueryFusion.Command

/-- What is to be done. -/
inductive Action where
  | inspect
  | run
deriving DecidableEq, Repr

def Action.ofName? (name : String) : Option Action :=
  if name = "ir" then some inspect else if name = "run" then some run else none

def Action.arity : Action → Nat
  | inspect => 1
  | run => 2

def suggestable : List String := ["ir", "run", "completion"]

/-- Whether a command is spelt like a typed name, without regard to letter case: at most two edits
away, or a continuation of it. -/
def isSimilar (typed name : String) : Bool :=
  let typed := Text.lowercase typed
  decide (Text.editDistance (Digest.textBytes typed) (Digest.textBytes name) ≤ 2) ||
    name.startsWith typed

/-- The commands that a typed name may have meant, each on a line of its own. -/
def suggestions (typed : String) : String :=
  match suggestable.filter (isSimilar typed) with
  | [] => ""
  | names => "\n\nDid you mean this?\n" ++ String.join (names.map fun name => s!"\t{name}\n")

/-- Why a command line is refused. -/
inductive UsageError where
  | unknownCommand (name : String)
  | unknownFlag (name : String)
  /-- A single dash before letters that are no flags. -/
  | unknownShorthand (letter : Char) (letters : String)
  | badFlag (text : String)
  | missingValue (text : String)
  | badTruth (value : String)
  | fileCount (expected received : Nat)
deriving DecidableEq, Repr

def UsageError.message : UsageError → String
  | unknownCommand name =>
    s!"unknown command {Text.quote name} for \"dump\"" ++ suggestions name
  | unknownFlag name => s!"unknown flag: --{name}"
  | unknownShorthand letter letters => s!"unknown shorthand flag: '{letter}' in -{letters}"
  | badFlag text => s!"bad flag syntax: {text}"
  | missingValue text => s!"flag needs an argument: {text}"
  | badTruth value =>
    s!"invalid argument {Text.quote value} for \"-v, --verbose\" flag: strconv.ParseBool: parsing {Text.quote value}: invalid syntax"
  | fileCount expected received => s!"accepts {expected} arg(s), received {received}"

/-- A command line without its command. -/
structure Options where
  verbose : Bool := false
  /-- The file with the physical configuration; none if empty. -/
  config : String := ""
  help : Bool := false
  files : List String := []
deriving DecidableEq, Repr

def truthOf? (s : String) : Option Bool :=
  if ["1", "t", "T", "TRUE", "true", "True"].contains s then some true
  else if ["0", "f", "F", "FALSE", "false", "False"].contains s then some false
  else none

def cutEquals (cs : List Char) : String × Option String :=
  match cs.dropWhile (· != '=') with
  | [] => (String.ofList cs, none)
  | _ :: value => (String.ofList (cs.takeWhile (· != '=')), some (String.ofList value))

def Options.setVerbose (o : Options) (value : String) : Except UsageError Options :=
  match truthOf? value with
  | some b => pure { o with verbose := b }
  | none => throw (.badTruth value)

def Options.readLetters (o : Options) (letters : List Char) : Except UsageError Options :=
  match letters with
  | [] => pure o
  | 'v' :: '=' :: c :: value => o.setVerbose (String.ofList (c :: value))
  | 'v' :: rest => Options.readLetters { o with verbose := true } rest
  | 'h' :: rest => Options.readLetters { o with help := true } rest
  | c :: _ => throw (.unknownShorthand c (String.ofList letters))

def Options.read (o : Options) : List String → Except UsageError Options
  | [] => pure o
  | arg :: rest =>
    match arg.toList with
    | ['-', '-'] => pure { o with files := o.files ++ rest }
    | '-' :: '-' :: name =>
      match cutEquals name with
      | ("", _) => throw (.badFlag arg)
      | ("verbose", none) => Options.read { o with verbose := true } rest
      | ("verbose", some value) => do
        let o ← o.setVerbose value
        o.read rest
      | ("help", none) => Options.read { o with help := true } rest
      | ("config", some value) => Options.read { o with config := value } rest
      | ("config", none) =>
        match rest with
        | value :: rest => Options.read { o with config := value } rest
        | [] => throw (.missingValue arg)
      | (other, _) =>
        if other.startsWith "-" then throw (.badFlag arg) else throw (.unknownFlag other)
    | '-' :: letter :: letters => do
      let o ← o.readLetters (letter :: letters)
      o.read rest
    | _ => Options.read { o with files := o.files ++ [arg] } rest

/-- Whether a long flag may take its value from the next argument. -/
def takesNext (arg : String) : Bool :=
  match arg.toList with
  | '-' :: '-' :: name => name != "verbose".toList && name != "help".toList && !name.contains '='
  | ['-', letter] => letter != 'v' && letter != 'h'
  | _ => false

/-- Takes the first argument that is neither a flag nor the value of one: it, and the others. -/
def takeCommand? : List String → Option (String × List String)
  | [] => none
  | arg :: rest =>
    if arg = "--" then none
    else if takesNext arg then
      match rest with
      | [] => none
      | value :: rest => (takeCommand? rest).map fun (name, others) => (name, arg :: value :: others)
    else if arg.startsWith "-" || arg.isEmpty then
      (takeCommand? rest).map fun (name, others) => (name, arg :: others)
    else some (arg, rest)

/-- A request on the command line. -/
inductive Request where
  | help
  | act (action : Action) (options : Options)

/-- The request that a command line makes. -/
def Request.read (args : List String) : Except UsageError Request :=
  match takeCommand? args with
  | none => do
    let _ ← Options.read {} args
    pure .help
  | some (name, others) =>
    match Action.ofName? name with
    | none => if ["help", "completion"].contains name then pure .help else throw (.unknownCommand name)
    | some action => do
      let o ← Options.read {} others
      if o.help then pure .help
      else if o.files.length ≠ action.arity then throw (.fileCount action.arity o.files.length)
      else pure (.act action o)

end QueryFusion.Command

import QueryFusion.Document.Tree

/-!
# Plan documents by their fields

The shape of a plan document: which fields there are and what each may hold. Field names are matched
without regard to letter case, unknown fields are refused, and null leaves a field as it is. Nothing
is said here about what the fields mean.
-/

namespace QueryFusion.Document

/-- An expression by its fields. -/
structure ExprSpec where
  var : Option String := none
  /-- A chain of field accesses on a variable, joined by points. -/
  path : String := ""
  int : Option Int64 := none
  float : Option Float := none
  string : Option String := none
  bool : Option Bool := none
  isNull : Bool := false
  isMissing : Bool := false
  fn : String := ""
  args : List (Option ExprSpec) := []
  /-- Where the call stands in the query text. -/
  loc : String := ""
deriving Inhabited

/-- A variable with its expression, by their fields. -/
structure BindSpec where
  var : String := ""
  expr : Option ExprSpec := none
deriving Inhabited

/-- A sort key by its fields. -/
structure OrderSpec where
  expr : Option ExprSpec := none
  desc : Bool := false
deriving Inhabited

/-- A dataset by its fields. -/
structure DatasetSpec where
  name : String := ""
  kind : String := ""
  format : String := ""
deriving Inhabited

/-- An operator by its fields. -/
structure OpSpec where
  op : String := ""
  input : Option OpSpec := none
  inputs : List (Option OpSpec) := []
  dataset : String := ""
  vars : List String := []
  cond : Option ExprSpec := none
  bind : List BindSpec := []
  var : String := ""
  pos : String := ""
  expr : Option ExprSpec := none
  /-- Whether an aggregation merges partial results. -/
  isGlobal : Bool := false
  keys : List BindSpec := []
  order : List OrderSpec := []
  /-- How many leading tuples of an order are consumed. -/
  topK : Option Int64 := none
  n : Int64 := 0
  redistribute : Bool := false
  nested : Option OpSpec := none
deriving Inhabited

/-- A plan document by its fields. -/
structure PlanSpec where
  datasets : List DatasetSpec := []
  physical : Tree := .null
  plan : Option OpSpec := none
deriving Inhabited

/-- Fills a record field by field, in the order of the entries. -/
def fillFields {α : Type} (set : String → Tree → α → Option α) : Tree → α → Option α
  | .null, a => some a
  | .map entries, a => entries.foldlM (fun a (key, value) => set (foldName key) value a) a
  | _, _ => none

namespace ExprSpec

mutual

def fill : Tree → ExprSpec → Option ExprSpec
  | .null, spec => some spec
  | .map entries, spec => fillEntries entries spec
  | _, _ => none

def fillEntries : List (String × Tree) → ExprSpec → Option ExprSpec
  | [], spec => some spec
  | (key, value) :: rest, spec => do
    let spec ← match foldName key with
      | "var" => (value.orNull Tree.text?).map fun v => { spec with var := v }
      | "path" => (value.orNull Tree.text?).map fun v => { spec with path := v.getD spec.path }
      | "int" => (value.orNull Tree.int64?).map fun v => { spec with int := v }
      | "float" => (value.orNull Tree.double?).map fun v => { spec with float := v }
      | "string" => (value.orNull Tree.text?).map fun v => { spec with string := v }
      | "bool" => (value.orNull Tree.bool?).map fun v => { spec with bool := v }
      | "null" => (value.orNull Tree.bool?).map fun v => { spec with isNull := v.getD spec.isNull }
      | "missing" =>
        (value.orNull Tree.bool?).map fun v => { spec with isMissing := v.getD spec.isMissing }
      | "fn" => (value.orNull Tree.text?).map fun v => { spec with fn := v.getD spec.fn }
      | "args" => (readArgs value).map fun v => { spec with args := v }
      | "loc" => (value.orNull Tree.text?).map fun v => { spec with loc := v.getD spec.loc }
      | _ => none
    fillEntries rest spec

def readArgs : Tree → Option (List (Option ExprSpec))
  | .null => some []
  | .list items => readArgItems items
  | _ => none

/-- The arguments of a call, one by one; null is no expression. -/
def readArgItems : List Tree → Option (List (Option ExprSpec))
  | [] => some []
  | .null :: rest => (readArgItems rest).map (none :: ·)
  | item :: rest => do
    let first ← fill item {}
    let others ← readArgItems rest
    some (some first :: others)

end

/-- An optional expression, filled into what is already there. -/
def fillOption (value : Tree) (held : Option ExprSpec) : Option (Option ExprSpec) :=
  value.orNull fun t => fill t (held.getD {})

end ExprSpec

def BindSpec.set (name : String) (value : Tree) (spec : BindSpec) : Option BindSpec :=
  match name with
  | "var" => (value.orNull Tree.text?).map fun v => { spec with var := v.getD spec.var }
  | "expr" => (ExprSpec.fillOption value spec.expr).map fun v => { spec with expr := v }
  | _ => none

def OrderSpec.set (name : String) (value : Tree) (spec : OrderSpec) : Option OrderSpec :=
  match name with
  | "expr" => (ExprSpec.fillOption value spec.expr).map fun v => { spec with expr := v }
  | "desc" => (value.orNull Tree.bool?).map fun v => { spec with desc := v.getD spec.desc }
  | _ => none

def DatasetSpec.set (name : String) (value : Tree) (spec : DatasetSpec) : Option DatasetSpec :=
  match name with
  | "name" => (value.orNull Tree.text?).map fun v => { spec with name := v.getD spec.name }
  | "kind" => (value.orNull Tree.text?).map fun v => { spec with kind := v.getD spec.kind }
  | "format" => (value.orNull Tree.text?).map fun v => { spec with format := v.getD spec.format }
  | _ => none

def readList {α : Type} [Inhabited α] (set : String → Tree → α → Option α) (value : Tree) :
    Option (List α) := do
  let items ← value.items?
  items.mapM fun item => fillFields set item default

/-- A list of names; null is the empty name. -/
def readNames (value : Tree) : Option (List String) := do
  let items ← value.items?
  items.mapM fun item => (item.orNull Tree.text?).map (·.getD "")

namespace OpSpec

mutual

def fill : Tree → OpSpec → Option OpSpec
  | .null, spec => some spec
  | .map entries, spec => fillEntries entries spec
  | _, _ => none

def fillEntries : List (String × Tree) → OpSpec → Option OpSpec
  | [], spec => some spec
  | (key, value) :: rest, spec => do
    let spec ← match foldName key with
      | "op" => (value.orNull Tree.text?).map fun v => { spec with op := v.getD spec.op }
      | "input" => (fillOption value spec.input).map fun v => { spec with input := v }
      | "inputs" => (readInputs value).map fun v => { spec with inputs := v }
      | "dataset" => (value.orNull Tree.text?).map fun v => { spec with dataset := v.getD spec.dataset }
      | "vars" => (readNames value).map fun v => { spec with vars := v }
      | "cond" => (ExprSpec.fillOption value spec.cond).map fun v => { spec with cond := v }
      | "bind" => (readList BindSpec.set value).map fun v => { spec with bind := v }
      | "var" => (value.orNull Tree.text?).map fun v => { spec with var := v.getD spec.var }
      | "pos" => (value.orNull Tree.text?).map fun v => { spec with pos := v.getD spec.pos }
      | "expr" => (ExprSpec.fillOption value spec.expr).map fun v => { spec with expr := v }
      | "global" => (value.orNull Tree.bool?).map fun v => { spec with isGlobal := v.getD spec.isGlobal }
      | "keys" => (readList BindSpec.set value).map fun v => { spec with keys := v }
      | "order" => (readList OrderSpec.set value).map fun v => { spec with order := v }
      | "topk" => (value.orNull Tree.int64?).map fun v => { spec with topK := v }
      | "n" => (value.orNull Tree.int64?).map fun v => { spec with n := v.getD spec.n }
      | "redistribute" =>
        (value.orNull Tree.bool?).map fun v => { spec with redistribute := v.getD spec.redistribute }
      | "nested" => (fillOption value spec.nested).map fun v => { spec with nested := v }
      | _ => none
    fillEntries rest spec

/-- An optional operator, filled into what is already there. -/
def fillOption : Tree → Option OpSpec → Option (Option OpSpec)
  | .null, _ => some none
  | t, held => (fill t (held.getD {})).map some

def readInputs : Tree → Option (List (Option OpSpec))
  | .null => some []
  | .list items => readInputItems items
  | _ => none

/-- The inputs of an operator, one by one; null is no operator. -/
def readInputItems : List Tree → Option (List (Option OpSpec))
  | [] => some []
  | .null :: rest => (readInputItems rest).map (none :: ·)
  | item :: rest => do
    let first ← fill item {}
    let others ← readInputItems rest
    some (some first :: others)

end

end OpSpec

def PlanSpec.set (name : String) (value : Tree) (spec : PlanSpec) : Option PlanSpec :=
  match name with
  | "datasets" => (readList DatasetSpec.set value).map fun v => { spec with datasets := v }
  | "physical" => some { spec with physical := value }
  | "plan" => (OpSpec.fillOption value spec.plan).map fun v => { spec with plan := v }
  | _ => none

def PlanSpec.read? (text : String) : Option PlanSpec := do
  let tree ← Tree.read? .distinct text
  fillFields PlanSpec.set tree {}

end QueryFusion.Document

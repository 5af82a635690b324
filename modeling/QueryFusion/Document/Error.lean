import QueryFusion.Document.Tree
import QueryFusion.Plan.Dataset
import QueryFusion.Plan.Operator

/-!
# Configurations and decoding errors

Why a plan document has no plan. A cause inside the plan names its place, the way from the root
operator through inputs and nested plans.
-/

namespace QueryFusion.Document

/-!
## Configuration documents

A physical configuration is a mapping of sizes. Fields that are absent or null keep their default,
and fields of other names are passed over.
-/

/-- Why a configuration cannot be loaded. -/
inductive ConfigFailure where
  /-- The text is no document, or has a value of the wrong type. -/
  | document
  /-- The configuration is not usable. -/
  | invalid (cause : Plan.ConfigError)
deriving DecidableEq, Repr

def ConfigFailure.message : ConfigFailure → String
  | document => "plan: parsing physical config: malformed document"
  | invalid cause => cause.message

def setSize (name : String) (value : Tree) (c : Plan.Config) : Option Plan.Config :=
  let read := value.orNull Tree.int64?
  match name with
  | "framesforgroupby" =>
    read.map fun v => { c with framesForGroupBy := v.getD c.framesForGroupBy }
  | "framesize" => read.map fun v => { c with frameSize := v.getD c.frameSize }
  | "maxreaders" => read.map fun v => { c with maxReaders := v.getD c.maxReaders }
  | _ => some c

def configOf (tree : Tree) : Except ConfigFailure Plan.Config :=
  let filled := match tree with
    | .null => some ({} : Plan.Config)
    | .map entries =>
      entries.foldlM (fun c (key, value) => setSize (foldName key) value c) ({} : Plan.Config)
    | _ => none
  match filled with
  | none => throw .document
  | some c => c.check.mapError .invalid

def loadConfig (text : String) : Except ConfigFailure Plan.Config :=
  match Tree.read? .latest text with
  | some tree => configOf tree
  | none => throw .document

/-! ## Errors -/

/-- A step from an operator to one below it. -/
inductive PlaceStep where
  | input
  | inputs (i : Nat)
  | nested
deriving DecidableEq, Repr

/-- The way from the root operator, its last step first. -/
abbrev Place := List PlaceStep

def PlaceStep.text : PlaceStep → String
  | input => ".input"
  | inputs i => s!".inputs[{i}]"
  | nested => ".nested"

def Place.text (place : Place) : String := "plan" ++ String.join (place.reverse.map PlaceStep.text)

/-- Why a number could not be read. -/
inductive NumberError where
  | malformed
  | outOfRange
deriving DecidableEq, Repr

/-- Why an expression cannot be decoded. -/
inductive ExprError where
  | missing
  /-- The expression has no field that says what it is. -/
  | empty
  | unknownFunction (name : String)
  /-- An argument of a call cannot be decoded. -/
  | argument (fn : String) (i : Nat) (cause : ExprError)
  | locationShape (text : String)
  | locationNumber (text part : String) (cause : NumberError)
deriving DecidableEq, Repr

def NumberError.message : NumberError → String
  | malformed => "invalid syntax"
  | outOfRange => "value out of range"

def ExprError.message : ExprError → String
  | missing => "missing expression"
  | empty => "empty expression"
  | unknownFunction name => s!"unknown function {Text.quote name}"
  | argument fn i cause => s!"{fn}: argument {i}: {cause.message}"
  | locationShape text => s!"bad location {Text.quote text} (want line:column)"
  | locationNumber text part cause =>
    s!"bad location {Text.quote text}: strconv.Atoi: parsing {Text.quote part}: {cause.message}"

/-- Why a dataset cannot be decoded. -/
inductive DatasetError where
  | missingName
  | unknownKind (name : String)
  | unknownFormat (name : String)
deriving DecidableEq, Repr

def DatasetError.message : DatasetError → String
  | missingName => "missing name"
  | unknownKind name => s!"unknown dataset kind {Text.quote name}"
  | unknownFormat name => s!"unknown dataset format {Text.quote name}"

/-- Which list of bindings an error is in. -/
inductive BindingList where
  | bind
  | keys
deriving DecidableEq, Repr

def BindingList.name : BindingList → String
  | bind => "bind"
  | keys => "keys"

/-- Which expression of an operator an error is in. -/
inductive ExprRole where
  | cond
  | expr
  | order (i : Nat)
deriving DecidableEq, Repr

def ExprRole.name : ExprRole → String
  | cond => "cond"
  | expr => "expr"
  | order i => s!"order[{i}]"

/-- Why an operator cannot be decoded. -/
inductive OpError where
  | unknownOperator (name : String)
  | missingDataset
  | missingRecord
  /-- The leaf of a nested plan stands outside of one. -/
  | strayNestedSource
  | joinInputs (name : String) (count : Nat)
  | missingInput (name : String)
  | missingUnnestVar
  | missingVar (list : BindingList) (i : Nat)
  | binding (list : BindingList) (i : Nat) (cause : ExprError)
  | expr (role : ExprRole) (cause : ExprError)
  | notAggregate (i : Nat) (text : String)
  | missingNested
  | nestedRoot (kind : Plan.OpKind)
deriving DecidableEq, Repr

/-- The text of a cause at a place. -/
def OpError.message (place : Place) : OpError → String
  | unknownOperator name => s!"{place.text}: unknown operator {Text.quote name}"
  | missingDataset => s!"{place.text}: data-scan: missing dataset"
  | missingRecord => s!"{place.text}: data-scan: missing record variable"
  | strayNestedSource => s!"{place.text}: nested-tuple-source outside of a nested plan"
  | joinInputs name count => s!"{place.text}: {name}: need 2 inputs, have {count}"
  | missingInput name => s!"{place.text}: {name}: missing input"
  | missingUnnestVar => s!"{place.text}: unnest: missing var"
  | missingVar list i => s!"{place.text}.{list.name}[{i}]: missing var"
  | binding list i cause => s!"{place.text}.{list.name}[{i}]: {cause.message}"
  | expr role cause => s!"{place.text}: {role.name}: {cause.message}"
  | notAggregate i text => s!"{place.text}: bind[{i}]: {text} is not an aggregate"
  | missingNested => s!"{place.text}: missing nested plan"
  | nestedRoot kind => s!"{place.text}: nested plan must be rooted at an aggregate, not {kind.name}"

/-- Why a plan document has no plan. -/
inductive DecodeError where
  /-- The text is no document, or has an unknown field or a value of the wrong type. -/
  | document
  /-- The physical configuration is not usable. -/
  | config (cause : Plan.ConfigError)
  | dataset (i : Nat) (cause : DatasetError)
  /-- There is no root operator. -/
  | missingPlan
  | op (place : Place) (cause : OpError)
  /-- The live variables of the plan cannot be computed. -/
  | env (cause : Plan.PlanError)
deriving DecidableEq, Repr

def DecodeError.message : DecodeError → String
  | document => "plan: yaml: malformed document"
  | config cause => cause.message
  | dataset i cause => s!"plan: datasets[{i}]: {cause.message}"
  | missingPlan => "plan: missing plan"
  | op place cause => "plan: " ++ cause.message place
  | env cause => "plan: " ++ cause.message

end QueryFusion.Document

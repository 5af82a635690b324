import QueryFusion.Value.Encode
import QueryFusion.Yaml.Resolve

/-!
# Records from documents

Records come as a list of structures. A mapping is a structure if all its keys are texts; numbers are
normalized.
-/

namespace QueryFusion.Document

/-- Why records cannot be loaded. -/
inductive RecordsError where
  /-- The text is no document, or no list. -/
  | document
  /-- An item of the list is no structure. -/
  | notStruct (i : Nat)
deriving DecidableEq, Repr

def scalarValue : Yaml.Scalar → Value
  | .null => .null
  | .bool b => .bool b
  | .int n =>
    if Decimal.fitsInt64 n then .raw (.int (Int64.ofInt n)) else .raw (.uint64 (UInt64.ofNat n.toNat))
  | .float x => .double x
  | .text s => .string s

/-- The text of a key; keys that are scalars of another kind have none, other keys are refused. -/
def keyName? : Yaml.Node → Option (Option String)
  | .scalar text isPlain =>
    match Yaml.resolve text isPlain with
    | .text s => some (some s)
    | _ => some none
  | _ => none

mutual

/-- The value of a node, before normalization. -/
def valueOf? : Yaml.Node → Option Value
  | .scalar text isPlain => some (scalarValue (Yaml.resolve text isPlain))
  | .seq items => (valuesOf? items).map .list
  | .map entries =>
    if Yaml.hasDistinctKeys entries then do
      let fields ← fieldsOf? entries
      match fields.mapM fun (name?, v) => name?.map (·, v) with
      | some named => some (Value.ofFields named)
      | none => some (.raw .mapping)
    else none

def valuesOf? : List Yaml.Node → Option (List Value)
  | [] => some []
  | node :: rest => do
    let first ← valueOf? node
    let others ← valuesOf? rest
    some (first :: others)

def fieldsOf? : List (Yaml.Node × Yaml.Node) → Option (List (Option String × Value))
  | [] => some []
  | (key, node) :: rest => do
    let name ← keyName? key
    let v ← valueOf? node
    let others ← fieldsOf? rest
    some ((name, v) :: others)

end

def isStruct : Value → Bool
  | .struct _ => true
  | _ => false

def loadRecords (text : String) : Except RecordsError (List Value) :=
  match (Yaml.read? text).bind valueOf? with
  | some .null => pure []
  | some (.list items) =>
    let records := items.map Value.normalize
    match records.findIdx? fun record => !isStruct record with
    | some i => throw (.notStruct i)
    | none => pure records
  | _ => throw .document

end QueryFusion.Document

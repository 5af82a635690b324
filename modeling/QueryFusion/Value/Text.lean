import QueryFusion.Text.Quoted
import QueryFusion.Decimal
import QueryFusion.Value.Basic

/-!
# Text of values

Rows are shown with one text per value. Composite keys look like lists, field names stand as they
are, and a value without a text of its own shows its representation in angle brackets.
-/

namespace QueryFusion.Value

mutual

def text : Value → String
  | null => "null"
  | missing => "missing"
  | bool b => if b then "true" else "false"
  | int n => s!"{n.toInt}"
  | double x => Decimal.text x
  | string s => Text.quote s
  | list vs => "[" ++ ", ".intercalate (texts vs) ++ "]"
  | key vs => "[" ++ ", ".intercalate (texts vs) ++ "]"
  | struct fields => "\x7b" ++ ", ".intercalate (fieldTexts fields) ++ "\x7d"
  | handle h => "<" ++ h.typeName ++ ">"
  | raw n => "<" ++ n.typeName ++ ">"

def texts : List Value → List String
  | [] => []
  | v :: rest => v.text :: texts rest

def fieldTexts : List (String × Value) → List String
  | [] => []
  | (name, v) :: rest => (name ++ ": " ++ v.text) :: fieldTexts rest

end

def rowText (row : List Value) : String := text (list row)

end QueryFusion.Value

import QueryFusion.Path
import QueryFusion.Text.Quoted

/-!
# Run errors

Why the run of a scan function fails, and the text of each cause.
-/

namespace QueryFusion.Engine

/-- The cause of a failed run. -/
inductive RunError where
  /-- A name without a value is read. -/
  | undefined (name : String)
  /-- A name without a value is assigned to. -/
  | undeclared (name : String)
  /-- A statement, or nothing, stands where a value is needed. -/
  | noValue (form : String)
  | noMember (type member : String)
  /-- Groups are written to something that is no sink. -/
  | noSink (type : String)
  | argumentCount (name : String) (got expected : Nat)
  | unknownFunction (name : String)
  /-- A scalar function that cannot be called by name. -/
  | notCallable (name : String)
  | unknownAggregate (kind : String)
  | overBudget (groups : Nat) (budget : Int64)
  | noRecord
  /-- No reader steps through that list. -/
  | noReader (path : String)
  /-- A reader is read before it is advanced to the current place. -/
  | notAdvanced (reader : String)
  /-- A reader that does not step through a list is asked for its end. -/
  | notAnElement (reader path : String)
  /-- A reader outside of lists is asked for all of its values. -/
  | notInList (reader path : String)
  | advancing (reader : String) (cause : RunError)
deriving DecidableEq, Repr

def RunError.message : RunError → String
  | undefined name => s!"{name} is undefined"
  | undeclared name => s!"assignment to undeclared {name}"
  | noValue form => s!"cannot evaluate {form}"
  | noMember type member => s!"{type} has no member {member}"
  | noSink type => s!"emit: {type} is not a sink"
  | argumentCount name got expected => s!"{name}: {got} arguments; expected {expected}"
  | unknownFunction name => "unknown function " ++ Text.quote name
  | notCallable name => "function " ++ Text.quote name ++ " cannot be evaluated"
  | unknownAggregate kind => "new-hash-aggregator: unknown aggregate " ++ Text.quote kind
  | overBudget groups budget =>
    s!"hash aggregator: {groups} groups exceed the memory budget of {budget.toInt} bytes"
  | noRecord => "no current record"
  | noReader path => s!"no reader iterates {path}"
  | notAdvanced reader => s!"{reader} read before advance"
  | notAnElement reader path => s!"{reader}: {path} is not an array element"
  | notInList reader path => s!"{reader}: {path} is not within an array"
  | advancing reader cause => s!"{reader}.next: " ++ cause.message

/-- Why a run ended early. -/
inductive Stop where
  | error (cause : RunError)
  | fault (fault : Fault)
deriving DecidableEq, Repr

end QueryFusion.Engine

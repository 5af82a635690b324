import QueryFusion.Digest
import QueryFusion.Plan.Operator

/-!
# Notes on decisions

What the compiler tells about its decisions: which scopes it opens, why it closes them, how it fuses
group-bys, and why it gives up.
-/

namespace QueryFusion.Fusion

/-- Why a scope ends. -/
inductive ClosingReason where
  | newScan
  | endOfPlan
  /-- An operator with several consumers was reached again. -/
  | shared (kind : Plan.OpKind)
  /-- An input of an operator with several inputs is complete. -/
  | inputOf (kind : Plan.OpKind)
  /-- An operator of this kind is never fused. -/
  | notFusible (kind : Plan.OpKind)
  /-- An operator cannot be taken out from under its consumer. -/
  | notRemovable (kind : Plan.OpKind)
  | readerLimit (limit : Int) (kind : Plan.OpKind)
  | unnest (expr : String)
  | subplan
  | select (expr : String)
  | scanProject
  /-- An assign has bindings that are not scalar. -/
  | unfusedBindings (count : Nat)
  | aggregate (fn : Func)
  | groupBy
  /-- A group-by was fused; nothing above it can be. -/
  | groupByOutput

def ClosingReason.text : ClosingReason → String
  | newScan => "new scan"
  | endOfPlan => "end of plan"
  | shared kind => s!"shared {kind.name}"
  | inputOf kind => s!"{kind.name} input"
  | notFusible kind => kind.name
  | notRemovable kind => s!"{kind.name} cannot be spliced"
  | readerLimit limit kind => s!"reader limit {limit} reached at {kind.name}"
  | unnest expr => s!"unnest of {expr}"
  | subplan => "subplan"
  | select expr => s!"select on {expr}"
  | scanProject => "project of scan variables"
  | unfusedBindings count => s!"assign with {count} unfused bindings"
  | aggregate fn => s!"aggregate {fn.name}"
  | groupBy => "group-by"
  | groupByOutput => "group-by output"

/-- How a group-by is fused. -/
inductive Grouping where
  | perRecord
  | best (count : Int)
  | hash

def Grouping.text : Grouping → String
  | perRecord => "per-record"
  | best count => s!"top-{count}"
  | hash => "hash"

/-- A note on a decision. -/
inductive Note where
  | aborted (message : String)
  /-- The plan could not be restored completely. -/
  | restoring (message : String)
  | finished (functions : Nat)
  /-- A global group-by only feeds an ordering of its best groups. -/
  | candidate (count : Int) (least : Bool) (kind : Plan.OpKind)
  | unknownDataset (dataset message : String)
  | notColumnar (dataset : String)
  | noSchema (dataset : String)
  | opened (dataset : String) (paths : Nat) (digest : UInt64)
  | grouped (dataset : String) (grouping : Grouping) (keys : Nat)
  | nothingFused (dataset : String) (reason : ClosingReason)
  | closed (dataset function : String) (fused : Nat) (reason : ClosingReason)

def Note.text : Note → String
  | aborted message => s!"aborted: {message}"
  | restoring message => s!"restoring plan: {message}"
  | finished functions => s!"{functions} scan functions"
  | candidate count least kind => s!"top-{count} candidate (min={least}) below {kind.name}"
  | unknownDataset dataset message => s!"{dataset}: {message}"
  | notColumnar dataset => s!"{dataset}: not an internal columnar dataset"
  | noSchema dataset => s!"{dataset}: no expected schema"
  | opened dataset paths digest =>
    s!"{dataset}: scope opened ({paths} paths, digest {Digest.hexWordFull digest})"
  | grouped dataset grouping keys => s!"{dataset}: {grouping.text} group-by on {keys} keys"
  | nothingFused dataset reason => s!"{dataset}: nothing fused before {reason.text}"
  | closed dataset function fused reason =>
    s!"{dataset}: {function} fused {fused} operators, closed at {reason.text}"

end QueryFusion.Fusion

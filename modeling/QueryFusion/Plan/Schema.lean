import QueryFusion.Digest
import QueryFusion.Plan.Operator

/-!
# Expected schemas

The expected schema of a scan is the set of paths that the operators above it read from its
records. It is found by following variables from the scan to the expressions that use them:

* a variable assigned to a path of the record stands for that path;
* unnesting the list at a path adds the path of its elements, and the unnested variable stands for
  it;
* every other expression adds the paths it reads.

Paths are told apart by their text and kept in the order in which they were first met.
-/

namespace QueryFusion.Plan

/-- What first asked for a path. -/
structure CallSite where
  fn : String
  loc : Location
deriving DecidableEq, Repr

/-- The paths read from the records of one scan. -/
structure Schema where
  record : Var
  /-- The paths in the order of their registration, each with what first asked for it. -/
  entries : List (Path × CallSite) := []
  /-- The variables that stand for a path, the latest first. -/
  bound : List (Var × Path) := []

namespace Schema

def paths (s : Schema) : List Path := s.entries.map Prod.fst

def has (s : Schema) (p : Path) : Bool := s.entries.any fun (q, _) => q.text == p.text

def add (s : Schema) (p : Path) (site : CallSite) : Schema :=
  if s.has p then s else { s with entries := s.entries ++ [(p, site)] }

def callSites (s : Schema) : List (String × CallSite) := s.entries.map fun (p, site) => (p.text, site)

def bind (s : Schema) (v : Var) (p : Path) : Schema :=
  { s with bound := (v, p) :: s.bound.filter fun (w, _) => w.id != v.id }

def varPath? (s : Schema) (v : Var) : Option Path :=
  (s.bound.find? fun (w, _) => w.id == v.id).map Prod.snd

/-- The path an expression denotes: that of its variable, or a chain of field accesses on the record
or on such a variable. -/
def pathOf? (s : Schema) (e : Expr) : Option Path :=
  match e with
  | .var v => s.varPath? v
  | e =>
    match e.fieldChain? with
    | none => none
    | some (root, fields) =>
      if root.id = s.record.id then some (Path.ofFields fields)
      else (s.varPath? root).map (· ++ Path.ofFields fields)

mutual

/-- Every path that evaluating an expression reads, with the position of the access. -/
def reads (s : Schema) : Expr → List (Path × Location)
  | .absent => []
  | .var v => (s.varPath? v).toList.map fun p => (p, Location.none)
  | .const _ => []
  | .call fn args loc =>
    match (if fn = .fieldAccess then s.pathOf? (.call fn args loc) else none) with
    | some p => [(p, loc)]
    | none => readsArgs s args

def readsArgs (s : Schema) : List Expr → List (Path × Location)
  | [] => []
  | arg :: rest => reads s arg ++ readsArgs s rest

end

/-- Every path that evaluating an expression reads, each once, in the order of appearance. -/
def pathsOf (s : Schema) (e : Expr) : List Path :=
  (s.reads e).foldl (fun seen (p, _) => if seen.contains p then seen else seen ++ [p]) []

def digestKey : Digest.Sip.Key := ⟨0x657375666e616373, 0x0074657368746170⟩

/-- A hash of the set of registered paths: their texts in ascending order, each followed by its
length. -/
def digest (s : Schema) : UInt64 :=
  let texts := (s.paths.map Path.text).mergeSort (fun a b => decide (a ≤ b))
  Digest.Sip.hash digestKey (texts.flatMap fun text =>
    Digest.textBytes text ++ Digest.littleEndian 8 text.utf8ByteSize.toUInt64)

end Schema

/-- The expected schemas of the scans of a plan. -/
abbrev Schemas := List (OpId × Schema)

namespace Schemas

def modify (schemas : Schemas) (scan : OpId) (change : Schema → Schema) : Schemas :=
  schemas.map fun (id, s) => if id = scan then (id, change s) else (id, s)

end Schemas

/-- The schemas found so far, and for each variable the scan it was read from. -/
structure Pushdown where
  schemas : Schemas := []
  /-- The scan a variable belongs to, the latest first. -/
  owners : List (Var × OpId) := []

namespace Pushdown

def owner? (b : Pushdown) (v : Var) : Option OpId :=
  (b.owners.find? fun (w, _) => w.id == v.id).map Prod.snd

/-- The scan an expression reads from, with its schema: that of the first variable that has one. -/
def source? (b : Pushdown) (e : Expr) : Option (OpId × Schema) := do
  let scan ← e.vars.findSome? b.owner?
  let s ← b.schemas.lookup scan
  pure (scan, s)

def bind (b : Pushdown) (v : Var) (scan : OpId) (p : Path) : Pushdown :=
  { schemas := b.schemas.modify scan fun s => s.bind v p, owners := (v, scan) :: b.owners }

def use (b : Pushdown) (e : Expr) : Pushdown :=
  e.vars.foldl (fun b v =>
    match b.owner? v with
    | none => b
    | some scan =>
      { b with schemas := b.schemas.modify scan fun s =>
          (s.reads e).foldl (fun s (p, loc) => s.add p ⟨Func.fieldAccess.name, loc⟩) s }) b

/-- Lets a variable stand for what an expression denotes, if that is a path. -/
def assign (b : Pushdown) (v : Var) (e : Expr) : Pushdown :=
  match b.source? e with
  | none => b
  | some (scan, s) =>
    match s.pathOf? e with
    | some p => b.bind v scan p
    | none => b

/-- Follows the bindings of an assign; an expression without a variable is a fault. -/
def assignAll (b : Pushdown) : List Var → List Expr → Except Fault Pushdown
  | _, [] => pure b
  | [], _ :: _ => throw .outOfRange
  | v :: vars, e :: exprs => ((b.use e).assign v e).assignAll vars exprs

/-- The list that an unnest goes through. -/
def unnestSource : Expr → Expr
  | .call .scanCollection [inner] _ => inner
  | e => e

/-- Takes one operator into account. -/
def visit (b : Pushdown) (id : OpId) (body : Body) : Except Fault Pushdown :=
  match body with
  | .scan _ vars _ _ =>
    match vars with
    | [] => pure b
    | record :: _ =>
      pure { schemas := b.schemas ++ [(id, { record })], owners := (record, id) :: b.owners }
  | .assign vars exprs => b.assignAll vars exprs
  | .unnest v _ expr =>
    let inner := unnestSource expr
    match b.source? inner with
    | none => pure b
    | some (scan, s) =>
      match s.pathOf? inner with
      | none => pure b
      | some p =>
        let added := b.schemas.modify scan fun s =>
          s.add p.elements ⟨Func.scanCollection.name, Location.none⟩
        pure ({ b with schemas := added }.bind v scan p.elements)
  | .select cond | .join cond _ => pure (b.use cond)
  | .project vars => pure ((vars.map Expr.var).foldl use b)
  | .aggregate _ calls _ => pure ((calls.map Call.expr).foldl use b)
  | .groupBy keys _ _ => pure ((keys.map Binding.expr).foldl use b)
  | .order keys _ => pure ((keys.map OrderKey.expr).foldl use b)
  | _ => pure b

end Pushdown

/-- The expected schemas of the scans below a root, in the order of a walk. -/
def expectedSchemas (plan : Plan) (root : OpId) : Except Fault Schemas := do
  let ids ← plan.walk root
  let found ← ids.foldlM (fun (b : Pushdown) id => do
    let op ← plan.get id
    b.visit id op.body) {}
  pure found.schemas

end QueryFusion.Plan

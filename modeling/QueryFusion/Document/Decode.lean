import QueryFusion.Document.Error
import QueryFusion.Document.Spec
import QueryFusion.Plan.TypeEnv

/-!
# Decoding plan documents

A plan document names its variables; every name is one variable, numbered in the order in which
decoding meets it: the inputs of an operator come first, then its own parts, and in a binding the
expression comes before the variable. A leaf of a nested plan refers to the innermost group-by or
subplan around it.
-/

namespace QueryFusion.Document

/-- Why decoding ended early. -/
inductive DecodeFailure where
  | error (cause : DecodeError)
  /-- An operator is absent where one is needed. -/
  | fault (fault : Fault)
deriving DecidableEq, Repr

/-- What was decoded so far. -/
structure DecodeState where
  plan : Plan := {}
  /-- The variables, the latest first. -/
  vars : List Var := []

abbrev Decoding := StateT DecodeState (Except DecodeFailure)

def refuseOp {α : Type} (place : Place) (cause : OpError) : Decoding α :=
  throw (.error (.op place cause))

/-- The variable with a name, a new one if there is none. -/
def varNamed (name : String) : Decoding Var := do
  let state ← get
  match state.vars.find? (·.name == name) with
  | some v => pure v
  | none =>
    let v : Var := { id := state.vars.length + 1, name, type := .any }
    set { state with vars := v :: state.vars }
    pure v

/-- The number an integer part of a location denotes. -/
def locationNumber (text part : String) : Except ExprError Int :=
  match Decimal.readInt? part with
  | none => throw (.locationNumber text part .malformed)
  | some n => if Decimal.fitsInt64 n then pure n else throw (.locationNumber text part .outOfRange)

/-- A location: a line and a column with a colon between them. -/
def locationOf (text : String) : Except ExprError Location :=
  let chars := text.toList
  let line := chars.takeWhile (· != ':')
  match chars.dropWhile (· != ':') with
  | [] => throw (.locationShape text)
  | _ :: column => do
    let line ← locationNumber text (String.ofList line)
    let column ← locationNumber text (String.ofList column)
    pure ⟨line, column⟩

abbrev ExprDecoding := ExceptT ExprError Decoding

mutual

/-- Decodes an expression; the first field that says what it is counts. -/
def decodeExpr : ExprSpec → ExprDecoding Expr
  | ⟨var, path, int, float, string, bool, isNull, isMissing, fn, args, loc⟩ =>
    match var, int, float, string, bool with
    | some name, _, _, _, _ => return .var (← varNamed name)
    | none, int, float, string, bool =>
      if path ≠ "" then do
        match Path.splitPoints path.toList with
        | [] => throw .empty
        | root :: fields =>
          let v ← varNamed (String.ofList root)
          pure (fields.foldl (fun e f => e.field (String.ofList f)) (.var v))
      else
        match int, float, string, bool with
        | some n, _, _, _ => pure (.const (.int n))
        | none, some x, _, _ => pure (.const (.double x))
        | none, none, some s, _ => pure (.const (.string s))
        | none, none, none, some b => pure (.const (.bool b))
        | none, none, none, none =>
          if isNull then pure (.const .null)
          else if isMissing then pure (.const .missing)
          else if fn = "" then throw .empty
          else
            match Func.ofName? fn with
            | none => throw (.unknownFunction fn)
            | some f => do
              let args ← decodeArgs fn 0 args
              if loc = "" then pure (.call f args Location.none)
              else
                match locationOf loc with
                | .ok location => pure (.call f args location)
                | .error cause => throw cause

/-- Decodes the arguments of a call from a position on. -/
def decodeArgs (fn : String) : Nat → List (Option ExprSpec) → ExprDecoding (List Expr)
  | _, [] => pure []
  | i, none :: _ => throw (.argument fn i .missing)
  | i, some arg :: rest => do
    let first ← ExceptT.adapt (.argument fn i) (decodeExpr arg)
    let others ← decodeArgs fn (i + 1) rest
    pure (first :: others)

end

/-- Decodes an expression that must be there; `wrap` says where an error is. -/
def requireExpr (place : Place) (wrap : ExprError → OpError) (spec : Option ExprSpec) :
    Decoding Expr := do
  match spec with
  | none => refuseOp place (wrap .missing)
  | some spec =>
    match ← (decodeExpr spec).run with
    | .ok e => pure e
    | .error cause => refuseOp place (wrap cause)

/-- Decodes bindings from a position on. -/
def decodeBinds (place : Place) (list : BindingList) :
    Nat → List BindSpec → Decoding (List Plan.Binding)
  | _, [] => pure []
  | i, spec :: rest => do
    if spec.var = "" then refuseOp place (.missingVar list i)
    else
      let expr ← requireExpr place (.binding list i) spec.expr
      let var ← varNamed spec.var
      let others ← decodeBinds place list (i + 1) rest
      pure ({ var, expr } :: others)

/-- The aggregate calls of bindings from a position on. -/
def aggregateCalls (place : Place) : Nat → List Plan.Binding → Decoding (List Call)
  | _, [] => pure []
  | i, binding :: rest =>
    match binding.expr with
    | .call fn args loc =>
      if fn.kind = .aggregate then do
        let others ← aggregateCalls place (i + 1) rest
        pure ({ fn, args, loc } :: others)
      else refuseBinding i binding.expr
    | e => refuseBinding i e
where
  refuseBinding (i : Nat) (e : Expr) : Decoding (List Call) :=
    match e.text with
    | .ok text => refuseOp place (.notAggregate i text)
    | .error fault => throw (.fault fault)

def decodeOrder (place : Place) : Nat → List OrderSpec → Decoding (List Plan.OrderKey)
  | _, [] => pure []
  | i, spec :: rest => do
    let expr ← requireExpr place (.expr (.order i)) spec.expr
    let others ← decodeOrder place (i + 1) rest
    pure ({ expr, descending := spec.desc } :: others)

def addOp (body : Plan.Body) (inputs : List Plan.OpId) : Decoding Plan.OpId := do
  let state ← get
  let (id, plan) := state.plan.add { body, inputs }
  set { state with plan }
  pure id

def setBody (id : Plan.OpId) (body : Plan.Body) : Decoding Unit :=
  modify fun state => { state with plan := state.plan.modify id fun op => { op with body } }

def kindOf (id : Plan.OpId) : Decoding Plan.OpKind := do
  match (← get).plan.get id with
  | .ok op => pure op.kind
  | .error fault => throw (.fault fault)

/-- Decodes a unary operator without a nested plan over its decoded input. -/
def decodeUnary (place : Place) (kind : Plan.OpKind) (spec : OpSpec) (input : Plan.OpId) :
    Decoding Plan.OpId := do
  match kind with
  | .select =>
    let cond ← requireExpr place (.expr .cond) spec.cond
    addOp (.select cond) [input]
  | .project =>
    let vars ← spec.vars.mapM varNamed
    addOp (.project vars) [input]
  | .assign =>
    let binds ← decodeBinds place .bind 0 spec.bind
    addOp (.assign (binds.map Plan.Binding.var) (binds.map Plan.Binding.expr)) [input]
  | .unnest =>
    if spec.var = "" then refuseOp place .missingUnnestVar
    else
      let expr ← requireExpr place (.expr .expr) spec.expr
      let var ← varNamed spec.var
      let pos ← if spec.pos = "" then pure none else some <$> varNamed spec.pos
      addOp (.unnest var pos expr) [input]
  | .aggregate =>
    let binds ← decodeBinds place .bind 0 spec.bind
    let calls ← aggregateCalls place 0 binds
    addOp (.aggregate (binds.map Plan.Binding.var) calls spec.isGlobal) [input]
  | .order =>
    let keys ← decodeOrder place 0 spec.order
    addOp (.order keys ((spec.topK.map Int64.toInt).getD (-1))) [input]
  | .limit => addOp (.limit spec.n) [input]
  | _ => addOp (.exchange spec.redistribute) [input]

/-- Whether a kind has one input and is decoded with it. -/
def isUnary : Plan.OpKind → Bool
  | .select | .project | .assign | .unnest | .aggregate
  | .groupBy | .subplan | .order | .limit | .exchange => true
  | _ => false

mutual

/-- Decodes an operator and what is below it. `outer` is the owner of the nested plan around it. -/
def decodeOp (outer : Option Plan.OpId) (place : Place) : OpSpec → Decoding Plan.OpId
  | ⟨op, input, inputs, dataset, vars, cond, bind, var, pos, expr, isGlobal, keys, order, topK, n,
      redistribute, nested⟩ => do
    match Plan.OpKind.ofName? op with
    | none => refuseOp place (.unknownOperator op)
    | some .dataScan =>
      if dataset = "" then refuseOp place .missingDataset
      else if vars.isEmpty then refuseOp place .missingRecord
      else
        let vars ← vars.mapM varNamed
        addOp (.scan dataset vars "" []) []
    | some .emptyTupleSource => addOp .emptySource []
    | some .nestedTupleSource =>
      if outer.isNone then refuseOp place .strayNestedSource
      else addOp (.nestedSource outer) []
    | some kind =>
      if kind = .innerJoin ∨ kind = .leftOuterJoin then
        if inputs.length ≠ 2 then refuseOp place (.joinInputs op inputs.length)
        else
          let inputs ← decodeInputs outer place 0 inputs
          let cond ← requireExpr place (.expr .cond) cond
          addOp (.join cond (kind = .leftOuterJoin)) inputs
      else if isUnary kind then
        let below ← decodeInput outer place op input
        match kind with
        | .groupBy =>
          let keys ← decodeBinds place .keys 0 keys
          let id ← addOp (.groupBy keys none isGlobal) [below]
          let root ← decodeNested id place nested
          setBody id (.groupBy keys (some root) isGlobal)
          pure id
        | .subplan =>
          let id ← addOp (.subplan none) [below]
          let root ← decodeNested id place nested
          setBody id (.subplan (some root))
          pure id
        | kind =>
          decodeUnary place kind
            { op, vars, cond, bind, var, pos, expr, isGlobal, order, topK, n, redistribute } below
      else
        let first ← decodeFirst outer place input
        let others ← decodeInputs outer place first.length inputs
        let vars ← vars.mapM varNamed
        addOp (.boundary kind vars) (first ++ others)

/-- Decodes the input of a unary operator, which must be there. -/
def decodeInput (outer : Option Plan.OpId) (place : Place) (name : String) :
    Option OpSpec → Decoding Plan.OpId
  | none => refuseOp place (.missingInput name)
  | some spec => decodeOp outer (.input :: place) spec

/-- Decodes the first input of an operator with any number of them, if it is given apart. -/
def decodeFirst (outer : Option Plan.OpId) (place : Place) :
    Option OpSpec → Decoding (List Plan.OpId)
  | none => pure []
  | some spec => do
    let id ← decodeOp outer (.inputs 0 :: place) spec
    pure [id]

/-- Decodes inputs from a position on; an absent one is a fault. -/
def decodeInputs (outer : Option Plan.OpId) (place : Place) :
    Nat → List (Option OpSpec) → Decoding (List Plan.OpId)
  | _, [] => pure []
  | _, none :: _ => throw (.fault .outOfRange)
  | i, some spec :: rest => do
    let first ← decodeOp outer (.inputs i :: place) spec
    let others ← decodeInputs outer place (i + 1) rest
    pure (first :: others)

def decodeNested (owner : Plan.OpId) (place : Place) : Option OpSpec → Decoding Plan.OpId
  | none => refuseOp (.nested :: place) .missingNested
  | some spec => do
    let root ← decodeOp (some owner) (.nested :: place) spec
    let kind ← kindOf root
    if kind = .aggregate then pure root else refuseOp (.nested :: place) (.nestedRoot kind)

end

def decodeDataset (spec : DatasetSpec) : Except DatasetError Plan.Dataset :=
  if spec.name = "" then throw .missingName
  else
    match Plan.Storage.ofName? spec.kind, Plan.Format.ofName? spec.format with
    | none, _ => throw (.unknownKind spec.kind)
    | some _, none => throw (.unknownFormat spec.format)
    | some storage, some format => pure { name := spec.name, storage, format }

/-- Decodes datasets from a position on; of one name the last counts. -/
def decodeDatasets : Nat → List DatasetSpec → Plan.Catalog → Except DecodeError Plan.Catalog
  | _, [], catalog => pure catalog
  | i, spec :: rest, catalog =>
    match decodeDataset spec with
    | .ok d => decodeDatasets (i + 1) rest (catalog.insert d.name d)
    | .error cause => throw (.dataset i cause)

/-- A decoded plan document. -/
structure Document where
  plan : Plan
  root : Plan.OpId
  /-- The variables in the order of their numbers. -/
  vars : List Var
  config : Plan.Config
  catalog : Plan.Catalog

/-- Why a configuration inside a plan document is refused. -/
def ConfigFailure.decodeError : ConfigFailure → DecodeError
  | document => .document
  | invalid cause => .config cause

def decodeSpec (spec : PlanSpec) : Except DecodeFailure Document := do
  let config ← (configOf spec.physical).mapError fun f => .error f.decodeError
  let catalog ← (decodeDatasets 0 spec.datasets {}).mapError .error
  match spec.plan with
  | none => throw (.error .missingPlan)
  | some rootSpec =>
    let (root, state) ← (decodeOp none [] rootSpec).run {}
    match Plan.computeEnv root state.plan with
    | .ok _ plan => pure { plan, root, vars := state.vars.reverse, config, catalog }
    | .error (.error cause) _ => throw (.error (.env cause))
    | .error (.fault fault) _ => throw (.fault fault)

def decode (text : String) : Except DecodeFailure Document :=
  match PlanSpec.read? text with
  | some spec => decodeSpec spec
  | none => throw (.error .document)

end QueryFusion.Document

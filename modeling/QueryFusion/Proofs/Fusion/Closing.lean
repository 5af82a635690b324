import QueryFusion.Proofs.Fusion.Atomic
import QueryFusion.Proofs.Plan.Shape

/-!
# Steps of the compiler that end well

What the state of the compiler is after a step that ended well: steps on the open scope change the
scope only, steps on the draft change the plan only, and closing a scope completes its function and
marks its scan.
-/

namespace QueryFusion.Fusion

open EStateM (bind_eq_ok bind_apply get_apply)
open Plan (OpId Operator Body)

variable {α : Type} {s : Setting} {st st' : State} {scope : Scope}

variable {a : α}
variable {step : Plan.Drafting α} {wrap : Plan.PlanError → FuseError} {reason : ClosingReason}
variable {scan root : OpId} {vars : List Var} {ended : EStateM.Result Abort State Unit}
variable {functions : List ScanFunction} {plan : Plan} {config : Plan.Config}
variable {catalog : Plan.Catalog} {stem : String}

theorem orFault_eq_ok {step : Except Fault α} :
    orFault step st = .ok a st' ↔ step = .ok a ∧ st' = st := by
  cases step with
  | ok b =>
    constructor
    · intro ended
      cases ended
      exact ⟨rfl, rfl⟩
    · rintro ⟨same, rfl⟩
      cases same
      rfl
  | error fault => exact ⟨nofun, fun ended => nomatch ended.1⟩

variable {o : Operator}

theorem operator_eq_ok {id : OpId} :
    operator id st = .ok o st' ↔ st.draft.plan.ops[id]? = some o ∧ st' = st := by
  rw [← Plan.get_eq_ok]
  exact orFault_eq_ok

theorem onScope_eq_ok {step : Emit α} (ended : onScope step st = .ok a st') :
    ∃ scope later, st.scope = some scope ∧ step scope = .ok (a, later) ∧
      st' = { st with scope := some later } := by
  unfold onScope at ended
  rw [bind_apply, get_apply] at ended
  cases isOpen : st.scope with
  | none => simp only [isOpen] at ended; cases ended
  | some scope =>
    simp only [isOpen] at ended
    cases done : step scope with
    | error abort => simp only [done] at ended; cases ended
    | ok answer =>
      simp only [done] at ended
      cases ended
      exact ⟨scope, answer.2, rfl, done, rfl⟩

theorem onDraft_eq_ok (ended : onDraft wrap step st = .ok a st') :
    ∃ draft, step st.draft = .ok a draft ∧ st' = { st with draft } := by
  unfold onDraft at ended
  cases done : step st.draft with
  | ok b draft =>
    simp only [done] at ended
    cases ended
    exact ⟨draft, rfl, rfl⟩
  | error failure draft => cases failure <;> simp only [done] at ended <;> cases ended

/-! ## Closing -/

/-- A function is what a scope was completed to. -/
def Completed (scope : Scope) (f : ScanFunction) : Prop :=
  ∃ last, writeOutput scope = .ok ((), last) ∧
    Code.Function.freeze { last.fn with name := f.fn.name } = .ok f.fn ∧ f.scan = last.scan ∧
    f.outputs = last.outputs

/-- A plan in which a scan was marked with a function. -/
def Marks (plan : Plan) (f : ScanFunction) (marked : Plan) : Prop :=
  ∃ dataset vars function outputs inputs,
    plan.shape f.scan = some (.scan dataset vars function outputs, inputs) ∧
    ∀ i, marked.shape i = if i = f.scan then some (.scan dataset vars f.fn.name f.outputs, inputs)
      else plan.shape i

theorem freeze_name {fn frozen : Code.Function} (isFrozen : fn.freeze = .ok frozen) :
    frozen.name = fn.name := by
  unfold Code.Function.freeze at isFrozen
  split at isFrozen
  · cases isFrozen
  · cases isFrozen
    rfl

theorem finalize_eq_ok {name : String} (ended : finalize s scope st = .ok name st') :
    ∃ f, Completed scope f ∧ Marks st.draft.plan f st'.draft.plan ∧
      st' = { st with draft := st'.draft, functions := st.functions ++ [f] } := by
  unfold finalize at ended
  cases output : writeOutput scope with
  | error abort => simp only [output] at ended; cases ended
  | ok answer =>
    obtain ⟨_, last⟩ := answer
    simp only [output] at ended
    rw [bind_apply, get_apply] at ended
    obtain ⟨fn, _, frozen, rest⟩ := bind_eq_ok.mp ended
    obtain ⟨frozen, rfl⟩ := orFault_eq_ok.mp frozen
    obtain ⟨_, _, drafted, rest'⟩ := bind_eq_ok.mp rest
    obtain ⟨draft, edited, rfl⟩ := onDraft_eq_ok drafted
    obtain ⟨fingerprint, _, printed, rest''⟩ := bind_eq_ok.mp rest'
    obtain ⟨_, rfl⟩ := orFault_eq_ok.mp printed
    cases rest''
    obtain ⟨_, marked, isMarked, computed⟩ := bind_eq_ok.mp edited
    obtain ⟨dataset, vars, function, old, inputs, isScan, after⟩ := Plan.shape_markScan isMarked
    have isName := freeze_name frozen
    refine ⟨_, ⟨last, output, isName ▸ frozen, rfl, rfl⟩, ?_, rfl⟩
    refine ⟨dataset, vars, function, old, inputs, isScan, fun i => ?_⟩
    rw [Plan.shape_onPlan_computeEnv computed, after i, isName]

theorem closeScope_none (isClosed : st.scope = none) : closeScope s reason st = .ok () st := by
  unfold closeScope
  rw [bind_apply, get_apply]
  simp only [isClosed]
  rfl

theorem closeScope_some (isOpen : st.scope = some scope)
    (ended : closeScope s reason st = .ok () st') :
    st' = { st with scope := none, notes := st'.notes, draft := st'.draft, functions := st'.functions } ∧
      ((scope.fused = 0 ∧ st'.functions = st.functions ∧ st'.draft = st.draft) ∨
        ∃ f, Completed scope f ∧ Marks st.draft.plan f st'.draft.plan ∧
          st'.functions = st.functions ++ [f]) := by
  unfold closeScope at ended
  rw [bind_apply, get_apply] at ended
  simp only [isOpen] at ended
  obtain ⟨_, _, modified, rest⟩ := bind_eq_ok.mp ended
  cases modified
  split at rest
  · cases rest
  · cases escapes : checkEscapes s scope <;> simp only [escapes] at rest
    · cases rest
    · split at rest
      · next nothing =>
        cases rest
        exact ⟨rfl, .inl ⟨nothing, rfl, rfl⟩⟩
      · obtain ⟨name, _, finalized, noted⟩ := bind_eq_ok.mp rest
        obtain ⟨f, completed, marks, same⟩ := finalize_eq_ok finalized
        cases noted
        refine ⟨?_, .inr ⟨f, completed, marks, ?_⟩⟩
        · rw [same]
        · rw [same]

variable {op : OpId}

/-- Taking a fused operator out. -/
theorem removeOp_eq_ok {parent : OpId} (ended : removeOp op parent st = .ok () st') :
    ∃ draft scope, Plan.remove op (some parent) st.draft = .ok () draft ∧ st.scope = some scope ∧
      st' = { st with draft, scope := some { scope with fused := scope.fused + 1 } } := by
  obtain ⟨_, _, drafted, counted⟩ := bind_eq_ok.mp ended
  obtain ⟨draft, removed, rfl⟩ := onDraft_eq_ok drafted
  obtain ⟨scope, later, isOpen, isLater, rfl⟩ := onScope_eq_ok counted
  cases isLater
  exact ⟨draft, scope, removed, isOpen, rfl⟩

/-- Opening a scope where none is open. -/
theorem openScope_eq_ok {dataset function : String} (isClosed : st.scope = none)
    (ended : openScope s scan dataset vars function st = .ok () st') :
    st' = { st with scope := st'.scope, notes := st'.notes } ∧
      (st'.scope = none ∨ ∃ schema, s.schemas.lookup scan = some schema ∧
        st'.scope = some (.opened scan dataset vars schema)) := by
  obtain ⟨_, _, closed, rest⟩ := bind_eq_ok.mp ended
  rw [closeScope_none isClosed] at closed
  cases closed
  split at rest
  · cases rest
    exact ⟨rfl, .inl isClosed⟩
  · cases found : s.catalog.find dataset <;> simp only [found] at rest
    · cases rest
      exact ⟨rfl, .inl isClosed⟩
    · split at rest
      · cases rest
        exact ⟨rfl, .inl isClosed⟩
      · cases isSchema : s.schemas.lookup scan <;> simp only [isSchema] at rest
        · cases rest
          exact ⟨rfl, .inl isClosed⟩
        · next schema =>
          cases rest
          exact ⟨rfl, .inr ⟨schema, rfl, rfl⟩⟩

theorem giveUp_result (root : OpId) (abort : Abort) (message : String) (st : State) :
    ∃ abort', (giveUp root abort message st).result = .error abort' := by
  unfold giveUp
  cases undone : Plan.undo (some root) st.draft with
  | ok _ draft => exact ⟨_, rfl⟩
  | error failure draft => cases failure <;> exact ⟨_, rfl⟩

theorem finish_eq_ok (finished : (finish root ended).result = .ok functions) :
    ∃ st, ended = .ok () st ∧ functions = st.functions ∧
      (∀ i, (finish root ended).plan.shape i = st.draft.plan.shape i) ∧
      st.notes ⊆ (finish root ended).notes := by
  have failed : ∀ {abort message st}, (giveUp root abort message st).result ≠ .ok functions := by
    intro abort message st isOk
    obtain ⟨_, isError⟩ := giveUp_result root abort message st
    cases isError.symm.trans isOk
  unfold finish at finished ⊢
  cases ended with
  | error abort st => cases abort <;> first | exact (failed finished).elim | cases finished
  | ok _ st =>
    refine ⟨st, rfl, ?_⟩
    cases computed : Plan.onPlan (Plan.recompute root) st.draft with
    | ok _ draft =>
      simp only [computed] at finished ⊢
      exact ⟨(Except.ok.inj finished).symm, Plan.shape_onPlan_recompute computed,
        List.subset_append_left _ _⟩
    | error failure draft =>
      cases failure with
      | error cause =>
        simp only [computed] at finished
        exact (failed finished).elim
      | fault fault =>
        simp only [computed] at finished
        cases finished

/-- A compilation that ended well. -/
theorem compile_eq_ok
    (compiled : (compile plan root config catalog none stem).result = .ok functions) :
    ∃ schemas uses st, Plan.expectedSchemas plan root = .ok schemas ∧
      compileAll { config, catalog, schemas, uses, stem } root { draft := { plan } } = .ok () st ∧
      functions = st.functions ∧
      ∀ i, (compile plan root config catalog none stem).plan.shape i = st.draft.plan.shape i := by
  unfold compile at compiled ⊢
  cases expected : Plan.expectedSchemas plan root with
  | error fault =>
    rw [expected] at compiled
    cases compiled
  | ok schemas =>
    cases used : usesBelow plan root with
    | error fault =>
      rw [expected, used] at compiled
      cases compiled
    | ok uses =>
      rw [expected, used] at compiled
      obtain ⟨st, ended, functions, shapes, _⟩ := finish_eq_ok compiled
      exact ⟨schemas, uses, st, rfl, ended, functions, shapes⟩

/-! ## The walk -/

variable {depth : Nat} {parent : Option OpId}

theorem visit_succ (found : st.draft.plan.ops[op]? = some o) (unmet : op ∉ st.visited) :
    visit s (depth + 1) op parent st = (do
      enterGroupBy op parent o
      (List.range o.inputs.length).forM fun i => do
        match (← operator op).inputs[i]? with
        | some input =>
          visit s depth input (some op)
          if 1 < o.inputs.length then closeScope s (.inputOf o.kind)
        | none => throw (.fault .outOfRange)
      modify fun st' => { st' with topK := st.topK }
      process s op parent : Fuse Unit) { st with visited := op :: st.visited } := by
  rw [visit, bind_apply, operator_eq_ok.mpr ⟨found, rfl⟩]
  have isNew : st.visited.contains op = false := by simpa using unmet
  change (if st.visited.contains op = true then _ else _ : Fuse Unit) st = _
  rw [isNew]
  rfl

variable {below : OpId}

theorem visit_entered
    (found : st.draft.plan.ops[op]? = some o) (unmet : op ∉ st.visited) (isInput : o.inputs = [below])
    (enters : enterGroupBy op parent o { st with visited := op :: st.visited } =
      .ok () { st with visited := op :: st.visited })
    (ended : visit s (depth + 1) op parent st = .ok () st') :
    ∃ mid, visit s depth below (some op) { st with visited := op :: st.visited } = .ok () mid ∧
      process s op parent { mid with topK := st.topK } = .ok () st' := by
  rw [visit_succ found unmet] at ended
  obtain ⟨_, _, entered, ended⟩ := bind_eq_ok.mp ended
  cases enters.symm.trans entered
  rw [isInput] at ended
  obtain ⟨_, mid, inputs, rest⟩ := bind_eq_ok.mp ended
  obtain ⟨_, _, first, others⟩ := bind_eq_ok.mp inputs
  cases others
  obtain ⟨o', _, isOp, visited⟩ := bind_eq_ok.mp first
  obtain ⟨found', rfl⟩ := operator_eq_ok.mp isOp
  cases found.symm.trans found'
  rw [isInput] at visited
  obtain ⟨_, _, below, last⟩ := bind_eq_ok.mp visited
  cases last
  obtain ⟨_, _, modified, processed⟩ := bind_eq_ok.mp rest
  cases modified
  exact ⟨_, below, processed⟩

theorem visit_unary
    (found : st.draft.plan.ops[op]? = some o) (unmet : op ∉ st.visited) (isInput : o.inputs = [below])
    (noGroups : ∀ keys nested isGlobal, o.body ≠ .groupBy keys nested isGlobal)
    (ended : visit s (depth + 1) op parent st = .ok () st') :
    ∃ mid, visit s depth below (some op) { st with visited := op :: st.visited } = .ok () mid ∧
      process s op parent { mid with topK := st.topK } = .ok () st' := by
  refine visit_entered found unmet isInput ?_ ended
  have enters : enterGroupBy op parent o = pure () := by
    unfold enterGroupBy
    split
    · next isBody => exact absurd isBody (noGroups _ _ _)
    · next isBody => exact absurd isBody (noGroups _ _ _)
    · rfl
  rw [enters]
  rfl

/-- There is no order below an operator whose input is none. -/
theorem orderBelow?_eq_ok {body inner : Body} {inputs : List OpId}
    (here : st.draft.plan.shape op = some (body, [below]))
    (isBelow : st.draft.plan.shape below = some (inner, inputs))
    (noOrder : ∀ keys count, inner ≠ .order keys count) : orderBelow? op st = .ok none st := by
  obtain ⟨o, found, _, isInputs⟩ := Plan.shape_eq_some.mp here
  obtain ⟨o', found', rfl, _⟩ := Plan.shape_eq_some.mp isBelow
  have isInput : st.draft.plan.input? op = .ok (some (below, o')) := by
    refine Except.bind_eq_ok.mpr ⟨o, Plan.get_eq_ok.mpr found, ?_⟩
    rw [Plan.Operator.input?, isInputs]
    exact Except.bind_eq_ok.mpr ⟨o', Plan.get_eq_ok.mpr found', rfl⟩
  change (orFault (st.draft.plan.input? op) >>= _) st = _
  rw [isInput]
  obtain ⟨body', inputs', vars⟩ := o'
  cases body' with
  | order keys count => exact absurd rfl (noOrder keys count)
  | _ => rfl

/-- An operator other than a scan. -/
theorem process_eq (found : st.draft.plan.ops[op]? = some o) (notScan : ¬ o.body.IsScan) :
    process s op parent st = (match st.scope with
      | none => pure ()
      | some scope =>
        if passesScope st op o.body then pure ()
        else if !isFusible o.body then closeScope s (.notFusible o.kind)
        else do
          let parentOp ← parent.mapM fun id => do pure (id, ← operator id)
          match parentOp with
          | none => closeScope s (.notRemovable o.kind)
          | some (consumer, p) =>
            if p.inputs.length ≠ 1 || o.inputs.length ≠ 1 then closeScope s (.notRemovable o.kind)
            else
              let exprs ← orFault (nestedExprs st.draft.plan o.body)
              if !fits s scope exprs && !readsFlag scope o.body then
                closeScope s (.readerLimit s.config.maxReaders.toInt o.kind)
              else fuseOp s op o consumer p : Fuse Unit) st := by
  unfold process
  rw [bind_apply, operator_eq_ok.mpr ⟨found, rfl⟩]
  dsimp only
  cases isBody : o.body with
  | scan =>
    rw [isBody] at notScan
    exact absurd trivial notScan
  | _ => rfl

theorem process_closed
    (found : st.draft.plan.ops[op]? = some o) (notScan : ¬ o.body.IsScan) (isClosed : st.scope = none) :
    process s op parent st = .ok () st := by
  rw [process_eq found notScan, isClosed]
  rfl

theorem process_open (found : st.draft.plan.ops[op]? = some o) (notScan : ¬ o.body.IsScan)
    (isOpen : st.scope = some scope) (ended : process s op parent st = .ok () st') :
    (passesScope st op o.body = true ∧ st' = st) ∨
      (∃ reason, closeScope s reason st = .ok () st') ∨
      ∃ consumer p, parent = some consumer ∧ st.draft.plan.ops[consumer]? = some p ∧
        p.inputs.length = 1 ∧ o.inputs.length = 1 ∧ isFusible o.body = true ∧
        fuseOp s op o consumer p st = .ok () st' := by
  rw [process_eq found notScan, isOpen] at ended
  dsimp only at ended
  split at ended
  · next passes =>
    cases ended
    exact .inl ⟨passes, rfl⟩
  · split at ended
    · exact .inr (.inl ⟨_, ended⟩)
    · next isFusible =>
      cases parent with
      | none => exact .inr (.inl ⟨_, ended⟩)
      | some consumer =>
        simp only [Option.mapM_some, map_bind, map_pure, bind_assoc, pure_bind] at ended
        obtain ⟨p, _, isConsumer, rest⟩ := bind_eq_ok.mp ended
        obtain ⟨foundConsumer, rfl⟩ := operator_eq_ok.mp isConsumer
        split at rest
        · exact .inr (.inl ⟨_, rest⟩)
        · next unary =>
          obtain ⟨exprs, _, listed, fused⟩ := bind_eq_ok.mp rest
          obtain ⟨_, rfl⟩ := orFault_eq_ok.mp listed
          split at fused
          · exact .inr (.inl ⟨_, fused⟩)
          · refine .inr (.inr ⟨consumer, p, rfl, foundConsumer, ?_, ?_, ?_, fused⟩)
            · simp only [ne_eq, Bool.or_eq_true, decide_eq_true_eq] at unary
              omega
            · simp only [ne_eq, Bool.or_eq_true, decide_eq_true_eq] at unary
              omega
            · simpa using isFusible

/-!
## Every compiled function has a trace

Whatever the plan, the code of an open scope was made along a trace that began with the scope of its
scan, and so was the code of every function that was completed.
-/

open EStateM (Keeps)
open Code

/-- The code of a function was made along a trace and then sealed. -/
def Traced (f : ScanFunction) : Prop :=
  ∃ scan dataset vars schema done final,
    Builds {} (.opened scan dataset vars schema) done ∧ Sealed done final ∧ f.fn = final.fn

/-- The code of the open scope and of every complete function was made along a trace. -/
structure Built (st : State) : Prop where
  scope : ∀ scope, st.scope = some scope → ∃ scan dataset vars schema,
    Builds {} (.opened scan dataset vars schema) scope
  functions : ∀ f ∈ st.functions, Traced f

theorem Traced.of_completed {f : ScanFunction} {dataset : String} {schema : Plan.Schema}
    (builds : Builds {} (.opened scan dataset vars schema) scope) (completed : Completed scope f) :
    Traced f := by
  obtain ⟨last, output, frozen, _, _⟩ := completed
  have sane := (builds.kept (opened_sane scan dataset vars schema nofun)).2
  obtain ⟨done, wrote, isSealed⟩ := sealed_of_writeOutput output frozen fun later wrote =>
    ((builds_writeRows sane nofun wrote).kept sane).1.body
  exact ⟨scan, dataset, vars, schema, done, _, builds.trans (builds_writeRows sane nofun wrote),
    isSealed, rfl⟩

section scopes

variable {holds : State → Prop} (drafts : ∀ st draft, holds st → holds { st with draft })

include drafts

theorem keeps_drafting {α : Type} {wrap : Plan.PlanError → FuseError} {step : Plan.Drafting α} :
    Keeps holds (onDraft wrap step) := by
  intro st held
  unfold EStateM.EndsIn onDraft
  cases step st.draft with
  | ok a draft => exact drafts st draft held
  | error failure draft => cases failure <;> exact drafts st draft held

theorem keeps_completing (s : Setting) (completes : ∀ st f, Completed scope f →
      holds st → holds { st with functions := st.functions ++ [f] }) :
    Keeps holds (finalize s scope) := by
  unfold finalize
  split
  · exact .throw _
  · next last output =>
    intro st held
    refine Invariant.endsIn_get (Invariant.endsIn_orFault (fun _ _ => held) fun fn frozen => ?_)
    refine .bind (keeps_drafting drafts st held) fun _ st held => ?_
    exact Invariant.endsIn_orFault (fun _ _ => held) fun fingerprint _ =>
      completes st _ ⟨last, output, freeze_name frozen ▸ frozen, rfl, rfl⟩ held

end scopes

namespace Built

theorem drafts (st : State) (draft : Plan.Draft) (built : Built st) : Built { st with draft } :=
  ⟨built.scope, built.functions⟩

theorem invariant (s : Setting) : Invariant s {} Built where
  sure := nofun
  loses _ _ built _ := built
  fails _ built _ _ := built
  knows _ _ _ _ _ := trivial
  aggregates := nofun
  groups := nofun
  same _ _ _ scope functions _ built := ⟨scope ▸ built.scope, functions ▸ built.functions⟩
  emits {_ _ st scope a later} emits built isOpen done := by
    refine ⟨fun open' same => ?_, built.functions⟩
    cases same
    obtain ⟨scan, dataset, vars, schema, before⟩ := built.scope scope isOpen
    have sane := (before.kept (opened_sane scan dataset vars schema nofun)).2
    exact ⟨scan, dataset, vars, schema, before.trans (emits.traces sane done)⟩
  removes _ _ _ _ := keeps_drafting drafts
  unbinds _ _ st built _ := (keeps_drafting drafts st built).mono fun _ built => ⟨built, nofun⟩
  drops _ built := ⟨nofun, built.functions⟩
  completes st scope built isOpen := by
    obtain ⟨scan, dataset, vars, schema, builds⟩ := built.scope scope isOpen
    refine keeps_completing drafts s (fun st g completed built => ⟨built.scope, fun f member => ?_⟩) _
      ⟨nofun, built.functions⟩
    rcases List.mem_append.mp member with old | isNew
    · exact built.functions f old
    · exact List.mem_singleton.mp isNew ▸ .of_completed builds completed
  opens scan dataset vars _ _ schema _ _ _ _ built :=
    ⟨fun open' same => ⟨scan, dataset, vars, schema,
      Option.some.inj same ▸ .make (.code (.refl _))⟩, built.functions⟩
  below _ _ _ _ _ _ _ _ := trivial

end Built

theorem compile_traced {schemas : Option Plan.Schemas}
    (compiled : (compile plan root config catalog schemas stem).result = .ok functions) :
    ∀ f ∈ functions, Traced f := by
  unfold compile at compiled
  dsimp only at compiled
  split at compiled
  · cases compiled
  · next s _ =>
    obtain ⟨st, ended, rfl, _⟩ := finish_eq_ok compiled
    have start : Built { draft := { plan } } := ⟨nofun, nofun⟩
    exact (((Built.invariant s).compileAll trivial).ok start ended).functions

end QueryFusion.Fusion

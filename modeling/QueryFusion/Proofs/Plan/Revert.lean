import QueryFusion.Plan.Edit
import QueryFusion.Proofs.Plan.Environment

/-!
# Drafts can be taken back

Every edit of a draft is recorded with what it replaced, so taking all edits back gives a plan of
the shape it had before the first one. Only live variables of operators that were reachable then
have been stored anew, and these a recomputation restores.
-/

namespace QueryFusion.Plan

open EStateM (EndsIn Keeps)

variable {plan other original : Plan} {root id : OpId} {draft : Draft}
variable {e : Edit} {holds : Draft → Prop} {consumer : OpId}

/-! ## Edits and stored variables -/

/-- A change of an operator that neither reads nor writes its stored variables. -/
structure KeepsEnv (change : Operator → Operator) : Prop where
  env : ∀ op, (change op).env = op.env
  bare : ∀ op op', op.bare = op'.bare → (change op).bare = (change op').bare

theorem keepsEnv_inputs (f : List OpId → List OpId) :
    KeepsEnv fun op => { op with inputs := f op.inputs } where
  env _ := rfl
  bare op op' same := by
    obtain ⟨body, inputs⟩ := Operator.bare_eq_iff.mp same
    simp only [Operator.bare, inputs, body]

theorem keepsEnv_body (f : Body → Body) : KeepsEnv fun op => { op with body := f op.body } where
  env _ := rfl
  bare op op' same := by
    obtain ⟨body, inputs⟩ := Operator.bare_eq_iff.mp same
    simp only [Operator.bare, inputs, body]

variable {change : Operator → Operator}

theorem SameShape.modify (same : plan.SameShape other) (id : OpId)
    (keeps : KeepsEnv change) : (plan.modify id change).SameShape (other.modify id change) := by
  refine congrArg Plan.mk (Array.ext_getElem? fun i => ?_)
  have here := same.getElem? i
  rw [Array.getElem?_map, Array.getElem?_map, getElem?_modify, getElem?_modify]
  split
  · cases found : plan.ops[i]? with
    | none => rw [same.missing found]
    | some op =>
      rw [found] at here
      obtain ⟨op', found', bare⟩ := Option.map_eq_some_iff.mp here.symm
      rw [found']
      exact congrArg some (keeps.bare op op' bare.symm)
  · exact here

theorem env_modify (plan : Plan) (id : OpId) (keeps : KeepsEnv change) (i : OpId) :
    (plan.modify id change).ops[i]?.map Operator.env = plan.ops[i]?.map Operator.env := by
  rw [getElem?_modify]
  split
  · rw [Option.map_map]
    exact congrArg (Option.map · _) (funext keeps.env)
  · rfl

theorem Edit.revert_modify (e : Edit) :
    ∃ id change, KeepsEnv change ∧ ∀ plan, e.revert plan = plan.modify id change := by
  cases e with
  | input op old => exact ⟨op, _, keepsEnv_inputs (·.set 0 old), fun _ => rfl⟩
  | binding op i v x =>
    exact ⟨op, _, keepsEnv_body (Body.mapAssign (insertAt i v) (insertAt i x)), fun _ => rfl⟩
  | scan op function outputs => exact ⟨op, _, keepsEnv_body (Body.mark function outputs), fun _ => rfl⟩

theorem SameShape.revert (same : plan.SameShape other) (e : Edit) :
    (e.revert plan).SameShape (e.revert other) := by
  obtain ⟨id, change, keeps, eq⟩ := e.revert_modify
  rw [eq, eq]
  exact same.modify id keeps

theorem SameShape.foldl_revert : ∀ (edits : List Edit) {plan other : Plan},
    plan.SameShape other → (edits.foldl Edit.revert plan).SameShape (edits.foldl Edit.revert other)
  | [], _, _, same => same
  | e :: edits, _, _, same => .foldl_revert edits (same.revert e)

theorem env_foldl_revert : ∀ (edits : List Edit) (plan : Plan) (i : OpId),
    (edits.foldl Edit.revert plan).ops[i]?.map Operator.env = plan.ops[i]?.map Operator.env
  | [], _, _ => rfl
  | e :: edits, plan, i => by
    obtain ⟨id, change, keeps, eq⟩ := e.revert_modify
    rw [List.foldl_cons, env_foldl_revert edits, eq, env_modify plan id keeps]

theorem hasEnv_iff : plan.HasEnv id ↔ ∃ env, plan.ops[id]?.map Operator.env = some (some env) := by
  constructor
  · rintro ⟨op, found, stored⟩
    obtain ⟨env, same⟩ := Option.isSome_iff_exists.mp stored
    exact ⟨env, by rw [found, Option.map_some, same]⟩
  · rintro ⟨env, mapped⟩
    obtain ⟨op, found, same⟩ := Option.map_eq_some_iff.mp mapped
    exact ⟨op, found, by rw [same]; rfl⟩

theorem eq_of_sameShape (same : plan.SameShape other)
    (env : plan.ops[id]?.map Operator.env = other.ops[id]?.map Operator.env) :
    plan.ops[id]? = other.ops[id]? := by
  cases found : plan.ops[id]? with
  | none => exact (same.missing found).symm
  | some op =>
    obtain ⟨op', found', body, inputs⟩ := same.find found
    rw [found, found', Option.map_some, Option.map_some] at env
    have stored : op.env = op'.env := Option.some.inj env
    rw [found']
    obtain ⟨opBody, opInputs, opEnv⟩ := op
    cases body
    cases inputs
    cases stored
    rfl

/-! ## Drafts of a plan -/

/-- A draft that came from a plan by recorded edits of operators reachable from a root, and by
storing variables at such operators. -/
structure Drafted (original : Plan) (root : OpId) (draft : Draft) : Prop where
  shape : draft.revert.plan.SameShape original
  closed : ∀ id next, original.Reaches root id → draft.plan.Below id next →
    original.Reaches root next
  hasEnv : ∀ id, original.Reaches root id → draft.plan.HasEnv id
  elsewhere : ∀ id, ¬ original.Reaches root id →
    draft.plan.ops[id]?.map Operator.env = original.ops[id]?.map Operator.env

/-- A settled plan is a draft of itself. -/
theorem Drafted.start (settled : original.Settled root) (acyclic : original.Acyclic)
    (owned : original.LeavesOwned root) : Drafted original root { plan := original } where
  shape := .refl original
  closed := fun _ _ reaches below => reaches.tail below
  hasEnv := fun _ reaches => settled.hasEnv acyclic owned reaches
  elsewhere := fun _ _ => rfl

theorem Drafted.undo (drafted : Drafted original root draft) (settled : original.Settled root)
    (acyclic : original.Acyclic) (owned : original.LeavesOwned root) :
    Plan.undo (some root) draft = .ok () { plan := original } := by
  have stored : ∀ i, draft.revert.plan.ops[i]?.map Operator.env =
      draft.plan.ops[i]?.map Operator.env := env_foldl_revert draft.edits draft.plan
  have restored := settled.recompute acyclic owned drafted.shape
    (fun id reaches => by
      rw [hasEnv_iff, stored]
      exact hasEnv_iff.mp (drafted.hasEnv id reaches))
    (fun id outside => eq_of_sameShape drafted.shape
      ((stored id).trans (drafted.elsewhere id outside)))
  change Plan.onPlan (Plan.recompute root) draft.revert = _
  unfold Plan.onPlan
  rw [restored]
  rfl

/-- Storing the variables of a reachable operator. -/
theorem Drafted.setEnv (drafted : Drafted original root draft) (reaches : original.Reaches root id)
    (env : TypeEnv) : Drafted original root { draft with plan := draft.plan.setEnv id env } where
  shape := (SameShape.foldl_revert draft.edits (sameShape_setEnv draft.plan id env).symm).trans
    drafted.shape
  closed := fun from' next isReached below =>
    drafted.closed from' next isReached ((sameShape_setEnv draft.plan id env).symm.below below)
  hasEnv := fun other isReached => (drafted.hasEnv other isReached).setEnv id env
  elsewhere := by
    intro other outside
    have notHere : id ≠ other := fun same => outside (same ▸ reaches)
    rw [← drafted.elsewhere other outside]
    simp only [getElem?_setEnv, if_neg notHere]

theorem revert_recorded (reverts : e.revert plan = draft.plan) :
    Draft.revert { plan, edits := e :: draft.edits } = draft.revert := by
  unfold Draft.revert
  rw [List.foldl_cons, reverts]

/-- An edit that is recorded with how to take it back. -/
theorem Drafted.edit (drafted : Drafted original root draft) {id : OpId} (keeps : KeepsEnv change)
    (reverts : e.revert (draft.plan.modify id change) = draft.plan)
    (closed : original.Reaches root id → ∀ next, (draft.plan.modify id change).Below id next →
      original.Reaches root next) :
    Drafted original root { plan := draft.plan.modify id change, edits := e :: draft.edits } where
  shape := by
    rw [revert_recorded reverts]
    exact drafted.shape
  closed := by
    intro from' next isReached below
    by_cases same : id = from'
    · subst same
      exact closed isReached next below
    · obtain ⟨op, found, member⟩ := below
      rw [getElem?_modify, if_neg same] at found
      exact drafted.closed from' next isReached ⟨op, found, member⟩
  hasEnv := by
    intro other isReached
    rw [hasEnv_iff, env_modify draft.plan id keeps]
    exact hasEnv_iff.mp (drafted.hasEnv other isReached)
  elsewhere := by
    intro other outside
    rw [env_modify draft.plan id keeps]
    exact drafted.elsewhere other outside

theorem modify_modify_self {op : Operator} {back : Operator → Operator}
    (found : plan.ops[id]? = some op) (same : back (change op) = op) :
    (plan.modify id change).modify id back = plan := by
  refine ext_getElem? fun i => ?_
  rw [getElem?_modify, getElem?_modify]
  split
  · next here =>
    subst here
    rw [found, Option.map_some, Option.map_some, same]
  · rfl

/-! ## The steps that change drafts -/

variable {α : Type}

theorem endsIn_onPlan {step : Editing α}
    (ends : EndsIn (fun plan => holds { draft with plan }) step draft.plan) :
    EndsIn holds (onPlan step) draft := by
  unfold EndsIn onPlan at *
  cases outcome : step draft.plan with
  | ok a plan =>
    rw [outcome] at ends
    exact ends
  | error cause plan =>
    rw [outcome] at ends
    exact ends

theorem keeps_computeEnv_drafted {edits : List Edit} (reaches : original.Reaches root id) :
    Keeps (fun plan => Drafted original root { plan, edits }) (computeEnv id) := by
  intro plan drafted
  unfold EndsIn
  cases found : plan.ops[id]? with
  | none =>
    have missing : computeEnv id plan = .error (.fault .outOfRange) plan := by
      change computeEnvWithin (plan.ops.size + 1) id plan = _
      rw [computeEnvWithin_succ, EStateM.bind_apply, fetch_apply, found]
    rw [missing]
    exact drafted
  | some op =>
    rw [computeEnv_apply found fun next member =>
      drafted.hasEnv next (drafted.closed id next reaches ⟨op, found, member⟩)]
    cases produce plan op.body (op.inputs.map plan.envOf) with
    | ok env => exact drafted.setEnv reaches env
    | error cause => exact drafted

theorem keeps_onPlan_computeEnv (reaches : original.Reaches root id) :
    Keeps (Drafted original root) (onPlan (computeEnv id)) :=
  fun draft drafted => endsIn_onPlan (keeps_computeEnv_drafted reaches draft.plan drafted)

theorem endsIn_recompute {holds : Plan → Prop} (held : holds plan)
    (walks : ∀ ids, plan.walk root = .ok ids → EndsIn holds (ids.forM computeEnv) plan) :
    EndsIn holds (recompute root) plan := by
  unfold EndsIn
  rw [recompute_apply]
  cases walked : plan.walk root with
  | error fault => exact held
  | ok ids => exact walks ids walked

theorem keeps_onPlan_recompute : Keeps (Drafted original root) (onPlan (recompute root)) := by
  intro draft drafted
  apply endsIn_onPlan
  refine endsIn_recompute drafted fun ids walked => ?_
  have reached := walk_within drafted.closed .refl walked
  exact Keeps.forM ids (fun id member => keeps_computeEnv_drafted (reached id member))
    draft.plan drafted

theorem onPlan_fetch_bind {next : Operator → Drafting α} (out : EStateM.Result Failure Draft α → Prop)
    (missing : out (.error (.fault .outOfRange) draft))
    (each : ∀ op, draft.plan.ops[id]? = some op → out (next op draft)) :
    out ((onPlan (fetch id) >>= next) draft) := by
  rw [EStateM.bind_apply]
  unfold onPlan
  rw [fetch_apply]
  cases found : draft.plan.ops[id]? with
  | none => exact missing
  | some op => exact each op found

theorem endsIn_onPlan_fetch {holds : Draft → Prop} {next : Operator → Drafting α} (held : holds draft)
    (each : ∀ op, draft.plan.ops[id]? = some op → EndsIn holds (next op) draft) :
    EndsIn holds (onPlan (fetch id) >>= next) draft :=
  onPlan_fetch_bind (fun out => EndsIn holds (fun _ => out) draft) held each

/-- Connecting an operator to its only input again. -/
theorem revert_splice {op input : OpId} {p : Operator} (found : plan.ops[consumer]? = some p)
    (current : p.inputs = [op]) :
    Edit.revert (plan.modify consumer fun c => { c with inputs := c.inputs.set 0 input })
      (.input consumer op) = plan := by
  refine modify_modify_self found ?_
  obtain ⟨body, inputs, env⟩ := p
  cases current
  rfl

theorem Drafted.splice (drafted : Drafted original root draft) {op input : OpId} {o p : Operator}
    (found : draft.plan.ops[op]? = some o) (foundConsumer : draft.plan.ops[consumer]? = some p)
    (inputs : o.inputs = [input]) (current : p.inputs = [op])
    (reaches : original.Reaches root consumer) :
    original.Reaches root input ∧
      Drafted original root {
        plan := draft.plan.modify consumer fun c => { c with inputs := c.inputs.set 0 input }
        edits := .input consumer op :: draft.edits } := by
  have toOp := drafted.closed consumer op reaches
    ⟨p, foundConsumer, List.mem_append_left _ (by rw [current]; exact List.mem_singleton_self _)⟩
  have toInput := drafted.closed op input toOp
    ⟨o, found, List.mem_append_left _ (by rw [inputs]; exact List.mem_singleton_self _)⟩
  refine ⟨toInput, drafted.edit (keepsEnv_inputs (·.set 0 input))
    (revert_splice foundConsumer current) ?_⟩
  intro _ next below
  obtain ⟨q, foundNow, member⟩ := below
  rw [getElem?_modify, if_pos rfl, foundConsumer, Option.map_some] at foundNow
  cases foundNow
  rcases List.mem_append.mp member with isInput | isNested
  · rw [current] at isInput
    obtain rfl := List.mem_singleton.mp isInput
    exact toInput
  · exact drafted.closed consumer next reaches ⟨p, foundConsumer, List.mem_append_right _ isNested⟩

/-- Taking an operator out from under a reachable consumer. -/
theorem keeps_remove {op : OpId} (reaches : original.Reaches root consumer) :
    Keeps (Drafted original root) (remove op (some consumer)) := by
  intro draft drafted
  refine endsIn_onPlan_fetch drafted fun o found => ?_
  refine endsIn_onPlan_fetch drafted fun p foundConsumer => ?_
  split
  · next input current inputs parentInputs =>
    split
    · next same =>
      subst same
      obtain ⟨toInput, spliced⟩ := drafted.splice found foundConsumer inputs parentInputs reaches
      exact Keeps.bind (keeps_onPlan_computeEnv toInput)
        (fun _ => keeps_onPlan_computeEnv reaches) _ spliced
    · exact drafted
  · exact drafted

theorem nested?_mapAssign (onVars : List Var → List Var) (onExprs : List Expr → List Expr)
    (body : Body) : (body.mapAssign onVars onExprs).nested? = body.nested? := by
  cases body <;> rfl

theorem nested?_mark (function : String) (outputs : List Var) (body : Body) :
    (body.mark function outputs).nested? = body.nested? := by
  cases body <;> rfl

theorem Drafted.closed_body (drafted : Drafted original root draft) {change : Body → Body}
    (nested : ∀ body, (change body).nested? = body.nested?) (reaches : original.Reaches root id)
    (next : OpId)
    (below : (draft.plan.modify id fun op => { op with body := change op.body }).Below id next) :
    original.Reaches root next := by
  obtain ⟨op, found, member⟩ := below
  rw [getElem?_modify, if_pos rfl] at found
  obtain ⟨before, foundBefore, rfl⟩ := Option.map_eq_some_iff.mp found
  refine drafted.closed id next reaches ⟨before, foundBefore, ?_⟩
  simpa only [Operator.below, nested] using member

/-- Putting an element back where it was. -/
theorem insertAt_eraseIdx {as : List α} {i : Nat} {a : α} (found : as[i]? = some a) :
    insertAt i a (as.eraseIdx i) = as := by
  obtain ⟨bound, same⟩ := List.getElem?_eq_some_iff.mp found
  have length : (as.take i).length = i := List.length_take_of_le (Nat.le_of_lt bound)
  rw [insertAt, List.eraseIdx_eq_take_drop_succ, List.take_append_of_le_length (by omega),
    List.take_of_length_le (by omega), List.drop_append_of_le_length (by omega),
    List.drop_of_length_le (by omega), List.nil_append, ← same, List.getElem_cons_drop,
    List.take_append_drop]

theorem revert_removeBinding {o : Operator} {vars : List Var} {exprs : List Expr} {i : Nat} {v : Var}
    {e : Expr} (found : plan.ops[id]? = some o) (isAssign : o.body = .assign vars exprs)
    (isVar : vars[i]? = some v) (isExpr : exprs[i]? = some e) :
    Edit.revert (plan.modify id fun c =>
      { c with body := c.body.mapAssign (·.eraseIdx i) (·.eraseIdx i) }) (.binding id i v e) = plan := by
  refine modify_modify_self found ?_
  obtain ⟨body, inputs, env⟩ := o
  cases isAssign
  simp only [Body.mapAssign, insertAt_eraseIdx isVar, insertAt_eraseIdx isExpr]

/-- Removing a binding of an assign. -/
theorem keeps_removeBinding (op : OpId) (i : Nat) :
    Keeps (Drafted original root) (removeBinding op i) := by
  intro draft drafted
  refine endsIn_onPlan_fetch drafted fun o found => ?_
  split
  · next vars exprs isAssign =>
    split
    · next v e isVar isExpr =>
      exact drafted.edit (keepsEnv_body _) (revert_removeBinding found isAssign isVar isExpr)
        fun reaches next below => drafted.closed_body (nested?_mapAssign _ _) reaches next below
    · exact drafted
  · exact drafted

/-- Marking a scan with its function. -/
theorem keeps_markScan (op : OpId) (function : String) (outputs : List Var) :
    Keeps (Drafted original root) (markScan op function outputs) := by
  intro draft drafted
  refine endsIn_onPlan_fetch drafted fun o found => ?_
  split
  · next dataset vars oldFunction oldOutputs isScan =>
    refine drafted.edit (e := .scan op oldFunction oldOutputs) (keepsEnv_body _)
      (modify_modify_self found ?_)
      fun reaches next below => drafted.closed_body (nested?_mark _ _) reaches next below
    obtain ⟨body, inputs, env⟩ := o
    cases isScan
    rfl
  · exact drafted

/-!
## Taking back any rewriting

Whatever calls were made on a draft, in any order, on any operators and however they ended, taking its
edits back gives every operator the body and the inputs it had. Nothing is asked of the plan: its
operators need not be connected to a root, may be shared, and may have no stored variables.
-/

variable {op : OpId} {parent : Option OpId}

/-- A call that rewrites a draft. -/
inductive Rewriting where
  | remove (op : OpId) (parent : Option OpId)
  | removeBinding (op : OpId) (i : Nat)

def Rewriting.run : Rewriting → Drafting Unit
  | remove op parent => Plan.remove op parent
  | removeBinding op i => Plan.removeBinding op i

/-- The draft that a step leaves, also where it fails. -/
def after (step : Drafting Unit) (draft : Draft) : Draft :=
  match step draft with
  | .ok _ draft' => draft'
  | .error _ draft' => draft'

/-- The draft that some calls leave; a failed one does not keep the next from being made. -/
def Rewriting.runAll (calls : List Rewriting) (draft : Draft) : Draft :=
  calls.foldl (fun draft call => after call.run draft) draft

/-- An operator that can be taken out: its consumer has no other input, and it has one input. -/
def Splices (plan : Plan) (op : OpId) (parent : Option OpId) : Prop :=
  ∃ consumer o p input, parent = some consumer ∧ plan.ops[op]? = some o ∧ o.inputs = [input] ∧
    plan.ops[consumer]? = some p ∧ p.inputs = [op]

/-- A step fails and leaves a draft as it is. -/
def Refuses (step : Drafting Unit) (draft : Draft) : Prop :=
  ∃ failure, step draft = .error failure draft

/-- Taking the edits of a draft back gives the shape of a plan. -/
def Restores (original : Plan) (draft : Draft) : Prop := draft.revert.plan.SameShape original

theorem Restores.record (restores : Restores original draft)
    (reverts : e.revert plan = draft.plan) :
    Restores original { plan, edits := e :: draft.edits } := by
  rw [Restores, revert_recorded reverts]
  exact restores

theorem holds_after {step : Drafting Unit} (ends : EndsIn holds step draft) :
    holds (after step draft) := by
  unfold EndsIn at ends
  unfold after
  cases outcome : step draft <;> rw [outcome] at ends <;> exact ends

theorem keeps_onPlan_restores {step : Editing Unit}
    (keeps : ∀ plan : Plan, Keeps plan.Fills step) :
    Keeps (Restores original) (onPlan step) := by
  intro draft restores
  apply endsIn_onPlan
  have fills := keeps draft.plan draft.plan (.refl _)
  unfold EndsIn at fills ⊢
  split at fills <;> exact (SameShape.foldl_revert draft.edits fills.sameShape.symm).trans restores

theorem keeps_computeEnv_restores (id : OpId) :
    Keeps (Restores original) (onPlan (computeEnv id)) :=
  keeps_onPlan_restores fun plan => keeps_computeEnv plan id

theorem keeps_remove_restores (op : OpId) (parent : Option OpId) :
    Keeps (Restores original) (remove op parent) := by
  intro draft restores
  refine endsIn_onPlan_fetch restores fun o found => ?_
  split
  · exact restores
  · next consumer =>
    refine endsIn_onPlan_fetch restores fun p foundConsumer => ?_
    split
    · next input current inputs parentInputs =>
      split
      · next same =>
        subst same
        exact Keeps.bind (keeps_computeEnv_restores input)
          (fun _ => keeps_computeEnv_restores consumer) _
          (restores.record (revert_splice foundConsumer parentInputs))
      · exact restores
    · exact restores

theorem keeps_removeBinding_restores (op : OpId) (i : Nat) :
    Keeps (Restores original) (removeBinding op i) := by
  intro draft restores
  refine endsIn_onPlan_fetch restores fun o found => ?_
  split
  · next vars exprs isAssign =>
    split
    · next v e isVar isExpr =>
      exact restores.record (revert_removeBinding found isAssign isVar isExpr)
    · exact restores
  · exact restores

theorem Rewriting.restores_runAll : ∀ (calls : List Rewriting) {draft : Draft},
    Restores original draft → Restores original (runAll calls draft)
  | [], _, restores => restores
  | call :: calls, draft, restores => by
    refine restores_runAll calls (holds_after ?_)
    cases call with
    | remove op parent => exact keeps_remove_restores op parent draft restores
    | removeBinding op i => exact keeps_removeBinding_restores op i draft restores

theorem Restores.undo (restores : Restores original draft) (root : Option OpId) :
    (after (undo root) draft).plan.SameShape original := by
  cases root with
  | none => exact restores
  | some root =>
    have ends : EndsIn (·.plan.SameShape original) (onPlan (recompute root)) draft.revert := by
      apply endsIn_onPlan
      refine endsIn_recompute restores fun ids _ => ?_
      have fills := Keeps.forM ids (fun id _ => keeps_computeEnv draft.revert.plan id)
        draft.revert.plan (.refl _)
      unfold EndsIn at fills ⊢
      split at fills <;> exact fills.sameShape.symm.trans restores
    exact holds_after ends

theorem refuses_onPlan_fetch {id : OpId} {next : Operator → Drafting Unit}
    (each : ∀ op, draft.plan.ops[id]? = some op → Refuses (next op) draft) :
    Refuses (onPlan (fetch id) >>= next) draft :=
  onPlan_fetch_bind (fun out => ∃ failure, out = .error failure draft) ⟨_, rfl⟩ each

theorem remove_refuses (refused : ¬ draft.plan.Splices op parent) : Refuses (remove op parent) draft := by
  refine refuses_onPlan_fetch fun o found => ?_
  split
  · exact ⟨_, rfl⟩
  · next consumer =>
    refine refuses_onPlan_fetch fun p foundConsumer => ?_
    split
    · next input current inputs parentInputs =>
      split
      · next same =>
        subst same
        exact absurd ⟨consumer, o, p, input, rfl, found, inputs, foundConsumer, parentInputs⟩ refused
      · exact ⟨_, rfl⟩
    · exact ⟨_, rfl⟩

/-- After any calls, undoing gives every operator of a plan the body and the inputs it had. A removal
that is refused before it splices changes nothing and records nothing. -/
theorem undo_restores (original : Plan) (calls : List Rewriting) :
    let draft := Rewriting.runAll calls { plan := original }
    (∀ root, (after (undo root) draft).plan.SameShape original) ∧
    ∀ op parent, ¬ draft.plan.Splices op parent → Refuses (remove op parent) draft :=
  have start : Restores original { plan := original } := .refl original
  ⟨(Rewriting.restores_runAll calls start).undo, fun _ _ => remove_refuses⟩

/-- A removal without a consumer, after the binding of an assign was removed. -/
theorem undo_restores_unconnected :
    Refuses (remove 0 none) (Rewriting.runAll [.removeBinding 0 0]
      { plan := { ops := #[{ body := .assign [⟨0, "x", .any⟩] [.absent], inputs := [] }] } }) := by
  refine (undo_restores _ [.removeBinding 0 0]).2 0 none ?_
  rintro ⟨_, _, _, _, same, _⟩
  cases same

end QueryFusion.Plan

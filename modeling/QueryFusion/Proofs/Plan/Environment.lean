import Mathlib.Data.List.Nodup
import QueryFusion.Plan.TypeEnv
import QueryFusion.Proofs.Plan.Walk

/-!
# Computing live variables anew

The live variables that a recomputation stores depend only on the shape of a plan, that is, on what
the operators do and how they are connected, and not on what was stored before. The walk lists every
operator after those its variables are computed from, so each is computed from variables that were
just computed themselves.
-/

namespace QueryFusion.Plan

open EStateM (Keeps bind_apply bind_eq_ok get_apply)

/-- An operator without its stored variables. -/
def Operator.bare (op : Operator) : Operator := { op with env := none }

/-- A plan without the stored variables. -/
def bare (plan : Plan) : Plan := { ops := plan.ops.map Operator.bare }

/-- Two plans that differ at most in the stored variables. -/
def SameShape (plan other : Plan) : Prop := plan.bare = other.bare

/-- An operator that has stored variables. -/
def HasEnv (plan : Plan) (id : OpId) : Prop := ∃ op, plan.ops[id]? = some op ∧ op.env.isSome

/-- The stored variables of an operator. -/
def envOf (plan : Plan) (id : OpId) : TypeEnv := (plan.ops[id]?.bind Operator.env).getD []

/-- Stores the variables of an operator. -/
def setEnv (plan : Plan) (id : OpId) (env : TypeEnv) : Plan :=
  plan.modify id fun op => { op with env := some env }

variable {plan other : Plan} {id : OpId} {op : Operator}

/-! ## Shapes -/

theorem Operator.bare_eq_iff {op op' : Operator} :
    op.bare = op'.bare ↔ op.body = op'.body ∧ op.inputs = op'.inputs := by
  simp [Operator.bare]

theorem SameShape.refl (plan : Plan) : plan.SameShape plan := rfl

theorem SameShape.symm (same : plan.SameShape other) : other.SameShape plan := Eq.symm same

theorem SameShape.trans {third : Plan} (first : plan.SameShape other)
    (second : other.SameShape third) : plan.SameShape third := Eq.trans first second

theorem SameShape.getElem? (same : plan.SameShape other) (id : OpId) :
    plan.ops[id]?.map Operator.bare = other.ops[id]?.map Operator.bare := by
  have ops : plan.ops.map Operator.bare = other.ops.map Operator.bare := congrArg Plan.ops same
  rw [← Array.getElem?_map, ops, Array.getElem?_map]

theorem SameShape.find (same : plan.SameShape other) (found : plan.ops[id]? = some op) :
    ∃ op', other.ops[id]? = some op' ∧ op'.body = op.body ∧ op'.inputs = op.inputs := by
  have mapped := same.getElem? id
  rw [found] at mapped
  obtain ⟨op', found', bare⟩ := Option.map_eq_some_iff.mp mapped.symm
  exact ⟨op', found', (Operator.bare_eq_iff.mp bare).1, (Operator.bare_eq_iff.mp bare).2⟩

theorem SameShape.missing (same : plan.SameShape other) (missing : plan.ops[id]? = none) :
    other.ops[id]? = none := by
  have mapped := same.getElem? id
  rw [missing] at mapped
  exact Option.map_eq_none_iff.mp mapped.symm

theorem SameShape.size (same : plan.SameShape other) : plan.ops.size = other.ops.size := by
  have ops : plan.ops.map Operator.bare = other.ops.map Operator.bare := congrArg Plan.ops same
  simpa using congrArg Array.size ops

theorem SameShape.below (same : plan.SameShape other) {next : OpId} (below : plan.Below id next) :
    other.Below id next := by
  obtain ⟨op, found, member⟩ := below
  obtain ⟨op', found', body, inputs⟩ := same.find found
  refine ⟨op', found', ?_⟩
  rw [Operator.below, body, inputs]
  exact member

/-- Storing variables does not change the shape. -/
theorem sameShape_setEnv (plan : Plan) (id : OpId) (env : TypeEnv) :
    plan.SameShape (plan.setEnv id env) := by
  refine congrArg Plan.mk (Array.ext_getElem? fun i => ?_)
  simp only [setEnv, Plan.modify, Array.getElem?_map, Array.getElem?_modify]
  split <;> cases plan.ops[i]? <;> rfl

theorem ext_getElem? (same : ∀ i : OpId, plan.ops[i]? = other.ops[i]?) : plan = other :=
  congrArg Plan.mk (Array.ext_getElem? same)

theorem getElem?_modify (plan : Plan) (id : OpId) (change : Operator → Operator) (i : OpId) :
    (plan.modify id change).ops[i]? =
      if id = i then plan.ops[i]?.map change else plan.ops[i]? := by
  simp only [Plan.modify, Array.getElem?_modify]

theorem getElem?_setEnv (plan : Plan) (id : OpId) (env : TypeEnv) (i : OpId) :
    (plan.setEnv id env).ops[i]? =
      if id = i then plan.ops[i]?.map fun op => { op with env := some env } else plan.ops[i]? :=
  getElem?_modify _ _ _ _

theorem setEnv_self (found : plan.ops[id]? = some op) {env : TypeEnv} (stored : op.env = some env) :
    plan.setEnv id env = plan := by
  refine ext_getElem? fun i => ?_
  rw [getElem?_setEnv]
  split
  · next same =>
    cases op
    simp_all
  · rfl

theorem HasEnv.setEnv {next : OpId} (has : plan.HasEnv next) (id : OpId) (env : TypeEnv) :
    (plan.setEnv id env).HasEnv next := by
  obtain ⟨op, found, stored⟩ := has
  unfold HasEnv
  rw [getElem?_setEnv]
  split
  · exact ⟨_, by rw [found]; rfl, rfl⟩
  · exact ⟨op, found, stored⟩

/-- Walks look at the shape only. -/
theorem SameShape.walkFrom (same : plan.SameShape other) (depth : Nat) :
    ∀ (id : OpId) (state : List OpId × List OpId),
      plan.walkFrom depth id state = other.walkFrom depth id state := by
  induction depth with
  | zero => intro id state; rfl
  | succ depth ih =>
    intro id state
    have steps : (fun (state : List OpId × List OpId) next => plan.walkFrom depth next state) =
        fun state next => other.walkFrom depth next state := by
      funext state next
      exact ih next state
    rw [Plan.walkFrom, Plan.walkFrom]
    split
    · rfl
    · unfold Plan.get
      cases found : plan.ops[id]? with
      | none => rw [same.missing found]; rfl
      | some op =>
        obtain ⟨op', found', body, inputs⟩ := same.find found
        rw [found']
        simp only [bind, Except.bind, pure, Except.pure, body, inputs, steps]

theorem SameShape.walk (same : plan.SameShape other) (root : OpId) :
    plan.walk root = other.walk root := by
  unfold Plan.walk
  rw [same.size, same.walkFrom]

/-! ## Computing the variables of one operator -/

/-- The variables of an operator that another one needs, computed first where there are none. -/
def requireEnv (depth : Nat) (next : OpId) : Editing TypeEnv := do
  if (← fetch next).env.isNone then computeEnvWithin depth next
  pure ((← fetch next).env.getD [])

/-- Stores what an operator produces from the variables at its inputs. -/
def storeEnv (id : OpId) (op : Operator) (envs : List TypeEnv) : Editing Unit := do
  match produce (← get) op.body envs with
  | .ok env => modifyGet fun plan => ((), plan.setEnv id env)
  | .error cause => throw (.error cause)

theorem computeEnvWithin_succ (depth : Nat) (id : OpId) :
    computeEnvWithin (depth + 1) id = (do
      let op ← fetch id
      let envs ← op.inputs.mapM (requireEnv depth)
      let _ ← op.body.nested?.toList.mapM (requireEnv depth)
      storeEnv id op envs) := rfl

theorem fetch_apply (plan : Plan) (id : OpId) :
    fetch id plan = match plan.ops[id]? with
      | some op => .ok op plan
      | none => .error (.fault .outOfRange) plan := by
  unfold fetch
  rw [bind_apply, get_apply]
  simp only [Plan.get]
  cases plan.ops[id]? <;> rfl

theorem fetch_found (found : plan.ops[id]? = some op) : fetch id plan = .ok op plan := by
  rw [fetch_apply, found]

/-- What an operator stores, or why it stores nothing. -/
theorem storeEnv_apply (plan : Plan) (id : OpId) (op : Operator) (envs : List TypeEnv) :
    storeEnv id op envs plan = match produce plan op.body envs with
      | .ok env => .ok () (plan.setEnv id env)
      | .error cause => .error (.error cause) plan := by
  unfold storeEnv
  rw [bind_apply, get_apply]
  simp only
  cases produce plan op.body envs <;> rfl

/-- Variables that are there are not computed. -/
theorem requireEnv_apply (depth : Nat) (has : plan.HasEnv id) :
    requireEnv depth id plan = .ok (plan.envOf id) plan := by
  obtain ⟨op, found, stored⟩ := has
  have some : op.env.isNone = false := by
    rw [Option.isNone_eq_false_iff]
    exact stored
  unfold requireEnv
  rw [bind_apply, fetch_found found]
  simp only [some, Bool.false_eq_true, if_false]
  rw [bind_apply, fetch_found found]
  rw [envOf, found]
  rfl

theorem mapM_requireEnv (depth : Nat) : ∀ ids : List OpId, (∀ next ∈ ids, plan.HasEnv next) →
    ids.mapM (requireEnv depth) plan = .ok (ids.map plan.envOf) plan
  | [], _ => rfl
  | next :: rest, has => by
    have first := requireEnv_apply depth (has next (.head _))
    have others := mapM_requireEnv depth rest (List.forall_mem_cons.mp has).2
    rw [List.mapM_cons, bind_apply, first]
    simp only
    rw [bind_apply, others]
    rfl

theorem computeEnv_apply (found : plan.ops[id]? = some op)
    (has : ∀ next ∈ op.below, plan.HasEnv next) :
    computeEnv id plan = match produce plan op.body (op.inputs.map plan.envOf) with
      | .ok env => .ok () (plan.setEnv id env)
      | .error cause => .error (.error cause) plan := by
  unfold computeEnv
  rw [bind_apply, get_apply]
  simp only
  rw [computeEnvWithin_succ, bind_apply, fetch_found found]
  simp only
  rw [bind_apply,
    mapM_requireEnv _ op.inputs fun next member => has next (List.mem_append_left _ member)]
  simp only
  rw [bind_apply, mapM_requireEnv _ op.body.nested?.toList
    fun next member => has next (List.mem_append_right _ member)]
  exact storeEnv_apply plan id op _

/-! ## What a computation leaves alone -/

/-- A plan of the same shape that has stored variables wherever the first one has. -/
structure Fills (plan other : Plan) : Prop where
  sameShape : plan.SameShape other
  hasEnv : ∀ id, plan.HasEnv id → other.HasEnv id

theorem Fills.refl (plan : Plan) : plan.Fills plan := ⟨.refl plan, fun _ has => has⟩

theorem Fills.setEnv (fills : plan.Fills other) (id : OpId) (env : TypeEnv) :
    plan.Fills (other.setEnv id env) :=
  ⟨fills.sameShape.trans (sameShape_setEnv other id env),
    fun next has => (fills.hasEnv next has).setEnv id env⟩

theorem keeps_fetch (plan : Plan) (id : OpId) : Keeps plan.Fills (fetch id) := by
  intro other fills
  rw [EStateM.EndsIn, fetch_apply]
  cases other.ops[id]? <;> exact fills

theorem keeps_storeEnv (plan : Plan) (id : OpId) (op : Operator) (envs : List TypeEnv) :
    Keeps plan.Fills (storeEnv id op envs) := by
  intro other fills
  rw [EStateM.EndsIn, storeEnv_apply]
  cases produce other op.body envs with
  | ok env => exact fills.setEnv id env
  | error cause => exact fills

theorem keeps_requireEnv {depth : Nat}
    (compute : ∀ id, Keeps plan.Fills (computeEnvWithin depth id)) (next : OpId) :
    Keeps plan.Fills (requireEnv depth next) := by
  have last : Keeps plan.Fills (do pure ((← fetch next).env.getD [])) :=
    .bind (keeps_fetch plan next) fun _ => .pure _
  refine .bind (keeps_fetch plan next) fun op => ?_
  split
  · exact .bind (compute next) fun _ => last
  · exact last

theorem keeps_computeEnvWithin (plan : Plan) (depth : Nat) :
    ∀ id, Keeps plan.Fills (computeEnvWithin depth id) := by
  induction depth with
  | zero => intro id; exact .throw _
  | succ depth ih =>
    intro id
    exact .bind (keeps_fetch plan id) fun op =>
      .bind (.mapM (keeps_requireEnv ih) op.inputs) fun envs =>
        .bind (.mapM (keeps_requireEnv ih) op.body.nested?.toList)
          fun _ => keeps_storeEnv plan id op envs

theorem keeps_computeEnv (plan : Plan) (id : OpId) : Keeps plan.Fills (computeEnv id) := by
  intro other fills
  exact keeps_computeEnvWithin plan _ id other fills

/-- An operator whose variables were computed has some. -/
theorem computeEnv_hasEnv (computed : computeEnv id plan = .ok () other) : other.HasEnv id := by
  obtain ⟨_, _, got, computed⟩ := bind_eq_ok.mp computed
  cases got
  rw [computeEnvWithin_succ] at computed
  obtain ⟨op, _, fetched, computed⟩ := bind_eq_ok.mp computed
  rw [fetch_apply] at fetched
  cases found : plan.ops[id]? with
  | none => rw [found] at fetched; cases fetched
  | some op =>
    rw [found] at fetched
    cases fetched
    obtain ⟨envs, first, inputs, computed⟩ := bind_eq_ok.mp computed
    obtain ⟨_, second, nested, stored⟩ := bind_eq_ok.mp computed
    have require := keeps_requireEnv (keeps_computeEnvWithin plan plan.ops.size)
    have filled := (Keeps.mapM require _).ok ((Keeps.mapM require _).ok (.refl plan) inputs) nested
    rw [storeEnv_apply] at stored
    cases produced : produce second op.body envs with
    | error cause => rw [produced] at stored; cases stored
    | ok env =>
      rw [produced] at stored
      cases stored
      obtain ⟨op', found', -, -⟩ := filled.sameShape.find found
      exact ⟨{ op' with env := some env }, by rw [getElem?_setEnv, if_pos rfl, found']; rfl, rfl⟩

theorem forM_computeEnv_fills {ids : List OpId} (computed : ids.forM computeEnv plan = .ok () other) :
    plan.Fills other :=
  (Keeps.forM ids fun id _ => keeps_computeEnv plan id).ok (.refl plan) computed

theorem forM_computeEnv_hasEnv : ∀ (ids : List OpId) (plan : Plan),
    ids.forM computeEnv plan = .ok () other → ∀ id ∈ ids, other.HasEnv id
  | [], _, _, _, member => by cases member
  | first :: rest, plan, computed, id, member => by
    obtain ⟨_, next, one, others⟩ := bind_eq_ok.mp computed
    rcases List.mem_cons.mp member with rfl | later
    · exact (forM_computeEnv_fills others).hasEnv _ (computeEnv_hasEnv one)
    · exact forM_computeEnv_hasEnv rest next others id later

/-! ## Settled plans -/

/-- The stored variables of an operator are those it produces from the stored ones of its inputs. -/
def StoresProduced (plan : Plan) (id : OpId) : Prop :=
  ∃ op env, plan.ops[id]? = some op ∧ op.env = some env ∧
    produce plan op.body (op.inputs.map plan.envOf) = .ok env

theorem computeEnv_elsewhere {next : OpId} (has : ∀ below, plan.Below next below → plan.HasEnv below)
    (computed : computeEnv next plan = .ok () other) :
    ∃ op env, plan.ops[next]? = some op ∧
      produce plan op.body (op.inputs.map plan.envOf) = .ok env ∧ other = plan.setEnv next env := by
  obtain ⟨op', found', -⟩ := computeEnv_hasEnv computed
  have fills := (keeps_computeEnv plan next).ok (.refl plan) computed
  obtain ⟨op, found, -, -⟩ := fills.sameShape.symm.find found'
  rw [computeEnv_apply found fun below member => has below ⟨op, found, member⟩] at computed
  cases produced : produce plan op.body (op.inputs.map plan.envOf) with
  | error cause => rw [produced] at computed; cases computed
  | ok env =>
    rw [produced] at computed
    cases computed
    exact ⟨op, env, found, produced, rfl⟩

theorem forM_computeEnv_elsewhere : ∀ (ids : List OpId) (plan : Plan),
    (∀ next ∈ ids, ∀ below, plan.Below next below → plan.HasEnv below) →
    ids.forM computeEnv plan = .ok () other → ∀ id, id ∉ ids → other.ops[id]? = plan.ops[id]?
  | [], _, _, computed, _, _ => by cases computed; rfl
  | first :: rest, plan, has, computed, id, outside => by
    obtain ⟨_, next, one, others⟩ := bind_eq_ok.mp computed
    obtain ⟨op, env, found, produced, rfl⟩ := computeEnv_elsewhere (has first (.head _)) one
    have notFirst : first ≠ id := fun same => outside (same ▸ (.head _))
    have shape := sameShape_setEnv plan first env
    rw [forM_computeEnv_elsewhere rest _ (fun next member below isBelow =>
      (has next (.tail _ member) below (shape.symm.below isBelow)).setEnv first env)
      others id fun member => outside (.tail _ member)]
    rw [getElem?_setEnv, if_neg notFirst]

theorem storesProduced_of_forM : ∀ (ids : List OpId), ids.Nodup →
    (∀ next ∈ ids, ∀ below, plan.Below next below → plan.HasEnv below) →
    ids.forM computeEnv plan = .ok () plan → ∀ id ∈ ids, plan.StoresProduced id
  | [], _, _, _, _, member => by cases member
  | first :: rest, distinct, has, computed, id, member => by
    obtain ⟨_, next, one, others⟩ := bind_eq_ok.mp computed
    obtain ⟨op, env, found, produced, rfl⟩ := computeEnv_elsewhere (has first (.head _)) one
    have shape := sameShape_setEnv plan first env
    have kept := forM_computeEnv_elsewhere rest _ (fun next member below isBelow =>
      (has next (.tail _ member) below (shape.symm.below isBelow)).setEnv first env)
      others first (List.nodup_cons.mp distinct).1
    rw [getElem?_setEnv, if_pos rfl, found, Option.map_some] at kept
    have stored : op.env = some env := congrArg Operator.env (Option.some.inj kept)
    rw [setEnv_self found stored] at others
    rcases List.mem_cons.mp member with rfl | later
    · exact ⟨op, env, found, stored, produced⟩
    · exact storesProduced_of_forM rest (List.nodup_cons.mp distinct).2
        (List.forall_mem_cons.mp has).2 others id later

/-! ## Recomputing does not depend on what is stored -/

theorem SameShape.aggregateVars (same : plan.SameShape other) (id : OpId) :
    aggregateVars plan id = aggregateVars other id := by
  unfold Plan.aggregateVars
  cases found : plan.ops[id]? with
  | none => rw [same.missing found]
  | some op =>
    obtain ⟨op', found', sameBody, -⟩ := same.find found
    rw [found']
    obtain ⟨body, inputs, env⟩ := op
    obtain ⟨body', inputs', env'⟩ := op'
    cases sameBody
    cases body <;> rfl

theorem SameShape.outerEnv (same : plan.SameShape other) {owner : OpId}
    (inputs : ∀ op, other.ops[owner]? = some op → ∀ next ∈ op.inputs,
      plan.ops[next]? = other.ops[next]?) :
    outerEnv plan (some owner) = outerEnv other (some owner) := by
  simp only [Plan.outerEnv, Plan.input?, Plan.get]
  cases found : other.ops[owner]? with
  | none => rw [same.symm.missing found]; rfl
  | some op =>
    obtain ⟨op', found', -, sameInputs⟩ := same.symm.find found
    rw [found']
    simp only [pure, Except.pure, bind, Except.bind, Operator.input?, sameInputs]
    match many : op.inputs with
    | [] => rfl
    | [next] => simp only [inputs op found next (by rw [many]; exact List.mem_singleton_self _)]
    | _ :: _ :: _ => rfl

theorem SameShape.produce (same : plan.SameShape other) (body : Body) (envs : List TypeEnv)
    (inputs : ∀ owner, body = .nestedSource (some owner) → ∀ op, other.ops[owner]? = some op →
      ∀ next ∈ op.inputs, plan.ops[next]? = other.ops[next]?) :
    Plan.produce plan body envs = Plan.produce other body envs := by
  have vars : Plan.aggregateVars plan = Plan.aggregateVars other := funext same.aggregateVars
  cases body with
  | nestedSource outer =>
    cases outer with
    | none => rfl
    | some owner => simp only [Plan.produce, same.outerEnv (inputs owner rfl)]
  | groupBy keys nested isGlobal => simp only [Plan.produce, vars]
  | subplan nested => simp only [Plan.produce, vars]
  | _ => rfl

theorem Ordered.mem_before : ∀ {ids : List OpId} {later : List OpId} {id next : OpId},
    plan.Ordered (later ++ id :: ids) → plan.Needs id next → next ∈ ids
  | _, [], _, _, ordered, needs => ordered.1 _ needs
  | _, _ :: _, _, _, ordered, needs => Ordered.mem_before ordered.2.2 needs

theorem Ordered.nodup : ∀ {ids : List OpId}, plan.Ordered ids → ids.Nodup
  | [], _ => List.nodup_nil
  | _ :: _, ordered => List.nodup_cons.mpr ⟨ordered.2.1, Ordered.nodup ordered.2.2⟩

theorem forM_computeEnv_restores (settled : Plan) : ∀ (todo done : List OpId),
    settled.Ordered (done ++ todo).reverse → (∀ id ∈ todo, settled.StoresProduced id) →
    ∀ plan : Plan, plan.SameShape settled → (∀ id, id ∉ todo → plan.ops[id]? = settled.ops[id]?) →
    (∀ id ∈ done ++ todo, plan.HasEnv id) → todo.forM computeEnv plan = .ok () settled
  | [], _, _, _, plan, _, agree, _ => by
    rw [ext_getElem? fun i => agree i List.not_mem_nil]
    rfl
  | id :: rest, done, ordered, stores, plan, shape, agree, has => by
    have before : ∀ next, settled.Needs id next → next ∈ done := by
      intro next needs
      have split : settled.Ordered (rest.reverse ++ id :: done.reverse) := by
        simpa using ordered
      exact List.mem_reverse.mp (split.mem_before needs)
    have distinct : (done ++ id :: rest).Nodup := List.nodup_reverse.1 ordered.nodup
    have outside : ∀ next ∈ done, next ∉ id :: rest := by
      intro next member isLater
      exact (List.nodup_append.mp distinct).2.2 next member next isLater rfl
    obtain ⟨op, env, found, stored, produced⟩ := stores id (.head _)
    obtain ⟨op', found', body, inputs⟩ := shape.symm.find found
    have same : ∀ next, settled.Needs id next → plan.ops[next]? = settled.ops[next]? :=
      fun next needs => agree next (outside next (before next needs))
    have envs : op'.inputs.map plan.envOf = op.inputs.map settled.envOf := by
      rw [inputs]
      apply List.map_congr_left
      intro next member
      have needs : settled.Needs id next := .inl ⟨op, found, List.mem_append_left _ member⟩
      unfold envOf
      rw [same next needs]
    have produced' : Plan.produce plan op'.body (op'.inputs.map plan.envOf) = .ok env := by
      rw [envs, body, shape.produce op.body _ ?_]
      · exact produced
      · intro owner isSource owning foundOwner next member
        exact same next (.inr ⟨owner, owning, ⟨op, found, isSource⟩, foundOwner, member⟩)
    have one : computeEnv id plan = .ok () (plan.setEnv id env) := by
      rw [computeEnv_apply found' ?_, produced']
      intro next member
      have needs : settled.Needs id next := .inl (shape.below ⟨op', found', member⟩)
      exact has next (List.mem_append_left _ (before next needs))
    change (computeEnv id >>= fun _ => rest.forM computeEnv) plan = _
    rw [bind_apply, one]
    refine forM_computeEnv_restores settled rest (done ++ [id]) (by simpa using ordered)
      (List.forall_mem_cons.mp stores).2 _
      ((sameShape_setEnv plan id env).symm.trans shape) ?_
      (fun next member => (has next (by simpa using member)).setEnv id env)
    intro next notLater
    rw [getElem?_setEnv]
    split
    · next isHere =>
      subst isHere
      rw [found', found, Option.map_some]
      obtain ⟨opBody, opInputs, opEnv⟩ := op
      cases body
      cases inputs
      cases stored
      rfl
    · next isElsewhere =>
      refine agree next fun member => ?_
      rcases List.mem_cons.mp member with rfl | later
      · exact isElsewhere rfl
      · exact notLater later

/-- Recomputing all variables below the root. -/
theorem recompute_apply (root : OpId) (plan : Plan) : recompute root plan =
    (match plan.walk root with
      | .ok ids => ids.forM computeEnv
      | .error fault => throw (Failure.fault fault)) plan := rfl

/-- A plan whose stored variables are those a recomputation gives. -/
def Settled (plan : Plan) (root : OpId) : Prop := recompute root plan = .ok () plan

theorem Settled.hasEnv {root : OpId} (settled : plan.Settled root) (acyclic : plan.Acyclic)
    (owned : plan.LeavesOwned root) (reaches : plan.Reaches root id) : plan.HasEnv id := by
  rw [Settled, recompute_apply] at settled
  cases walked : plan.walk root with
  | error fault => rw [walked] at settled; cases settled
  | ok ids =>
    rw [walked] at settled
    obtain ⟨ordered, hasRoot, -⟩ := walk_ordered acyclic owned walked
    have member := ordered.mem_of_reaches (List.mem_reverse.mpr hasRoot) reaches
    exact forM_computeEnv_hasEnv ids plan settled id (List.mem_reverse.mp member)

theorem Settled.recompute {root : OpId} (settled : plan.Settled root) (acyclic : plan.Acyclic)
    (owned : plan.LeavesOwned root) (shape : other.SameShape plan)
    (has : ∀ id, plan.Reaches root id → other.HasEnv id)
    (agree : ∀ id, ¬ plan.Reaches root id → other.ops[id]? = plan.ops[id]?) :
    Plan.recompute root other = .ok () plan := by
  have stored := fun id (reaches : plan.Reaches root id) => settled.hasEnv acyclic owned reaches
  rw [Settled, recompute_apply] at settled
  rw [recompute_apply, shape.walk]
  cases walked : plan.walk root with
  | error fault => rw [walked] at settled; cases settled
  | ok ids =>
    rw [walked] at settled
    obtain ⟨ordered, hasRoot, reach⟩ := walk_ordered acyclic owned walked
    have isReached : ∀ id, plan.Reaches root id → id ∈ ids := fun id reaches =>
      List.mem_reverse.mp (ordered.mem_of_reaches (List.mem_reverse.mpr hasRoot) reaches)
    have produces := storesProduced_of_forM ids (List.nodup_reverse.1 ordered.nodup)
      (fun next member below isBelow => stored below ((reach next member).tail isBelow)) settled
    exact forM_computeEnv_restores plan ids [] ordered produces other shape
      (fun id outside => agree id fun reaches => outside (isReached id reaches))
      (fun id member => has id (reach id member))

end QueryFusion.Plan

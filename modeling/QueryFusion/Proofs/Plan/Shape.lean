import QueryFusion.Proofs.Plan.Pushdown
import QueryFusion.Proofs.Plan.Revert

/-!
# Shapes and stacks

The shape of a plan is what its operators do and where they read from, apart from the stored
variables. Each edit changes the shape of one operator.

A stack is a row of operators, each the only input of the one above it, over a scan.
-/

namespace QueryFusion.Plan

open EStateM (bind_eq_ok)

variable {plan other : Plan} {id op consumer : OpId} {draft draft' : Draft}

/-! ## Shapes -/

/-- What an operator does and where it reads from. -/
def shape (plan : Plan) (id : OpId) : Option (Body × List OpId) :=
  plan.ops[id]?.map fun op => (op.body, op.inputs)

variable {body : Body} {inputs : List OpId}

theorem shape_eq_some : plan.shape id = some (body, inputs) ↔
      ∃ op, plan.ops[id]? = some op ∧ op.body = body ∧ op.inputs = inputs := by
  unfold shape
  rw [Option.map_eq_some_iff]
  simp only [Prod.mk.injEq]

theorem shape_of_found {o : Operator} (found : plan.ops[id]? = some o) :
    plan.shape id = some (o.body, o.inputs) := by
  unfold shape
  rw [found]
  rfl

theorem SameShape.shape (same : plan.SameShape other) (id : OpId) : other.shape id = plan.shape id := by
  have bare := same.getElem? id
  unfold Plan.shape
  cases here : plan.ops[id]? with
  | none =>
    rw [here] at bare
    rw [Option.map_eq_none_iff.mp bare.symm]
  | some o =>
    obtain ⟨o', there, body, inputs⟩ := same.find here
    rw [there]
    simp only [Option.map_some, body, inputs]

theorem shape_modify (plan : Plan) (id i : OpId) (change : Operator → Operator) :
    (plan.modify id change).shape i =
      if i = id then plan.ops[i]?.map fun op => ((change op).body, (change op).inputs)
      else plan.shape i := by
  unfold shape
  rw [getElem?_modify]
  by_cases same : i = id
  · subst same
    rw [if_pos rfl, if_pos rfl, Option.map_map]
    rfl
  · rw [if_neg same, if_neg (Ne.symm same)]

theorem shape_onPlan_computeEnv (computed : onPlan (computeEnv id) draft = .ok () draft') (i : OpId) :
    draft'.plan.shape i = draft.plan.shape i := by
  unfold onPlan at computed
  split at computed
  · next plan' outcome =>
    cases computed
    exact ((keeps_computeEnv draft.plan id).ok (.refl _) outcome).sameShape.shape i
  · cases computed

theorem shape_onPlan_recompute {root : OpId} (computed : onPlan (recompute root) draft = .ok () draft')
    (i : OpId) : draft'.plan.shape i = draft.plan.shape i := by
  have keeps : EStateM.Keeps draft.plan.Fills (recompute root) := by
    exact fun other fills => endsIn_recompute fills fun ids _ =>
      EStateM.Keeps.forM ids (fun id _ => keeps_computeEnv draft.plan id) other fills
  unfold onPlan at computed
  split at computed
  · next plan' outcome =>
    cases computed
    exact (keeps.ok (.refl _) outcome).sameShape.shape i
  · cases computed

theorem fetch_eq_ok {o : Operator} (fetched : onPlan (fetch id) draft = .ok o draft') :
    draft' = draft ∧ draft.plan.ops[id]? = some o := by
  unfold onPlan at fetched
  rw [fetch_apply] at fetched
  cases here : draft.plan.ops[id]? with
  | none =>
    rw [here] at fetched
    cases fetched
  | some o' =>
    rw [here] at fetched
    cases fetched
    exact ⟨rfl, rfl⟩

theorem shape_remove (removed : remove op (some consumer) draft = .ok () draft') :
    ∃ body input above, draft.plan.shape op = some (body, [input]) ∧
      draft.plan.shape consumer = some (above, [op]) ∧
      ∀ i, draft'.plan.shape i =
        if i = consumer then some (above, [input]) else draft.plan.shape i := by
  obtain ⟨o, _, fetched, rest⟩ := bind_eq_ok.mp removed
  obtain ⟨rfl, found⟩ := fetch_eq_ok fetched
  obtain ⟨p, _, fetched', edited⟩ := bind_eq_ok.mp rest
  obtain ⟨rfl, found'⟩ := fetch_eq_ok fetched'
  rcases isInput : o.inputs with _ | ⟨input, _ | _⟩ <;>
    rcases isCurrent : p.inputs with _ | ⟨current, _ | _⟩ <;>
    simp only [isInput, isCurrent] at edited <;> try cases edited
  split at edited
  · next same =>
    subst same
    obtain ⟨_, first, modified, computes⟩ := bind_eq_ok.mp edited
    obtain ⟨_, second, computed, computed'⟩ := bind_eq_ok.mp computes
    cases modified
    refine ⟨o.body, input, p.body, ?_, ?_, fun i => ?_⟩
    · rw [shape_of_found found, isInput]
    · rw [shape_of_found found', isCurrent]
    · rw [shape_onPlan_computeEnv computed', shape_onPlan_computeEnv computed, shape_modify]
      by_cases isConsumer : i = consumer
      · subst isConsumer
        rw [if_pos rfl, if_pos rfl, found', Option.map_some, isCurrent]
        rfl
      · rw [if_neg isConsumer, if_neg isConsumer]
  · cases edited

/-- Removing a binding of an assign. -/
theorem shape_removeBinding {n : Nat} {vars : List Var} {exprs : List Expr}
    (isAssign : draft.plan.shape op = some (.assign vars exprs, inputs))
    (removed : removeBinding op n draft = .ok () draft') (i : OpId) :
    draft'.plan.shape i = if i = op then some (.assign (vars.eraseIdx n) (exprs.eraseIdx n), inputs)
      else draft.plan.shape i := by
  obtain ⟨o, _, fetched, edited⟩ := bind_eq_ok.mp removed
  obtain ⟨rfl, found⟩ := fetch_eq_ok fetched
  obtain ⟨o', found', isBody, isInputs⟩ := shape_eq_some.mp isAssign
  cases found.symm.trans found'
  rcases isVar : vars[n]? with _ | v <;> rcases isExpr : exprs[n]? with _ | e <;>
    simp only [isBody, isVar, isExpr] at edited <;> cases edited
  rw [shape_modify]
  by_cases same : i = op
  · subst same
    rw [if_pos rfl, if_pos rfl, found, Option.map_some, isBody, isInputs]
    rfl
  · rw [if_neg same, if_neg same]

variable {scan : OpId}

/-- Marking a scan. -/
theorem shape_markScan {name : String} {outputs : List Var}
    (marked : markScan scan name outputs draft = .ok () draft') :
    ∃ dataset vars function old inputs,
      draft.plan.shape scan = some (.scan dataset vars function old, inputs) ∧
      ∀ i, draft'.plan.shape i =
        if i = scan then some (.scan dataset vars name outputs, inputs) else draft.plan.shape i := by
  obtain ⟨o, _, fetched, edited⟩ := bind_eq_ok.mp marked
  obtain ⟨rfl, found⟩ := fetch_eq_ok fetched
  cases isBody : o.body <;> simp only [isBody] at edited <;> cases edited
  next dataset vars function old =>
    refine ⟨dataset, vars, function, old, o.inputs, ?_, fun i => ?_⟩
    · rw [shape_of_found found, isBody]
    · rw [shape_modify]
      by_cases same : i = scan
      · subst same
        rw [if_pos rfl, if_pos rfl, found, Option.map_some, isBody]
        rfl
      · rw [if_neg same, if_neg same]

/-! ## Stacks -/

/-- Operators from the one at the top down to a scan, each the only input of the one before. -/
def Stacked (plan : Plan) (scan : OpId) : List (OpId × Body) → OpId → Prop
  | [], top => top = scan
  | op :: rest, top => top = op.1 ∧ ∃ below, plan.shape op.1 = some (op.2, [below]) ∧
      Stacked plan scan rest below

theorem Stacked.mem : ∀ {ops : List (OpId × Body)} {top : OpId},
    plan.Stacked scan ops top → ∀ op ∈ ops, ∃ below, plan.shape op.1 = some (op.2, [below])
  | _ :: _, _, ⟨_, below, here, rest⟩, op, member => by
    rcases List.mem_cons.mp member with rfl | later
    · exact ⟨below, here⟩
    · exact rest.mem op later

/-- A stack stays where its operators stay as they are. -/
theorem Stacked.congr : ∀ {ops : List (OpId × Body)} {top : OpId},
    plan.Stacked scan ops top → (∀ op ∈ ops, other.shape op.1 = plan.shape op.1) →
    other.Stacked scan ops top
  | [], _, same, _ => same
  | op :: _, _, ⟨isTop, below, here, rest⟩, kept => by
    refine ⟨isTop, below, (kept op (.head _)).trans here, ?_⟩
    exact rest.congr (List.forall_mem_cons.mp kept).2

/-- There is only one stack below an operator. -/
theorem Stacked.unique (isScan : plan.shape scan = some (body, [])) :
    ∀ {ops ops' : List (OpId × Body)} {top : OpId}, plan.Stacked scan ops top →
    plan.Stacked scan ops' top → ops = ops'
  | [], [], _, _, _ => rfl
  | [], op :: _, _, same, ⟨isTop, _, here, _⟩ => by
    rw [← isTop, same, isScan] at here
    cases here
  | op :: _, [], _, ⟨isTop, _, here, _⟩, same => by
    rw [← isTop, same, isScan] at here
    cases here
  | op :: rest, op' :: rest', _, ⟨isTop, below, here, stack⟩, ⟨isTop', below', here', stack'⟩ => by
    have sameId : op.1 = op'.1 := isTop.symm.trans isTop'
    rw [sameId, here'] at here
    obtain ⟨sameBody, sameBelow⟩ := Prod.mk.inj (Option.some.inj here)
    obtain rfl := (List.cons.inj sameBelow).1
    rw [Prod.ext sameId sameBody.symm, stack.unique isScan stack']

theorem Stacked.drop : ∀ {before after : List (OpId × Body)} {op : OpId × Body}
    {top : OpId}, plan.Stacked scan (before ++ op :: after) top → plan.Stacked scan (op :: after) op.1
  | [], _, _, _, ⟨_, below, here, rest⟩ => ⟨rfl, below, here, rest⟩
  | _ :: _, _, _, _, ⟨_, _, _, rest⟩ => rest.drop

theorem Stacked.nodup (isScan : plan.shape scan = some (body, [])) :
    ∀ {ops : List (OpId × Body)} {top : OpId}, plan.Stacked scan ops top →
    (ops.map Prod.fst ++ [scan]).Nodup
  | [], _, _ => List.nodup_singleton scan
  | op :: rest, _, ⟨isTop, below, here, stack⟩ => by
    refine List.nodup_cons.mpr ⟨fun member => ?_, stack.nodup isScan⟩
    rcases List.mem_append.mp member with later | isBottom
    · obtain ⟨other, isThere, same⟩ := List.mem_map.mp later
      obtain ⟨before, after, rfl⟩ := List.append_of_mem isThere
      have again := stack.drop
      rw [same] at again
      have whole : plan.Stacked scan (op :: (before ++ other :: after)) op.1 :=
        ⟨rfl, below, here, stack⟩
      have lengths := congrArg List.length (whole.unique isScan again)
      simp only [List.length_cons, List.length_append] at lengths
      omega
    · rw [List.mem_singleton.mp isBottom, isScan] at here
      cases here

variable {met finished : List OpId} {depth : Nat} {state : List OpId × List OpId}

theorem walkFrom_new (here : plan.shape id = some (body, inputs)) (unmet : id ∉ met)
    (walked : plan.walkFrom depth id (met, finished) = .ok state) :
    ∃ depth' met' finished', (inputs ++ body.nested?.toList).foldlM
        (fun state next => plan.walkFrom depth' next state) (id :: met, finished) =
        .ok (met', finished') ∧ state = (met', id :: finished') := by
  cases depth with
  | zero =>
    cases walked
  | succ depth =>
    rw [walkFrom, if_neg (by simpa using unmet)] at walked
    obtain ⟨o, found, entered⟩ := Except.bind_eq_ok.mp walked
    obtain ⟨o', found', rfl, rfl⟩ := shape_eq_some.mp here
    cases (get_eq_ok.mp found).symm.trans found'
    obtain ⟨⟨met', finished'⟩, went, left⟩ := Except.bind_eq_ok.mp entered
    exact ⟨depth, met', finished', went, (Except.ok.inj left).symm⟩

theorem walkFrom_unary {below : OpId} (here : plan.shape id = some (body, [below]))
    (plain : body.nested? = none) (unmet : id ∉ met)
    (walked : plan.walkFrom depth id (met, finished) = .ok state) :
    ∃ depth' met' finished', plan.walkFrom depth' below (id :: met, finished) = .ok (met', finished') ∧
      state = (met', id :: finished') := by
  obtain ⟨depth', met', finished', went, same⟩ := walkFrom_new here unmet walked
  rw [plain] at went
  obtain ⟨inner, isInner, last⟩ := Except.bind_eq_ok.mp went
  exact ⟨depth', met', finished', Except.ok.inj last ▸ isInner, same⟩

/-- The walk from an operator with nothing below it. -/
theorem walkFrom_leaf (here : plan.shape id = some (body, []))
    (plain : body.nested? = none) (unmet : id ∉ met)
    (walked : plan.walkFrom depth id (met, finished) = .ok state) :
    state = (id :: met, id :: finished) := by
  obtain ⟨depth', met', finished', went, rfl⟩ := walkFrom_new here unmet walked
  rw [plain] at went
  cases went
  rfl

theorem Stacked.walkFrom (isScan : plan.shape scan = some (body, []))
    (isLeaf : body.nested? = none) : ∀ {ops : List (OpId × Body)} {top : OpId} {depth : Nat}
    {met finished : List OpId} {state : List OpId × List OpId}, plan.Stacked scan ops top →
    (∀ op ∈ ops, op.2.nested? = none) → (∀ id ∈ ops.map Prod.fst ++ [scan], id ∉ met) →
    plan.walkFrom depth top (met, finished) = .ok state →
    state = ((ops.map Prod.fst ++ [scan]).reverse ++ met, ops.map Prod.fst ++ [scan] ++ finished)
  | [], top, _, met, finished, state, same, _, unmet, walked => by
    subst same
    exact walkFrom_leaf isScan isLeaf (unmet top (.head _)) walked
  | op :: rest, top, _, met, finished, state, stacked, plain, unmet, walked => by
    have distinct := stacked.nodup isScan
    obtain ⟨rfl, below, here, stack⟩ := stacked
    obtain ⟨depth, met', finished', below', rfl⟩ := walkFrom_unary here (plain op (.head _))
      (unmet op.1 (.head _)) walked
    have unmet' : ∀ id ∈ rest.map Prod.fst ++ [scan], id ∉ op.1 :: met := by
      intro id member isMet
      rcases List.mem_cons.mp isMet with rfl | isMet
      · exact (List.nodup_cons.mp distinct).1 member
      · exact unmet id (.tail _ member) isMet
    have inner := Stacked.walkFrom isScan isLeaf stack (List.forall_mem_cons.mp plain).2 unmet' below'
    cases inner
    simp

end QueryFusion.Plan

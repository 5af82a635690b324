import QueryFusion.Proofs.Plan.Formed
import QueryFusion.Proofs.Plan.Revert
import QueryFusion.Proofs.Plan.Schema

/-!
# Plans that never fault

A sturdy plan is made of well-made operators without cycles, with nothing absent in their
expressions. Walks, live variables and schemas are defined on it, and every edit that the compiler
makes leaves it sturdy.
-/

namespace QueryFusion

/-- An expression with nothing absent in it. -/
def Expr.Whole (e : Expr) : Prop := ∃ t, e.textWithin = .ok t

theorem Expr.Whole.text {e : Expr} (whole : e.Whole) : ∃ t, e.text = .ok t := by
  cases e with
  | absent => exact ⟨_, rfl⟩
  | _ => exact whole

theorem Expr.Whole.args {fn : Func} {args : List Expr} {loc : Location}
    (whole : (Expr.call fn args loc).Whole) : ∀ e ∈ args, e.Whole := by
  obtain ⟨t, isText⟩ := whole
  obtain ⟨ts, texts, _⟩ := Except.bind_eq_ok.mp isText
  clear * - texts
  induction args generalizing ts with
  | nil => nofun
  | cons e rest ih =>
    obtain ⟨first, isFirst, others⟩ := Except.bind_eq_ok.mp texts
    obtain ⟨ts', areOthers, _⟩ := Except.bind_eq_ok.mp others
    intro e' member
    rcases List.mem_cons.mp member with rfl | later
    · exact ⟨first, isFirst⟩
    · exact ih ts' areOthers e' later

end QueryFusion

namespace QueryFusion.Plan

variable {plan other : Plan} {rank : OpId → Nat} {id : OpId}

/-- The parts of an operator go together, and nothing is absent in its expressions. -/
structure Body.Proper (body : Body) : Prop where
  aligned : body.Aligned
  whole : ∀ e ∈ body.exprs, e.Whole

/-- A plan of well-made operators without cycles, with nothing absent in their expressions. -/
structure Sturdy (plan : Plan) (rank : OpId → Nat) : Prop where
  made : plan.WellMade
  ranked : plan.Ranked rank
  low : ∀ id, id < plan.ops.size → rank id < plan.ops.size
  proper : ∀ (id : OpId) op, plan.ops[id]? = some op → op.body.Proper

theorem below_of_input? {id input : OpId} {op : Operator}
    (found : plan.ops[id]? = some op) (isInput : op.input? = some input) : plan.Below id input := by
  refine ⟨op, found, List.mem_append_left _ ?_⟩
  unfold Operator.input? at isInput
  split at isInput
  · next same =>
    cases isInput
    rw [same]
    exact .head _
  · cases isInput


/-! ## Walks -/

theorem Sturdy.get (sturdy : plan.Sturdy rank) (inside : id < plan.ops.size) :
    ∃ op, plan.get id = .ok op ∧ plan.ops[id]? = some op ∧ op.body.Proper :=
  have found := Array.getElem?_eq_getElem inside
  ⟨_, get_eq_ok.mpr found, found, sturdy.proper id _ found⟩

theorem Sturdy.walkFrom (sturdy : plan.Sturdy rank) : ∀ (depth : Nat) (id : OpId)
    (state : List OpId × List OpId), id < plan.ops.size → rank id < depth →
    ∃ state', plan.walkFrom depth id state = .ok state'
  | 0, _, _, _, low => absurd low (Nat.not_lt_zero _)
  | depth + 1, id, (met, finished), inside, low => by
    obtain ⟨op, fetched, found, _⟩ := sturdy.get inside
    rw [Plan.walkFrom]
    split
    · exact ⟨_, rfl⟩
    · refine Except.exists_ok_bind ⟨op, fetched⟩ fun op' fetched' => ?_
      cases fetched.symm.trans fetched'
      have below : ∀ next ∈ op.below, next < plan.ops.size ∧ rank next < depth := fun next member =>
        have lower := sturdy.ranked id next ⟨op, found, member⟩
        ⟨sturdy.made.found id next ⟨op, found, member⟩, by omega⟩
      have all : ∀ (ids : List OpId) (state : List OpId × List OpId),
          (∀ next ∈ ids, next < plan.ops.size ∧ rank next < depth) → ∃ state',
          ids.foldlM (fun state next => plan.walkFrom depth next state) state = .ok state' := by
        intro ids
        induction ids with
        | nil => exact fun state _ => ⟨state, rfl⟩
        | cons next rest ih =>
          intro state each
          have here := each next (.head _)
          exact Except.exists_ok_bind (sturdy.walkFrom depth next state here.1 here.2) fun state' _ =>
            ih state' (List.forall_mem_cons.mp each).2
      exact Except.exists_ok_bind (all op.below _ below) fun _ _ => ⟨_, rfl⟩

/-- A walk ends, and what it meets is in the plan. -/
theorem Sturdy.walk (sturdy : plan.Sturdy rank) (inside : id < plan.ops.size) :
    ∃ ids, plan.walk id = .ok ids ∧ ∀ next ∈ ids, next < plan.ops.size := by
  obtain ⟨ids, walked⟩ : ∃ ids, plan.walk id = .ok ids :=
    Except.exists_ok_bind (sturdy.walkFrom _ id ([], []) inside
      (Nat.lt_succ_of_lt (sturdy.low id inside))) fun _ _ => ⟨_, rfl⟩
  exact ⟨ids, walked, walk_within (fun id next _ below => sturdy.made.found id next below) inside walked⟩

theorem Sturdy.mapM_get (sturdy : plan.Sturdy rank) {ids : List OpId}
    (inside : ∀ next ∈ ids, next < plan.ops.size) : ∃ ops, ids.mapM plan.get = .ok ops :=
  Except.exists_ok_mapM ids fun next member =>
    have ⟨op, fetched, _⟩ := sturdy.get (inside next member)
    ⟨op, fetched⟩

theorem assignAll_ok : ∀ (vars : List Var) (exprs : List Expr) (b : Pushdown),
    vars.length = exprs.length → ∃ b', b.assignAll vars exprs = .ok b'
  | [], [], b, _ => ⟨b, rfl⟩
  | v :: vars, e :: exprs, b, lengths =>
    assignAll_ok vars exprs ((b.use e).assign v e) (Nat.succ.inj lengths)

theorem Sturdy.expectedSchemas (sturdy : plan.Sturdy rank) (inside : id < plan.ops.size) :
    ∃ schemas, plan.expectedSchemas id = .ok schemas := by
  obtain ⟨ids, walked, each⟩ := sturdy.walk inside
  refine Except.exists_ok_bind ⟨ids, walked⟩ fun ids' walked' => ?_
  cases walked.symm.trans walked'
  refine Except.exists_ok_bind ?_ fun _ _ => ⟨_, rfl⟩
  clear walked walked'
  generalize ({} : Pushdown) = b
  induction ids generalizing b with
  | nil => exact ⟨b, rfl⟩
  | cons next rest ih =>
    obtain ⟨op, fetched, _, proper⟩ := sturdy.get (each next (.head _))
    refine Except.exists_ok_bind (Except.exists_ok_bind ⟨op, fetched⟩ fun op' fetched' => ?_)
      fun b' _ => ih (List.forall_mem_cons.mp each).2 b'
    cases fetched.symm.trans fetched'
    unfold Pushdown.visit
    split
    · split <;> exact ⟨_, rfl⟩
    · next isAssign =>
      have := proper.aligned
      rw [isAssign] at this
      exact assignAll_ok _ _ b this
    · dsimp only
      split
      · exact ⟨_, rfl⟩
      · split <;> exact ⟨_, rfl⟩
    all_goals exact ⟨_, rfl⟩

/-! ## Edits -/

/-- A plan after edits: every operator is of its kind, has as many inputs as before, and uses no
other expressions. -/
structure Edited (plan other : Plan) : Prop where
  size : other.ops.size = plan.ops.size
  find : ∀ (id : OpId) op, plan.ops[id]? = some op → ∃ op', other.ops[id]? = some op' ∧
    op'.kind = op.kind ∧ op'.inputs.length = op.inputs.length ∧ op'.body.uses ⊆ op.body.uses

theorem Edited.refl (plan : Plan) : plan.Edited plan :=
  ⟨rfl, fun _ op found => ⟨op, found, rfl, rfl, fun _ => id⟩⟩

theorem Edited.trans {third : Plan} (first : plan.Edited other) (second : other.Edited third) :
    plan.Edited third where
  size := second.size.trans first.size
  find := fun id op found => by
    obtain ⟨op', found', kind, length, uses⟩ := first.find id op found
    obtain ⟨op'', found'', kind', length', uses'⟩ := second.find id op' found'
    exact ⟨op'', found'', kind'.trans kind, length'.trans length, fun _ => (uses <| uses' ·)⟩

theorem SameShape.edited (same : plan.SameShape other) : plan.Edited other where
  size := same.size.symm
  find := fun id op found => by
    obtain ⟨op', found', body, inputs⟩ := same.find found
    exact ⟨op', found', congrArg Body.kind body, congrArg List.length inputs, body ▸ List.Subset.refl _⟩

theorem Sturdy.sameShape (sturdy : plan.Sturdy rank) (same : plan.SameShape other) :
    other.Sturdy rank where
  made := {
    found := fun id next below => same.size ▸ sturdy.made.found id next (same.symm.below below)
    arity := fun id op n found isArity => by
      obtain ⟨op', found', body, inputs⟩ := same.symm.find found
      exact inputs ▸ sturdy.made.arity id op' n found' ((congrArg (·.kind.arity?) body).trans isArity)
    aligned := fun id op found => by
      obtain ⟨op', found', body, _⟩ := same.symm.find found
      exact body ▸ sturdy.made.aligned id op' found'
    nested := fun id op found isOwner => by
      obtain ⟨op', found', body, _⟩ := same.symm.find found
      obtain ⟨top, agg, isTop, foundTop, isAggregate⟩ := sturdy.made.nested id op' found'
        (body ▸ isOwner)
      obtain ⟨agg', foundTop', bodyTop, _⟩ := same.find foundTop
      exact ⟨top, agg', body ▸ isTop, foundTop', (congrArg Body.kind bodyTop).trans isAggregate⟩ }
  ranked := fun id next below => sturdy.ranked id next (same.symm.below below)
  low := fun id inside => same.size ▸ sturdy.low id (same.size ▸ inside)
  proper := fun id op found => by
    obtain ⟨op', found', body, _⟩ := same.symm.find found
    exact body ▸ sturdy.proper id op' found'

theorem Sturdy.inputs (sturdy : plan.Sturdy rank) {op : Operator} (found : plan.ops[id]? = some op) :
    ∀ next ∈ op.inputs, next < plan.ops.size ∧ rank next < rank id := fun next member =>
  have below : plan.Below id next := ⟨op, found, List.mem_append_left _ member⟩
  ⟨sturdy.made.found id next below, sturdy.ranked id next below⟩

theorem Sturdy.edit (sturdy : plan.Sturdy rank) (change : Operator → Operator) {op : Operator}
    (found : plan.ops[id]? = some op) (kind : (change op).kind = op.kind)
    (length : (change op).inputs.length = op.inputs.length) (proper : (change op).body.Proper)
    (nested : (change op).body.nested? = op.body.nested?)
    (isOwner : (change op).body.isOwner = op.body.isOwner)
    (uses : (change op).body.uses ⊆ op.body.uses)
    (inputs : ∀ next ∈ (change op).inputs, next < plan.ops.size ∧ rank next < rank id) :
    (plan.modify id change).Sturdy rank ∧ plan.Edited (plan.modify id change) := by
  have size : (plan.modify id change).ops.size = plan.ops.size := Array.size_modify
  have here : (plan.modify id change).ops[id]? = some (change op) := by
    rw [getElem?_modify, if_pos rfl, found]
    rfl
  have others {i : OpId} (apart : i ≠ id) : (plan.modify id change).ops[i]? = plan.ops[i]? := by
    rw [getElem?_modify, if_neg (Ne.symm apart)]
  have edited : plan.Edited (plan.modify id change) := by
    refine ⟨size, fun i old foundOld => ?_⟩
    by_cases same : i = id
    · subst same
      cases found.symm.trans foundOld
      exact ⟨change op, here, kind, length, uses⟩
    · exact ⟨old, by rw [others same, foundOld], rfl, rfl, List.Subset.refl _⟩
  have below : ∀ i next, (plan.modify id change).Below i next →
      next < plan.ops.size ∧ rank next < rank i := by
    rintro i next ⟨new, foundNew, member⟩
    by_cases same : i = id
    · subst same
      cases here.symm.trans foundNew
      rcases List.mem_append.mp member with isInput | isNested
      · exact inputs next isInput
      · have old : plan.Below i next := ⟨op, found, List.mem_append_right _ (nested ▸ isNested)⟩
        exact ⟨sturdy.made.found i next old, sturdy.ranked i next old⟩
    · rw [others same] at foundNew
      have old : plan.Below i next := ⟨new, foundNew, member⟩
      exact ⟨sturdy.made.found i next old, sturdy.ranked i next old⟩
  have each (holds : Operator → Prop) (ofNew : holds (change op))
      (ofOld : ∀ (i : OpId) old, plan.ops[i]? = some old → holds old) :
      ∀ (i : OpId) new, (plan.modify id change).ops[i]? = some new → holds new := by
    intro i new foundNew
    by_cases same : i = id
    · subst same
      cases here.symm.trans foundNew
      exact ofNew
    · exact ofOld i new (by rwa [others same] at foundNew)
  refine ⟨⟨⟨fun i next isBelow => size ▸ (below i next isBelow).1, ?_, ?_, ?_⟩,
    fun i next isBelow => (below i next isBelow).2,
    fun i inside => size ▸ sturdy.low i (size ▸ inside), each _ proper sturdy.proper⟩, edited⟩
  · intro i new n foundNew
    refine each (fun new => ∀ n, new.kind.arity? = some n → new.inputs.length = n)
      ?_ ?_ i new foundNew n
    · intro n isArity
      exact length.trans (sturdy.made.arity id op n found (kind ▸ isArity))
    · exact fun i old foundOld n => sturdy.made.arity i old n foundOld
  · exact each _ proper.aligned sturdy.made.aligned
  · refine each _ (fun owns => ?_) fun i old foundOld owns => ?_
    · obtain ⟨top, agg, isTop, foundTop, isAggregate⟩ := sturdy.made.nested id op found (isOwner ▸ owns)
      obtain ⟨agg', foundTop', kind', _⟩ := edited.find top agg foundTop
      exact ⟨top, agg', nested.trans isTop, foundTop', kind'.trans isAggregate⟩
    · obtain ⟨top, agg, isTop, foundTop, isAggregate⟩ := sturdy.made.nested i old foundOld owns
      obtain ⟨agg', foundTop', kind', _⟩ := edited.find top agg foundTop
      exact ⟨top, agg', isTop, foundTop', kind'.trans isAggregate⟩

theorem Sturdy.computeEnv (sturdy : plan.Sturdy rank) (inside : id < plan.ops.size) :
    ∃ last, computeEnv id plan = .ok () last ∧ plan.SameShape last := by
  obtain ⟨last, computed, computes, _⟩ := sturdy.made.computeEnvWithin sturdy.ranked _ id plan
    (Nat.lt_succ_of_lt (sturdy.low id inside)) inside (.refl plan)
  exact ⟨last, computed, computes.fills.sameShape⟩

theorem Sturdy.recompute (sturdy : plan.Sturdy rank) (inside : id < plan.ops.size) :
    ∃ last, recompute id plan = .ok () last ∧ plan.SameShape last := by
  obtain ⟨ids, walked, each⟩ := sturdy.walk inside
  have all : ∀ (ids : List OpId) (now : Plan), (∀ next ∈ ids, next < plan.ops.size) →
      plan.SameShape now → ∃ last, forM ids Plan.computeEnv now = .ok () last ∧ plan.SameShape last := by
    intro ids
    induction ids with
    | nil => exact fun now _ same => ⟨now, rfl, same⟩
    | cons next rest ih =>
      intro now each same
      obtain ⟨middle, computed, same'⟩ := (sturdy.sameShape same).computeEnv
        (same.size ▸ each next (.head _))
      obtain ⟨last, rest', same''⟩ := ih middle (List.forall_mem_cons.mp each).2 (same.trans same')
      refine ⟨last, ?_, same''⟩
      rw [List.forM_cons, EStateM.bind_apply, computed]
      exact rest'
  obtain ⟨last, computed, same⟩ := all ids plan each (.refl plan)
  refine ⟨last, ?_, same⟩
  rw [recompute_apply, walked]
  exact computed

/-! ## Drafts -/

/-- A failure that is an ordinary error. -/
def Failure.IsError : Failure → Prop
  | .error _ => True
  | .fault _ => False

/-- A step on a draft ends without a fault, and the plan stays sturdy. -/
def Drafts {α : Type} (rank : OpId → Nat) (step : Drafting α) (draft : Draft)
    (holds : Draft → Prop) : Prop :=
  EStateM.EndsIn (fun last => last.plan.Sturdy rank ∧ draft.plan.Edited last.plan ∧ holds last) step
    draft fun failure _ => failure.IsError

section drafts

variable {α β : Type} {draft : Draft} {op consumer : OpId}

theorem Drafts.bind {step : Drafting α} {next : α → Drafting β} {here there : Draft → Prop}
    (first : Drafts rank step draft here) (second : ∀ a later, later.plan.Sturdy rank →
      draft.plan.Edited later.plan → here later → Drafts rank (next a) later there) :
    Drafts rank (step >>= next) draft there := by
  refine EStateM.EndsIn.bind first ?_
  rintro a later ⟨sturdy, edited, held⟩
  refine (second a later sturdy edited held).mono ?_
  rintro last ⟨sturdy, edited', held⟩
  exact ⟨sturdy, edited.trans edited', held⟩

theorem drafts_fetch {next : Operator → Drafting α} {o : Operator} {holds : Draft → Prop}
    (found : draft.plan.ops[id]? = some o) (drafts : Drafts rank (next o) draft holds) :
    Drafts rank (onPlan (fetch id) >>= next) draft holds := by
  have fetched : onPlan (fetch id) draft = .ok o draft := by
    unfold onPlan
    rw [fetch_found found]
  unfold Drafts EStateM.EndsIn at drafts ⊢
  rw [EStateM.bind_apply, fetched]
  exact drafts

theorem drafts_computeEnv (sturdy : draft.plan.Sturdy rank) (inside : id < draft.plan.ops.size) :
    Drafts rank (onPlan (computeEnv id)) draft fun _ => True := by
  obtain ⟨last, computed, same⟩ := sturdy.computeEnv inside
  refine .of_eq (?_ : _ = EStateM.Result.ok () { draft with plan := last })
    ⟨sturdy.sameShape same, same.edited, trivial⟩
  unfold onPlan
  rw [computed]

theorem drafts_remove (sturdy : draft.plan.Sturdy rank) (inside : op < draft.plan.ops.size)
    (insideConsumer : consumer < draft.plan.ops.size) :
    Drafts rank (remove op (some consumer)) draft fun _ => True := by
  obtain ⟨o, _, found, _⟩ := sturdy.get inside
  obtain ⟨p, _, foundConsumer, proper⟩ := sturdy.get insideConsumer
  refine drafts_fetch found (drafts_fetch foundConsumer ?_)
  split
  · next input current areInputs areCurrent =>
    split
    · next same =>
      subst same
      have belowInput : draft.plan.Below current input :=
        ⟨o, found, List.mem_append_left _ (areInputs ▸ (.head _))⟩
      have belowOp : draft.plan.Below consumer current :=
        ⟨p, foundConsumer, List.mem_append_left _ (areCurrent ▸ (.head _))⟩
      have lower := (sturdy.ranked current input belowInput).trans
        (sturdy.ranked consumer current belowOp)
      have insideInput := sturdy.made.found current input belowInput
      obtain ⟨sturdy', edited⟩ := sturdy.edit
        (fun c => { c with inputs := c.inputs.set 0 input }) foundConsumer rfl
        List.length_set proper rfl rfl (fun _ => id) (by
          rintro next member
          rw [areCurrent] at member
          cases List.mem_singleton.mp member
          exact ⟨insideInput, lower⟩)
      have connected : Drafts rank (modify fun draft =>
          { plan := draft.plan.modify consumer fun c => { c with inputs := c.inputs.set 0 input }
            edits := .input consumer current :: draft.edits }) draft fun _ => True :=
        .of_eq rfl ⟨sturdy', edited, trivial⟩
      refine connected.bind fun _ later sturdy edited _ => ?_
      refine (drafts_computeEnv sturdy (edited.size ▸ insideInput)).bind fun _ last sturdy more _ => ?_
      exact drafts_computeEnv sturdy (more.size.trans edited.size ▸ insideConsumer)
    · exact trivial
  · exact trivial

/-- A number of bindings of an assign. -/
def Bindings (plan : Plan) (id : OpId) (n : Nat) : Prop :=
  ∃ op vars exprs, plan.ops[id]? = some op ∧ op.body = .assign vars exprs ∧ n ≤ vars.length

theorem drafts_removeBinding {n : Nat} (sturdy : draft.plan.Sturdy rank)
    (bindings : draft.plan.Bindings op (n + 1)) :
    Drafts rank (removeBinding op n) draft fun last => last.plan.Bindings op n := by
  obtain ⟨o, vars, exprs, found, isAssign, enough⟩ := bindings
  have proper := sturdy.proper op o found
  rw [isAssign] at proper
  have lengths : vars.length = exprs.length := proper.aligned
  refine drafts_fetch found ?_
  rw [isAssign]
  simp only [List.getElem?_eq_getElem (show n < vars.length by omega),
    List.getElem?_eq_getElem (show n < exprs.length by omega)]
  have below := sturdy.inputs found
  obtain ⟨sturdy', edited⟩ := sturdy.edit
    (fun c => { c with body := c.body.mapAssign (·.eraseIdx n) (·.eraseIdx n) }) found
    (by simp only [Operator.kind, isAssign]; rfl) rfl
    (by
      rw [isAssign]
      refine ⟨?_, fun e member => proper.whole e (List.mem_of_mem_eraseIdx member)⟩
      change (vars.eraseIdx n).length = (exprs.eraseIdx n).length
      rw [List.length_eraseIdx, List.length_eraseIdx, lengths])
    (by rw [isAssign]; rfl) (by rw [isAssign]; rfl)
    (by rw [isAssign]; exact fun _ => List.mem_of_mem_eraseIdx) below
  refine .of_eq rfl ⟨sturdy', edited, _, vars.eraseIdx n, exprs.eraseIdx n,
    by rw [getElem?_modify, if_pos rfl, found]; rfl, by simp only [isAssign]; rfl, ?_⟩
  rw [List.length_eraseIdx]
  split <;> omega

theorem drafts_markScan (sturdy : draft.plan.Sturdy rank) {o : Operator}
    (found : draft.plan.ops[op]? = some o) (isScan : o.kind = .dataScan) (function : String)
    (outputs : List Var) : Drafts rank (do
      markScan op function outputs
      onPlan (computeEnv op)) draft fun _ => True := by
  suffices marked : Drafts rank (markScan op function outputs) draft fun _ => True by
    have inside := Array.inside found
    exact marked.bind fun _ later sturdy edited _ => drafts_computeEnv sturdy (edited.size ▸ inside)
  have proper := sturdy.proper op o found
  obtain ⟨dataset, vars, function', outputs', isBody⟩ :
      ∃ dataset vars function outputs, o.body = .scan dataset vars function outputs := by
    unfold Operator.kind at isScan
    cases body : o.body with
    | scan dataset vars function outputs => exact ⟨_, _, _, _, rfl⟩
    | boundary kind vars =>
      have none : kind.arity? = none := by
        have := proper.aligned
        rw [body] at this
        exact this
      rw [body] at isScan
      rw [show kind = .dataScan from isScan] at none
      cases none
    | join cond isOuter =>
      rw [body] at isScan
      cases isOuter <;> cases isScan
    | _ =>
      rw [body] at isScan
      cases isScan
  refine drafts_fetch found ?_
  rw [isBody] at proper ⊢
  have below := sturdy.inputs found
  obtain ⟨sturdy', edited⟩ := sturdy.edit
    (fun c => { c with body := c.body.mark function outputs }) found
    (by simp only [Operator.kind, isBody]; rfl) rfl (by rw [isBody]; exact ⟨proper.aligned, nofun⟩)
    (by rw [isBody]; rfl) (by rw [isBody]; rfl) (by rw [isBody]; exact fun _ => id) below
  exact .of_eq rfl ⟨sturdy', edited, trivial⟩

end drafts

end QueryFusion.Plan

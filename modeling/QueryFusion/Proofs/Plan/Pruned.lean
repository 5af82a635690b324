import QueryFusion.Proofs.Plan.Shape

/-!
# Plans with operators taken out

Taking an operator out lets the operator above it read from the one below it. Whatever is taken out or
trimmed, an operator reads only from operators below it, and one that was bypassed stays bypassed.
-/

namespace QueryFusion.Plan

/-- One operator is an input of another. -/
def ReadsFrom (plan : Plan) (id next : OpId) : Prop := ∃ o, plan.ops[id]? = some o ∧ next ∈ o.inputs

/-- What holds of the inputs of each operator of a plan. -/
theorem forall_readsFrom {plan : Plan} {tables : List (List OpId)} {P : OpId → OpId → Prop}
    (inputs : plan.ops.toList.map Operator.inputs = tables)
    (each : ∀ entry ∈ tables.zipIdx, ∀ next ∈ entry.1, P entry.2 next) (id next : OpId)
    (reads : plan.ReadsFrom id next) : P id next := by
  obtain ⟨o, found, member⟩ := reads
  refine each (o.inputs, id) (List.mem_zipIdx_iff_getElem?.mpr ?_) next member
  rw [← inputs, List.getElem?_map, Array.getElem?_toList, found]
  rfl

/-- One operator stands above another: it reads from it, directly or through others. -/
def Over (plan : Plan) : OpId → OpId → Prop := Relation.TransGen plan.ReadsFrom

/-- An operator was taken out of a plan: one that stands above it now reads from one below it. -/
def Bypassed (plan after : Plan) (op : OpId) : Prop :=
  ∃ above next, after.ReadsFrom above next ∧ plan.Over above op ∧ plan.Over op next

theorem not_bypassed {plan after : Plan} {op : OpId}
    (descends : ∀ id next, plan.ReadsFrom id next → next < id)
    (closer : ∀ above next, after.ReadsFrom above next → op < above → op ≤ next) :
    ¬ plan.Bypassed after op := by
  have lower {id next : OpId} (isOver : plan.Over id next) : next < id := by
    induction isOver with
    | single reads => exact descends _ _ reads
    | tail _ reads ih => exact Nat.lt_trans (descends _ _ reads) ih
  rintro ⟨above, next, reads, isOver, isUnder⟩
  exact absurd (lower isUnder) (Nat.not_lt.mpr (closer above next reads (lower isOver)))

/-- An operator does what another one did, apart from bindings that were removed and marks. -/
inductive Body.Stems : (first body : Body) → Prop
  | same (body : Body) : Stems body body
  | trimmed {vars vars' : List Var} {exprs exprs' : List Expr} (fewer : exprs' ⊆ exprs) :
      Stems (.assign vars exprs) (.assign vars' exprs')
  | marked {dataset function function' : String} {vars outputs outputs' : List Var} :
      Stems (.scan dataset vars function outputs) (.scan dataset vars function' outputs')

theorem Body.Stems.trans {first second third : Body} (stems : first.Stems second)
    (stems' : second.Stems third) : first.Stems third := by
  cases stems with
  | same => exact stems'
  | trimmed fewer =>
    cases stems' with
    | same => exact .trimmed fewer
    | trimmed fewer' => exact .trimmed fun _ => (fewer <| fewer' ·)
  | marked => cases stems' <;> exact .marked

theorem Body.Stems.uses {first body : Body} (stems : first.Stems body) : body.uses ⊆ first.uses := by
  cases stems with
  | same | marked => exact List.Subset.refl _
  | trimmed fewer => exact fewer

/-- The variables of a scan apart from the record. -/
def Body.metadata : Body → List Var
  | .scan _ vars _ _ => vars.tail
  | _ => []

theorem Body.Stems.metadata {first body : Body} (stems : first.Stems body) :
    body.metadata = first.metadata := by
  cases stems <;> rfl

/-- The metadata variables of an operator of a plan. -/
def metadata (plan : Plan) (id : OpId) : List Var :=
  (plan.ops[id]?).elim [] fun o => o.body.metadata

/-- No expression of a plan reads a variable of a list. -/
def Unread (plan : Plan) (vars : List Var) : Prop :=
  ∀ o ∈ plan.ops, ∀ e ∈ o.body.uses, ∀ v ∈ e.occurrences, v.id ∉ vars.map Var.id

/-- What an operator of a plan does, or what is left of it. -/
def Originates (plan : Plan) (id : OpId) (body : Body) : Prop :=
  ∃ o, plan.ops[id]? = some o ∧ o.body.Stems body

theorem Originates.metadata {plan : Plan} {id : OpId} {body : Body} (origin : plan.Originates id body) :
    plan.metadata id = body.metadata := by
  obtain ⟨o, found, stems⟩ := origin
  rw [stems.metadata, Plan.metadata, found]
  rfl

variable {plan before after : Plan} {op consumer : OpId} {draft draft' : Draft}

theorem readsFrom_iff {id next : OpId} : plan.ReadsFrom id next ↔
    ∃ body inputs, plan.shape id = some (body, inputs) ∧ next ∈ inputs := by
  constructor
  · rintro ⟨o, found, member⟩
    exact ⟨o.body, o.inputs, shape_of_found found, member⟩
  · rintro ⟨body, inputs, here, member⟩
    obtain ⟨o, found, _, rfl⟩ := shape_eq_some.mp here
    exact ⟨o, found, member⟩

/-- A plan after operators were taken out and trimmed. -/
structure Pruned (plan after : Plan) : Prop where
  stems : ∀ id o, after.ops[id]? = some o → plan.Originates id o.body
  reaches : ∀ id next, after.ReadsFrom id next → plan.Over id next

theorem Pruned.refl (plan : Plan) : Pruned plan plan :=
  ⟨fun _ o found => ⟨o, found, .same o.body⟩, fun _ _ => .single⟩

/-- Operators that read from the same ones as before, and were at most trimmed or marked. -/
def Retouched (before after : Plan) : Prop :=
  ∀ id, after.shape id = before.shape id ∨ ∃ first body inputs,
    before.shape id = some (first, inputs) ∧ after.shape id = some (body, inputs) ∧ first.Stems body

theorem Retouched.readsFrom_iff (retouched : Retouched before after) {id next : OpId} :
    after.ReadsFrom id next ↔ before.ReadsFrom id next := by
  rw [Plan.readsFrom_iff, Plan.readsFrom_iff]
  rcases retouched id with same | ⟨first, body, inputs, here, there, _⟩
  · rw [same]
  · simp [here, there]

theorem Retouched.pruned (retouched : Retouched before after) (pruned : Pruned plan before) :
    Pruned plan after where
  stems := by
    intro id o found
    have here := shape_of_found found
    rcases retouched id with same | ⟨first, body, inputs, there, now, stems⟩
    · obtain ⟨before, isBefore, same, _⟩ := shape_eq_some.mp (same.symm.trans here)
      exact same ▸ pruned.stems id before isBefore
    · cases here.symm.trans now
      obtain ⟨before, isBefore, rfl, _⟩ := shape_eq_some.mp there
      obtain ⟨origin, isOrigin, stems'⟩ := pruned.stems id before isBefore
      exact ⟨origin, isOrigin, stems'.trans stems⟩
  reaches id next reads := pruned.reaches id next (retouched.readsFrom_iff.mp reads)

theorem Retouched.bypassed (retouched : Retouched before after) (bypassed : plan.Bypassed before op) :
    plan.Bypassed after op := by
  obtain ⟨above, next, reads, rest⟩ := bypassed
  exact ⟨above, next, retouched.readsFrom_iff.mpr reads, rest⟩

theorem retouched_removeBinding {n : Nat} (removed : removeBinding op n draft = .ok () draft') :
    Retouched draft.plan draft'.plan := by
  obtain ⟨o, _, fetched, edited⟩ := EStateM.bind_eq_ok.mp removed
  obtain ⟨rfl, found⟩ := fetch_eq_ok fetched
  have here := shape_of_found found
  cases isBody : o.body with
  | assign vars exprs =>
    rw [isBody] at here
    intro i
    rw [shape_removeBinding here removed i]
    split
    · next same =>
      subst same
      exact .inr ⟨_, _, _, here, rfl, .trimmed (List.eraseIdx_subset ..)⟩
    · exact .inl rfl
  | _ =>
    simp only [isBody] at edited
    cases edited

theorem Pruned.removed (pruned : Pruned plan draft.plan)
    (removed : remove op (some consumer) draft = .ok () draft') :
    Pruned plan draft'.plan ∧ plan.Bypassed draft'.plan op := by
  obtain ⟨body, input, above, here, there, after⟩ := shape_remove removed
  have toOp : plan.Over consumer op :=
    pruned.reaches consumer op (readsFrom_iff.mpr ⟨_, _, there, List.mem_singleton_self _⟩)
  have toInput : plan.Over op input :=
    pruned.reaches op input (readsFrom_iff.mpr ⟨_, _, here, List.mem_singleton_self _⟩)
  have now : draft'.plan.shape consumer = some (above, [input]) := by rw [after, if_pos rfl]
  refine ⟨⟨fun id o found => ?_, fun id next reads => ?_⟩, consumer, input,
    readsFrom_iff.mpr ⟨_, _, now, List.mem_singleton_self _⟩, toOp, toInput⟩
  · obtain ⟨before, isBefore, same⟩ : ∃ before, draft.plan.ops[id]? = some before ∧
        before.body = o.body := by
      have found := (after id).symm.trans (shape_of_found found)
      split at found
      · next isConsumer =>
        subst isConsumer
        obtain ⟨before, isBefore, same, _⟩ := shape_eq_some.mp there
        exact ⟨before, isBefore, same.trans (Prod.mk.inj (Option.some.inj found)).1⟩
      · obtain ⟨before, isBefore, same, _⟩ := shape_eq_some.mp found
        exact ⟨before, isBefore, same⟩
    exact same ▸ pruned.stems id before isBefore
  · obtain ⟨body', inputs, found, member⟩ := readsFrom_iff.mp reads
    rw [after] at found
    split at found
    · next same =>
      subst same
      cases found
      cases List.mem_singleton.mp member
      exact toOp.trans toInput
    · exact pruned.reaches id next (readsFrom_iff.mpr ⟨_, _, found, member⟩)

theorem Pruned.stays_bypassed (pruned : Pruned plan draft.plan)
    (removed : remove op (some consumer) draft = .ok () draft') {other : OpId}
    (bypassed : plan.Bypassed draft.plan other) : plan.Bypassed draft'.plan other := by
  obtain ⟨body, input, above, here, there, after⟩ := shape_remove removed
  obtain ⟨top, next, reads, isOver, isUnder⟩ := bypassed
  obtain ⟨body', inputs, found, member⟩ := readsFrom_iff.mp reads
  rcases eq_or_ne top consumer with same | apart
  · subst same
    cases found.symm.trans there
    cases List.mem_singleton.mp member
    have toInput : plan.Over op input :=
      pruned.reaches op input (readsFrom_iff.mpr ⟨_, _, here, List.mem_singleton_self _⟩)
    refine ⟨top, input, readsFrom_iff.mpr ⟨above, [input], ?_, List.mem_singleton_self _⟩, isOver,
      isUnder.trans toInput⟩
    rw [after, if_pos rfl]
  · refine ⟨top, next, readsFrom_iff.mpr ⟨body', inputs, ?_, member⟩, isOver, isUnder⟩
    rw [after, if_neg apart, found]

end QueryFusion.Plan

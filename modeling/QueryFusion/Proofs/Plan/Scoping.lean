import QueryFusion.Proofs.Plan.Formed
import QueryFusion.Proofs.Plan.Pushdown

/-!
# Well-scoped plans

In a well-scoped plan every variable has one producer, and an operator reads variables of operators
that it depends on: those below it and, from the leaves of a nested plan on, those below the owner of
the nested plan. A walk meets them first. So the pass over a walk knows what a variable stands for
before it meets a use of it, and the schemas that it ends with have every path that is read.
-/

namespace QueryFusion.Plan

variable {plan : Plan} {root : OpId}

/-- Something that an operator depends on produces a variable. -/
def Available (plan : Plan) (id : OpId) (v : Var) : Prop :=
  ∃ other op, Relation.TransGen plan.Needs id other ∧ plan.ops[other]? = some op ∧
    v ∈ op.body.produces

/-- A plan without cycles, all below its root, in which every operator reads available variables and
every variable is produced once. -/
structure WellScoped (plan : Plan) (root : OpId) : Prop where
  made : plan.WellMade
  inside : root < plan.ops.size
  acyclic : plan.Acyclic
  reached : ∀ id, id < plan.ops.size → plan.Reaches root id
  owned : plan.LeavesOwned root
  reads : ∀ (id : OpId) op, plan.ops[id]? = some op →
    ∃ vars, (∀ v ∈ vars, plan.Available id v) ∧ op.body.ReadsFrom vars
  distinct : ∀ (id : OpId) op, plan.ops[id]? = some op → (op.body.produces.map Var.id).Nodup
  single : ∀ (id id' : OpId) op op', plan.ops[id]? = some op → plan.ops[id']? = some op' →
    ∀ v ∈ op.body.produces, ∀ v' ∈ op'.body.produces, v.id = v'.id → id = id'

theorem Pushdown.flows_append {op : OpId × Body} : ∀ {ops : List (OpId × Body)} {vars : List Var},
    Flows vars ops → op.2.ReadsFrom (ops.flatMap (·.2.produces) ++ vars) → Flows vars (ops ++ [op])
  | [], _, _, reads => ⟨reads, trivial⟩
  | first :: rest, vars, ⟨here, flows⟩, reads => by
    refine ⟨here, flows_append flows (reads.mono fun v member => ⟨v, ?_, rfl⟩)⟩
    simp only [List.flatMap_cons, List.append_assoc, List.mem_append] at member ⊢
    exact or_left_comm.mp member

theorem WellScoped.flows (isScoped : plan.WellScoped root) : ∀ {ids : List OpId}, plan.Ordered ids →
    (∀ id ∈ ids, id < plan.ops.size) → ∃ ops, plan.Lists ids.reverse ops ∧ Pushdown.Flows [] ops ∧
      ((ops.flatMap (·.2.produces)).map Var.id).Nodup
  | [], _, _ => ⟨[], ⟨rfl, nofun⟩, trivial, List.nodup_nil⟩
  | id :: rest, ⟨needs, isNew, ordered⟩, inside => by
    obtain ⟨ops, ⟨areIds, lists⟩, flows, distinct⟩ :=
      isScoped.flows ordered (List.forall_mem_cons.mp inside).2
    obtain ⟨op, found⟩ : ∃ op, plan.ops[id]? = some op :=
      ⟨_, Array.getElem?_eq_getElem (inside id (.head _))⟩
    have before : ∀ next ∈ rest, ∀ o, plan.ops[next]? = some o → (next, o.body) ∈ ops := by
      intro next member o isOp
      rw [← List.mem_reverse, ← areIds] at member
      obtain ⟨entry, isEntry, rfl⟩ := List.mem_map.mp member
      obtain ⟨o', isOp', isBody⟩ := lists entry isEntry
      cases isOp.symm.trans isOp'
      exact isBody ▸ isEntry
    have after : ∀ entry ∈ ops, entry.1 ∈ rest := fun entry member => by
      rw [← List.mem_reverse, ← areIds]
      exact List.mem_map_of_mem member
    refine ⟨ops ++ [(id, op.body)], ⟨?_, fun entry member => ?_⟩, Pushdown.flows_append flows ?_, ?_⟩
    · rw [List.map_append, areIds, List.reverse_cons]
      rfl
    · rcases List.mem_append.mp member with old | isLast
      · exact lists entry old
      · cases List.mem_singleton.mp isLast
        exact ⟨op, found, rfl⟩
    · obtain ⟨vars, available, reads⟩ := isScoped.reads id op found
      refine reads.mono fun v member => ?_
      obtain ⟨other, o, depends, isOp, produced⟩ := available v member
      have isEarlier : other ∈ rest := by
        clear isOp
        induction depends with
        | single first => exact needs _ first
        | tail _ step ih => exact ordered.mem_of_needs ih step
      exact ⟨v, List.mem_append_left _ (List.mem_flatMap.mpr
        ⟨_, before other isEarlier o isOp, produced⟩), rfl⟩
    · rw [List.flatMap_append, List.map_append, List.nodup_append]
      refine ⟨distinct, by simpa using isScoped.distinct id op found, ?_⟩
      rintro _ old _ own rfl
      obtain ⟨v, isOld, same⟩ := List.mem_map.mp old
      obtain ⟨entry, isEntry, produced⟩ := List.mem_flatMap.mp isOld
      obtain ⟨w, isOwn, same'⟩ := List.mem_map.mp own
      obtain ⟨o, isOp, isBody⟩ := lists entry isEntry
      have isThis := isScoped.single id entry.1 op o found isOp w (by simpa using isOwn) v
        (isBody ▸ produced) (same'.trans same.symm)
      exact isNew (isThis ▸ after entry isEntry)

theorem WellScoped.registers (isScoped : plan.WellScoped root) {schemas : Schemas}
    (expected : expectedSchemas plan root = .ok schemas) {scan id : OpId} {s : Schema} {op : Operator}
    (isSchema : schemas.lookup scan = some s) (found : plan.ops[id]? = some op) :
    ∀ e ∈ op.body.uses, s.Registers e := by
  obtain ⟨ids, walked, _⟩ := Except.bind_eq_ok.mp expected
  obtain ⟨ordered, isRoot, reached⟩ := walk_ordered isScoped.acyclic isScoped.owned walked
  have inside : ∀ next ∈ ids.reverse, next < plan.ops.size := fun next member =>
    walk_within (fun id next _ below => isScoped.made.found id next below) isScoped.inside walked next
      (List.mem_reverse.mp member)
  obtain ⟨ops, lists, flows, distinct⟩ := isScoped.flows ordered inside
  rw [List.reverse_reverse] at lists
  have member : id ∈ ids.reverse := ordered.mem_of_reaches (List.mem_reverse.mpr isRoot)
    (isScoped.reached id (Array.inside found))
  rw [List.mem_reverse, ← lists.1] at member
  obtain ⟨entry, isEntry, rfl⟩ := List.mem_map.mp member
  obtain ⟨o, isOp, isBody⟩ := lists.2 entry isEntry
  cases found.symm.trans isOp
  rw [isBody]
  exact (expectedSchemas_fit expected walked lists (List.nodup_reverse.mp ordered.nodup) flows distinct
    entry isEntry scan s isSchema).1.registers

theorem mem_foldl_reads {p : Path} (reads : List (Path × Location)) (seen : List Path)
    (member : p ∈ reads.foldl (fun seen (p, _) => if seen.contains p then seen else seen ++ [p]) seen) :
    p ∈ seen ∨ ∃ loc, (p, loc) ∈ reads := by
  induction reads generalizing seen with
  | nil => exact .inl member
  | cons read rest ih =>
    rcases ih _ member with isSeen | ⟨loc, later⟩
    · dsimp only at isSeen
      split at isSeen
      · exact .inl isSeen
      · rcases List.mem_append.mp isSeen with old | isNew
        · exact .inl old
        · exact .inr ⟨read.2, List.mem_cons.mpr (.inl (by rw [List.mem_singleton.mp isNew]))⟩
    · exact .inr ⟨loc, .tail _ later⟩

theorem Schema.mem_reads {s : Schema} {e : Expr} {p : Path} (member : p ∈ s.pathsOf e) :
    ∃ loc, (p, loc) ∈ s.reads e := (mem_foldl_reads _ [] member).resolve_left List.not_mem_nil

end QueryFusion.Plan

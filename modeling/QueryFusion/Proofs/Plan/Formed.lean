import Mathlib.Data.Finset.Card
import QueryFusion.Proofs.Plan.Environment

/-!
# Well-made plans

An operator is well made if it has the inputs its kind asks for, if what it binds goes with what it
evaluates, and if the nested plan it owns is rooted at an aggregate. In a plan of such operators
without cycles the live variables of every operator can be computed.

A plan is a tree if everything in it is reached from the root in exactly one way. The owner of an
operator of a nested plan is the innermost operator around it that owns a nested plan.
-/

namespace QueryFusion.Plan

open EStateM (bind_apply)

variable {plan other : Plan} {root id : OpId}

/-! ## Operators -/

/-- How many inputs an operator of a kind must have; without an answer, any number will do. -/
def OpKind.arity? : OpKind → Option Nat
  | .dataScan | .emptyTupleSource | .nestedTupleSource => some 0
  | .select | .project | .assign | .unnest | .aggregate | .groupBy | .subplan
  | .order | .limit | .exchange => some 1
  | .innerJoin | .leftOuterJoin => some 2
  | _ => none

/-- What an operator binds goes with what it evaluates, an aggregate evaluates aggregates, and a
boundary is of no kind that has a body of its own. -/
def Body.Aligned : Body → Prop
  | .assign vars exprs => vars.length = exprs.length
  | .aggregate vars calls _ =>
    vars.length = calls.length ∧ ∀ call ∈ calls, call.fn.kind = .aggregate
  | .boundary kind _ => kind.arity? = none
  | _ => True

/-- Whether an operator evaluates a nested plan. -/
def Body.isOwner : Body → Bool
  | .groupBy .. | .subplan _ => true
  | _ => false

/-- The variables that an operator names apart from its expressions. -/
def Body.ownVars : Body → List Var
  | .scan _ vars _ outputs => vars ++ outputs
  | .project vars | .assign vars _ | .aggregate vars _ _ | .boundary _ vars => vars
  | .unnest v pos _ => v :: pos.toList
  | .groupBy keys _ _ => keys.map Binding.var
  | _ => []

/-- Every variable that an operator mentions. -/
def Body.mentions (body : Body) : List Var := body.ownVars ++ body.exprs.flatMap Expr.occurrences

/-- A plan whose operators are well made and refer to operators of the plan. -/
structure WellMade (plan : Plan) : Prop where
  found : ∀ id next, plan.Below id next → next < plan.ops.size
  arity : ∀ (id : OpId) op n, plan.ops[id]? = some op → op.kind.arity? = some n →
    op.inputs.length = n
  aligned : ∀ (id : OpId) op, plan.ops[id]? = some op → op.body.Aligned
  nested : ∀ (id : OpId) op, plan.ops[id]? = some op → op.body.isOwner →
    ∃ (top : OpId) (agg : Operator), op.body.nested? = some top ∧ plan.ops[top]? = some agg ∧
      agg.kind = .aggregate

/-! ## Trees and owners -/

/-- Everything in a plan is reached from the root, in one way only. -/
structure IsTree (plan : Plan) (root : OpId) : Prop where
  reached : ∀ id, id < plan.ops.size → plan.Reaches root id
  once : ∀ (id : OpId) op, plan.ops[id]? = some op → op.below.Nodup
  single : ∀ id id' next, plan.Below id next → plan.Below id' next → id = id'
  top : ∀ id, ¬ plan.Below id root

/-- An operator stands in the nested plan of `owner`. -/
def Contains (plan : Plan) (owner id : OpId) : Prop :=
  ∃ (op : Operator) (top : OpId), plan.ops[owner]? = some op ∧ op.body.nested? = some top ∧
    plan.Reaches top id

/-- Of the nested plans an operator stands in, that of `owner` is the innermost. -/
def IsInnermost (plan : Plan) (owner id : OpId) : Prop :=
  plan.Contains owner id ∧ ∀ other, plan.Contains other id → other = owner ∨ plan.Contains other owner

theorem Below.lt {next : OpId} (below : plan.Below id next) : id < plan.ops.size := by
  obtain ⟨op, found, _⟩ := below
  exact Array.inside found

theorem IsTree.acyclic (tree : plan.IsTree root) : plan.Acyclic := by
  have noCycle : ∀ id, plan.Reaches root id → ¬ Relation.TransGen plan.Below id id := by
    intro id reaches
    induction reaches with
    | refl =>
      intro cycle
      obtain ⟨last, _, back⟩ := Relation.TransGen.tail'_iff.mp cycle
      exact tree.top last back
    | tail _ step ih =>
      intro cycle
      obtain ⟨last, through, back⟩ := Relation.TransGen.tail'_iff.mp cycle
      obtain rfl := tree.single _ _ _ step back
      exact ih (Relation.TransGen.head' step through)
  intro id cycle
  obtain ⟨next, first, _⟩ := Relation.TransGen.head'_iff.mp cycle
  exact noCycle id (tree.reached id first.lt) cycle

/-- A measure that decreases from an operator to what stands below it. -/
def Ranked (plan : Plan) (rank : OpId → Nat) : Prop :=
  ∀ id next, plan.Below id next → rank next < rank id

theorem Acyclic.exists_ranked (acyclic : plan.Acyclic)
    (found : ∀ id next, plan.Below id next → next < plan.ops.size) :
    ∃ rank, plan.Ranked rank ∧ ∀ id, id < plan.ops.size → rank id < plan.ops.size := by
  classical
  let lower (id : OpId) : Finset OpId :=
    (Finset.range plan.ops.size).filter (Relation.TransGen plan.Below id)
  refine ⟨fun id => (lower id).card, fun id next below => Finset.card_lt_card ?_, fun id inside => ?_⟩
  · refine Finset.ssubset_iff_subset_ne.mpr ⟨fun j member => ?_, fun same => ?_⟩
    · obtain ⟨inside, reaches⟩ := Finset.mem_filter.mp member
      exact Finset.mem_filter.mpr ⟨inside, reaches.head below⟩
    · have member : next ∈ lower id :=
        Finset.mem_filter.mpr ⟨Finset.mem_range.mpr (found id next below), .single below⟩
      rw [← same] at member
      exact acyclic next (Finset.mem_filter.mp member).2
  · calc (lower id).card < (Finset.range plan.ops.size).card := Finset.card_lt_card <|
          Finset.filter_ssubset.mpr ⟨id, Finset.mem_range.mpr inside, acyclic id⟩
      _ = plan.ops.size := Finset.card_range _

/-! ## Computing live variables -/

/-- Whatever is stored at an operator, something is stored at what stands below it. -/
def FilledBelow (plan : Plan) : Prop :=
  ∀ id next, plan.HasEnv id → plan.Below id next → plan.HasEnv next

theorem produce_ok (plan : Plan) (body : Body) (envs : List TypeEnv)
    (arity : ∀ n, body.kind.arity? = some n → envs.length = n) (aligned : body.Aligned) :
    ∃ env, produce plan body envs = .ok env := by
  have only (kind : OpKind) (one : envs.length = 1) : ∃ env, onlyEnv kind envs = .ok env := by
    obtain ⟨env, rfl⟩ := List.length_eq_one_iff.mp one
    exact ⟨env, rfl⟩
  cases body with
  | scan | boundary => exact ⟨_, rfl⟩
  | emptySource | nestedSource =>
    obtain rfl := List.length_eq_zero_iff.mp (arity 0 rfl)
    exact ⟨_, rfl⟩
  | join _ isOuter =>
    obtain ⟨left, right, rfl⟩ := List.length_eq_two.mp (arity 2 (by cases isOuter <;> rfl))
    exact ⟨_, rfl⟩
  | select | order | limit | exchange => exact only _ (arity 1 rfl)
  | project | unnest | aggregate | groupBy | subplan =>
    obtain ⟨env, rfl⟩ := List.length_eq_one_iff.mp (arity 1 rfl)
    exact ⟨_, rfl⟩
  | assign vars exprs =>
    obtain ⟨env, rfl⟩ := List.length_eq_one_iff.mp (arity 1 rfl)
    exact ⟨_, if_pos aligned⟩

/-- What computing variables changes in a plan that is filled below. -/
structure Computes (plan other : Plan) : Prop where
  fills : plan.Fills other
  filled : plan.FilledBelow → other.FilledBelow

theorem Computes.refl (plan : Plan) : plan.Computes plan := ⟨.refl plan, fun filled => filled⟩

theorem Fills.trans {third : Plan} (first : plan.Fills other) (second : other.Fills third) :
    plan.Fills third :=
  ⟨first.sameShape.trans second.sameShape, fun id has => second.hasEnv id (first.hasEnv id has)⟩

theorem Computes.trans {third : Plan} (first : plan.Computes other)
    (second : other.Computes third) : plan.Computes third :=
  ⟨first.fills.trans second.fills, fun filled => second.filled (first.filled filled)⟩

theorem hasEnv_setEnv {next : OpId} {env : TypeEnv} (has : (plan.setEnv id env).HasEnv next) :
    next = id ∨ plan.HasEnv next := by
  obtain ⟨op, found, some'⟩ := has
  rw [getElem?_setEnv] at found
  split at found
  · next same => exact .inl same.symm
  · exact .inr ⟨op, found, some'⟩

theorem computes_setEnv (env : TypeEnv) (below : ∀ next, plan.Below id next → plan.HasEnv next) :
    plan.Computes (plan.setEnv id env) where
  fills := (Fills.refl plan).setEnv id env
  filled := by
    intro filled other next has isBelow
    have before : plan.Below other next := (sameShape_setEnv plan id env).symm.below isBelow
    rcases hasEnv_setEnv has with rfl | has
    · exact (below next before).setEnv _ env
    · exact (filled other next has before).setEnv id env

theorem mapM_requireEnv_ok {depth : Nat} : ∀ (ids : List OpId) (plan : Plan),
    (∀ next ∈ ids, next < plan.ops.size) →
    (∀ next ∈ ids, ∀ later : Plan, plan.SameShape later → ∃ last,
      computeEnvWithin depth next later = .ok () last ∧ later.Computes last ∧ last.HasEnv next) →
    ∃ envs last, ids.mapM (requireEnv depth) plan = .ok envs last ∧ envs.length = ids.length ∧
      plan.Computes last ∧ ∀ next ∈ ids, last.HasEnv next
  | [], plan, _, _ => ⟨[], plan, rfl, rfl, .refl plan, by simp⟩
  | id :: ids, plan, inside, each => by
    have one : ∃ env middle, requireEnv depth id plan = .ok env middle ∧ plan.Computes middle ∧
        middle.HasEnv id := by
      by_cases has : plan.HasEnv id
      · exact ⟨_, plan, requireEnv_apply depth has, .refl plan, has⟩
      · obtain ⟨last, computed, computes, hasNow⟩ := each id (.head _) plan (.refl plan)
        obtain ⟨op, found⟩ : ∃ op, plan.ops[id]? = some op :=
          ⟨_, Array.getElem?_eq_getElem (inside id (.head _))⟩
        have isNone : op.env.isNone = true := by
          cases stored : op.env with
          | none => rfl
          | some env => exact absurd ⟨op, found, by rw [stored]; rfl⟩ has
        obtain ⟨later, foundLater, _⟩ := hasNow
        refine ⟨later.env.getD [], last, ?_, computes, ⟨later, foundLater, ‹_›⟩⟩
        unfold requireEnv
        rw [bind_apply, fetch_found found]
        dsimp only
        rw [if_pos isNone, bind_apply, computed]
        dsimp only
        rw [bind_apply, fetch_found foundLater]
        rfl
    obtain ⟨env, middle, first, computes, has⟩ := one
    have shape := computes.fills.sameShape
    obtain ⟨envs, last, rest, length, computes', hasRest⟩ := mapM_requireEnv_ok ids middle
      (fun next member => shape.size ▸ inside next (.tail _ member))
      (fun next member later same => each next (.tail _ member) later (shape.trans same))
    refine ⟨env :: envs, last, ?_, congrArg (· + 1) length, computes.trans computes', ?_⟩
    · rw [List.mapM_cons, bind_apply, first]
      dsimp only
      rw [bind_apply, rest]
      rfl
    · intro next member
      rcases List.mem_cons.mp member with rfl | later
      · exact computes'.fills.hasEnv _ has
      · exact hasRest next later

theorem WellMade.computeEnvWithin {rank : OpId → Nat} (made : plan.WellMade)
    (ranked : plan.Ranked rank) : ∀ (depth : Nat) (id : OpId) (start : Plan), rank id < depth →
    id < plan.ops.size → plan.SameShape start → ∃ last,
      computeEnvWithin depth id start = .ok () last ∧ start.Computes last ∧ last.HasEnv id
  | 0, _, _, low, _, _ => absurd low (Nat.not_lt_zero _)
  | depth + 1, id, start, low, inside, same => by
    obtain ⟨op, found⟩ : ∃ op, plan.ops[id]? = some op := ⟨_, Array.getElem?_eq_getElem inside⟩
    obtain ⟨now, foundNow, body, inputs⟩ := same.find found
    have below : ∀ next ∈ now.below, plan.Below id next := by
      intro next member
      exact same.symm.below ⟨now, foundNow, member⟩
    have compute : ∀ next ∈ now.below, ∀ later : Plan, start.SameShape later → ∃ last,
        Plan.computeEnvWithin depth next later = .ok () last ∧ later.Computes last ∧
          last.HasEnv next := fun next member later shape =>
      made.computeEnvWithin ranked depth next later
        (Nat.lt_of_lt_of_le (ranked id next (below next member)) (Nat.le_of_lt_succ low))
        (made.found id next (below next member)) (same.trans shape)
    have bounded : ∀ next ∈ now.below, next < start.ops.size := fun next member =>
      same.size ▸ made.found id next (below next member)
    obtain ⟨envs, middle, first, length, computes, has⟩ := mapM_requireEnv_ok now.inputs start
      (fun next member => bounded next (List.mem_append_left _ member))
      (fun next member => compute next (List.mem_append_left _ member))
    have shape := computes.fills.sameShape
    obtain ⟨_, last, second, _, computes', has'⟩ :=
      mapM_requireEnv_ok now.body.nested?.toList middle
        (fun next member => shape.size ▸ bounded next (List.mem_append_right _ member))
        (fun next member later same => compute next (List.mem_append_right _ member) later
          (shape.trans same))
    obtain ⟨env, produced⟩ := produce_ok last now.body envs
      (fun n isArity => by
        rw [length, inputs]
        exact made.arity id op n found ((congrArg (Body.kind · |>.arity?) body).symm.trans isArity))
      (body ▸ made.aligned id op found)
    have lastShape := shape.trans computes'.fills.sameShape
    obtain ⟨op', found', _⟩ := lastShape.find foundNow
    refine ⟨last.setEnv id env, ?_, (computes.trans computes').trans (computes_setEnv env ?_), ?_⟩
    · rw [computeEnvWithin_succ, bind_apply, fetch_found foundNow]
      dsimp only
      rw [bind_apply, first]
      dsimp only
      rw [bind_apply, second]
      dsimp only
      rw [storeEnv_apply, produced]
    · intro next isBelow
      obtain ⟨op'', foundOp, member⟩ := lastShape.symm.below isBelow
      cases foundNow.symm.trans foundOp
      rcases List.mem_append.mp member with isInput | isNested
      · exact computes'.fills.hasEnv next (has next isInput)
      · exact has' next isNested
    · refine ⟨{ op' with env := some env }, ?_, rfl⟩
      rw [getElem?_setEnv, if_pos rfl, found']
      rfl

theorem WellMade.computeEnv (made : plan.WellMade) (acyclic : plan.Acyclic)
    (inside : id < plan.ops.size) : ∃ last,
      computeEnv id plan = .ok () last ∧ plan.Computes last ∧ last.HasEnv id := by
  obtain ⟨rank, ranked, bound⟩ := acyclic.exists_ranked made.found
  exact made.computeEnvWithin ranked _ id plan (Nat.lt_succ_of_lt (bound id inside)) inside (.refl plan)

end QueryFusion.Plan

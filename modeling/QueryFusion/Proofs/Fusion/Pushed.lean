import QueryFusion.Proofs.Fusion.Faultless
import QueryFusion.Proofs.Plan.Scoping

/-!
# What a plan reads is pushed down

The schemas that a compilation computes for a well-scoped plan have every path that the plan reads.
So no step that makes code meets a path without a reader.
-/

namespace QueryFusion.Fusion

open Plan (OpId)

theorem finish_error {root : OpId} {ended : EStateM.Result Abort State Unit} {cause : FuseError}
    (failed : (finish root ended).result = .error (.error cause)) :
    ∃ st, ended = .error (.error cause) st := by
  have given : ∀ {abort message st}, (giveUp root abort message st).result = .error (.error cause) →
      abort = .error cause := by
    intro abort message st same
    unfold giveUp at same
    split at same <;> cases same <;> rfl
  unfold finish at failed
  split at failed
  · split at failed
    · cases failed
    · cases given failed
    · cases failed
  · cases given failed
    exact ⟨_, rfl⟩
  · cases given failed
  · cases failed

/-- A well-scoped plan, all of whose expressions are there, has schemas. They have every path that an
operator reads, and over them no compilation ends because a path was not pushed down or has no
reader. -/
theorem wellScoped_pushedDown (plan : Plan) (root : OpId) (isScoped : plan.WellScoped root)
    (whole : ∀ (id : OpId) op, plan.ops[id]? = some op → ∀ e ∈ op.body.exprs, e.Whole) :
    ∃ schemas, Plan.expectedSchemas plan root = .ok schemas ∧
      (∀ scan s, schemas.lookup scan = some s → ∀ (id : OpId) op, plan.ops[id]? = some op →
        ∀ e ∈ op.body.uses, ∀ p ∈ s.pathsOf e, s.has p = true) ∧
      ∀ config catalog stem cause, FuseError.IsUnpushed cause →
        (compile plan root config catalog none stem).result ≠ .error (.error cause) := by
  obtain ⟨rank, ranked, low⟩ := isScoped.acyclic.exists_ranked isScoped.made.found
  have sturdy : plan.Sturdy rank := ⟨isScoped.made, ranked, low, fun id op found =>
    ⟨isScoped.made.aligned id op found, whole id op found⟩⟩
  obtain ⟨schemas, expected⟩ := sturdy.expectedSchemas isScoped.inside
  refine ⟨schemas, expected, fun scan s isSchema id op found e member p isRead => ?_,
    fun config catalog stem cause unpushed failed => ?_⟩
  · obtain ⟨loc, isRead⟩ := Plan.Schema.mem_reads isRead
    exact isScoped.registers expected isSchema found e member _ isRead
  · obtain ⟨s, expected', compiled⟩ := compile_eq_finish sturdy isScoped.inside config catalog stem
    have steady : Steady ⟨plan, rank, some s.schemas⟩ { draft := { plan } } := by
      refine ⟨.refl plan, sturdy, ?_, nofun⟩
      rintro _ ⟨⟩ scan schema isSchema id op found
      refine ⟨fun _ => ⟨sturdy.proper id op found, ?_⟩, nofun⟩
      rintro _ ⟨⟩ e member
      exact isScoped.registers expected' isSchema found e member
    have runs := (Steady.invariant (by rintro _ ⟨⟩; rfl)).compileAll isScoped.inside _ steady
    rw [compiled] at failed
    obtain ⟨st, ended⟩ := finish_error failed
    unfold EStateM.EndsIn at runs
    rw [ended] at runs
    cases runs unpushed

theorem unindexable_each {P : OpId → Plan.Operator → Prop} (scan : P 0 unindexable.ops[0])
    (assign : P 1 unindexable.ops[1]) (select : P 2 unindexable.ops[2])
    (result : P 3 unindexable.ops[3]) :
    ∀ (id : OpId) op, unindexable.ops[id]? = some op → P id op
  | 0, _, rfl => scan
  | 1, _, rfl => assign
  | 2, _, rfl => select
  | 3, _, rfl => result

theorem unindexable_wellScoped : unindexable.WellScoped 3 := by
  have below : ∀ id : OpId, id < 3 → unindexable.Below (id + 1) id
    | 0, _ | 1, _ | 2, _ => ⟨_, rfl, List.mem_singleton_self _⟩
  have reached : ∀ id : OpId, id ≤ 3 → unindexable.Reaches 3 id := fun id low => by
    induction low using Nat.decreasingInduction with
    | self => exact .refl
    | of_succ id low ih => exact ih.tail (below id low)
  have available {id : OpId} {v : Var} (low : id < 3) {op : Plan.Operator}
      (found : unindexable.ops[id]? = some op) (produced : op.body.produces = [v]) :
      ∀ w ∈ [v], unindexable.Available (id + 1) w := fun w isVar =>
    ⟨id, op, .single (.inl (below id low)), found, produced ▸ isVar⟩
  have named : ∀ (id : OpId) op, unindexable.ops[id]? = some op → ∀ v ∈ op.body.produces, v.id = id :=
    unindexable_each (by decide) (by decide) nofun nofun
  refine ⟨⟨?_, ?_, ?_, ?_⟩, by decide, Plan.acyclic_of_descending (by decide),
    fun id inside => reached id (Nat.le_of_lt_succ inside), ?_, ?_, ?_, ?_⟩
  · rintro id next ⟨op, found, member⟩
    exact unindexable_each (P := fun _ op => ∀ next ∈ op.below, next < 4) (by decide) (by decide)
      (by decide) (by decide) id op found next member
  · intro id op n found
    exact unindexable_each (P := fun _ op => op.kind.arity? = some n → op.inputs.length = n)
      (by rintro ⟨⟩; rfl) (by rintro ⟨⟩; rfl) (by rintro ⟨⟩; rfl) nofun id op found
  · exact unindexable_each trivial rfl trivial rfl
  · exact unindexable_each nofun nofun nofun nofun
  · rintro leaf owner ⟨op, found, isLeaf⟩
    exact absurd isLeaf (unindexable_each (P := fun _ op => op.body ≠ .nestedSource owner) nofun nofun
      nofun nofun leaf op found)
  · refine unindexable_each ⟨[], nofun, nofun⟩ ⟨_, available (by decide) rfl rfl, ?_, trivial⟩
      ⟨_, available (by decide) rfl rfl, ?_⟩ ⟨[], nofun, nofun⟩
    · rintro w (_ | ⟨_, ⟨⟩⟩)
      exact ⟨_, List.mem_singleton_self _, rfl⟩
    · rintro e (_ | ⟨_, ⟨⟩⟩) w (_ | ⟨_, ⟨⟩⟩)
      exact ⟨_, List.mem_singleton_self _, rfl⟩
  · exact unindexable_each (by decide) (by decide) (by decide) (by decide)
  · intro id id' op op' found found' v produced v' produced' same
    rw [← named id op found v produced, same, named id' op' found' v' produced']

theorem unindexable_pushedDown : ∃ schemas, Plan.expectedSchemas unindexable 3 = .ok schemas ∧
    ∀ config catalog stem cause, FuseError.IsUnpushed cause →
      (compile unindexable 3 config catalog none stem).result ≠ .error (.error cause) := by
  have whole : ∀ (id : OpId) op, unindexable.ops[id]? = some op → ∀ e ∈ op.body.exprs, e.Whole := by
    refine unindexable_each nofun ?_ ?_ nofun <;>
    · rintro e (_ | ⟨_, ⟨⟩⟩)
      exact ⟨_, rfl⟩
  obtain ⟨schemas, expected, _, compiles⟩ :=
    wellScoped_pushedDown unindexable 3 unindexable_wellScoped whole
  exact ⟨schemas, expected, compiles⟩

end QueryFusion.Fusion

import QueryFusion.Proofs.Plan.Formed

/-!
# Plans in the order of their construction

A plan that is built input by input has each tree of operators in an interval of the table: first
the inputs of an operator, then the operator, then its nested plan. A forest says so, with the owner
of the nested plan around each operator. What follows from the layout: every operator of a forest is
reached from one of its roots, has one consumer, and knows its owner.
-/

namespace QueryFusion.Plan

variable {plan other : Plan} {outer : Option OpId} {ids : List Nat} {lo hi : Nat}

/-- An operator that is well made, in the nested plan of `outer` if there is one. -/
structure Operator.Suits (plan : Plan) (outer : Option OpId) (op : Operator) : Prop where
  arity : ∀ n, op.kind.arity? = some n → op.inputs.length = n
  aligned : op.body.Aligned
  leaf : ∀ owner, op.body = .nestedSource owner → owner = outer ∧ owner.isSome
  nested : op.body.isOwner → ∃ (top : OpId) (agg : Operator), op.body.nested? = some top ∧
    plan.ops[top]? = some agg ∧ agg.kind = .aggregate

/-- The trees of some operators, one after the other in an interval of the table. -/
inductive Forest (plan : Plan) : Option OpId → List Nat → Nat → Nat → Prop
  | nil (outer : Option OpId) (n : Nat) : Forest plan outer [] n n
  | cons {outer : Option OpId} {id : Nat} {op : Operator} {rest : List Nat} {lo mid hi : Nat}
      (found : plan.ops[id]? = some op) (suits : op.Suits plan outer)
      (inputs : Forest plan outer op.inputs lo id)
      (nested : Forest plan (some id) op.body.nested?.toList (id + 1) mid)
      (others : Forest plan outer rest mid hi) : Forest plan outer (id :: rest) lo hi

namespace Forest

section

variable (forest : plan.Forest outer ids lo hi)

include forest

theorem le : lo ≤ hi := by
  induction forest with
  | nil => exact le_rfl
  | cons _ _ _ _ _ inputs nested others => omega

/-- The roots stand in the interval. -/
theorem root_mem : ∀ id : Nat, id ∈ ids → lo ≤ id ∧ id < hi := by
  induction forest with
  | nil => simp
  | cons _ _ inputs nested others _ _ ih =>
    have := inputs.le
    have := nested.le
    have := others.le
    intro next member
    rcases List.mem_cons.mp member with rfl | later
    · omega
    · have := ih next later
      omega

/-- A forest depends on its own interval of the table only. -/
theorem congr (same : ∀ i : Nat, lo ≤ i → i < hi → other.ops[i]? = plan.ops[i]?) :
    other.Forest outer ids lo hi := by
  induction forest with
  | nil => exact .nil _ _
  | @cons _ id op _ _ _ _ found suits inputs nested others ihInputs ihNested ihOthers =>
    have := inputs.le
    have := nested.le
    have := others.le
    refine .cons (by rw [same id (by omega) (by omega), found]) { suits with nested := ?_ }
      (ihInputs fun i low high => same i low (by omega))
      (ihNested fun i low high => same i (by omega) (by omega))
      (ihOthers fun i low high => same i (by omega) high)
    intro isOwner
    obtain ⟨top, agg, isTop, foundTop, isAggregate⟩ := suits.nested isOwner
    have inside := nested.root_mem top (Option.mem_toList.mpr isTop)
    exact ⟨top, agg, isTop, by rw [same top (by omega) (by omega), foundTop], isAggregate⟩

/-- A forest does not depend on the stored variables. -/
theorem sameShape (same : plan.SameShape other) : other.Forest outer ids lo hi := by
  induction forest with
  | nil => exact .nil _ _
  | @cons _ id op _ _ _ _ found suits _ _ _ ihInputs ihNested ihOthers =>
    obtain ⟨⟨body, inputs, env⟩, found', rfl, rfl⟩ := same.find found
    refine .cons found' ⟨suits.arity, suits.aligned, suits.leaf, fun isOwner => ?_⟩ ihInputs ihNested
      ihOthers
    obtain ⟨top, agg, isTop, foundTop, isAggregate⟩ := suits.nested isOwner
    obtain ⟨agg', foundTop', sameBody, _⟩ := same.find foundTop
    exact ⟨top, agg', isTop, foundTop', (congrArg Body.kind sameBody).trans isAggregate⟩

end

/-- Two forests side by side. -/
theorem append {more : List Nat} {mid : Nat} (first : plan.Forest outer ids lo mid)
    (second : plan.Forest outer more mid hi) : plan.Forest outer (ids ++ more) lo hi := by
  induction first with
  | nil => exact second
  | cons found suits inputs nested _ _ _ ih => exact .cons found suits inputs nested (ih second)

/-- What a forest says about every operator in its interval. -/
theorem suits (forest : plan.Forest outer ids lo hi) : ∀ i : Nat, lo ≤ i → i < hi →
    ∃ op, plan.ops[i]? = some op ∧ ∃ owner, op.Suits plan owner := by
  induction forest with
  | nil => omega
  | @cons _ id op _ _ mid _ found suits _ _ _ ihInputs ihNested ihOthers =>
    intro i low high
    rcases Nat.lt_trichotomy i id with before | rfl | after
    · exact ihInputs i low before
    · exact ⟨op, found, _, suits⟩
    · by_cases inside : i < mid
      · exact ihNested i after inside
      · exact ihOthers i (Nat.le_of_not_lt inside) high

/-! ## The layout as a tree -/

section

variable (forest : plan.Forest outer ids lo hi)

include forest

theorem below_mem : ∀ i next : Nat, lo ≤ i → i < hi →
    plan.Below i next → lo ≤ next ∧ next < hi ∧ next ∉ ids := by
  induction forest with
  | nil => omega
  | @cons _ id op rest lo mid _ found _ inputs nested others ihInputs ihNested ihOthers =>
    have := inputs.le
    have := nested.le
    have := others.le
    intro i next low high isBelow
    have apart : ∀ j : Nat, (∀ k : Nat, k ∈ rest → j ≠ k) → j ≠ id → j ∉ id :: rest := by
      intro j others same member
      rcases List.mem_cons.mp member with rfl | later
      · exact same rfl
      · exact others j later rfl
    rcases Nat.lt_trichotomy i id with before | rfl | after
    · obtain ⟨low', high', _⟩ := ihInputs i next low before isBelow
      refine ⟨low', by omega, apart next (fun k member => ?_) (by omega)⟩
      have := others.root_mem k member
      omega
    · obtain ⟨op', found', member⟩ := isBelow
      cases found.symm.trans found'
      have spot : (lo ≤ next ∧ next < i) ∨ (i + 1 ≤ next ∧ next < mid) :=
        (List.mem_append.mp member).imp (inputs.root_mem next) (nested.root_mem next)
      refine ⟨by omega, by omega, apart next (fun k member => ?_) (by omega)⟩
      have := others.root_mem k member
      omega
    · by_cases inside : i < mid
      · obtain ⟨low', high', _⟩ := ihNested i next after inside isBelow
        refine ⟨by omega, by omega, apart next (fun k member => ?_) (by omega)⟩
        have := others.root_mem k member
        omega
      · obtain ⟨low', high', notRoot⟩ := ihOthers i next (Nat.le_of_not_lt inside) high isBelow
        exact ⟨by omega, high', apart next (fun k member same => notRoot (same ▸ member)) (by omega)⟩

/-- Following what stands below never leaves a forest. -/
theorem reaches {i j : Nat} (low : lo ≤ i) (high : i < hi)
    (path : plan.Reaches i j) : lo ≤ j ∧ j < hi := by
  induction path with
  | refl => exact ⟨low, high⟩
  | tail _ step ih =>
    obtain ⟨low', high', _⟩ := forest.below_mem _ _ ih.1 ih.2 step
    exact ⟨low', high'⟩

/-- Every operator of a forest is reached from a root. -/
theorem reached : ∀ i : Nat, lo ≤ i → i < hi → ∃ top ∈ ids, plan.Reaches top i := by
  induction forest with
  | nil => omega
  | @cons _ id op _ _ mid _ found _ _ _ _ ihInputs ihNested ihOthers =>
    have through : ∀ top ∈ op.below, ∀ i, plan.Reaches top i → plan.Reaches id i :=
      fun top member i path => Relation.ReflTransGen.head ⟨op, found, member⟩ path
    intro i low high
    rcases Nat.lt_trichotomy i id with before | rfl | after
    · obtain ⟨top, member, path⟩ := ihInputs i low before
      exact ⟨id, .head _, through top (List.mem_append_left _ member) i path⟩
    · exact ⟨i, .head _, .refl⟩
    · by_cases inside : i < mid
      · obtain ⟨top, member, path⟩ := ihNested i after inside
        exact ⟨id, .head _, through top (List.mem_append_right _ member) i path⟩
      · obtain ⟨top, member, path⟩ := ihOthers i (Nat.le_of_not_lt inside) high
        exact ⟨top, .tail _ member, path⟩

/-- The roots of a forest stand in ascending order. -/
theorem ascending : ids.Pairwise (· < ·) := by
  induction forest with
  | nil => exact .nil
  | cons _ _ _ nested others _ _ ih =>
    refine .cons (fun (next : Nat) member => ?_) ih
    have := nested.le
    have := others.root_mem next member
    omega

theorem single : ∀ i : Nat, lo ≤ i → i < hi → (∀ op, plan.ops[i]? = some op → op.below.Nodup) ∧
    ∀ i' next : Nat, lo ≤ i' → i' < hi → plan.Below i next → plan.Below i' next → i = i' := by
  induction forest with
  | nil => omega
  | @cons _ id op _ lo mid hi found _ inputs nested others ihInputs ihNested ihOthers =>
    have := nested.le
    have place : ∀ i next : Nat, lo ≤ i → i < hi → plan.Below i next →
        (i < id ∧ next < id ∧ next ∉ op.inputs) ∨
        (i = id ∧ (next ∈ op.inputs ∧ next < id ∨ next ∈ op.body.nested?.toList ∧ id < next ∧ next < mid)) ∨
        (id < i ∧ i < mid ∧ id < next ∧ next < mid ∧ next ∉ op.body.nested?.toList) ∨
        (mid ≤ i ∧ mid ≤ next) := by
      intro i next low high isBelow
      rcases Nat.lt_trichotomy i id with before | rfl | after
      · obtain ⟨_, high', notRoot⟩ := inputs.below_mem i next low before isBelow
        exact .inl ⟨before, high', notRoot⟩
      · obtain ⟨op', found', member⟩ := isBelow
        cases found.symm.trans found'
        refine .inr (.inl ⟨rfl, (List.mem_append.mp member).imp (fun isInput => ?_) fun isNested => ?_⟩)
        · exact ⟨isInput, (inputs.root_mem next isInput).2⟩
        · exact ⟨isNested, (nested.root_mem next isNested)⟩
      · by_cases inside : i < mid
        · obtain ⟨low', high', notRoot⟩ := nested.below_mem i next after inside isBelow
          exact .inr (.inr (.inl ⟨after, inside, low', high', notRoot⟩))
        · have outside := Nat.le_of_not_lt inside
          obtain ⟨low', _, _⟩ := others.below_mem i next outside high isBelow
          exact .inr (.inr (.inr ⟨outside, low'⟩))
    intro i low high
    constructor
    · intro op' found'
      rcases Nat.lt_trichotomy i id with before | rfl | after
      · exact (ihInputs i low before).1 op' found'
      · cases found.symm.trans found'
        refine List.nodup_append.mpr ⟨inputs.ascending.imp Nat.ne_of_lt,
          nested.ascending.imp Nat.ne_of_lt, fun a isInput b isNested => Nat.ne_of_lt ?_⟩
        have := inputs.root_mem a isInput
        have := nested.root_mem b isNested
        omega
      · by_cases inside : i < mid
        · exact (ihNested i after inside).1 op' found'
        · exact (ihOthers i (Nat.le_of_not_lt inside) high).1 op' found'
    · intro i' next low' high' isBelow isBelow'
      have here := place i next low high isBelow
      have there := place i' next low' high' isBelow'
      rcases Nat.lt_trichotomy i id with before | rfl | after
      · exact (ihInputs i low before).2 i' next low' (by grind) isBelow isBelow'
      · grind
      · by_cases inside : i < mid
        · exact (ihNested i after inside).2 i' next (by grind) (by grind) isBelow isBelow'
        · exact (ihOthers i (by omega) high).2 i' next (by grind) high' isBelow isBelow'

end

/-! ## Owners -/

theorem owner (forest : plan.Forest outer ids lo hi) : ∀ (i : Nat) op source, lo ≤ i → i < hi →
    plan.ops[i]? = some op → op.body = .nestedSource source →
    (source = outer ∧ source.isSome ∧ ∀ other : Nat, lo ≤ other → other < hi → ¬ plan.Contains other i) ∨
    ∃ owner : Nat, source = some owner ∧ lo ≤ owner ∧ owner < hi ∧ plan.Contains owner i ∧
      ∀ other : Nat, lo ≤ other → other < hi → plan.Contains other i →
        other = owner ∨ plan.Contains other owner := by
  induction forest with
  | nil => omega
  | @cons outer id op rest lo mid hi found suits inputs nested others ihInputs ihNested ihOthers =>
    have := inputs.le
    have := nested.le
    have := others.le
    have place : ∀ other i : Nat, lo ≤ other → other < hi → plan.Contains other i →
        (other < id ∧ lo ≤ i ∧ i < id) ∨ (other = id ∧ id < i ∧ i < mid) ∨
        (id < other ∧ other < mid ∧ id < i ∧ i < mid) ∨ (mid ≤ other ∧ mid ≤ i) := by
      rintro other i low high ⟨owning, top, foundOwner, isTop, path⟩
      have isBelow : plan.Below other top :=
        ⟨owning, foundOwner, List.mem_append_right _ (Option.mem_toList.mpr isTop)⟩
      rcases Nat.lt_trichotomy other id with before | rfl | after
      · obtain ⟨low', high', _⟩ := inputs.below_mem other top low before isBelow
        exact .inl ⟨before, inputs.reaches low' high' path⟩
      · cases found.symm.trans foundOwner
        have spot := nested.root_mem top (Option.mem_toList.mpr isTop)
        have inside := nested.reaches spot.1 spot.2 path
        exact .inr (.inl ⟨rfl, inside⟩)
      · by_cases inside : other < mid
        · obtain ⟨low', high', _⟩ := nested.below_mem other top after inside isBelow
          exact .inr (.inr (.inl ⟨after, inside, nested.reaches low' high' path⟩))
        · have outside := Nat.le_of_not_lt inside
          obtain ⟨low', high', _⟩ := others.below_mem other top outside high isBelow
          exact .inr (.inr (.inr ⟨outside, (others.reaches low' high' path).1⟩))
    have contained : ∀ i : Nat, id + 1 ≤ i → i < mid → plan.Contains id i := by
      intro i low high
      obtain ⟨top, member, path⟩ := nested.reached i low high
      exact ⟨op, top, found, Option.mem_toList.mp member, path⟩
    intro i leaf source low high foundLeaf isSource
    rcases Nat.lt_trichotomy i id with before | rfl | after
    · rcases ihInputs i leaf source low before foundLeaf isSource with
        ⟨same, isSome, free⟩ | ⟨owner, same, lowOwner, highOwner, contains, inner⟩
      · refine .inl ⟨same, isSome, fun other low' high' contains => ?_⟩
        have := place other i low' high' contains
        exact free other low' (by omega) contains
      · refine .inr ⟨owner, same, lowOwner, by omega, contains, fun other low' high' contains' => ?_⟩
        have := place other i low' high' contains'
        exact inner other low' (by omega) contains'
    · cases found.symm.trans foundLeaf
      obtain ⟨same, isSome⟩ := suits.leaf source isSource
      refine .inl ⟨same, isSome, fun other low' high' contains => ?_⟩
      have := place other i low' high' contains
      omega
    · by_cases inside : i < mid
      · rcases ihNested i leaf source after inside foundLeaf isSource with
          ⟨same, _, free⟩ | ⟨owner, same, lowOwner, highOwner, contains, inner⟩
        · refine .inr ⟨id, same, by omega, by omega, contained i after inside,
            fun other low' high' contains' => ?_⟩
          have := place other i low' high' contains'
          by_cases same' : other = id
          · exact .inl same'
          · exact absurd contains' (free other (by omega) (by omega))
        · refine .inr ⟨owner, same, by omega, by omega, contains, fun other low' high' contains' => ?_⟩
          have := place other i low' high' contains'
          by_cases same' : other = id
          · exact .inr (same' ▸ contained owner lowOwner highOwner)
          · exact inner other (by omega) (by omega) contains'
      · have outside := Nat.le_of_not_lt inside
        rcases ihOthers i leaf source outside high foundLeaf isSource with
          ⟨same, isSome, free⟩ | ⟨owner, same, lowOwner, highOwner, contains, inner⟩
        · refine .inl ⟨same, isSome, fun other low' high' contains => ?_⟩
          have := place other i low' high' contains
          exact free other (by omega) high' contains
        · refine .inr ⟨owner, same, by omega, by omega, contains, fun other low' high' contains' => ?_⟩
          have := place other i low' high' contains'
          exact inner other (by omega) high' contains'

end Forest

/-! ## Plans that are one tree -/

variable {root : OpId}

theorem isTree_of_forest (forest : plan.Forest outer [root] 0 plan.ops.size) : plan.IsTree root where
  reached := by
    intro id inside
    obtain ⟨top, member, path⟩ := forest.reached id (Nat.zero_le _) inside
    rwa [List.mem_singleton.mp member] at path
  once := fun id op found =>
    (forest.single id (Nat.zero_le _) (Array.inside found)).1 op found
  single := fun id id' next below below' => (forest.single id (Nat.zero_le _) below.lt).2 id' next
    (Nat.zero_le _) below'.lt below below'
  top := fun id below =>
    (forest.below_mem id root (Nat.zero_le _) below.lt below).2.2 (.head _)

theorem wellMade_of_forest (forest : plan.Forest outer ids 0 plan.ops.size) : plan.WellMade := by
  have each : ∀ (id : OpId) op, plan.ops[id]? = some op → ∃ owner, op.Suits plan owner := by
    intro id op found
    obtain ⟨op', found', suits⟩ :=
      forest.suits id (Nat.zero_le _) (Array.inside found)
    rwa [Option.some.inj (found'.symm.trans found)] at suits
  exact {
    found := fun id next below => (forest.below_mem id next (Nat.zero_le _) below.lt below).2.1
    arity := fun id op n found isArity => by
      obtain ⟨_, suits⟩ := each id op found
      exact suits.arity n isArity
    aligned := fun id op found => by
      obtain ⟨_, suits⟩ := each id op found
      exact suits.aligned
    nested := fun id op found isOwner => by
      obtain ⟨_, suits⟩ := each id op found
      exact suits.nested isOwner }

theorem innermost_of_forest (forest : plan.Forest none ids 0 plan.ops.size) {leaf : OpId}
    {op : Operator} {source : Option OpId} (found : plan.ops[leaf]? = some op)
    (isSource : op.body = .nestedSource source) :
    ∃ owner, source = some owner ∧ plan.IsInnermost owner leaf := by
  have inside := Array.inside found
  rcases forest.owner leaf op source (Nat.zero_le _) inside found isSource with
    ⟨same, isSome, _⟩ | ⟨owner, same, _, _, contains, inner⟩
  · rw [same] at isSome
    cases isSome
  · refine ⟨owner, same, contains, fun other contains' => ?_⟩
    have ⟨_, _, foundOwner, _⟩ := contains'
    exact inner other (Nat.zero_le _) (Array.inside foundOwner) contains'

end QueryFusion.Plan

import Mathlib.Logic.Relation
import QueryFusion.Plan.Operator
import QueryFusion.Proofs.Outcome

/-!
# Reachable operators and the order of a walk

An operator stands below another one if it is an input of it or the root of its nested plan. A walk
of a plan without cycles lists each reachable operator once, after everything that stands below it.

The leaf of a nested plan passes on what its owner reads, without standing above it. If every way
from the root to the leaf enters the nested plan through its owner, the input of the owner is listed
before the leaf, because an owner's inputs are walked before its nested plan.
-/

namespace QueryFusion.Plan

variable {plan : Plan} {met' : List OpId} {within : OpId → Prop}

/-- What stands right below an operator: its inputs, then the root of its nested plan. -/
def Operator.below (op : Operator) : List OpId := op.inputs ++ op.body.nested?.toList

/-- The second operator stands right below the first one. -/
def Below (plan : Plan) (id next : OpId) : Prop := ∃ op, plan.ops[id]? = some op ∧ next ∈ op.below

/-- The second operator is the first one or stands somewhere below it. -/
def Reaches (plan : Plan) : OpId → OpId → Prop := Relation.ReflTransGen plan.Below

/-- No operator stands below itself. -/
def Acyclic (plan : Plan) : Prop := ∀ id, ¬ Relation.TransGen plan.Below id id

/-- The second operator stands right below the first one, other than as the nested plan of `owner`. -/
def BelowOutside (plan : Plan) (owner id next : OpId) : Prop :=
  ∃ op, plan.ops[id]? = some op ∧ (next ∈ op.inputs ∨ (id ≠ owner ∧ op.body.nested? = some next))

/-- The leaf of the nested plan of `owner`. -/
def IsLeafOf (plan : Plan) (leaf owner : OpId) : Prop :=
  ∃ op, plan.ops[leaf]? = some op ∧ op.body = .nestedSource (some owner)

/-- Every leaf of a nested plan occurs only in the nested plan of its owner: no way from the root
leads to it that does not enter that nested plan. -/
def LeavesOwned (plan : Plan) (root : OpId) : Prop :=
  ∀ leaf owner, plan.IsLeafOf leaf owner →
    ¬ Relation.ReflTransGen (plan.BelowOutside owner) root leaf

/-- The live variables of the first operator are computed from those of the second one. -/
def Needs (plan : Plan) (id next : OpId) : Prop :=
  plan.Below id next ∨
    ∃ owner op, plan.IsLeafOf id owner ∧ plan.ops[owner]? = some op ∧ next ∈ op.inputs

/-- A list of operators, the latest first, in which each stands once and after what it needs. -/
def Ordered (plan : Plan) : List OpId → Prop
  | [] => True
  | id :: rest => (∀ next, plan.Needs id next → next ∈ rest) ∧ id ∉ rest ∧ Ordered plan rest

theorem acyclic_of_descending
    (descends : ∀ id : Fin plan.ops.size, ∀ next ∈ plan.ops[id].below, next < id.val) :
    plan.Acyclic := by
  have step : ∀ id next, plan.Below id next → next < id := by
    rintro id next ⟨op, found, member⟩
    obtain ⟨bound, rfl⟩ := Array.getElem?_eq_some_iff.mp found
    exact descends ⟨id, bound⟩ next member
  have below : ∀ id next, Relation.TransGen plan.Below id next → next < id := by
    intro id next reaches
    induction reaches with
    | single one => exact step _ _ one
    | tail _ one ih => exact Nat.lt_trans (step _ _ one) ih
  exact fun id cycle => Nat.lt_irrefl id (below id id cycle)

theorem leavesOwned_of_none {root : OpId}
    (none : ∀ id : Fin plan.ops.size, ∀ owner, plan.ops[id].body ≠ .nestedSource owner) :
    plan.LeavesOwned root := by
  rintro leaf owner ⟨op, found, isLeaf⟩
  obtain ⟨bound, rfl⟩ := Array.getElem?_eq_some_iff.mp found
  exact absurd isLeaf (none ⟨leaf, bound⟩ (some owner))

variable {op : Operator}

/-- Looking an operator up succeeds where the table has one. -/
theorem get_eq_ok {id : OpId} : plan.get id = .ok op ↔ plan.ops[id]? = some op := by
  unfold Plan.get
  cases plan.ops[id]? with
  | none => constructor <;> intro h <;> cases h
  | some found => constructor <;> intro h <;> cases h <;> rfl

/-! ## What a walk does to its state -/

/-- Whether a walk may go on at an operator: for every nested plan, either the way so far has not
entered it or the inputs of its owner are finished. -/
def MayEnter (plan : Plan) (root id : OpId) (finished : List OpId) : Prop :=
  ∀ leaf owner op, plan.IsLeafOf leaf owner → plan.ops[owner]? = some op →
    Relation.ReflTransGen (plan.BelowOutside owner) root id ∨ ∀ next ∈ op.inputs, next ∈ finished

/-- The state of a walk that is about to go on at `id`. What is met is finished or on the way. -/
structure Walking (plan : Plan) (root id : OpId) (met finished : List OpId) : Prop where
  ordered : plan.Ordered finished
  met_of_finished : ∀ other ∈ finished, other ∈ met
  finished_or_above : ∀ other ∈ met, other ∈ finished ∨ Relation.TransGen plan.Below other id
  mayEnter : plan.MayEnter root id finished

/-- What a part of a walk that starts at one of `starts` changes. -/
structure Walked (plan : Plan) (starts : List OpId) (met finished met' finished' : List OpId) :
    Prop where
  ordered : plan.Ordered finished'
  met_of_finished : ∀ other ∈ finished', other ∈ met'
  met_kept : ∀ other ∈ met, other ∈ met'
  started : ∀ start ∈ starts, start ∈ finished'
  kept : ∀ other ∈ finished, other ∈ finished'
  pending : ∀ other ∈ met', other ∈ finished' ∨ (other ∈ met ∧ other ∉ finished)
  reached : ∀ other ∈ finished', other ∈ finished ∨ ∃ start ∈ starts, plan.Reaches start other

variable {root id : OpId} {met finished : List OpId}

variable {finished' : List OpId}

theorem MayEnter.mono (enter : plan.MayEnter root id finished)
    (kept : ∀ other ∈ finished, other ∈ finished') : plan.MayEnter root id finished' := by
  intro leaf owner op isLeaf found
  cases enter leaf owner op isLeaf found with
  | inl outside => exact .inl outside
  | inr inputs => exact .inr fun next member => kept next (inputs next member)

variable {next : OpId}

/-- A walk may go on at the inputs of where it is. -/
theorem MayEnter.input (enter : plan.MayEnter root id finished)
    (found : plan.ops[id]? = some op) (member : next ∈ op.inputs) :
    plan.MayEnter root next finished := by
  intro leaf owner owning isLeaf foundOwner
  cases enter leaf owner owning isLeaf foundOwner with
  | inl outside => exact .inl (outside.tail ⟨op, found, .inl member⟩)
  | inr inputs => exact .inr inputs

theorem MayEnter.nested (enter : plan.MayEnter root id finished)
    (found : plan.ops[id]? = some op) (nested : op.body.nested? = some next)
    (inputs : ∀ input ∈ op.inputs, input ∈ finished) : plan.MayEnter root next finished := by
  intro leaf owner owning isLeaf foundOwner
  cases enter leaf owner owning isLeaf foundOwner with
  | inl outside =>
    by_cases same : id = owner
    · subst same
      have eq : owning = op := Option.some.inj (foundOwner.symm.trans found)
      exact .inr (eq ▸ inputs)
    · exact .inl (outside.tail ⟨op, found, .inr ⟨same, nested⟩⟩)
  | inr inputs => exact .inr inputs

theorem Walked.refl (ordered : plan.Ordered finished)
    (met_of_finished : ∀ other ∈ finished, other ∈ met) :
    plan.Walked [] met finished met finished where
  ordered := ordered
  met_of_finished := met_of_finished
  met_kept := fun _ member => member
  started := by simp
  kept := fun _ member => member
  pending := fun other member => by
    by_cases done : other ∈ finished
    · exact .inl done
    · exact .inr ⟨member, done⟩
  reached := fun _ member => .inl member

variable {starts : List OpId}

theorem Walked.trans {starts' met₁ finished₁ met₂ finished₂ : List OpId}
    (first : plan.Walked starts met finished met₁ finished₁)
    (second : plan.Walked starts' met₁ finished₁ met₂ finished₂) :
    plan.Walked (starts ++ starts') met finished met₂ finished₂ where
  ordered := second.ordered
  met_of_finished := second.met_of_finished
  met_kept := fun other member => second.met_kept _ (first.met_kept _ member)
  started := by
    intro start member
    rcases List.mem_append.mp member with early | late
    · exact second.kept _ (first.started _ early)
    · exact second.started _ late
  kept := fun other member => second.kept _ (first.kept _ member)
  pending := by
    intro other member
    rcases second.pending other member with done | ⟨metBefore, open'⟩
    · exact .inl done
    · rcases first.pending other metBefore with done | waiting
      · exact absurd done open'
      · exact .inr waiting
  reached := by
    intro other member
    rcases second.reached other member with early | ⟨start, isStart, reaches⟩
    · rcases first.reached other early with before | ⟨start, isStart, reaches⟩
      · exact .inl before
      · exact .inr ⟨start, List.mem_append_left _ isStart, reaches⟩
    · exact .inr ⟨start, List.mem_append_right _ isStart, reaches⟩

theorem Walked.finished_or_above (walked : plan.Walked starts (id :: met) finished met' finished')
    (before : ∀ other ∈ met, other ∈ finished ∨ Relation.TransGen plan.Below other id)
    (below : plan.Below id next) :
    ∀ other ∈ met', other ∈ finished' ∨ Relation.TransGen plan.Below other next := by
  intro other member
  rcases walked.pending other member with done | ⟨waiting, notDone⟩
  · exact .inl done
  · rcases List.mem_cons.mp waiting with rfl | earlier
    · exact .inr (.single below)
    · rcases before other earlier with done | above
      · exact absurd done notDone
      · exact .inr (above.tail below)

/-! ## The whole walk -/

theorem Walking.enter (walking : plan.Walking root id met finished)
    (found : plan.ops[id]? = some op)
    (walked : plan.Walked starts (id :: met) finished met' finished') (below : next ∈ op.below)
    (enter : plan.MayEnter root next finished') : plan.Walking root next met' finished' where
  ordered := walked.ordered
  met_of_finished := walked.met_of_finished
  finished_or_above := walked.finished_or_above walking.finished_or_above ⟨op, found, below⟩
  mayEnter := enter

theorem foldlM_walked {depth : Nat}
    (walking : plan.Walking root id met finished) (found : plan.ops[id]? = some op)
    (step : ∀ next met finished met' finished', plan.Walking root next met finished →
      plan.walkFrom depth next (met, finished) = .ok (met', finished') →
      plan.Walked [next] met finished met' finished') :
    ∀ (todo starts : List OpId) (met₁ finished₁ met₂ finished₂ : List OpId),
      plan.Walked starts (id :: met) finished met₁ finished₁ →
      (∀ next ∈ todo, next ∈ op.below) →
      (∀ next ∈ todo, plan.MayEnter root next finished₁) →
      todo.foldlM (fun state next => plan.walkFrom depth next state) (met₁, finished₁) =
        .ok (met₂, finished₂) →
      plan.Walked (starts ++ todo) (id :: met) finished met₂ finished₂ := by
  intro todo
  induction todo with
  | nil =>
    intro starts met₁ finished₁ met₂ finished₂ walked _ _ folded
    cases folded
    simpa using walked
  | cons next rest ih =>
    intro starts met₁ finished₁ met₂ finished₂ walked below enter folded
    obtain ⟨⟨met', finished'⟩, one, others⟩ := Except.bind_eq_ok.mp folded
    have here := walking.enter found walked (below next (.head _)) (enter next (.head _))
    have stepped := step next met₁ finished₁ met' finished' here one
    have through := walked.trans stepped
    have result := ih (starts ++ [next]) met' finished' met₂ finished₂ through
      (List.forall_mem_cons.mp below).2
      (fun other member => (enter other (.tail _ member)).mono stepped.kept) others
    simpa using result

theorem Walking.finished_of_met (walking : plan.Walking root id met finished)
    (acyclic : plan.Acyclic) (isMet : id ∈ met) : id ∈ finished := by
  rcases walking.finished_or_above id isMet with done | above
  · exact done
  · exact absurd above (acyclic id)

theorem needs_finished (found : plan.ops[id]? = some op)
    (owned : plan.LeavesOwned root) (enter : plan.MayEnter root id finished)
    (below : ∀ next ∈ op.below, next ∈ finished) (needs : plan.Needs id next) :
    next ∈ finished := by
  rcases needs with ⟨other, foundOther, member⟩ | ⟨owner, owning, isLeaf, foundOwner, member⟩
  · have eq : other = op := Option.some.inj (foundOther.symm.trans found)
    exact below next (eq ▸ member)
  · rcases enter id owner owning isLeaf foundOwner with outside | inputs
    · exact absurd outside (owned id owner isLeaf)
    · exact inputs next member

theorem walkFrom_walked (acyclic : plan.Acyclic) (owned : plan.LeavesOwned root) (depth : Nat) :
    ∀ (id : OpId) (met finished met' finished' : List OpId), plan.Walking root id met finished →
      plan.walkFrom depth id (met, finished) = .ok (met', finished') →
      plan.Walked [id] met finished met' finished' := by
  induction depth with
  | zero =>
    intro id met finished met' finished' _ walked
    cases walked
  | succ depth ih =>
    intro id met finished met' finished' walking walked
    rw [walkFrom] at walked
    by_cases isMet : id ∈ met
    · rw [if_pos (List.contains_iff_mem.mpr isMet)] at walked
      cases walked
      have done := walking.finished_of_met acyclic isMet
      have still := Walked.refl walking.ordered walking.met_of_finished
      exact { still with
        started := by simpa using done
        reached := fun other member => .inl member }
    · rw [if_neg (fun isIn => isMet (List.contains_iff_mem.mp isIn))] at walked
      obtain ⟨op, got, walked⟩ := Except.bind_eq_ok.mp walked
      have found : plan.ops[id]? = some op := get_eq_ok.mp got
      obtain ⟨⟨metBelow, finishedBelow⟩, folded, ended⟩ := Except.bind_eq_ok.mp walked
      cases ended
      rw [List.foldlM_append] at folded
      obtain ⟨⟨metInputs, finishedInputs⟩, inputsFolded, nestedFolded⟩ :=
        Except.bind_eq_ok.mp folded
      have start : plan.Walked [] (id :: met) finished (id :: met) finished :=
        .refl walking.ordered fun other member => .tail _ (walking.met_of_finished other member)
      have inputs := foldlM_walked walking found ih op.inputs [] _ _ _ _ start
        (fun next member => List.mem_append_left _ member)
        (fun next member => walking.mayEnter.input found member) inputsFolded
      have nested := foldlM_walked walking found ih op.body.nested?.toList _ _ _ _ _ inputs
        (fun next member => List.mem_append_right _ member)
        (fun next member => (walking.mayEnter.mono inputs.kept).nested found
          (Option.mem_toList.mp member) fun input isInput =>
            inputs.started input (by simpa using isInput))
        nestedFolded
      have finishes : ∀ next ∈ op.below, next ∈ finishedBelow := by
        intro next member
        exact nested.started next (by simpa [Operator.below] using member)
      have notFinished : id ∉ finishedBelow := by
        intro member
        rcases nested.reached id member with before | ⟨start, isStart, reaches⟩
        · exact isMet (walking.met_of_finished id before)
        · have below : plan.Below id start :=
            ⟨op, found, by simpa [Operator.below] using isStart⟩
          exact acyclic id (Relation.TransGen.head' below reaches)
      exact {
        ordered := ⟨fun next needs => needs_finished found owned
          (walking.mayEnter.mono nested.kept) finishes needs, notFinished, nested.ordered⟩
        met_of_finished := by
          intro other member
          rcases List.mem_cons.mp member with rfl | later
          · exact nested.met_kept _ (.head _)
          · exact nested.met_of_finished other later
        met_kept := (List.forall_mem_cons.mp nested.met_kept).2
        started := by simp
        kept := fun other member => .tail _ (nested.kept other member)
        pending := by
          intro other member
          rcases nested.pending other member with done | ⟨waiting, notDone⟩
          · exact .inl (.tail _ done)
          · rcases List.mem_cons.mp waiting with rfl | earlier
            · exact .inl (.head _)
            · exact .inr ⟨earlier, notDone⟩
        reached := by
          intro other member
          rcases List.mem_cons.mp member with rfl | later
          · exact .inr ⟨other, List.mem_singleton_self _, .refl⟩
          · rcases nested.reached other later with before | ⟨start, isStart, reaches⟩
            · exact .inl before
            · have below : plan.Below id start :=
                ⟨op, found, by simpa [Operator.below] using isStart⟩
              exact .inr ⟨id, List.mem_singleton_self _, .head below reaches⟩ }

variable {ids : List OpId}

theorem walk_ordered (acyclic : plan.Acyclic) (owned : plan.LeavesOwned root)
    (walked : plan.walk root = .ok ids) :
    plan.Ordered ids.reverse ∧ root ∈ ids ∧ ∀ id ∈ ids, plan.Reaches root id := by
  obtain ⟨⟨met, finished⟩, from', ended⟩ := Except.bind_eq_ok.mp walked
  cases ended
  have start : plan.Walking root root [] [] := {
    ordered := trivial
    met_of_finished := by simp
    finished_or_above := by simp
    mayEnter := fun _ _ _ _ _ => .inl .refl }
  have done := walkFrom_walked acyclic owned _ root [] [] met finished start from'
  refine ⟨?_, ?_, ?_⟩
  · rw [List.reverse_reverse]
    exact done.ordered
  · exact List.mem_reverse.mpr (done.started root (List.mem_singleton_self _))
  · intro id member
    rcases done.reached id (List.mem_reverse.mp member) with none | ⟨start, isStart, reaches⟩
    · cases none
    · rw [List.mem_singleton.mp isStart] at reaches
      exact reaches

theorem walkFrom_within (closed : ∀ id next, within id → plan.Below id next → within next)
    (depth : Nat) :
    ∀ (id : OpId) (met finished met' finished' : List OpId), within id →
      (∀ other ∈ finished, within other) →
      plan.walkFrom depth id (met, finished) = .ok (met', finished') →
      ∀ other ∈ finished', within other := by
  induction depth with
  | zero =>
    intro id met finished met' finished' _ _ walked
    cases walked
  | succ depth ih =>
    intro id met finished met' finished' isWithin before walked
    rw [walkFrom] at walked
    split at walked
    · cases walked
      exact before
    · obtain ⟨op, got, walked⟩ := Except.bind_eq_ok.mp walked
      obtain ⟨⟨metBelow, finishedBelow⟩, folded, ended⟩ := Except.bind_eq_ok.mp walked
      cases ended
      have below : ∀ next ∈ op.below, within next := fun next member =>
        closed id next isWithin ⟨op, get_eq_ok.mp got, member⟩
      have fold : ∀ (todo : List OpId) (state state' : List OpId × List OpId),
          (∀ next ∈ todo, within next) → (∀ other ∈ state.2, within other) →
          todo.foldlM (fun state next => plan.walkFrom depth next state) state = .ok state' →
          ∀ other ∈ state'.2, within other := by
        intro todo
        induction todo with
        | nil =>
          intro state state' _ held folded
          cases folded
          exact held
        | cons next rest ihRest =>
          intro state state' todoWithin held folded
          obtain ⟨middle, one, others⟩ := Except.bind_eq_ok.mp folded
          exact ihRest middle state'
            (List.forall_mem_cons.mp todoWithin).2
            (ih next _ _ _ _ (todoWithin next (.head _)) held one) others
      intro other member
      rcases List.mem_cons.mp member with rfl | later
      · exact isWithin
      · exact fold op.below _ _ below before folded other later

theorem walk_within (closed : ∀ id next, within id → plan.Below id next → within next)
    (start : within root) (walked : plan.walk root = .ok ids) : ∀ id ∈ ids, within id := by
  obtain ⟨⟨met, finished⟩, from', ended⟩ := Except.bind_eq_ok.mp walked
  cases ended
  intro id member
  exact walkFrom_within closed _ root [] [] met finished start (by simp) from' id
    (List.mem_reverse.mp member)

theorem Ordered.mem_of_needs : ∀ {ids : List OpId} {id next : OpId}, plan.Ordered ids → id ∈ ids →
    plan.Needs id next → next ∈ ids
  | _ :: _, _, next, ordered, member, needs => by
    rcases List.mem_cons.mp member with rfl | later
    · exact .tail _ (ordered.1 next needs)
    · exact .tail _ (ordered.2.2.mem_of_needs later needs)

theorem Ordered.mem_of_reaches {other : OpId} (ordered : plan.Ordered ids)
    (member : id ∈ ids) (reaches : plan.Reaches id other) : other ∈ ids := by
  induction reaches with
  | refl => exact member
  | tail _ below ih => exact ordered.mem_of_needs ih (.inl below)

end QueryFusion.Plan

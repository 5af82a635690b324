import QueryFusion.Proofs.Engine.Motion
import QueryFusion.Proofs.Fusion.Growth

/-!
# Code that is still being made

While code is made, the final function is not known yet, but much of it is: a block that code no
longer goes to is final, and an open one only gets more. A step outside of loops adds statements to
the current block and to new blocks below it. It redirects no reader, and it declares variables in
front of the body of the function only.
-/

namespace QueryFusion.Fusion

open Code
open Code.Arena (declaration declaration_inj)

/-- The copy of all values of a reader. -/
def copyOf (j : Nat) : Node := .member (.ident (Function.readerName j)) Code.Member.materialize []

namespace Scope

/-- The scope with another current block. -/
def goto (scope : Scope) (block : BlockId) : Scope := { scope with current := block }

@[simp] theorem goto_fn (scope : Scope) (block : BlockId) : (scope.goto block).fn = scope.fn := rfl

@[simp] theorem goto_current (scope : Scope) (block : BlockId) :
    (scope.goto block).current = block := rfl

/-- A block declares a variable in front of everything else. -/
def Declares (scope : Scope) (b : BlockId) (n : Nat) (init : Node) : Prop :=
  ∃ block, scope.fn.arena.blocks[b]? = some block ∧ declaration n init ∈ block.front

/-- The statements in a block so far. -/
def code (scope : Scope) (b : BlockId) : List Node :=
  ((scope.fn.arena.blocks[b]?).map Block.rest).getD []

/-- What was added to the current block. -/
def emitted (scope later : Scope) : List Node :=
  (later.code scope.current).drop (scope.code scope.current).length

variable {scope later third final : Scope} {b h : BlockId}

theorem Rooted.eq_of_within (rooted : scope.Rooted) {a b : BlockId}
    (first : scope.fn.arena.Within a b) (second : scope.fn.arena.Within b a) : a = b :=
  Nat.le_antisymm (rooted.tree.le_of_within second) (rooted.tree.le_of_within first)

/-! ## Complete functions -/

/-- A function that code can end up as: open blocks have grown, and what is below the current block
has stayed as it is. -/
structure Completes (scope final : Scope) : Prop where
  body : final.fn.body = scope.fn.body
  paths : scope.fn.paths <+: final.fn.paths
  names : scope.fn.arena.names ≤ final.fn.arena.names
  named : final.fn.arena.Named
  grown : ∀ b block, scope.Open b → scope.fn.arena.blocks[b]? = some block →
    ∃ block', final.fn.arena.blocks[b]? = some block' ∧
      block.Grows scope.fn.arena.names final.fn.arena.names block'
  closed : ∀ b block, scope.fn.arena.Within b scope.current → b ≠ scope.current →
    scope.fn.arena.blocks[b]? = some block → final.fn.arena.blocks[b]? = some block

theorem Later.closed (later' : scope.Later later) (rooted : scope.Rooted) {block : Block}
    (within : scope.fn.arena.Within b scope.current) (apart : b ≠ scope.current)
    (here : scope.fn.arena.blocks[b]? = some block) : later.fn.arena.blocks[b]? = some block :=
  later'.arena.untouched b block here fun isOpen =>
    apart (rooted.eq_of_within within (isOpen rooted))

theorem Completes.of_later (later' : scope.Later final) (rooted : scope.Rooted)
    (named : scope.fn.arena.Named) : scope.Completes final where
  body := later'.body
  paths := later'.paths
  names := later'.arena.names
  named := later'.named named
  grown := fun b block _ here => later'.arena.grown b block here
  closed := fun _ _ within apart here => later'.closed rooted within apart here

/-- What completes later code completes the code before it. -/
theorem Completes.before (completes : later.Completes final) (adds : scope.Adds later)
    (rooted : scope.Rooted) : scope.Completes final where
  body := completes.body.trans adds.later.body
  paths := adds.later.paths.trans completes.paths
  names := adds.later.arena.names.trans completes.names
  named := completes.named
  grown := by
    intro b block isOpen here
    obtain ⟨block', here', grows⟩ := adds.later.arena.grown b block here
    obtain ⟨block'', here'', grows'⟩ := completes.grown b block' (adds.open isOpen) here'
    exact ⟨block'', here'', grows.trans grows' adds.later.arena.names completes.names⟩
  closed := by
    intro b block within apart here
    refine completes.closed b block (adds.current ▸ adds.later.arena.within within)
      (adds.current ▸ apart) ?_
    exact adds.later.closed rooted within apart here

theorem Completes.inner (completes : (scope.goto h).Completes final) (rooted : scope.Rooted)
    (within : scope.fn.arena.Within b h) : (scope.goto b).Completes final where
  body := completes.body
  paths := completes.paths
  names := completes.names
  named := completes.named
  grown := by
    intro a block isOpen here
    rcases Arena.within_total within isOpen with above | below
    · exact completes.grown a block above here
    · by_cases same : a = h
      · subst same
        exact completes.grown a block .refl here
      · exact ⟨block, completes.closed a block below same here, .refl _ _ _⟩
  closed := by
    intro a block inside apart here
    refine completes.closed a block (inside.trans within) ?_ here
    rintro rfl
    exact apart (rooted.eq_of_within inside within)

/-! ## Steps -/

/-- Every path has at most one reader and is one of the given paths. -/
structure WellRead (D : Path → Prop) (scope : Scope) : Prop where
  known : ∀ p ∈ scope.fn.paths, D p
  distinct : (scope.fn.paths.map Path.text).Nodup

end Scope

theorem prefix_getElem? {α : Type} {xs ys : List α} (isPrefix : xs <+: ys) {i : Nat} {a : α}
    (here : xs[i]? = some a) : ys[i]? = some a := by
  obtain ⟨rest, rfl⟩ := isPrefix
  rw [List.getElem?_append_left (List.getElem?_eq_some_iff.mp here).1]
  exact here

/-- What makes an aggregator. -/
inductive MakesGroups : Node → Prop
  | hash (kind : String) (budget : Int64) (isKind : (Engine.HashKind.ofName? kind).isSome) :
      MakesGroups (.call Code.Builtin.newHashAggregator [.string kind, .long budget])
  | topK (count : Int64) (least : Bool) :
      MakesGroups (.call Code.Builtin.newTopKAggregator [.long count, .bool least])

/-- What a variable in front of the body of a function can start from. -/
inductive Starts : Node → Prop
  | lit (l : Code.Literal) : Starts (.lit l)
  | groups {init : Node} (makes : MakesGroups init) : Starts init

/-- What a step of the compiler does to a scope. -/
structure Scope.Step (D : Path → Prop) (scope later : Scope) : Prop where
  enters : scope.Enters later
  reads : scope.WellRead D → later.WellRead D
  calm : ∀ b block block', scope.fn.arena.blocks[b]? = some block →
    later.fn.arena.blocks[b]? = some block' →
    block'.tail = block.tail ∧ block'.overrides = block.overrides ∧
      (b ≠ scope.current → block'.rest = block.rest ∧ block'.bound = block.bound)
  fronts : ∀ b n init, scope.Open b → later.Declares b n init →
    scope.Declares b n init ∨ b = scope.fn.body ∧ Starts init

section Steps

variable {D : Path → Prop} {scope later third : Scope} {b : BlockId}

theorem Scope.Declares.kept {n : Nat} {init : Node} (declares : scope.Declares b n init)
    (later' : scope.Later later) : later.Declares b n init := by
  obtain ⟨block, here, member⟩ := declares
  obtain ⟨block', here', grows⟩ := later'.arena.grown b block here
  obtain ⟨more, same, _⟩ := grows.front
  exact ⟨block', here', same ▸ List.mem_append_right _ member⟩

theorem Scope.Enters.open (enters : scope.Enters later) (isOpen : scope.Open b) : later.Open b :=
  enters.within.trans (enters.later.arena.within isOpen)

theorem Scope.Enters.adds (enters : scope.Enters later) : scope.Adds (later.goto scope.current) :=
  ⟨enters.later.back fun _ => .refl, rfl⟩

namespace Scope.Step

theorem refl (D : Path → Prop) (scope : Scope) : scope.Step D scope where
  enters := (Scope.Adds.refl scope).enters
  reads := id
  calm := by
    intro b block block' here here'
    cases here.symm.trans here'
    exact ⟨rfl, rfl, fun _ => ⟨rfl, rfl⟩⟩
  fronts := fun _ _ _ _ declares => .inl declares

theorem trans (first : scope.Step D later) (second : later.Step D third)
    (moves : later.current = scope.current ∨ scope.fn.arena.blocks.size ≤ later.current) :
    scope.Step D third where
  enters := first.enters.trans second.enters
  reads := fun reads => second.reads (first.reads reads)
  calm := by
    intro b block block'' here here''
    obtain ⟨block', here', _⟩ := first.enters.later.arena.grown b block here
    obtain ⟨tail, overrides, rest⟩ := first.calm b block block' here here'
    obtain ⟨tail', overrides', rest'⟩ := second.calm b block' block'' here' here''
    refine ⟨tail'.trans tail, overrides'.trans overrides, fun apart => ?_⟩
    have apart' : b ≠ later.current := by
      rcases moves with same | beyond
      · exact same ▸ apart
      · have bound := Array.inside here
        exact Nat.ne_of_lt (bound.trans_le beyond)
    exact ⟨(rest' apart').1.trans (rest apart).1, (rest' apart').2.trans (rest apart).2⟩
  fronts := by
    intro b n init isOpen declares
    rcases second.fronts b n init (first.enters.open isOpen) declares with declares' | ⟨isBody, starts⟩
    · exact first.fronts b n init isOpen declares'
    · exact .inr ⟨isBody.trans first.enters.later.body, starts⟩

/-- Two steps at the same block. -/
theorem append (first : scope.Step D later) (second : later.Step D third)
    (same : later.current = scope.current) : scope.Step D third :=
  first.trans second (.inl same)

end Scope.Step

/-! ## Scopes in order -/

/-- A scope is in order: paths are told apart by their texts, and no reader is redirected. -/
structure Sound (D : Path → Prop) (scope : Scope) : Prop where
  texts : ∀ p q, D p → D q → p.text = q.text → p = q
  rooted : scope.Rooted
  named : scope.fn.arena.Named
  reads : scope.WellRead D
  direct : ∀ b block, scope.Open b → scope.fn.arena.blocks[b]? = some block → block.overrides = []

theorem Scope.Bound.kept {reader : String} (bound : scope.Bound reader)
    (adds : scope.Adds later) : later.Bound reader := by
  obtain ⟨id, block, isOpen, here, member⟩ := bound
  obtain ⟨block', here', grows⟩ := adds.later.arena.grown id block here
  exact ⟨id, block', adds.open isOpen, here', grows.bound.subset member⟩

theorem Sound.step (sound : Sound D scope) (step : scope.Step D later) :
    Sound D (later.goto scope.current) := by
  have adds := step.enters.adds
  refine ⟨sound.texts, adds.later.rooted sound.rooted, adds.later.named sound.named,
    ⟨(step.reads sound.reads).known, (step.reads sound.reads).distinct⟩, ?_⟩
  intro b block' isOpen here'
  have isOpen' : scope.Open b :=
    adds.later.arena.within_of_lt sound.rooted.tree isOpen sound.rooted.current
  have here := Array.getElem?_eq_getElem (sound.rooted.lt_of_open isOpen')
  rw [(step.calm b _ block' here here').2.1]
  exact sound.direct b _ isOpen' here

theorem Sound.here (sound : Sound D scope) (step : scope.Step D later)
    (same : later.current = scope.current) : Sound D later := by
  have back := sound.step step
  rwa [← same] at back

end Steps

end QueryFusion.Fusion

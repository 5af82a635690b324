import QueryFusion.Proofs.Fusion.Reading

/-!
# Entering blocks

Nothing is declared in front of the blocks of branches, so a machine that is ready for the code around
a block is ready for the code inside. A branch runs one of its blocks, and code goes on where the
branch was.
-/

namespace QueryFusion.Fusion

open Code
open Engine

variable {home : BlockId} {wanted : Flow → Machine → Prop} {tag : Tag} {test : Node}
variable {agrees : Except RunError Value → Prop} {α : Type} {pre : Prop}
variable {post : α → Scope → Flow → Machine → Prop}

section front

variable {D : Path → Prop} {final inner later : Scope} {spot : Spot} {m : Machine}
variable {accepted : RunError → Prop}

/-- A block that has just been opened in a block around it. -/
structure Scope.Fresh (inner : Scope) (home : BlockId) : Prop where
  isParent : inner.fn.arena.Parent inner.current home
  empty : ∀ block, inner.fn.arena.blocks[inner.current]? = some block →
    block.front = [] ∧ block.rest = [] ∧ block.tail = [] ∧ block.bound = []

theorem Scope.Fresh.open_iff (fresh : inner.Fresh home) (a : BlockId) :
    inner.Open a ↔ a = inner.current ∨ (inner.goto home).Open a := by
  obtain ⟨block, here, isParent⟩ := fresh.isParent
  rw [Scope.Open, Arena.within_iff here]
  constructor
  · rintro (same | ⟨parent, isParent', within⟩)
    · exact .inl same
    · exact .inr (Option.some.inj (isParent.symm.trans isParent') ▸ within)
  · rintro (same | within)
    · exact .inl same
    · exact .inr ⟨home, isParent, within⟩

theorem Ready.enter (ready : Ready final (inner.goto home) spot m) (fresh : inner.Fresh home)
    (noFront : ∀ n init, ¬ final.Declares inner.current n init) : Ready final inner spot m where
  stands := ready.stands
  reads := by
    rintro j c ⟨a, block, isOpen, here, member⟩ isColumn
    rcases (fresh.open_iff a).mp isOpen with rfl | isOpen'
    · rw [(fresh.empty block here).2.2.2] at member
      cases member
    · exact ready.reads j c ⟨a, block, isOpen', here, member⟩ isColumn
  declared := by
    intro a n init isOpen declares
    rcases (fresh.open_iff a).mp isOpen with rfl | isOpen'
    · exact absurd declares (noFront n init)
    · exact ready.declared a n init isOpen' declares

/-- The run of a block that is complete. -/
theorem Ends.enter (fresh : inner.Fresh home) (rooted : inner.Rooted) (step : inner.Step D later)
    (named : final.fn.arena.Named)
    (isFinal : final.fn.arena.blocks[inner.current]? = later.fn.arena.blocks[inner.current]?)
    (ready : Ready final (inner.goto home) spot m) (runs : Ready final inner spot m →
      Ends (execAll final.fn (inner.emitted later)) m wanted accepted) :
    Ends (execBlock final.fn inner.current) m wanted accepted := by
  obtain ⟨start, isStart, isParent⟩ := fresh.isParent
  obtain ⟨noFront, noRest, noTail, _⟩ := fresh.empty start isStart
  obtain ⟨block, here, grows⟩ := step.enters.later.arena.grown _ start isStart
  have proper : inner.current ≠ emptyBlock := by
    intro same
    have above := rooted.tree _ _ fresh.isParent
    rw [same] at above
    exact Nat.not_lt_zero _ above
  have inside : inner.current ≠ inner.fn.body := by
    intro same
    have isTop := rooted.top home
    rw [← same] at isTop
    exact isTop fresh.isParent
  have isHere : final.fn.arena.blocks[inner.current]? = some block := isFinal.trans here
  have undeclared : ∀ n init, ¬ final.Declares inner.current n init := by
    rintro n init ⟨block', here', member⟩
    cases isHere.symm.trans here'
    rcases step.fronts _ n init .refl ⟨block, here, member⟩ with ⟨old, isOld, member'⟩ | ⟨isBody, _⟩
    · cases isStart.symm.trans isOld
      rw [noFront] at member'
      cases member'
    · exact inside isBody
  have isFront : block.front = [] := by
    refine List.eq_nil_iff_forall_not_mem.mpr fun s member => ?_
    obtain ⟨n, init, _, rfl⟩ := named.front _ block isHere s member
    exact undeclared n init ⟨block, isHere, member⟩
  refine .block isHere proper ?_
  have isCode : block.statements = inner.emitted later := by
    unfold Block.statements Block.head Scope.emitted Scope.code
    rw [here, isStart, isFront, (step.calm _ start block isStart here).1, noTail]
    simp [noRest]
  rw [isCode]
  exact runs (ready.enter fresh undeclared)

end front

/-! ## New blocks -/

section blocks

variable {D : Path → Prop} {final scope middle later : Scope} {may : Nat → Prop} {spot : Spot}
variable {m m' : Machine} {accepted : RunError → Prop} {b : BlockId}

theorem quiet_openBlock (isTag : tag ≠ .records) (sound : Sound D scope) :
    Yields (openBlock scope.current tag) scope fun id later => scope.Quiet D later ∧
      scope.Rebuilt later 0 ∧ id = scope.fn.arena.blocks.size ∧
      ∀ i : BlockId, later.fn.arena.blocks[i]? =
        if i = id then some { parent := some scope.current, tag } else scope.fn.arena.blocks[i]? := by
  refine (yields_openBlock scope.current tag scope).mono ?_
  rintro id _ ⟨rfl, rfl⟩
  have rooted := sound.rooted
  have adds := adds_block isTag fun (_ : scope.Rooted) => .refl
  have blocks := scope.fn.arena.new_getElem? (some scope.current) tag
  have kept : ∀ (i : BlockId) (block block' : Block), scope.fn.arena.blocks[i]? = some block →
      (scope.fn.arena.new (some scope.current) tag).2.blocks[i]? = some block' → block' = block := by
    intro i block block' here here'
    have bound := Array.inside here
    rw [blocks, if_neg bound.ne] at here'
    exact (Option.some.inj (here.symm.trans here')).symm
  refine ⟨⟨⟨adds.enters, fun reads => ⟨reads.known, reads.distinct⟩, ?_, ?_⟩, rfl, ?_, ?_⟩,
    ⟨⟨_, rfl⟩, rfl⟩, rfl, blocks⟩
  · intro i block block' here here'
    obtain rfl := kept i block block' here here'
    exact ⟨rfl, rfl, fun _ => ⟨rfl, rfl⟩⟩
  · rintro i n init _ ⟨block', here', member⟩
    rw [blocks] at here'
    split at here'
    · cases here'
      cases member
    · exact .inl ⟨block', here', member⟩
  · unfold Scope.code
    have apart : scope.current ≠ scope.fn.arena.blocks.size := rooted.current.ne
    rw [blocks, if_neg apart]
  · rintro reader ⟨i, block', isOpen, here', member⟩
    rw [blocks] at here'
    split at here'
    · cases here'
      cases member
    · exact ⟨i, block', (adds.open_iff rooted i).mp isOpen, here', member⟩

/-- A scope after a step at the same block, with a new empty block below it. -/
structure Prepared (D : Path → Prop) (scope middle : Scope) (b : BlockId) : Prop where
  step : scope.Step D middle
  current : middle.current = scope.current
  isNew : scope.fn.arena.blocks.size ≤ b
  here : ∃ tag, middle.fn.arena.blocks[b]? = some { parent := some scope.current, tag }

namespace Prepared

variable (prepared : Prepared D scope middle b)

include prepared

theorem isParent : middle.fn.arena.Parent b scope.current := by
  obtain ⟨tag, here⟩ := prepared.here
  exact ⟨_, here, rfl⟩

theorem ne_current (rooted : scope.Rooted) :
    scope.current ≠ b := Nat.ne_of_lt (rooted.current.trans_le prepared.isNew)

theorem enters : scope.Enters (middle.goto b) := by
  obtain ⟨tag, here⟩ := prepared.here
  exact ⟨prepared.step.enters.later.into (fun _ => prepared.isNew)
    (fun _ => (Array.inside here)) prepared.isParent fun _ => .refl,
    .single prepared.isParent⟩

/-- The step into the new block. -/
theorem into : scope.Step D (middle.goto b) where
  enters := prepared.enters
  reads := fun reads => ⟨(prepared.step.reads reads).known, (prepared.step.reads reads).distinct⟩
  calm := prepared.step.calm
  fronts := prepared.step.fronts

theorem fresh : (middle.goto b).Fresh scope.current := by
  obtain ⟨tag, here⟩ := prepared.here
  refine ⟨prepared.isParent, fun block here' => ?_⟩
  cases here.symm.trans here'
  exact ⟨rfl, rfl, rfl, rfl⟩

theorem sound_middle (sound : Sound D scope) : Sound D middle :=
  sound.here prepared.step prepared.current

/-- A scope stays in order when code goes to the new block. -/
theorem sound (sound : Sound D scope) : Sound D (middle.goto b) := by
  have middle' := prepared.sound_middle sound
  obtain ⟨tag, here⟩ := prepared.here
  refine ⟨middle'.texts, prepared.enters.later.rooted sound.rooted, middle'.named,
    ⟨middle'.reads.known, middle'.reads.distinct⟩, fun a block isOpen here' => ?_⟩
  rcases (prepared.fresh.open_iff a).mp isOpen with rfl | isOpen'
  · cases here.symm.trans here'
    rfl
  · have isOpen'' : middle.Open a := by
      rw [Scope.Open, prepared.current]
      exact isOpen'
    exact middle'.direct a block isOpen'' here'

/-- A step inside the new block. -/
theorem step_inside (step : (middle.goto b).Step D later) : scope.Step D later :=
  prepared.into.trans step (.inr prepared.isNew)

theorem emitted (rooted : scope.Rooted)
    (step : (middle.goto b).Step D later) : scope.emitted later = scope.emitted middle := by
  have here := Array.getElem?_eq_getElem rooted.current
  obtain ⟨block', here', _⟩ := prepared.step.enters.later.arena.grown _ _ here
  obtain ⟨block'', here'', _⟩ := step.enters.later.arena.grown _ block' here'
  have same := ((step.calm _ block' block'' here' here'').2.2 (prepared.ne_current rooted)).1
  unfold Scope.emitted Scope.code
  rw [here'', here']
  change List.drop _ block''.rest = List.drop _ block'.rest
  rw [same]

theorem within (step : (middle.goto b).Step D later) : later.fn.arena.Within b scope.current :=
  step.enters.later.arena.within (.single prepared.isParent)

/-- Going back to the block around the new one. -/
theorem ready_back (step : (middle.goto b).Step D later) (ready : Ready final (later.goto b) spot m) :
    Ready final (later.goto scope.current) spot m := by
  have within := prepared.within step
  refine ready.transport (fun a isOpen => within.trans isOpen) ?_
  rintro reader ⟨a, block, isOpen, here, member⟩
  exact ⟨a, block, within.trans isOpen, here, member⟩

theorem bound_back (rooted : scope.Rooted) (step : (middle.goto b).Step D later) {reader : String}
    (bound : (later.goto scope.current).Bound reader) : middle.Bound reader := by
  obtain ⟨a, block, isOpen, here, member⟩ := bound
  have isOpen' : scope.Open a :=
    ((prepared.step_inside step).enters.adds.open_iff rooted a).mp isOpen
  have below := rooted.lt_of_open isOpen'
  have isThere := Array.getElem?_eq_getElem below
  obtain ⟨block', here', _⟩ := prepared.step.enters.later.arena.grown a _ isThere
  have apart : a ≠ b := Nat.ne_of_lt (below.trans_le prepared.isNew)
  refine ⟨a, block', prepared.step.enters.open isOpen', here', ?_⟩
  rwa [((step.calm a block' block here' here).2.2 apart).2] at member

theorem ready_around (rooted : scope.Rooted) (step : (middle.goto b).Step D later)
    (ready : Ready final middle spot m) : Ready final (later.goto scope.current) spot m :=
  ready.transport (fun a isOpen => prepared.step.enters.open
    (((prepared.step_inside step).enters.adds.open_iff rooted a).mp isOpen))
    fun _ => prepared.bound_back rooted step

/-- The block is opened after all that is ready. -/
theorem ready_middle (rooted : scope.Rooted) (bounds : ∀ reader, middle.Bound reader → scope.Bound reader)
    (ready : Ready final scope spot m) : Ready final middle spot m := by
  refine ready.transport (fun a isOpen => (prepared.step.enters.adds.open_iff rooted a).mp ?_) bounds
  rwa [Scope.Open, prepared.current] at isOpen

/-- A run of the new block, once it is complete. -/
theorem run (post : Flow → Machine → Prop)
    (sound : Sound D scope) (step : (middle.goto b).Step D later) (named : final.fn.arena.Named)
    (isFinal : final.fn.arena.blocks[b]? = later.fn.arena.blocks[b]?)
    (ready : Ready final middle spot m)
    (runs : Ready final (middle.goto b) spot m →
      Ends (execAll final.fn ((middle.goto b).emitted later)) m
        (Settled final (middle.goto b) later may spot m post) accepted) :
    Ends (execBlock final.fn b) m (Settled final scope later may spot m post) accepted := by
  have ready' : Ready final ((middle.goto b).goto scope.current) spot m := by
    rw [← prepared.current]
    exact ready
  refine (Ends.enter prepared.fresh (prepared.sound sound).rooted step named isFinal ready'
    runs).mono ?_ fun _ => id
  rintro flow m' ⟨ready'', frame, after⟩
  refine ⟨prepared.ready_back step ready'', frame.mono ?_, after⟩
  rintro n ⟨above, below, apart⟩
  refine ⟨above, below, fun pinned => apart ?_⟩
  obtain ⟨a, init, isOpen, declares⟩ := pinned
  exact ⟨a, init, prepared.enters.open isOpen, declares⟩

theorem run_last (post : Flow → Machine → Prop) (sound : Sound D scope)
    (step : (middle.goto b).Step D later) (completes : (later.goto scope.current).Completes final)
    (ready : Ready final middle spot m)
    (runs : (later.goto b).Completes final → Ready final (middle.goto b) spot m →
      Ends (execAll final.fn ((middle.goto b).emitted later)) m
        (Settled final (middle.goto b) later may spot m post) accepted) :
    Ends (execBlock final.fn b) m (Settled final scope later may spot m post) accepted := by
  obtain ⟨tag, here⟩ := prepared.here
  obtain ⟨block, here', _⟩ := step.enters.later.arena.grown b _ here
  have within : later.fn.arena.Within b scope.current := prepared.within step
  have isFinal := completes.closed b block within (prepared.ne_current sound.rooted).symm here'
  have rooted : later.Rooted := (prepared.step_inside step).enters.later.rooted sound.rooted
  exact prepared.run post sound step completes.named (isFinal.trans here'.symm) ready
    (runs (completes.inner rooted within))

end Prepared

theorem prepared_emit {n : Node} (prepared : Prepared D scope middle b)
    (sound : Sound D scope) :
    Yields (Fusion.emit n) middle fun _ later => Prepared D scope later b ∧
      middle.Rebuilt later 0 ∧ middle.emitted later = [n] ∧ middle.Adds later ∧
      ∀ reader, later.Bound reader → middle.Bound reader := by
  intro a later done
  obtain ⟨arena, appended, rfl⟩ := yields_emit n middle a later done
  have adds := adds_appendHead (fun _ => .refl) appended
  have updates := Arena.appendHead_updates appended
  have sound' := prepared.sound_middle sound
  have step : middle.Step D { middle with fn := { middle.fn with arena } } :=
    .of_updates updates adds (fun _ => rfl) (fun _ => rfl) (fun _ => rfl)
  refine ⟨⟨prepared.step.append step prepared.current, prepared.current,
    prepared.isNew, ?_⟩, ⟨⟨arena, rfl⟩, updates.names⟩, Scope.emitted_of_updates updates fun _ => rfl,
    adds, fun _ => .of_updates updates adds sound'.rooted fun _ => rfl⟩
  obtain ⟨tag, here⟩ := prepared.here
  refine ⟨tag, updates.extends'.untouched b _ here fun same => ?_⟩
  exact prepared.ne_current sound.rooted (prepared.current ▸ same.symm)

/-- A test decides which of two blocks is run. -/
theorem ends_test {fn : Function} {yes no : BlockId}
    (tested : ∃ answer, agrees answer ∧ eval test m = ofAnswer answer m)
    (failed : ∀ cause, agrees (.error cause) → accepted cause) (each : ∀ v, agrees (.ok v) →
      Ends (execBlock fn (if v.truth then yes else no)) m wanted accepted) :
    Ends (execAll fn [.branch test yes no]) m wanted accepted := by
  obtain ⟨answer, agreed, evaluates⟩ := tested
  refine .single (.branch ?_)
  unfold Ends
  rw [evaluates]
  cases answer with
  | error cause => exact failed cause agreed
  | ok v => exact each v agreed

/-- A branch that guards the rest of the code. -/
theorem Sim.branch {next : Emit α} {fact : α → Scope → Prop} (isTag : tag ≠ .records)
    (agrees : Except RunError Value → Prop) (sound : Sound D scope)
    (tests : scope.Completes final → Ready final scope spot m → pre →
      ∃ answer, agrees answer ∧ eval test m = ofAnswer answer m)
    (failed : ∀ cause, pre → agrees (.error cause) → accepted cause)
    (skip : ∀ a later v, fact a later → pre → agrees (.ok v) → v.truth = false →
      post a later .proceed m)
    (taken : ∀ inner, Sound D inner → scope.Step D inner → scope.SameVars inner →
      scope.fn.arena.blocks.size ≤ inner.current → inner.Fresh scope.current →
      Sim D final may spot next inner m (pre ∧ ∃ v, agrees (.ok v) ∧ v.truth = true) fact post
        accepted) :
    Sim D final may spot (do
      let yes ← openBlock scope.current tag
      Fusion.emit (.branch test yes emptyBlock)
      moveTo yes
      next) scope m pre fact post accepted := by
  refine Yields.bind ((quiet_openBlock isTag sound).mono ?_)
  rintro yes first ⟨quiet, rebuilt, isYes, blocks⟩
  have prepared : Prepared D scope first yes :=
    ⟨quiet.step, quiet.current, Nat.le_of_eq isYes.symm, tag, by rw [blocks, if_pos rfl]⟩
  refine .bind ((prepared_emit prepared sound).mono ?_)
  rintro _ middle ⟨prepared', rebuilt', isCode, adds, bounds⟩
  refine .bind (yields_moveTo ?_)
  have same : scope.SameVars (middle.goto yes) :=
    (rebuilt.trans rebuilt').sameVars.trans rfl
  intro a later done
  obtain ⟨step, held, runs⟩ := taken (middle.goto yes) (prepared'.sound sound) prepared'.into same
    prepared'.isNew prepared'.fresh a later done
  have whole := prepared'.step_inside step
  refine ⟨whole, held, fun completes ready begins => ?_⟩
  rw [prepared'.emitted sound.rooted step, Scope.emitted_append quiet.adds.later adds.later
    quiet.current, quiet.emitted, isCode, List.nil_append]
  have ready' : Ready final middle spot m := prepared'.ready_middle sound.rooted
    (fun reader bound => quiet.bounds reader (bounds reader bound)) ready
  refine ends_test (tests (completes.before whole.enters.adds sound.rooted) ready begins)
    (fun cause => failed cause begins) fun v agreed => ?_
  cases isTrue : v.truth with
  | false =>
    exact .emptyBlock ⟨prepared'.ready_around sound.rooted step ready', .refl _ m,
      skip a later v held begins agreed isTrue⟩
  | true =>
    exact prepared'.run_last _ sound step completes ready'
      fun inside ready'' => runs inside ready'' ⟨begins, v, agreed, isTrue⟩

/-! ## Two branches -/

/-- A block is not open inside the block beside it. -/
theorem not_within_sibling {arena : Arena} (tree : arena.Tree) {h c a : BlockId}
    (isParent : arena.Parent b h) (isParent' : arena.Parent c h) (apart : b ≠ c)
    (inside : arena.Within a b) : ¬ arena.Within c a := by
  intro within
  rcases Relation.ReflTransGen.cases_head (within.trans inside) with same | ⟨parent, step, above⟩
  · exact apart same.symm
  · obtain rfl := Arena.parent_unique isParent' step
    exact absurd (tree.le_of_within above) (Nat.not_le.mpr (tree _ _ isParent))

theorem Scope.Completes.beside {third : Scope} {h c : BlockId}
    (completes : (third.goto h).Completes final) (later' : (later.goto c).Later third)
    (rooted : (later.goto c).Rooted) (isParent : later.fn.arena.Parent b h)
    (isParent' : later.fn.arena.Parent c h) (apart : b ≠ c) : (later.goto b).Completes final := by
  have tree : later.fn.arena.Tree := rooted.tree
  have untouched : ∀ a block, later.fn.arena.Within a b → later.fn.arena.blocks[a]? = some block →
      final.fn.arena.blocks[a]? = some block := by
    intro a block inside here
    have kept := later'.arena.untouched a block here fun isOpen =>
      not_within_sibling tree isParent isParent' apart inside (isOpen rooted)
    refine completes.closed a block ?_ ?_ kept
    · exact (later'.arena.within inside).trans (.single (later'.arena.parent isParent))
    · rintro rfl
      exact absurd (tree.le_of_within inside) (Nat.not_le.mpr (tree _ _ isParent))
  refine ⟨completes.body.trans later'.body, later'.paths.trans completes.paths,
    later'.arena.names.trans completes.names, completes.named, ?_, ?_⟩
  · intro a block isOpen here
    rcases Relation.ReflTransGen.cases_head isOpen with rfl | ⟨parent, step, above⟩
    · exact ⟨block, untouched _ block .refl here, .refl _ _ _⟩
    · obtain rfl := Arena.parent_unique isParent step
      obtain ⟨block', here', grows⟩ := later'.arena.grown a block here
      obtain ⟨block'', here'', grows'⟩ :=
        completes.grown a block' (later'.arena.within above) here'
      exact ⟨block'', here'', grows.trans grows' later'.arena.names completes.names⟩
  · exact fun a block inside _ here => untouched a block inside here

/-- A step seen from the block where it began. -/
theorem Scope.Step.back (step : scope.Step D later) : scope.Step D (later.goto scope.current) where
  enters := step.enters.adds.enters
  reads := fun reads => ⟨(step.reads reads).known, (step.reads reads).distinct⟩
  calm := step.calm
  fronts := step.fronts

/-- A branch with code on both sides, each in a block of its own. -/
def branching (home : BlockId) (tag : Code.Tag) (test : Node) (first second : Emit Unit) :
    Emit Unit := do
  let yes ← openBlock home tag
  let no ← openBlock home tag
  Fusion.emit (.branch test yes no)
  moveTo yes
  first
  moveTo no
  second

/-- Two new blocks and the branch that leads to them. -/
structure Forked (D : Path → Prop) (scope middle : Scope) (test : Node) (yes no : BlockId) : Prop where
  first : Prepared D scope middle yes
  second : Prepared D scope middle no
  apart : yes ≠ no
  sameVars : scope.SameVars middle
  emitted : scope.emitted middle = [.branch test yes no]
  bounds : ∀ reader, middle.Bound reader → scope.Bound reader

theorem yields_forked {next : BlockId → BlockId → Emit α} {holds : α → Scope → Prop}
    (isTag : tag ≠ .records) (sound : Sound D scope)
   
    (each : ∀ yes no middle, Forked D scope middle test yes no → Yields (next yes no) middle holds) :
    Yields (do
      let yes ← openBlock scope.current tag
      let no ← openBlock scope.current tag
      Fusion.emit (.branch test yes no)
      next yes no) scope holds := by
  refine .bind ((quiet_openBlock isTag sound).mono ?_)
  rintro yes opened ⟨quiet, rebuilt, isYes, blocks⟩
  rw [← quiet.current]
  refine .bind ((quiet_openBlock isTag (quiet.sound sound)).mono ?_)
  rintro no opened' ⟨quiet', rebuilt', isNo, blocks'⟩
  have apart : yes ≠ no := by
    have here := blocks yes
    rw [if_pos rfl] at here
    exact isNo ▸ Nat.ne_of_lt (Array.inside here)
  have whole := quiet.step.append quiet'.step quiet.current
  have current : opened'.current = scope.current := quiet'.current.trans quiet.current
  have prepared : Prepared D scope opened' yes :=
    ⟨whole, current, Nat.le_of_eq isYes.symm, tag, by
      rw [blocks', if_neg apart, blocks, if_pos rfl]⟩
  have prepared' : Prepared D scope opened' no :=
    ⟨whole, current, quiet.adds.later.arena.size.trans isNo.ge, tag, by
      rw [blocks', if_pos rfl, quiet.current]⟩
  refine .bind fun u middle emits => each yes no middle ?_
  obtain ⟨first, rebuilt'', isCode, adds, bounds⟩ := prepared_emit prepared sound u middle emits
  refine ⟨first, (prepared_emit prepared' sound u middle emits).1, apart,
    ((rebuilt.trans rebuilt').trans rebuilt'').sameVars, ?_, fun reader bound =>
      quiet.bounds reader (quiet'.bounds reader (bounds reader bound))⟩
  rw [Scope.emitted_append whole.enters.later adds.later current, isCode,
    Scope.emitted_append quiet.adds.later quiet'.adds.later quiet.current, quiet.emitted, quiet'.emitted]
  rfl

namespace Forked

variable {yes no : BlockId} {after : Scope}
variable (forked : Forked D scope middle test yes no) (sound : Sound D scope)
variable (step : (middle.goto yes).Step D after)

include forked sound step

theorem prepared : Prepared D scope (after.goto scope.current) no := by
  have rooted := (forked.first.sound sound).rooted
  refine ⟨(forked.first.step_inside step).back, rfl, forked.second.isNew, ?_⟩
  obtain ⟨tag, here⟩ := forked.second.here
  refine ⟨tag, step.enters.later.arena.untouched no _ here fun isOpen => ?_⟩
  exact not_within_sibling rooted.tree forked.second.isParent forked.first.isParent forked.apart.symm
    .refl (isOpen rooted)

/-- A run of the first block. -/
theorem run_first (post : Flow → Machine → Prop) (step' : (after.goto no).Step D later)
    (completes : (later.goto scope.current).Completes final) (ready : Ready final middle spot m)
    (runs : (after.goto yes).Completes final → Ready final (middle.goto yes) spot m →
      Ends (execAll final.fn ((middle.goto yes).emitted after)) m
        (Settled final (middle.goto yes) after may spot m post) accepted) :
    Ends (execBlock final.fn yes) m (Settled final scope later may spot m post) accepted := by
  have prepared := forked.prepared sound step
  have rooted := (prepared.sound sound).rooted
  have isYes := step.enters.later.arena.parent forked.first.isParent
  have isNo := step.enters.later.arena.parent forked.second.isParent
  have inside := completes.beside step'.enters.later rooted isYes isNo forked.apart
  obtain ⟨tag, here⟩ := forked.first.here
  obtain ⟨block, here', _⟩ := step.enters.later.arena.grown yes _ here
  have kept := step'.enters.later.arena.untouched yes block here' fun isOpen =>
    not_within_sibling rooted.tree isYes isNo forked.apart .refl (isOpen rooted)
  have isFinal := completes.closed yes block (.single (step'.enters.later.arena.parent isYes))
    (forked.first.ne_current sound.rooted).symm kept
  refine (forked.first.run post sound step completes.named (isFinal.trans here'.symm) ready
    (runs inside)).mono ?_ fun _ => id
  rintro flow m' ⟨ready', frame, ends⟩
  refine ⟨prepared.ready_around sound.rooted step' ready', frame.mono ?_, ends⟩
  rintro n ⟨above, below, free⟩
  exact ⟨above, below.trans_le step'.enters.later.arena.names, free⟩

end Forked

theorem Sim.branches {first second : Emit Unit} {fact : Unit → Scope → Prop}
    {post : Flow → Machine → Prop} (isTag : tag ≠ .records) (agrees : Except RunError Value → Prop)
    (fact' : Scope → Scope → Prop) (sound : Sound D scope)
    (tests : scope.Completes final → Ready final scope spot m → pre →
      ∃ answer, agrees answer ∧ eval test m = ofAnswer answer m)
    (failed : ∀ cause, pre → agrees (.error cause) → accepted cause)
    (whenTrue : ∀ inner, Sound D inner → scope.Step D inner → scope.SameVars inner →
      scope.fn.arena.blocks.size ≤ inner.current → inner.Fresh scope.current →
      Sim D final may spot first inner m (pre ∧ ∃ v, agrees (.ok v) ∧ v.truth = true)
        (fun _ later => fact' inner later) (fun _ _ => post) accepted)
    (whenFalse : ∀ start after inner, scope.SameVars start →
      scope.fn.arena.blocks.size ≤ start.current → fact' start after →
      inner = after.goto inner.current → inner.current ≠ start.current →
      inner.current < start.fn.arena.blocks.size → scope.fn.arena.blocks.size ≤ inner.current →
      Sound D inner → scope.Step D inner → inner.Fresh scope.current →
      Sim D final may spot second inner m (pre ∧ ∃ v, agrees (.ok v) ∧ v.truth = false) fact
        (fun _ _ => post) accepted) :
    Sim D final may spot (branching scope.current tag test first second) scope m pre fact
      (fun _ _ => post) accepted := by
  refine yields_forked isTag sound fun yes no middle forked => .bind (yields_moveTo ?_)
  have same : scope.SameVars (middle.goto yes) := forked.sameVars.trans rfl
  refine .bind fun u after done => .bind (yields_moveTo ?_)
  obtain ⟨stepYes, held, runsTrue⟩ := whenTrue (middle.goto yes) (forked.first.sound sound)
    forked.first.into same forked.first.isNew forked.first.fresh u after done
  have prepared := forked.prepared sound stepYes
  have below : no < middle.fn.arena.blocks.size := by
    obtain ⟨tag', here⟩ := forked.second.here
    exact Array.inside here
  intro a later done'
  obtain ⟨stepNo, held', runsFalse⟩ := whenFalse (middle.goto yes) after (after.goto no) same
    forked.first.isNew held rfl forked.apart.symm below prepared.isNew (prepared.sound sound)
    prepared.into prepared.fresh a later done'
  have complete := prepared.step_inside stepNo
  refine ⟨complete, held', fun completes ready begins => ?_⟩
  have isEmitted : scope.emitted later = [.branch test yes no] := by
    rw [prepared.emitted sound.rooted stepNo]
    exact (forked.first.emitted sound.rooted stepYes).trans forked.emitted
  rw [isEmitted]
  have ready' := forked.first.ready_middle sound.rooted forked.bounds ready
  refine ends_test (tests (completes.before complete.enters.adds sound.rooted) ready begins)
    (fun cause => failed cause begins) fun v agreed => ?_
  cases isTrue : v.truth with
  | false =>
    exact prepared.run_last _ sound stepNo completes
      (forked.first.ready_around sound.rooted stepYes ready')
      fun inside ready'' => runsFalse inside ready'' ⟨begins, v, agreed, isTrue⟩
  | true =>
    exact forked.run_first sound stepYes post stepNo completes ready'
      fun inside ready'' => runsTrue inside ready'' ⟨begins, v, agreed, isTrue⟩

end blocks

end QueryFusion.Fusion

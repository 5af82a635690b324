import QueryFusion.Proofs.Fusion.Completion

/-!
# Running the code of a step

A machine is ready for the code of a scope if it stands at the record, every reader that is advanced
around the current block is there too, and the variables that are declared in front of open blocks
hold what they should: aggregators a table of groups, and others plain data.

A step of the compiler simulates if, whatever the function becomes, the statements that it adds to the
current block take a ready machine to a ready machine or fail for an accepted cause. They write only
variables that were not there before.
-/

namespace QueryFusion.Fusion

open Code
open Engine

/-- An aggregator that is declared in front of an open block. -/
def Scope.Pinned (scope final : Scope) (n : Nat) : Prop :=
  ∃ b init, scope.Open b ∧ final.Declares b n init ∧ ∀ l, init ≠ .lit l

/-- What a variable that is declared in front of a block can hold, given what it starts from. -/
def Suits (m : Machine) (init : Node) (v : Value) : Prop := MakesGroups init → m.Groups v

/-- A machine is ready for the code of a scope at a spot. -/
structure Ready (final scope : Scope) (spot : Spot) (m : Machine) : Prop where
  stands : m.Stands final.fn.paths spot
  reads : ∀ j c, scope.Bound (Function.readerName j) → m.columns[j]? = some c →
    c.place = some spot.place
  declared : ∀ b n init, scope.Open b → final.Declares b n init →
    ∃ v, m.env.lookup (variableName n) = some v ∧ Suits m init v

section Ready

variable {D : Path → Prop} {final scope later : Scope} {spot : Spot} {m m' : Machine}

theorem Ready.transport (ready : Ready final scope spot m)
    (opens : ∀ b, later.Open b → scope.Open b) (bounds : ∀ r, later.Bound r → scope.Bound r) :
    Ready final later spot m where
  stands := ready.stands
  reads := fun j c bound => ready.reads j c (bounds _ bound)
  declared := fun b n init isOpen => ready.declared b n init (opens b isOpen)

theorem Ready.still {written : Nat → Prop} (ready : Ready final scope spot m)
    (still : m.Still m') (frame : m.Frame written m')
    (fronts : ∀ n b init, written n → scope.Open b → final.Declares b n init →
      ∃ l v, init = .lit l ∧ m'.env.lookup (variableName n) = some v)
    (advanced : ∀ j c, scope.Bound (Function.readerName j) → m'.columns[j]? = some c →
      c.place = some spot.place) :
    Ready final scope spot m' where
  stands := ready.stands.still still frame
  reads := advanced
  declared := by
    intro b n init isOpen declares
    by_cases isWritten : written n
    · obtain ⟨l, v, rfl, found⟩ := fronts n b init isWritten isOpen declares
      exact ⟨v, found, nofun⟩
    · obtain ⟨v, found, suits⟩ := ready.declared b n init isOpen declares
      rw [frame.lookup_kept isWritten]
      exact ⟨v, found, fun makes => still.groups (suits makes)⟩

end Ready

/-! ## Simulation -/

/-- The variables that are not there yet. -/
abbrev Scope.New (scope : Scope) (n : Nat) : Prop := scope.fn.arena.names ≤ n

/-- The variables that the code of a step may write. -/
def Scope.Writes (scope final later : Scope) (may : Nat → Prop) (n : Nat) : Prop :=
  may n ∧ n < later.fn.arena.names ∧ ¬ scope.Pinned final n

/-- A run ends where code can go on at the block it began in, and has written what it may. -/
abbrev Settled (final scope later : Scope) (may : Nat → Prop) (spot : Spot) (m : Machine)
    (post : Flow → Machine → Prop) (flow : Flow) (m' : Machine) : Prop :=
  Ready final (later.goto scope.current) spot m' ∧ m.Frame (scope.Writes final later may) m' ∧
  post flow m'

/-- The code between two scopes runs as it should at the block of the first one. -/
abbrev Simulates (D : Path → Prop) (final : Scope) (may : Nat → Prop) (spot : Spot) (scope : Scope)
    (m : Machine) (pre : Prop) {α : Type} (fact : α → Scope → Prop)
    (post : α → Scope → Flow → Machine → Prop) (accepted : RunError → Prop) (a : α)
    (later : Scope) : Prop :=
  scope.Step D later ∧ fact a later ∧
  ((later.goto scope.current).Completes final → Ready final scope spot m → pre →
    Ends (execAll final.fn (scope.emitted later)) m
      (Settled final scope later may spot m (post a later)) accepted)

/-- The code that a step adds to the current block runs as it should. `fact` says what the step
yields, `post` where its code ends. -/
def Sim (D : Path → Prop) (final : Scope) (may : Nat → Prop) (spot : Spot) {α : Type} (step : Emit α)
    (scope : Scope) (m : Machine) (pre : Prop) (fact : α → Scope → Prop)
    (post : α → Scope → Flow → Machine → Prop) (accepted : RunError → Prop) : Prop :=
  Yields step scope (Simulates D final may spot scope m pre fact post accepted)

variable {n : Nat}

section rules

variable {D : Path → Prop} {final scope : Scope} {may : Nat → Prop} {spot : Spot} {m : Machine}
variable {α β : Type} {step : Emit α} {pre : Prop} {fact : α → Scope → Prop}
variable {post : α → Scope → Flow → Machine → Prop} {accepted : RunError → Prop}

theorem Sim.imp {pre' : Prop} {less : Nat → Prop} {fact' : α → Scope → Prop}
    {post' : α → Scope → Flow → Machine → Prop} {accepted' : RunError → Prop}
    (sim : Sim D final less spot step scope m pre fact post accepted) (sub : ∀ n, less n → may n)
    (stronger : pre' → pre) (facts : ∀ a later, fact a later → fact' a later)
    (weaker : ∀ a later flow m', pre' → fact a later → m.Frame less m' → post a later flow m' →
      post' a later flow m')
    (tolerant : ∀ cause, accepted cause → accepted' cause) :
    Sim D final may spot step scope m pre' fact' post' accepted' := by
  intro a later done
  obtain ⟨steps, held, runs⟩ := sim a later done
  refine ⟨steps, facts a later held, fun completes ready first => ?_⟩
  refine (runs completes ready (stronger first)).mono ?_ tolerant
  rintro flow m' ⟨ready', frame, after⟩
  have inside := frame.mono fun _ written => written.1
  exact ⟨ready', frame.mono fun n ⟨allowed, rest⟩ => ⟨sub n allowed, rest⟩,
    weaker a later flow m' first held inside after⟩

theorem Sim.mono {pre' : Prop} {fact' : α → Scope → Prop}
    {post' : α → Scope → Flow → Machine → Prop} {accepted' : RunError → Prop}
    (sim : Sim D final may spot step scope m pre fact post accepted) (stronger : pre' → pre)
    (facts : ∀ a later, fact a later → fact' a later)
    (weaker : ∀ a later flow m', pre' → fact a later → post a later flow m' → post' a later flow m')
    (tolerant : ∀ cause, accepted cause → accepted' cause) :
    Sim D final may spot step scope m pre' fact' post' accepted' :=
  sim.imp (fun _ => id) stronger facts (fun a later flow m' first held _ => weaker a later flow m'
    first held) tolerant

/-- Code that leaves more variables alone. -/
theorem Sim.weaken {less : Nat → Prop} (sub : ∀ n, less n → may n)
    (sim : Sim D final less spot step scope m pre fact post accepted) :
    Sim D final may spot step scope m pre fact post accepted :=
  sim.imp sub id (fun _ _ => id) (fun _ _ _ _ _ _ _ => id) fun _ => id

theorem Sim.framed (sim : Sim D final may spot step scope m pre fact post accepted) :
    Sim D final may spot step scope m pre fact (fun a later flow m' => m.Frame may m' ∧
      post a later flow m') accepted :=
  sim.imp (fun _ => id) id (fun _ _ => id) (fun _ _ _ _ _ _ => .intro) fun _ => id

variable {later : Scope}

theorem Scope.code_prefix (later' : scope.Later later) (b : BlockId) :
    scope.code b <+: later.code b := by
  unfold Scope.code
  cases here : scope.fn.arena.blocks[b]? with
  | none => exact List.nil_prefix
  | some block =>
    obtain ⟨block', here', grows⟩ := later'.arena.grown b block here
    rw [here']
    exact grows.rest

theorem Scope.emitted_append {third : Scope} (first : scope.Later later)
    (second : later.Later third) (same : later.current = scope.current) :
    scope.emitted third = scope.emitted later ++ later.emitted third := by
  unfold Scope.emitted
  rw [same]
  obtain ⟨code, isCode⟩ := Scope.code_prefix first scope.current
  obtain ⟨more, isMore⟩ := Scope.code_prefix second scope.current
  rw [← isMore, ← isCode]
  simp

theorem Scope.emitted_self (scope : Scope) : scope.emitted scope = [] := by
  unfold Scope.emitted
  simp

theorem Scope.Pinned.kept (pinned : scope.Pinned final n)
    (adds : scope.Adds later) : later.Pinned final n := by
  obtain ⟨b, init, isOpen, declares⟩ := pinned
  exact ⟨b, init, adds.open isOpen, declares⟩

theorem Sim.bind {next : α → Emit β} {fact' : β → Scope → Prop}
    {post' : β → Scope → Flow → Machine → Prop} (fact : α → Scope → Prop)
    (mid : α → Scope → Machine → Prop) (sound : Sound D scope)
    (first : Sim D final may spot step scope m pre
      (fun a later => later.current = scope.current ∧ fact a later)
      (fun a later => Onward (mid a later)) accepted)
    (second : ∀ a later m', Sound D later → later.current = scope.current → scope.Adds later →
      fact a later → Sim D final may spot (next a) later m'
        (pre ∧ m.Frame (scope.Writes final later may) m' ∧ mid a later m') fact' post' accepted) :
    Sim D final may spot (step >>= next) scope m pre fact' post' accepted := by
  refine Yields.bind fun a later done => ?_
  obtain ⟨steps, ⟨same, held⟩, runs⟩ := first a later done
  have adds : scope.Adds later := ⟨steps.enters.later, same⟩
  have sound' := sound.here steps same
  intro b third done'
  obtain ⟨steps', held', _⟩ := second a later m sound' same adds held b third done'
  refine ⟨steps.append steps' same, held', fun completes ready begins => ?_⟩
  have completes' : (third.goto later.current).Completes final := same ▸ completes
  rw [Scope.emitted_append steps.enters.later steps'.enters.later same]
  have before : later.Completes final := completes'.before steps'.enters.adds sound'.rooted
  refine .append ((runs (same ▸ before) ready begins).mono ?_ fun _ => id)
  rintro flow m' ⟨ready', frame, rfl, middle⟩
  refine ⟨rfl, ?_⟩
  obtain ⟨_, _, runs'⟩ := second a later m' sound' same adds held b third done'
  have ready'' : Ready final later spot m' := by rwa [← same] at ready'
  refine (runs' completes' ready'' ⟨begins, frame, middle⟩).mono ?_ fun _ => id
  rintro flow' m'' ⟨ready₃, frame', after⟩
  refine ⟨same ▸ ready₃, ?_, after⟩
  refine (frame.mono ?_).trans (frame'.mono ?_)
  · rintro n ⟨above, below, apart⟩
    exact ⟨above, below.trans_le steps'.enters.later.arena.names, apart⟩
  · rintro n ⟨above, below, apart⟩
    exact ⟨above, below, fun pinned => apart (pinned.kept adds)⟩

theorem Sim.pure {a : α} (held : fact a scope) (after : pre → post a scope .proceed m) :
    Sim D final may spot (Pure.pure a) scope m pre fact post accepted := by
  refine Yields.pure ⟨.refl D scope, held, fun _ ready first => ?_⟩
  rw [Scope.emitted_self]
  exact .nil ⟨ready, .refl _ m, after first⟩

theorem Sim.throw {abort : Abort} :
    Sim D final may spot (MonadExcept.throw abort : Emit α) scope m pre fact post accepted :=
  Yields.throw

theorem Sim.failWith {cause : FuseError} :
    Sim D final may spot (Fusion.failWith cause : Emit α) scope m pre fact post accepted :=
  .throw

/-- A step that leaves the scope as it is. -/
theorem Sim.ask {next : α → Emit β} {fact : β → Scope → Prop}
    {post : β → Scope → Flow → Machine → Prop} {holds : α → Prop}
    (first : Yields step scope fun a later => later = scope ∧ holds a)
    (second : ∀ a, holds a → Sim D final may spot (next a) scope m pre fact post accepted) :
    Sim D final may spot (step >>= next) scope m pre fact post accepted := by
  refine Yields.bind fun a later done => ?_
  obtain ⟨rfl, held⟩ := first a later done
  exact second a held

theorem Sim.get {next : Scope → Emit β} {fact : β → Scope → Prop}
    {post : β → Scope → Flow → Machine → Prop}
    (second : Sim D final may spot (next scope) scope m pre fact post accepted) :
    Sim D final may spot (MonadState.get >>= next) scope m pre fact post accepted :=
  Yields.bind (Yields.get second)

/-- A step that is made at one scope only. -/
structure OnlyAt (later : Scope) (next only : Emit Unit) : Prop where
  same : only later = next later
  elsewhere : ∀ scope a last, only scope = .ok (a, last) → scope = later

theorem exists_onlyAt (later : Scope) (next : Emit Unit) : ∃ only, OnlyAt later next only := by
  classical
  refine ⟨fun scope => if scope = later then next scope else .error (.fault .outOfRange), ?_, ?_⟩
  · exact if_pos rfl
  · intro scope a last done
    by_cases same : scope = later
    · exact same
    · simp only [same, if_false] at done
      cases done

theorem OnlyAt.sim {next only : Emit Unit} {inner : Scope} {fact : Unit → Scope → Prop}
    {post : Unit → Scope → Flow → Machine → Prop} (onlyAt : OnlyAt later next only)
    (sim : inner = later → Sim D final may spot next inner m pre fact post accepted) :
    Sim D final may spot only inner m pre fact post accepted := by
  intro a last done
  obtain rfl := onlyAt.elsewhere inner a last done
  exact sim rfl a last (onlyAt.same ▸ done)

/-- Code after a step whose outcome is known. -/
theorem Sim.after {step : Emit α} {a : α} {next : Emit Unit} {fact : Unit → Scope → Prop}
    {post : Unit → Scope → Flow → Machine → Prop} (isStep : step scope = .ok (a, later))
    (sim : ∀ only, OnlyAt later next only →
      Sim D final may spot (do let _ ← step; only) scope m pre fact post accepted) :
    Sim D final may spot (fun _ => next later) scope m pre fact post accepted := by
  obtain ⟨only, onlyAt⟩ := exists_onlyAt later next
  intro u last done
  refine sim only onlyAt u last ?_
  change (step scope >>= fun out => only out.2) = _
  rw [isStep, ← done, ← onlyAt.same]
  rfl

end rules

/-! ## Steps without code -/

/-- A step that adds no statement to the current block and advances no reader. -/
structure Scope.Quiet (D : Path → Prop) (scope later : Scope) : Prop where
  step : scope.Step D later
  current : later.current = scope.current
  code : later.code scope.current = scope.code scope.current
  bounds : ∀ reader, later.Bound reader → scope.Bound reader

section quiet

variable {D : Path → Prop} {final scope later : Scope} {may : Nat → Prop} {spot : Spot} {m : Machine}
variable {α β : Type} {step : Emit α} {pre : Prop} {accepted : RunError → Prop}

theorem Scope.Quiet.adds (quiet : scope.Quiet D later) : scope.Adds later :=
  ⟨quiet.step.enters.later, quiet.current⟩

theorem Scope.Quiet.emitted (quiet : scope.Quiet D later) : scope.emitted later = [] := by
  unfold Scope.emitted
  rw [quiet.code]
  simp

theorem Scope.Quiet.sound (quiet : scope.Quiet D later) (sound : Sound D scope) : Sound D later :=
  sound.here quiet.step quiet.current

theorem Scope.Adds.open_iff (adds : scope.Adds later) (rooted : scope.Rooted) (b : BlockId) :
    later.Open b ↔ scope.Open b :=
  ⟨fun isOpen => adds.later.arena.within_of_lt rooted.tree (adds.current ▸ isOpen) rooted.current,
    adds.open⟩

theorem Ready.quiet (ready : Ready final scope spot m) (quiet : scope.Quiet D later)
    (rooted : scope.Rooted) : Ready final later spot m :=
  ready.transport (fun b => (quiet.adds.open_iff rooted b).mp) quiet.bounds

/-- Code that comes after a step without code. -/
theorem Scope.Quiet.then {fact : α → Scope → Prop} {post : α → Scope → Flow → Machine → Prop}
    (quiet : scope.Quiet D later) (sound : Sound D scope)
    (sim : Sim D final may spot step later m pre fact post accepted) :
    Yields step later (Simulates D final may spot scope m pre fact post accepted) := by
  intro a third done
  obtain ⟨steps, held, runs⟩ := sim a third done
  refine ⟨quiet.step.append steps quiet.current, held, fun completes ready begins => ?_⟩
  rw [Scope.emitted_append quiet.adds.later steps.enters.later quiet.current, quiet.emitted,
    List.nil_append]
  rw [← quiet.current] at completes
  refine (runs completes (ready.quiet quiet sound.rooted) begins).mono ?_ fun _ => id
  rintro flow m' ⟨ready', frame, after⟩
  refine ⟨quiet.current ▸ ready', frame.mono ?_, after⟩
  rintro n ⟨above, below, apart⟩
  exact ⟨above, below, fun pinned => apart (pinned.kept quiet.adds)⟩

/-- A step without code before another one. -/
theorem Sim.quietly {next : α → Emit β} {holds : α → Scope → Prop} {fact : β → Scope → Prop}
    {post : β → Scope → Flow → Machine → Prop} (sound : Sound D scope)
    (first : Yields step scope fun a later => scope.Quiet D later ∧ holds a later)
    (second : ∀ a later, scope.Quiet D later → Sound D later → holds a later →
      Sim D final may spot (next a) later m pre fact post accepted) :
    Sim D final may spot (step >>= next) scope m pre fact post accepted := by
  refine Yields.bind fun a later done => ?_
  obtain ⟨quiet, held⟩ := first a later done
  exact quiet.then sound (second a later quiet (quiet.sound sound) held)

theorem Scope.Quiet.of_same (scan : later.scan = scope.scan) (dataset : later.dataset = scope.dataset)
    (scanVars : later.scanVars = scope.scanVars) (schema : later.schema = scope.schema)
    (fn : later.fn = scope.fn) (loops : scope.loops <:+ later.loops)
    (current : later.current = scope.current) : scope.Quiet D later where
  step :=
    { enters := Scope.Adds.enters ⟨.of_same scan dataset scanVars schema fn loops current, current⟩
      reads := fun reads => ⟨fn ▸ reads.known, fn ▸ reads.distinct⟩
      calm := by
        intro b block block' here here'
        rw [fn] at here'
        cases here.symm.trans here'
        exact ⟨rfl, rfl, fun _ => ⟨rfl, rfl⟩⟩
      fronts := by
        rintro b n init _ ⟨block, here, member⟩
        rw [fn] at here
        exact .inl ⟨block, here, member⟩ }
  current := current
  code := by
    unfold Scope.code
    rw [fn]
  bounds := by
    rintro reader ⟨b, block, isOpen, here, member⟩
    unfold Scope.Open at isOpen
    rw [fn, current] at isOpen
    rw [fn] at here
    exact ⟨b, block, isOpen, here, member⟩

theorem Scope.Quiet.of_notes {live : Frame} {saved : List Frame} {outputs : List Var}
    {emitters : List String} {touched : Option (List String)} {consumed : VarMap Nat} {fused : Nat} :
    scope.Quiet D { scope with live, saved, outputs, emitters, touched, consumed, fused } :=
  .of_same rfl rfl rfl rfl rfl List.suffix_rfl rfl

theorem quiet_modify {change : Scope → Scope} (quiet : scope.Quiet D (change scope)) :
    Yields (modify change) scope fun _ later => scope.Quiet D later ∧ later = change scope :=
  .modifying ⟨quiet, rfl⟩

end quiet

/-! ## Statements -/

section statements

variable {D : Path → Prop} {final scope later : Scope} {may : Nat → Prop} {spot : Spot} {m : Machine}
variable {pre : Prop} {accepted : RunError → Prop}

/-- A scope that differs from another one in the blocks only. -/
structure Scope.Rebuilt (scope later : Scope) (more : Nat) : Prop where
  same : ∃ arena, later = { scope with fn := { scope.fn with arena } }
  names : later.fn.arena.names = scope.fn.arena.names + more

variable {arena : Arena} {change : Block → Block} {more : Nat}

section

variable (updates : Arena.Updates scope.current change more scope.fn.arena arena)

include updates

theorem Scope.Step.of_updates (adds : scope.Adds { scope with fn := { scope.fn with arena } })
    (front : ∀ block, (change block).front = block.front)
    (tail : ∀ block, (change block).tail = block.tail)
    (overrides : ∀ block, (change block).overrides = block.overrides) :
    scope.Step D { scope with fn := { scope.fn with arena } } where
  enters := adds.enters
  reads := fun reads => ⟨reads.known, reads.distinct⟩
  calm := by
    intro b block block' here here'
    obtain ⟨before, isBefore, rfl⟩ := updates.before here'
    cases here.symm.trans isBefore
    split
    · next same => exact ⟨tail block, overrides block, fun apart => absurd same apart⟩
    · exact ⟨rfl, rfl, fun _ => ⟨rfl, rfl⟩⟩
  fronts := by
    rintro b n init _ ⟨block', here', member⟩
    obtain ⟨before, isBefore, rfl⟩ := updates.before here'
    refine .inl ⟨before, isBefore, ?_⟩
    split at member
    · rwa [front] at member
    · exact member

theorem Scope.emitted_of_updates {code : List Node}
    (rest : ∀ block, (change block).rest = block.rest ++ code) :
    scope.emitted { scope with fn := { scope.fn with arena } } = code := by
  obtain ⟨block, here, there⟩ := updates.here
  unfold Scope.emitted Scope.code
  rw [here, there]
  simp [rest]

theorem Scope.Bound.of_updates
    (adds : scope.Adds { scope with fn := { scope.fn with arena } }) (rooted : scope.Rooted)
    (bounds : ∀ block, (change block).bound = block.bound) {reader : String}
    (bound : Scope.Bound { scope with fn := { scope.fn with arena } } reader) :
    scope.Bound reader := by
  obtain ⟨b, block, isOpen, here, member⟩ := bound
  obtain ⟨before, isBefore, rfl⟩ := updates.before here
  refine ⟨b, before, (adds.open_iff rooted b).mp isOpen, isBefore, ?_⟩
  split at member
  · rwa [bounds] at member
  · exact member

end

variable {init : Node}

/-- A variable that is there already is declared already. -/
theorem Scope.Declares.of_completes {b : BlockId}
    (declares : final.Declares b n init) (completes : later.Completes final)
    (isOpen : later.Open b) (rooted : later.Rooted) (below : n < later.fn.arena.names) :
    later.Declares b n init := by
  have here := Array.getElem?_eq_getElem (rooted.lt_of_open isOpen)
  obtain ⟨block', here', grows⟩ := completes.grown b _ isOpen here
  obtain ⟨block'', here'', member⟩ := declares
  cases here'.symm.trans here''
  exact ⟨_, here, Arena.declared_of_grows grows below member⟩

/-- What an open block declares stays declared. -/
theorem Scope.Declares.completed {b : BlockId}
    (declares : later.Declares b n init) (completes : later.Completes final) (isOpen : later.Open b) :
    final.Declares b n init := by
  obtain ⟨block, here, member⟩ := declares
  obtain ⟨block', here', grows⟩ := completes.grown b block isOpen here
  obtain ⟨more, same, _⟩ := grows.front
  exact ⟨block', here', same ▸ List.mem_append_right _ member⟩

/-- One statement. -/
theorem Sim.emit {n : Node} (post : Flow → Machine → Prop) (sound : Sound D scope)
    (runs : scope.Completes final → Ready final scope spot m → pre →
      Ends (exec final.fn n) m (fun flow m' => Ready final scope spot m' ∧
        m.Frame (scope.Writes final scope may) m' ∧ post flow m') accepted) :
    Sim D final may spot (Fusion.emit n) scope m pre
      (fun _ later => later.current = scope.current ∧ scope.Rebuilt later 0)
      (fun _ _ => post) accepted := by
  intro a later done
  obtain ⟨arena, appended, rfl⟩ := yields_emit n scope a later done
  have adds := adds_appendHead (fun _ => .refl) appended
  have updates := Arena.appendHead_updates appended
  refine ⟨.of_updates updates adds (fun _ => rfl) (fun _ => rfl) (fun _ => rfl),
    ⟨rfl, ⟨arena, rfl⟩, updates.names⟩, fun completes ready begins => ?_⟩
  rw [Scope.emitted_of_updates updates fun _ => rfl]
  have before : scope.Completes final := completes.before adds sound.rooted
  refine .single ((runs before ready begins).mono ?_ fun _ => id)
  rintro flow m' ⟨ready', frame, after⟩
  refine ⟨ready'.transport (fun b => (adds.open_iff sound.rooted b).mp)
    (fun _ => .of_updates updates adds sound.rooted fun _ => rfl), frame.mono ?_, after⟩
  rintro n ⟨above, below, apart⟩
  exact ⟨above, below.trans_le adds.later.arena.names, apart⟩

theorem Sim.declareHere (post : Machine → Prop) (sound : Sound D scope)
    (isNew : ∀ n, scope.New n → may n)
    (runs : scope.Completes final → Ready final scope spot m → pre →
      Ends (eval init) m
        (fun v m' => m' = m ∧ post (m.put (variableName scope.fn.arena.names) v)) accepted) :
    Sim D final may spot (Fusion.declareHere init) scope m pre
      (fun name later => later.current = scope.current ∧ scope.Rebuilt later 1 ∧
        name = variableName scope.fn.arena.names)
      (fun _ _ => Onward post) accepted := by
  refine Yields.bind (Yields.get (Yields.drawArena fun name arena drawn => ?_))
  obtain ⟨isName, updates⟩ := Arena.declareHere_updates drawn
  have adds : scope.Adds { scope with fn := { scope.fn with arena } } :=
    ⟨.of_arena updates.extends' (fun _ same _ => same ▸ .refl) updates.nothing_added
      (Arena.declareHere_named drawn), rfl⟩
  refine ⟨.of_updates updates adds (fun _ => rfl) (fun _ => rfl) (fun _ => rfl),
    ⟨rfl, ⟨⟨arena, rfl⟩, updates.names⟩, isName⟩, fun completes ready begins => ?_⟩
  rw [Scope.emitted_of_updates updates fun _ => rfl]
  have before : scope.Completes final := completes.before adds sound.rooted
  refine .single (.assign ((runs before ready begins).mono ?_ fun _ => id))
  rintro v m' ⟨same, after⟩
  rw [same]
  refine .of_eq (store_apply v (.inl rfl)) ?_
  have notFront : ∀ b init, scope.Open b → ¬ final.Declares b scope.fn.arena.names init := by
    intro b init isOpen declares
    obtain ⟨block', here', member⟩ := declares.of_completes completes (adds.open isOpen)
      (adds.later.rooted sound.rooted) (by rw [Scope.goto_fn, updates.names]; omega)
    obtain ⟨block, here, rfl⟩ := updates.before here'
    refine sound.named.not_declared here (?_ : Arena.declaration _ init ∈ _)
    split at member <;> exact member
  have frame := m.frame_put scope.fn.arena.names v
  rw [isName]
  refine ⟨?_, frame.mono ?_, rfl, after⟩
  · refine (ready.still (m.still_put _ v) frame ?_ ready.reads).transport
      (fun b => (adds.open_iff sound.rooted b).mp)
      (fun _ => .of_updates updates adds sound.rooted fun _ => rfl)
    rintro _ b init rfl isOpen declares
    exact absurd declares (notFront b init isOpen)
  · rintro _ rfl
    refine ⟨isNew _ le_rfl, by rw [updates.names]; omega, ?_⟩
    rintro ⟨b, init, isOpen, declares, _⟩
    exact notFront b init isOpen declares

theorem quiet_declare (sound : Sound D scope) (starts : Starts init) :
    Yields (Fusion.declare scope.fn.body init) scope fun name later => scope.Quiet D later ∧
      name = variableName scope.fn.arena.names ∧ scope.Rebuilt later 1 ∧
      later.Declares scope.fn.body scope.fn.arena.names init ∧
      ∀ b init', later.Declares b scope.fn.arena.names init' → init' = init := by
  intro name later done
  have drawn : Yields (Fusion.declare scope.fn.body init) scope fun name later => ∃ arena,
      scope.fn.arena.declare scope.fn.body init = .ok (name, arena) ∧
      later = { scope with fn := { scope.fn with arena } } :=
    .drawArena fun name arena drawn => ⟨arena, drawn, rfl⟩
  obtain ⟨arena, declared, rfl⟩ := drawn name later done
  have adds := adds_declare (fun rooted => rooted.body) declared
  obtain ⟨isName, updates⟩ := Arena.declare_updates declared
  have kept : ∀ {i : BlockId} {block' : Block}, arena.blocks[i]? = some block' →
      ∃ block, scope.fn.arena.blocks[i]? = some block ∧ block'.rest = block.rest ∧
        block'.tail = block.tail ∧ block'.bound = block.bound ∧ block'.overrides = block.overrides ∧
        ∀ s ∈ block'.front, s ∈ block.front ∨ (i = scope.fn.body ∧ s = .assign name init true) := by
    intro i block' here'
    obtain ⟨block, here, rfl⟩ := updates.before here'
    refine ⟨block, here, ?_⟩
    split
    · next same =>
      refine ⟨rfl, rfl, rfl, rfl, fun s member => ?_⟩
      exact (List.mem_cons.mp member).symm.imp id fun isNew => ⟨same, isNew⟩
    · exact ⟨rfl, rfl, rfl, rfl, fun s => .inl⟩
  refine ⟨⟨⟨adds.enters, fun reads => ⟨reads.known, reads.distinct⟩, ?_, ?_⟩, rfl, ?_, ?_⟩,
    isName, ⟨⟨arena, rfl⟩, updates.names⟩, ?_, ?_⟩
  · intro i block block' isBlock isBlock'
    obtain ⟨before, isBefore, rest, tail, bound, overrides, _⟩ := kept isBlock'
    cases isBlock.symm.trans isBefore
    exact ⟨tail, overrides, fun _ => ⟨rest, bound⟩⟩
  · rintro i n init' _ ⟨block', isBlock', member⟩
    obtain ⟨block, isBlock, _, _, _, _, fronts⟩ := kept isBlock'
    rcases fronts _ member with old | ⟨rfl, isNew⟩
    · exact .inl ⟨block, isBlock, old⟩
    · rw [isName] at isNew
      obtain ⟨_, rfl⟩ := Arena.declaration_inj isNew
      exact .inr ⟨rfl, starts⟩
  · unfold Scope.code
    cases isBlock' : arena.blocks[scope.current]? with
    | none =>
      rw [Array.getElem?_eq_none (updates.size ▸ Array.getElem?_eq_none_iff.mp isBlock')]
    | some block' =>
      obtain ⟨block, isBlock, rest, _⟩ := kept isBlock'
      rw [isBlock]
      exact rest
  · rintro reader ⟨i, block', isOpen', isBlock', member⟩
    obtain ⟨block, isBlock, _, _, bound, _⟩ := kept isBlock'
    exact ⟨i, block, (adds.open_iff sound.rooted i).mp isOpen', isBlock, bound ▸ member⟩
  · obtain ⟨block, isBlock, isBlock'⟩ := updates.here
    refine ⟨_, isBlock', ?_⟩
    rw [isName]
    exact .head _
  · rintro i init' ⟨block', isBlock', member⟩
    obtain ⟨block, isBlock, _, _, _, _, fronts⟩ := kept isBlock'
    rcases fronts _ member with old | ⟨_, isNew⟩
    · exact absurd old (sound.named.not_declared isBlock)
    · rw [isName] at isNew
      exact (Arena.declaration_inj isNew).2

end statements

end QueryFusion.Fusion

import QueryFusion.Proofs.Fusion.Simulation

/-!
# Reading paths

The expression that reads a path of fields evaluates to the value at the path. The reader of the path
is advanced first, in the current block or further out.
-/

namespace QueryFusion.Fusion

open Code
open Engine

section readers

variable {D : Path → Prop} {final scope later : Scope} {may : Nat → Prop} {spot : Spot} {m : Machine}
variable {pre : Prop} {accepted : RunError → Prop} {j : Nat} {p : Path}

/-- The reader of a path is at the position of the path. -/
theorem Sound.index_of_reader? (sound : Sound D scope) (known : D p) {reader : String}
    (found : scope.reader? p = some reader) :
    ∃ j, reader = Function.readerName j ∧ scope.fn.paths[j]? = some p := by
  obtain ⟨j, isIndex, rfl⟩ := Option.map_eq_some_iff.mp found
  obtain ⟨bound, sameText, _⟩ := List.findIdx?_eq_some_iff_getElem.mp isIndex
  refine ⟨j, rfl, List.getElem?_eq_some_iff.mpr ⟨bound, ?_⟩⟩
  exact sound.texts _ _ (sound.reads.known _ (List.getElem_mem bound)) known (beq_iff_eq.mp sameText)

theorem Scope.Quiet.add_path (known : D p) (isNew : scope.reader? p = none) :
    scope.Quiet D { scope with fn := { scope.fn with paths := scope.fn.paths ++ [p] } } where
  step :=
    { enters := (adds_path scope p).enters
      reads := by
        intro reads
        refine ⟨?_, ?_⟩
        · intro q member
          rcases List.mem_append.mp member with old | new
          · exact reads.known q old
          · obtain rfl := List.mem_singleton.mp new
            exact known
        · rw [List.map_append]
          refine List.nodup_append.mpr ⟨reads.distinct, List.pairwise_singleton _ _, ?_⟩
          intro text old text' new
          obtain rfl := List.mem_singleton.mp new
          obtain ⟨q, member, rfl⟩ := List.mem_map.mp old
          unfold Scope.reader? at isNew
          rw [Option.map_eq_none_iff, List.findIdx?_eq_none_iff] at isNew
          exact ne_of_beq_false (isNew q member)
      calm := by
        intro b block block' here here'
        cases here.symm.trans here'
        exact ⟨rfl, rfl, fun _ => ⟨rfl, rfl⟩⟩
      fronts := fun _ _ _ _ declares => .inl declares }
  current := rfl
  code := rfl
  bounds := fun _ bound => bound

/-- A scope in which only readers, blocks and their bookkeeping are new. -/
def Scope.SameVars (scope later : Scope) : Prop :=
  later = { scope with fn := later.fn, touched := later.touched, current := later.current }

theorem Scope.SameVars.trans {third : Scope} (first : scope.SameVars later)
    (second : later.SameVars third) : scope.SameVars third := by
  unfold Scope.SameVars at first second ⊢
  rw [second, first]

theorem Scope.Rebuilt.trans {third : Scope} {more most : Nat} (first : scope.Rebuilt later more)
    (second : later.Rebuilt third most) : scope.Rebuilt third (more + most) := by
  obtain ⟨arena, rfl⟩ := first.same
  obtain ⟨arena', rfl⟩ := second.same
  refine ⟨⟨arena', rfl⟩, ?_⟩
  have names := first.names
  have names' := second.names
  omega

theorem Scope.Rebuilt.sameVars {more : Nat} (rebuilt : scope.Rebuilt later more) :
    scope.SameVars later := by
  obtain ⟨arena, rfl⟩ := rebuilt.same
  rfl

theorem quiet_readerOf (sound : Sound D scope) (known : D p) :
    Yields (readerOf p) scope fun reader later => scope.Quiet D later ∧
      scope.SameVars later ∧ ∃ j, reader = Function.readerName j ∧ later.fn.paths[j]? = some p := by
  refine (yields_readerOf p scope).mono ?_
  rintro reader later (⟨found, rfl⟩ | ⟨isNew, _, rfl, rfl⟩)
  · exact ⟨.of_notes, rfl, sound.index_of_reader? known found⟩
  · exact ⟨.add_path known isNew, rfl, _, rfl, List.getElem?_concat_length⟩

theorem quiet_touch (reader : String) :
    Yields (touch reader) scope fun _ later => scope.Quiet D later ∧ scope.SameVars later ∧
      later.fn = scope.fn :=
  .modifying ⟨.of_notes, rfl, rfl⟩

/-! ## Advances -/

/-- Noting that a reader is advanced, where it is. -/
theorem Sim.bindReader (sound : Sound D scope)
    (advanced : Ready final scope spot m → pre → ∀ c, m.columns[j]? = some c →
      c.place = some spot.place) :
    Sim D final may spot (changeArena (·.bind scope.current (Function.readerName j))) scope m pre
      (fun _ later => later.current = scope.current ∧ scope.Rebuilt later 0 ∧
        later.Bound (Function.readerName j))
      (fun _ _ => Onward (· = m)) accepted := by
  refine .changeArena fun arena bound => ?_
  have updates := Arena.bind_updates bound
  have adds : scope.Adds { scope with fn := { scope.fn with arena } } :=
    ⟨.of_arena updates.extends' (fun _ same _ => same ▸ .refl) updates.nothing_added
      (Arena.bind_named bound), rfl⟩
  refine ⟨.of_updates updates adds (fun _ => rfl) (fun _ => rfl) (fun _ => rfl),
    ⟨rfl, ⟨⟨arena, rfl⟩, updates.names⟩, ?_⟩, fun completes ready begins => ?_⟩
  · obtain ⟨block, _, there⟩ := updates.here
    exact ⟨scope.current, _, .refl, there, List.mem_append_right _ (List.mem_singleton_self _)⟩
  · rw [Scope.emitted_of_updates updates fun _ => (List.append_nil _).symm]
    refine .nil ⟨⟨ready.stands, ?_, ?_⟩, .refl _ m, rfl, rfl⟩
    · rintro k c ⟨b, block, isOpen, here, member⟩ isColumn
      obtain ⟨old, isOld, rfl⟩ := updates.before here
      have known : k = j ∨ Function.readerName k ∈ old.bound := by
        split at member
        · rcases List.mem_append.mp member with known | new
          · exact .inr known
          · exact .inl (readerName_injective (List.mem_singleton.mp new))
        · exact .inr member
      rcases known with rfl | known
      · exact advanced ready begins c isColumn
      · exact ready.reads k c ⟨b, old, (adds.open_iff sound.rooted b).mp isOpen, isOld, known⟩ isColumn
    · exact fun b n init isOpen => ready.declared b n init ((adds.open_iff sound.rooted b).mp isOpen)

theorem Ready.advance (ready : Ready final scope spot m) (isPath : final.fn.paths[j]? = some p)
    (isFlat : p.arrayPrefix? = none) :
    ∃ m', Engine.advance j m = some (.ok ((), m')) ∧ Ready final scope spot m' ∧ m.Still m' ∧
      m'.env = m.env ∧ m.Frame (fun _ => False) m' ∧
      ∀ c, m'.columns[j]? = some c → c.place = some spot.place := by
  obtain ⟨c, here, _, rfl⟩ := ready.stands.wired.column j p isPath
  have still := Machine.still_moveColumn (d := { c with move := m.clock + 1, place := some spot.place })
    here rfl rfl
  have frame := Machine.frame_moveColumn (fun _ => False) m j
    { c with move := m.clock + 1, place := some spot.place }
  have isHere : ∀ d,
      (m.moveColumn j { c with move := m.clock + 1, place := some spot.place }).columns[j]?
      = some d → d.place = some spot.place := by
    intro d isMoved
    rw [Machine.getElem?_moveColumn here, if_pos rfl] at isMoved
    exact Option.some.inj isMoved ▸ rfl
  refine ⟨_, advance_flat ready.stands here isFlat,
    ready.still still frame (fun _ _ _ => False.elim) ?_, still, rfl, frame, isHere⟩
  intro k d bound isMoved
  by_cases same : k = j
  · exact isHere d (same ▸ isMoved)
  · rw [Machine.getElem?_moveColumn here, if_neg same] at isMoved
    exact ready.reads k d bound isMoved

/-- The advance of the reader of a field. -/
theorem Sim.advance (sound : Sound D scope) (isPath : scope.fn.paths[j]? = some p)
    (isFlat : p.arrayPrefix? = none) :
    Sim D final may spot (Fusion.advance (Function.readerName j)) scope m pre
      (fun _ later => later.current = scope.current ∧ scope.Rebuilt later 0 ∧
        later.Bound (Function.readerName j))
      (fun _ _ => Onward fun m' => m.Still m' ∧ m'.env = m.env) accepted := by
  refine .get (.ask (yields_isBound _ scope) fun answer isBound => ?_)
  cases answer with
  | true =>
    exact .pure ⟨rfl, ⟨⟨_, rfl⟩, rfl⟩, isBound.mp rfl⟩ fun _ => ⟨rfl, .refl m, rfl⟩
  | false =>
    change Sim D final may spot (Fusion.emit (.member (.ident (Function.readerName j))
      Member.next []) >>= fun _ => changeArena (·.bind scope.current (Function.readerName j)))
      scope m pre _ _ _
    refine .bind (fun _ later => scope.Rebuilt later 0) (fun _ _ m' => m.Still m' ∧
      m'.env = m.env ∧ ∀ c, m'.columns[j]? = some c → c.place = some spot.place) sound
      (.emit _ sound fun completes ready _ => ?_) ?_
    · have isPath' := prefix_getElem? completes.paths isPath
      obtain ⟨m', moves, ready', still, env, frame, isHere⟩ := ready.advance isPath' isFlat
      refine .member (.of_eq (ready.stands.wired.eval_next isPath' moves) ?_)
      exact ⟨ready', frame.mono fun _ => False.elim, rfl, still, env, isHere⟩
    · rintro _ later m' sound' same adds rebuilt
      rw [← same]
      refine (Sim.bindReader sound' ?_).mono id ?_ ?_ fun _ => id
      · rintro _ ⟨_, _, _, _, isHere⟩ c isColumn
        exact isHere c isColumn
      · rintro _ third ⟨same', rebuilt', bound⟩
        exact ⟨same', rebuilt.trans rebuilt', bound⟩
      · rintro _ third flow m'' ⟨_, _, still, env, _⟩ _ ⟨rfl, rfl⟩
        exact ⟨rfl, still, env⟩

/-- No reader of a scope in order is redirected. -/
theorem Sound.not_redirects (sound : Sound D scope) {reader : String} {target : Override}
    {b : BlockId} : ¬ scope.Redirects reader (some (target, b)) := by
  rintro ⟨isOpen, block, here, found⟩
  rw [sound.direct b block isOpen here] at found
  cases found

theorem Sound.not_firstRedirects (sound : Sound D scope) {target : Override × BlockId} :
    ∀ {ps : List Path}, ¬ scope.FirstRedirects ps (some target)
  | [], first => by cases first
  | _ :: _, .inl ⟨_, ⟨_, _, redirects⟩, _⟩ => sound.not_redirects redirects
  | _ :: _, .inr ⟨_, first⟩ => sound.not_firstRedirects first

end readers

/-! ## Values -/

/-- A step of a run has an answer and changes nothing, from here on and for as long as the spot stays
the same and the variables that are there keep their values. -/
def Stable (final scope : Scope) (spot : Spot) (m : Machine) {α : Type} (step : Run α)
    (answer : Except RunError α) : Prop :=
  ∀ later m', scope.Adds later → later.Completes final → Ready final later spot m' →
    m.Frame scope.New m' → step m' = ofAnswer answer m'

/-- An expression evaluates to an answer from here on. -/
abbrev Denotes (final scope : Scope) (spot : Spot) (m : Machine) (node : Node)
    (answer : Except RunError Value) : Prop :=
  Stable final scope spot m (Engine.eval node) answer

section values

variable {D : Path → Prop} {final scope later : Scope} {may : Nat → Prop} {spot : Spot} {m m' : Machine}
variable {pre : Prop} {accepted : RunError → Prop} {p : Path} {node : Node}
variable {α : Type} {step : Run α} {answer : Except RunError α}

theorem Stable.kept (stable : Stable final scope spot m step answer) (adds : scope.Adds later)
    (frame : m.Frame scope.New m') : Stable final later spot m' step answer := by
  intro third m'' adds' completes ready frame'
  refine stable third m'' (adds.trans adds') completes ready (frame.trans (frame'.mono ?_))
  exact fun n => Nat.le_trans adds.later.arena.names

theorem Stable.apply
    (stable : Stable final scope spot m step answer) (completes : scope.Completes final)
    (ready : Ready final scope spot m) : step m = ofAnswer answer m :=
  stable scope m (.refl scope) completes ready (.refl _ m)

theorem Stable.pure (a : α) : Stable final scope spot m (Pure.pure a : Run α) (.ok a) :=
  fun _ _ _ _ _ _ => rfl

/-- Steps one after the other. -/
theorem Stable.bind {β : Type} {next : α → Run β}
    {after : α → Except RunError β} (stable : Stable final scope spot m step answer)
    (then' : ∀ a, Stable final scope spot m (next a) (after a)) :
    Stable final scope spot m (step >>= next) (answer >>= after) := by
  intro later m' adds completes ready frame
  rw [bind_apply, stable later m' adds completes ready frame]
  cases answer with
  | error cause => rfl
  | ok a => exact then' a later m' adds completes ready frame

/-- A read of an advanced reader. -/
theorem denotes_getValue {j : Nat} (isPath : scope.fn.paths[j]? = some p)
    (isFlat : p.arrayPrefix? = none) (bound : scope.Bound (Function.readerName j)) (m : Machine) :
    Denotes final scope spot m (.member (.ident (Function.readerName j)) Member.getValue [])
      (.ok (spot.valueAt p)) := by
  intro later m' adds completes ready _
  have isPath' : final.fn.paths[j]? = some p :=
    prefix_getElem? (adds.later.paths.trans completes.paths) isPath
  obtain ⟨c, here, _, rfl⟩ := ready.stands.wired.column j p isPath'
  rw [ready.stands.wired.eval_getValue isPath' here]
  exact ready.stands.columnValue_apply isFlat (ready.reads j c (bound.kept adds) here)

/-- The code of a path of fields. -/
theorem sim_readPath (sound : Sound D scope) (known : D p) (isFlat : p.arrayPrefix? = none) :
    Sim D final may spot (readPath p) scope m pre
      (fun node later => later.current = scope.current ∧ scope.SameVars later ∧
        ∀ name, node ≠ .ident name)
      (fun node later => Onward fun m' => m.Still m' ∧ m'.env = m.env ∧
        Denotes final later spot m' node (.ok (spot.valueAt p))) accepted := by
  refine .quietly sound (quiet_readerOf sound known) fun reader first quiet sound₁ held => ?_
  obtain ⟨same₁, j, rfl, isPath₁⟩ := held
  refine .quietly sound₁ (quiet_touch _) fun _ second quiet' sound₂ held => ?_
  obtain ⟨same₂, sameFn⟩ := held
  have isPath₂ : second.fn.paths[j]? = some p := sameFn ▸ isPath₁
  have same := same₁.trans same₂
  have current : second.current = scope.current := quiet'.current.trans quiet.current
  refine .ask (yields_overrideOf _ second) fun own redirects => ?_
  cases own with
  | some found => exact absurd redirects sound₂.not_redirects
  | none =>
    refine .ask (yields_firstOverride _ second) fun found first => ?_
    cases found with
    | some found => exact absurd first sound₂.not_firstRedirects
    | none =>
      refine .bind (fun _ later => second.Rebuilt later 0 ∧ later.Bound (Function.readerName j))
        (fun _ _ m' => m.Still m' ∧ m'.env = m.env) sound₂ (.advance sound₂ isPath₂ isFlat) ?_
      rintro _ third m' sound₃ current' adds ⟨rebuilt, bound⟩
      refine .pure ⟨current'.trans current, same.trans rebuilt.sameVars,
        fun _ => Node.noConfusion⟩ ?_
      rintro ⟨_, _, still, env⟩
      exact ⟨rfl, still, env,
        denotes_getValue (prefix_getElem? adds.later.paths isPath₂) isFlat bound m'⟩

end values

end QueryFusion.Fusion

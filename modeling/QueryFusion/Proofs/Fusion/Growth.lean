import QueryFusion.Fusion.Compile
import QueryFusion.Proofs.Code.Arena

/-!
# What emitting code can do to a scope

Every step that makes code leads to a later state of the scope: its origin stays, readers, names and
blocks are only added, and a block that was there changes only if the current block is within it. So
once the current block has left a block, the code of that block is final.
-/

namespace QueryFusion.Fusion

open Code

variable {touched : BlockId → Prop} {arena : Arena} {parent : BlockId} {init : Node} {name : String}

/-! ## Outcomes of emitting -/

/-- A step from a scope, if it succeeds, has an answer and a scope with a property. -/
def Yields {α : Type} (step : Emit α) (scope : Scope) (holds : α → Scope → Prop) : Prop :=
  ∀ a scope', step scope = .ok (a, scope') → holds a scope'

section Yields

variable {α β : Type} {scope : Scope} {holds : α → Scope → Prop}

theorem Yields.bind {step : Emit α} {next : α → Emit β} {holds : β → Scope → Prop}
    (first : Yields step scope fun a scope' => Yields (next a) scope' holds) :
    Yields (step >>= next) scope holds := by
  intro b scope'' done
  obtain ⟨⟨a, scope'⟩, did, rest⟩ := Except.bind_eq_ok.mp done
  exact first a scope' did b scope'' rest

theorem Yields.mono {step : Emit α} {more : α → Scope → Prop} (yields : Yields step scope holds)
    (weaker : ∀ a scope', holds a scope' → more a scope') : Yields step scope more :=
  fun a scope' done => weaker a scope' (yields a scope' done)

/-- A step that leaves the scope as it is. -/
theorem Yields.asked {step : Emit α} {next : α → Emit β} {holds : β → Scope → Prop} {told : α → Prop}
    (first : Yields step scope fun a scope' => scope' = scope ∧ told a)
    (second : ∀ a, told a → Yields (next a) scope holds) : Yields (step >>= next) scope holds :=
  .bind (first.mono fun a _ ⟨same, held⟩ => same ▸ second a held)

theorem Yields.pure {a : α} (held : holds a scope) : Yields (Pure.pure a : Emit α) scope holds := by
  intro b scope' done
  cases done
  exact held

theorem Yields.throw {abort : Abort} : Yields (MonadExcept.throw abort : Emit α) scope holds := by
  intro b scope' done
  cases done

theorem Yields.failWith {cause : FuseError} :
    Yields (Fusion.failWith cause : Emit α) scope holds := .throw

theorem Yields.get {holds : Scope → Scope → Prop} (held : holds scope scope) :
    Yields (MonadState.get : Emit Scope) scope holds := by
  intro b scope' done
  cases done
  exact held

theorem Yields.set {holds : PUnit → Scope → Prop} {new : Scope} (held : holds ⟨⟩ new) :
    Yields (MonadStateOf.set new : Emit PUnit) scope holds := by
  intro b scope' done
  cases done
  exact held

theorem Yields.modifying {holds : PUnit → Scope → Prop} {change : Scope → Scope}
    (held : holds ⟨⟩ (change scope)) :
    Yields (modify change : Emit PUnit) scope holds := by
  intro b scope' done
  cases done
  exact held

theorem Yields.lift {answer : Except Abort α}
    (held : ∀ a, answer = .ok a → holds a scope) :
    Yields (liftM answer : Emit α) scope holds := by
  intro b scope' done
  obtain ⟨a, same, rest⟩ := Except.bind_eq_ok.mp done
  cases rest
  exact held _ same

theorem orAbort_eq_ok {step : Except Fault α} {a : α} : orAbort step = .ok a ↔ step = .ok a := by
  cases step <;> simp [orAbort, Except.mapError]

theorem Yields.askArena {ask : Arena → Except Fault α}
    (held : ∀ a, ask scope.fn.arena = .ok a → holds a scope) :
    Yields (Fusion.askArena ask) scope holds :=
  .bind (.get (.lift fun a same => held a (orAbort_eq_ok.mp same)))

theorem Yields.changeArena {holds : PUnit → Scope → Prop} {change : Arena → Except Fault Arena}
    (held : ∀ arena, change scope.fn.arena = .ok arena →
      holds ⟨⟩ { scope with fn := { scope.fn with arena } }) :
    Yields (Fusion.changeArena change) scope holds :=
  .bind (.get (.bind (.lift fun arena same =>
    .set (held arena (orAbort_eq_ok.mp same)))))

theorem Yields.drawArena {draw : Arena → Except Fault (α × Arena)}
    (held : ∀ a arena, draw scope.fn.arena = .ok (a, arena) →
      holds a { scope with fn := { scope.fn with arena } }) :
    Yields (Fusion.drawArena draw) scope holds :=
  .bind (.get (.bind (.lift fun (a, arena) same =>
    .bind (.set (.pure (held a arena (orAbort_eq_ok.mp same)))))))

end Yields

/-! ## Later scopes -/

namespace Scope

/-- A block that the current block is within. -/
def Open (scope : Scope) (block : BlockId) : Prop :=
  scope.fn.arena.Within scope.current block

/-- The blocks form a tree in which the current block is within the body of the function. -/
structure Rooted (scope : Scope) : Prop where
  tree : scope.fn.arena.Tree
  top : ∀ parent, ¬ scope.fn.arena.Parent scope.fn.body parent
  current : scope.current < scope.fn.arena.blocks.size
  body : scope.Open scope.fn.body

/-- What emitting code can do to a scope. -/
structure Later (scope later : Scope) : Prop where
  scan : later.scan = scope.scan
  dataset : later.dataset = scope.dataset
  scanVars : later.scanVars = scope.scanVars
  schema : later.schema = scope.schema
  body : later.fn.body = scope.fn.body
  paths : scope.fn.paths <+: later.fn.paths
  loops : scope.loops <:+ later.loops
  arena : scope.fn.arena.Extends (fun block => scope.Rooted → scope.Open block)
    scope.fn.arena.names later.fn.arena
  trail : scope.Rooted → ∀ block, later.Open block →
    scope.Open block ∨ scope.fn.arena.blocks.size ≤ block
  rooted : scope.Rooted → later.Rooted
  named : scope.fn.arena.Named → later.fn.arena.Named
  records : ∀ (b : BlockId) (block : Block), later.fn.arena.blocks[b]? = some block →
    block.tag = .records → b < scope.fn.arena.blocks.size

variable {scope later third : Scope} {block : BlockId}

theorem Rooted.lt_of_open (rooted : scope.Rooted) (isOpen : scope.Open block) :
    block < scope.fn.arena.blocks.size :=
  Nat.lt_of_le_of_lt (rooted.tree.le_of_within isOpen) rooted.current

/-- Every open block is within the body of the function. -/
theorem Rooted.within_body (rooted : scope.Rooted) (isOpen : scope.Open block) :
    scope.fn.arena.Within block scope.fn.body := by
  rcases Arena.within_total isOpen rooted.body with inside | outside
  · exact inside
  · rcases Relation.ReflTransGen.cases_head outside with same | ⟨parent, isParent, _⟩
    · exact same ▸ .refl
    · exact absurd isParent (rooted.top parent)

theorem Later.refl (scope : Scope) : scope.Later scope where
  scan := rfl
  dataset := rfl
  scanVars := rfl
  schema := rfl
  body := rfl
  paths := List.prefix_rfl
  loops := List.suffix_rfl
  arena := .refl _ _ _
  trail := fun _ _ isOpen => .inl isOpen
  rooted := id
  named := id
  records := fun _ _ here _ => Array.inside here

theorem Later.trans (first : scope.Later later) (second : later.Later third) :
    scope.Later third where
  scan := second.scan.trans first.scan
  dataset := second.dataset.trans first.dataset
  scanVars := second.scanVars.trans first.scanVars
  schema := second.schema.trans first.schema
  body := second.body.trans first.body
  paths := first.paths.trans second.paths
  loops := first.loops.trans second.loops
  arena := by
    refine first.arena.trans second.arena first.arena.names fun block touched => ?_
    by_cases rooted : scope.Rooted
    · rcases first.trail rooted block (touched (first.rooted rooted)) with isOpen | beyond
      · exact .inl fun _ => isOpen
      · exact .inr beyond
    · exact .inl fun isRooted => absurd isRooted rooted
  trail := by
    intro rooted block isOpen
    rcases second.trail (first.rooted rooted) block isOpen with isOpen' | beyond
    · exact first.trail rooted block isOpen'
    · exact .inr (first.arena.size.trans beyond)
  rooted := fun rooted => second.rooted (first.rooted rooted)
  named := fun named => second.named (first.named named)
  records := by
    intro b block here isRecords
    have there := Array.getElem?_eq_getElem (second.records b block here isRecords)
    obtain ⟨block', here', grows⟩ := second.arena.grown b _ there
    cases here.symm.trans here'
    exact first.records b _ there (grows.tag.symm.trans isRecords)

theorem Later.of_same (scan : later.scan = scope.scan) (dataset : later.dataset = scope.dataset)
    (scanVars : later.scanVars = scope.scanVars) (schema : later.schema = scope.schema)
    (fn : later.fn = scope.fn) (loops : scope.loops <:+ later.loops)
    (current : later.current = scope.current) : scope.Later later where
  scan := scan
  dataset := dataset
  scanVars := scanVars
  schema := schema
  body := by rw [fn]
  paths := fn ▸ List.prefix_rfl
  loops := loops
  arena := by
    rw [fn]
    exact .refl _ _ _
  trail := by
    intro _ block isOpen
    unfold Open at isOpen ⊢
    rw [fn, current] at isOpen
    exact .inl isOpen
  rooted := by
    intro rooted
    refine ⟨fn ▸ rooted.tree, by rw [fn]; exact rooted.top,
      by rw [fn, current]; exact rooted.current, ?_⟩
    unfold Open
    rw [fn, current]
    exact rooted.body
  named := by
    rw [fn]
    exact id
  records := by
    rw [fn]
    exact fun _ _ here _ => Array.inside here

theorem Later.of_notes {live : Frame} {saved : List Frame} {outputs : List Var}
    {emitters : List String} {touched : Option (List String)} {consumed : VarMap Nat} {fused : Nat} :
    scope.Later { scope with live, saved, outputs, emitters, touched, consumed, fused } :=
  .of_same rfl rfl rfl rfl rfl List.suffix_rfl rfl

theorem Rooted.tree_extends (rooted : scope.Rooted) {lo : Nat}
    (extends' : scope.fn.arena.Extends touched lo arena)
    (added : ∀ id parent, scope.fn.arena.blocks.size ≤ id → arena.Parent id parent → parent < id) :
    arena.Tree := by
  intro id parent isParent
  rcases Nat.lt_or_ge id scope.fn.arena.blocks.size with old | beyond
  · exact rooted.tree id parent (extends'.parent_of_lt isParent old)
  · exact added id parent beyond isParent

/-- A change of the blocks that touches only open ones. -/
theorem Later.of_arena (extends' : scope.fn.arena.Extends touched scope.fn.arena.names arena)
    (isOpen : ∀ block, touched block → scope.Rooted → scope.Open block)
    (added : ∀ (id : BlockId) (block : Block), scope.fn.arena.blocks.size ≤ id →
      arena.blocks[id]? = some block → block.tag ≠ .records ∧
        ∀ parent, scope.Rooted → block.parent = some parent → parent < id)
    (named : scope.fn.arena.Named → arena.Named) :
    scope.Later { scope with fn := { scope.fn with arena } } where
  scan := rfl
  dataset := rfl
  scanVars := rfl
  schema := rfl
  body := rfl
  paths := List.prefix_rfl
  loops := List.suffix_rfl
  arena := extends'.mono isOpen
  trail := fun rooted _ isOpen' =>
    .inl (extends'.within_of_lt rooted.tree isOpen' rooted.current)
  rooted := fun rooted =>
    { tree := rooted.tree_extends extends' (by
        rintro id parent beyond ⟨block, here, isParent⟩
        exact (added id block beyond here).2 parent rooted isParent)
      top := fun parent isParent =>
        rooted.top parent (extends'.parent_of_lt isParent (rooted.lt_of_open rooted.body))
      current := rooted.current.trans_le extends'.size
      body := extends'.within rooted.body }
  named := named
  records := fun b block here isRecords =>
    Nat.lt_of_not_le fun beyond => (added b block beyond here).1 isRecords

theorem Later.back (later' : scope.Later later) (isOpen : scope.Rooted → scope.Open block) :
    scope.Later { later with current := block } :=
  { later' with
    arena := later'.arena
    trail := fun rooted _ isOpen' => .inl ((isOpen rooted).trans
      (later'.arena.within_of_lt rooted.tree isOpen' (rooted.lt_of_open (isOpen rooted))))
    rooted := by
      intro rooted
      have rooted' := later'.rooted rooted
      refine ⟨rooted'.tree, rooted'.top,
        Nat.lt_of_lt_of_le (rooted.lt_of_open (isOpen rooted)) later'.arena.size, ?_⟩
      rw [later'.body]
      exact later'.arena.within (rooted.within_body (isOpen rooted)) }

theorem Later.into (later' : scope.Later later)
    (isNew : scope.Rooted → scope.fn.arena.blocks.size ≤ block)
    (there : scope.Rooted → block < later.fn.arena.blocks.size)
    (isParent : later.fn.arena.Parent block parent) (isOpen : scope.Rooted → scope.Open parent) :
    scope.Later { later with current := block } :=
  { later' with
    arena := later'.arena
    trail := by
      intro rooted other isOpen'
      rcases Relation.ReflTransGen.cases_head isOpen' with rfl | ⟨above, step, within⟩
      · exact .inr (isNew rooted)
      · obtain rfl := Arena.parent_unique isParent step
        exact .inl ((isOpen rooted).trans
          (later'.arena.within_of_lt rooted.tree within (rooted.lt_of_open (isOpen rooted))))
    rooted := by
      intro rooted
      have rooted' := later'.rooted rooted
      refine ⟨rooted'.tree, rooted'.top, there rooted, ?_⟩
      rw [later'.body]
      exact .head isParent (later'.arena.within (rooted.within_body (isOpen rooted))) }

/-- What emitting code to the current block can do to a scope. -/
structure Adds (scope added : Scope) : Prop where
  later : scope.Later added
  current : added.current = scope.current

theorem Adds.refl (scope : Scope) : scope.Adds scope := ⟨.refl scope, rfl⟩

theorem Adds.trans (first : scope.Adds later) (second : later.Adds third) : scope.Adds third :=
  ⟨first.later.trans second.later, second.current.trans first.current⟩

theorem Adds.open (adds : scope.Adds later) (isOpen : scope.Open block) : later.Open block := by
  unfold Open
  rw [adds.current]
  exact adds.later.arena.within isOpen

/-- What going into blocks below the current one can do to a scope. -/
structure Enters (scope inner : Scope) : Prop where
  later : scope.Later inner
  within : inner.fn.arena.Within inner.current scope.current

theorem Adds.enters (adds : scope.Adds later) : scope.Enters later :=
  ⟨adds.later, adds.current ▸ .refl⟩

theorem Enters.trans (first : scope.Enters later) (second : later.Enters third) :
    scope.Enters third :=
  ⟨first.later.trans second.later, second.within.trans (second.later.arena.within first.within)⟩

end Scope

/-! ## Steps that emit to the current block -/

section steps

variable {α β : Type} {scope : Scope} {block : BlockId}

/-- Emitting adds a statement to the current block. -/
theorem yields_emit (n : Node) (scope : Scope) :
    Yields (emit n) scope fun _ later => ∃ arena,
      scope.fn.arena.appendHead scope.current n = .ok arena ∧
      later = { scope with fn := { scope.fn with arena } } :=
  .bind (.get (.changeArena fun arena done => ⟨arena, done, rfl⟩))

theorem adds_bind {reader : String}
    (done : scope.fn.arena.bind scope.current reader = .ok arena) :
    scope.Adds { scope with fn := { scope.fn with arena } } :=
  ⟨.of_arena (Arena.bind_updates done).extends' (fun _ same _ => same ▸ .refl)
    (Arena.bind_updates done).nothing_added (Arena.bind_named done), rfl⟩

theorem adds_appendHead {n : Node} (isOpen : scope.Rooted → scope.Open block)
    (done : scope.fn.arena.appendHead block n = .ok arena) :
    scope.Adds { scope with fn := { scope.fn with arena } } :=
  ⟨.of_arena (Arena.appendHead_updates done).extends' (fun _ same => same ▸ isOpen)
    (Arena.appendHead_updates done).nothing_added
    (Arena.update_named le_rfl done fun _ => rfl), rfl⟩

theorem adds_declareHere
    (done : scope.fn.arena.declareHere scope.current init = .ok (name, arena)) :
    scope.Adds { scope with fn := { scope.fn with arena } } :=
  ⟨.of_arena (Arena.declareHere_updates done).2.extends' (fun _ same _ => same ▸ .refl)
    (Arena.declareHere_updates done).2.nothing_added (Arena.declareHere_named done), rfl⟩

theorem adds_declare (isOpen : scope.Rooted → scope.Open block)
    (done : scope.fn.arena.declare block init = .ok (name, arena)) :
    scope.Adds { scope with fn := { scope.fn with arena } } :=
  ⟨.of_arena (Arena.declare_updates done).2.extends' (fun _ same => same ▸ isOpen)
    (Arena.declare_updates done).2.nothing_added (Arena.declare_named done), rfl⟩

theorem yields_readerOf (p : Path) (scope : Scope) :
    Yields (readerOf p) scope fun reader later =>
      (scope.reader? p = some reader ∧ later = scope) ∨
      (scope.reader? p = none ∧ scope.schema.has p = true ∧
        reader = Function.readerName scope.fn.paths.length ∧
        later = { scope with fn := { scope.fn with paths := scope.fn.paths ++ [p] } }) := by
  refine .bind (.get ?_)
  cases own : scope.reader? p with
  | some reader => exact .pure (.inl ⟨rfl, rfl⟩)
  | none =>
    dsimp only
    split
    · next has =>
      refine .bind (.lift fun (reader, fn) done => ?_)
      refine .bind (.set (.pure (.inr ?_)))
      have added := orAbort_eq_ok.mp done
      unfold Function.addReader at added
      split at added
      · cases added
      · cases added
        exact ⟨rfl, has, rfl, rfl⟩
    · exact .failWith

theorem adds_path (scope : Scope) (p : Path) :
    scope.Adds { scope with fn := { scope.fn with paths := scope.fn.paths ++ [p] } } where
  later := { Scope.Later.refl scope with
    paths := List.prefix_append _ _
    trail := fun _ _ isOpen => .inl isOpen
    rooted := fun rooted => ⟨rooted.tree, rooted.top, rooted.current, rooted.body⟩ }
  current := rfl

/-- Opening a block adds an empty one at the end. -/
theorem yields_openBlock (parent : BlockId) (tag : Tag) (scope : Scope) :
    Yields (openBlock parent tag) scope fun id later =>
      id = scope.fn.arena.blocks.size ∧
      later = { scope with fn :=
        { scope.fn with arena := (scope.fn.arena.new (some parent) tag).2 } } :=
  .drawArena fun id arena done => by
    cases done
    exact ⟨rfl, rfl⟩

theorem adds_block {tag : Tag} (isTag : tag ≠ .records)
    (isOpen : scope.Rooted → scope.Open parent) :
    scope.Adds { scope with fn :=
      { scope.fn with arena := (scope.fn.arena.new (some parent) tag).2 } } := by
  refine ⟨.of_arena (scope.fn.arena.new_extends (some parent) tag) (fun _ none => none.elim) ?_
    (Arena.new_named _ _), rfl⟩
  intro id block beyond here
  rw [Arena.new_getElem?] at here
  split at here
  · next same =>
    cases here
    refine ⟨isTag, fun above rooted isParent => ?_⟩
    cases isParent
    exact same ▸ rooted.lt_of_open (isOpen rooted)
  · rw [Array.getElem?_eq_none beyond] at here
    cases here

/-! ## Questions about redirections and advances -/

/-- The closest redirection of a reader that the current block sees. -/
def Scope.Redirects (scope : Scope) (reader : String) : Option (Code.Override × BlockId) → Prop
  | none => ∀ id block, scope.Open id → scope.fn.arena.blocks[id]? = some block →
      block.overrides.lookup reader = none
  | some (target, id) => scope.Open id ∧ ∃ block, scope.fn.arena.blocks[id]? = some block ∧
      block.overrides.lookup reader = some target

/-- The redirection of the reader of a path, if it has a reader and that is redirected. -/
def Scope.OwnRedirects (scope : Scope) (p : Path) :
    Option (Code.Override × BlockId) → Prop
  | none => ∀ reader, scope.reader? p = some reader → scope.Redirects reader none
  | some target => ∃ reader, scope.reader? p = some reader ∧ scope.Redirects reader (some target)

/-- The redirection of the first path in a list whose reader has one. -/
def Scope.FirstRedirects (scope : Scope) :
    List Path → Option (Code.Override × BlockId) → Prop
  | [], found => found = none
  | p :: rest, found =>
    (∃ target, scope.OwnRedirects p (some target) ∧ found = some target) ∨
    (scope.OwnRedirects p none ∧ scope.FirstRedirects rest found)

/-- Whether a reader is advanced at or around the current block. -/
def Scope.Bound (scope : Scope) (reader : String) : Prop :=
  ∃ id block, scope.Open id ∧ scope.fn.arena.blocks[id]? = some block ∧ reader ∈ block.bound

theorem yields_overrideOf (reader : String) (scope : Scope) :
    Yields (overrideOf reader) scope fun found later =>
      later = scope ∧ scope.Redirects reader found := by
  refine .bind (.get (.askArena fun found done => ⟨rfl, ?_⟩))
  cases found with
  | none =>
    intro id block isOpen here
    simpa using Arena.findUp_none done id block isOpen here
  | some answer =>
    obtain ⟨start, id, block, same, within, here, answers⟩ := Arena.findUp_some done
    cases same
    obtain ⟨target, found, rfl⟩ := Option.map_eq_some_iff.mp answers
    exact ⟨within, block, here, found⟩

theorem yields_ownOverride {p : Path} {next : Option (Override × BlockId) → Emit β}
    {holds : β → Scope → Prop}
    (each : ∀ found, scope.OwnRedirects p found → Yields (next found) scope holds) :
    Yields (match scope.reader? p with
      | some reader => overrideOf reader >>= next
      | none => pure none >>= next) scope holds := by
  cases own : scope.reader? p with
  | none =>
    refine .bind (.pure (each none ?_))
    intro reader same
    rw [own] at same
    cases same
  | some reader =>
    refine .asked (yields_overrideOf reader scope) fun found redirects => ?_
    refine each found ?_
    cases found with
    | none =>
      intro other same
      cases own.symm.trans same
      exact redirects
    | some target => exact ⟨reader, own, redirects⟩

theorem yields_firstOverride : ∀ (ps : List Path) (scope : Scope),
    Yields (firstOverride ps) scope fun found later =>
      later = scope ∧ scope.FirstRedirects ps found
  | [], scope => .pure ⟨rfl, rfl⟩
  | p :: rest, scope => by
    refine .bind (.get (yields_ownOverride fun own redirects => ?_))
    cases own with
    | some target => exact .pure ⟨rfl, .inl ⟨target, redirects, rfl⟩⟩
    | none =>
      refine (yields_firstOverride rest scope).mono ?_
      rintro found again ⟨rfl, first⟩
      exact ⟨rfl, .inr ⟨redirects, first⟩⟩

theorem yields_isOverridden (p : Path) (scope : Scope) :
    Yields (isOverridden p) scope fun answer later => later = scope ∧
      ∃ found, scope.FirstRedirects (p :: elementPrefixes p) found ∧ answer = found.isSome := by
  refine .bind (.get (yields_ownOverride fun own redirects => ?_))
  cases own with
  | some target => exact .pure ⟨rfl, some target, .inl ⟨target, redirects, rfl⟩, rfl⟩
  | none =>
    refine .asked (yields_firstOverride _ scope) fun found first => ?_
    exact .pure ⟨rfl, found, .inr ⟨redirects, first⟩, rfl⟩

theorem yields_isBound (reader : String) (scope : Scope) :
    Yields (askArena (·.isBound (some scope.current) reader)) scope fun answer later =>
      later = scope ∧ (answer = true ↔ scope.Bound reader) := by
  refine .askArena fun answer done => ⟨rfl, ?_⟩
  obtain ⟨found, searched, same⟩ := Except.bind_eq_ok.mp done
  cases same
  cases found with
  | none =>
    have nowhere := Arena.findUp_none searched
    constructor
    · intro isTrue
      cases isTrue
    · rintro ⟨id, block, isOpen, here, member⟩
      simpa [member] using nowhere id block isOpen here
  | some answer =>
    obtain ⟨start, id, block, same, within, here, answers⟩ := Arena.findUp_some searched
    cases same
    refine ⟨fun _ => ⟨id, block, within, here, ?_⟩, fun _ => rfl⟩
    split at answers
    · next member => exact List.contains_iff_mem.mp member
    · cases answers

theorem yields_parentOf (block : BlockId) (scope : Scope) :
    Yields (parentOf block) scope fun home later =>
      later = scope ∧ scope.fn.arena.Parent block home := by
  refine .bind (.askArena fun found done => ?_)
  have here := Arena.get_eq_ok.mp done
  cases isParent : found.parent with
  | none => exact .throw
  | some home => exact .pure ⟨rfl, found, here, isParent⟩

/-! ## Reading paths and variables -/

theorem adds_redirect {home : BlockId} {array index reader : String} {declared redirected : Arena}
    (isOpen : scope.Rooted → scope.Open block) (isOpenHome : scope.Rooted → scope.Open home)
    (isNew : scope.Redirects reader none) (atBlock : scope.Open block)
    (declares : scope.fn.arena.declare home init = .ok (array, declared))
    (redirects : declared.setOverride block reader ⟨array, index⟩ = .ok redirected) :
    scope.Adds { scope with fn := { scope.fn with arena := redirected } } := by
  obtain ⟨named, updates⟩ := Arena.declare_updates declares
  have fresh := updates.overrides (fun _ => rfl) fun found here => isNew block found atBlock here
  obtain ⟨extends', names, size, _⟩ := Arena.setOverride_extends redirects fresh named
    le_rfl (by rw [updates.names]; exact Nat.lt_succ_self _)
  have both := (updates.extends'.mono fun _ => Or.inl).trans extends' le_rfl
    fun _ same => .inl (Or.inr same)
  refine ⟨.of_arena both ?_ ?_ fun isNamed => Arena.update_named le_rfl redirects
    (fun _ => rfl) (Arena.declare_named declares isNamed), rfl⟩
  · rintro other (rfl | rfl)
    · exact isOpenHome
    · exact isOpen
  · intro id found beyond here
    rw [Array.getElem?_eq_none (size.trans updates.size ▸ beyond)] at here
    cases here

theorem yields_visibleMemo? (v : Var) (scope : Scope) :
    Yields (visibleMemo? v) scope fun found later => later = scope ∧
      ∀ name, found = some name → ∃ memo, scope.live.memos.find? v = some memo ∧
        memo.name = name ∧ scope.Open memo.block := by
  refine .bind (.get ?_)
  cases kept : scope.live.memos.find? v with
  | none => exact .pure ⟨rfl, fun _ h => by cases h⟩
  | some memo =>
    refine .bind (.askArena fun isAbove done => ?_)
    have seen := Arena.meets_iff done
    cases isAbove with
    | false => exact .pure ⟨rfl, fun _ h => by cases h⟩
    | true =>
      refine .pure ⟨rfl, fun name same => ⟨memo, rfl, Option.some.inj same, seen.mp rfl⟩⟩

theorem yields_moveTo {holds : PUnit → Scope → Prop} (held : holds ⟨⟩ { scope with current := block }) :
    Yields (moveTo block) scope holds :=
  .modifying held

theorem yields_iterable? (e : Expr) (scope : Scope) :
    Yields (iterable? e) scope fun found later => later = scope ∧ ∀ element, found = some element →
      scope.schema.has element = true ∧
      ∀ reader, scope.reader? element = some reader → ¬ scope.Bound reader := by
  refine .bind (.get ?_)
  split
  · exact .pure ⟨rfl, nofun⟩
  · next p _ =>
    dsimp only
    split
    · exact .pure ⟨rfl, nofun⟩
    · next has =>
      have continues : ∀ busy : Bool,
          (busy = false → ∀ reader, scope.reader? p.elements = some reader → ¬ scope.Bound reader) →
          Yields (do
            if busy then pure none
            else if ← isOverridden p.elements then pure none
            else pure (some p.elements) : Emit (Option Path)) scope fun found later =>
              later = scope ∧ ∀ element, found = some element →
                scope.schema.has element = true ∧
                ∀ reader, scope.reader? element = some reader → ¬ scope.Bound reader := by
        intro busy unbound
        cases busy with
        | true => exact .pure ⟨rfl, nofun⟩
        | false =>
          refine .asked (yields_isOverridden _ scope) fun answer _ => ?_
          cases answer with
          | true => exact .pure ⟨rfl, nofun⟩
          | false =>
            refine .pure ⟨rfl, fun element same => ?_⟩
            cases same
            exact ⟨by simpa using has, unbound rfl⟩
      cases own : scope.reader? p.elements with
      | none =>
        exact .bind (.pure (continues false fun _ reader isReader => by
          rw [own] at isReader
          cases isReader))
      | some reader =>
        refine .asked (yields_isBound reader scope) fun busy isBusy => ?_
        refine continues busy fun isFree other same => ?_
        cases own.symm.trans same
        rw [← isBusy, isFree]
        exact Bool.false_ne_true

/-- What a search for an enclosing block finds is open. -/
theorem yields_enclosing (accept : Tag → Bool) (scope : Scope) :
    Yields (askArena (·.enclosing (some scope.current) accept)) scope fun found later =>
      later = scope ∧ ∀ id, found = some id → scope.Open id ∧
        ∃ block, scope.fn.arena.blocks[id]? = some block ∧ accept block.tag = true := by
  refine .askArena fun found done => ⟨rfl, ?_⟩
  rintro id rfl
  obtain ⟨start, found, block, same, within, here, answers⟩ := Arena.findUp_some done
  cases same
  split at answers
  · next accepted =>
    cases answers
    exact ⟨within, block, here, accepted⟩
  · cases answers

theorem yields_chainStep (seen : List String) (body : Plan.Body) (scope : Scope) :
    Yields (chainStep seen body) scope fun _ later => later = scope := by
  unfold chainStep
  split
  · exact .pure rfl
  · exact .pure rfl
  · refine .asked (yields_iterable? _ scope) fun found _ => ?_
    split <;> exact .pure rfl
  · exact .pure rfl
  · exact .pure rfl

end steps

end QueryFusion.Fusion

import QueryFusion.Proofs.Fusion.Intact
import QueryFusion.Proofs.Fusion.Bindings

/-!
# The trace of a scope

Code is made in few ways. The code of an expression adds statements to the current block, declares
variables there, redirects readers, and opens the two blocks of a branch that it comes back from. A
step of a plan also declares variables in front of open blocks, and goes into the block of a branch
or of a loop. A nested plan comes back to where it began. At last a group-by goes to a block beside
its loop, or an aggregate goes to the body of the function.

The relations here list these ways, with what each of them needs: statements read only names that the
scope knows, and they set only variables they may set. Whatever holds of all code is proved by
induction on them.
-/

namespace QueryFusion.Fusion

open Code
open Code.Arena (declaration)

variable {i b : BlockId} {block : Block} {tag : Tag} {j : Nat} {name : String}

/-! ## What a scope knows -/

/-- A block introduces a variable before its tail. -/
def Introduces (arena : Arena) (b : BlockId) (n : Nat) : Prop :=
  ∃ block init, arena.blocks[b]? = some block ∧ declaration n init ∈ block.head

/-- The name of a parameter of a function. -/
inductive IsParam (fn : Function) : String → Prop
  | cursor : IsParam fn Function.cursor
  | sink : IsParam fn Function.sink
  | reader {j : Nat} (below : j < fn.paths.length) : IsParam fn (Function.readerName j)

namespace Scope

/-- The scope with other blocks. -/
abbrev withArena (scope : Scope) (arena : Arena) : Scope :=
  { scope with fn := { scope.fn with arena } }

/-- The names that code in the current block may read. -/
inductive Knows (scope : Scope) : String → Prop
  | param {name : String} (isParam : IsParam scope.fn name) : Knows scope name
  | ofBlock {b : BlockId} {n : Nat} (isOpen : scope.Open b)
      (introduced : Introduces scope.fn.arena b n) : Knows scope (variableName n)
  | value {v : Var} {node : Node} {readers : List String} {name : String}
      (bound : scope.live.values.find? v = some (.code node readers)) (member : name ∈ node.names) :
      Knows scope name
  | flag {v : Var} {name : String} (bound : scope.live.flags.find? v = some name) : Knows scope name
  | item {v : Var} {name : String} (bound : scope.live.items.find? v = some name) : Knows scope name
  | copy {b : BlockId} {block : Block} {entry : String × Code.Override} (isOpen : scope.Open b)
      (here : scope.fn.arena.blocks[b]? = some block) (member : entry ∈ block.overrides) :
      Knows scope entry.2.array
  | position {b : BlockId} {block : Block} {entry : String × Code.Override} (isOpen : scope.Open b)
      (here : scope.fn.arena.blocks[b]? = some block) (member : entry ∈ block.overrides) :
      Knows scope entry.2.index

/-- A quiet expression over names that the scope knows, which asks only readers that were advanced. -/
structure Reads (S : Terms) (scope : Scope) (n : Node) : Prop where
  quiet : n.isQuiet = true
  names : ∀ name ∈ n.names, scope.Knows name
  allows : scope.fn.arena.Allows scope.current n
  own : S.strict → n.isLocal = true

/-- A statement that opens no block. -/
inductive Simple (S : Terms) (scope : Scope) (may : Nat → Prop) : Node → Prop
  | expr {n : Node} (reads : scope.Reads S n) : Simple S scope may n
  | leave {b : BlockId} {block : Block} (isOpen : scope.Open b)
      (here : scope.fn.arena.blocks[b]? = some block) (steps : block.tag = .unnest) :
      Simple S scope may .leave
  | set {n : Nat} {value : Node} (allowed : may n) (known : scope.Knows (variableName n))
      (reads : scope.Reads S value) : Simple S scope may (.set (variableName n) value)

/-- The open blocks lead to the body, every declared copy of a path is introduced in the block it was
declared in, and the code that variables stand for is quiet and uses no reader. -/
structure Sane (S : Terms) (scope : Scope) : Prop where
  rooted : scope.Rooted
  memo : ∀ v memo, scope.live.memos.find? v = some memo →
    ∃ n, memo.name = variableName n ∧ Introduces scope.fn.arena memo.block n
  quiet : ∀ v node readers, scope.live.values.find? v = some (.code node readers) →
    node.isQuiet = true ∧ node.accesses = [] ∧ (S.strict → ¬ S.hides v.id → node.isLocal = true)

end Scope

/-! ## Changed blocks -/

/-- One block was changed. -/
structure Rewrites (b : BlockId) (change : Block → Block) (old new : Arena) : Prop where
  names : old.names ≤ new.names
  size : new.blocks.size = old.blocks.size
  blocks : ∀ (i : BlockId) (block : Block), old.blocks[i]? = some block →
    new.blocks[i]? = some (if i = b then change block else block)

section rewrites

variable {change : Block → Block} {old new : Arena}

theorem rewrites_of_updates {more : Nat} (updates : Arena.Updates b change more old new) :
    Rewrites b change old new where
  names := updates.extends'.names
  size := updates.size
  blocks := by
    intro i block here
    split
    · next same =>
      subst same
      obtain ⟨before, there, after⟩ := updates.here
      cases here.symm.trans there
      exact after
    · next apart => exact updates.extends'.untouched i block here apart

theorem rewrites_update (done : old.update b change = .ok new) : Rewrites b change old new := by
  obtain ⟨_, names, size, found, isFound, blocks⟩ := Arena.update_eq_ok done
  refine ⟨Nat.le_of_eq names.symm, size, fun i block here => ?_⟩
  rw [blocks i]
  split
  · next same =>
    subst same
    cases isFound.symm.trans here
    rfl
  · exact here

theorem Rewrites.before (rewrites : Rewrites b change old new)
    (here : new.blocks[i]? = some block) :
    ∃ before, old.blocks[i]? = some before ∧ block = if i = b then change before else before := by
  have there := Array.getElem?_eq_getElem (rewrites.size ▸ Array.inside here)
  exact ⟨_, there, Option.some.inj (here.symm.trans (rewrites.blocks i _ there))⟩

end rewrites

/-! ## Linked blocks -/

/-- A statement was added to a block, and with it the new blocks that it leads to. -/
structure Linked (old new : Arena) (home : BlockId) (s : Node) (added : List Block) : Prop where
  names : new.names = old.names
  size : new.blocks.size = old.blocks.size + added.length
  proper : home ≠ Code.emptyBlock
  there : home < old.blocks.size
  kept : ∀ (i : BlockId) (block : Block), old.blocks[i]? = some block →
    new.blocks[i]? = some (if i = home then { block with rest := block.rest ++ [s] } else block)
  extra : ∀ (i : Nat) (block : Block), added[i]? = some block →
    new.blocks[old.blocks.size + i]? = some block
  fresh : ∀ block ∈ added, block.parent = some home ∧ block.front = [] ∧ block.tag ≠ .records

namespace Linked

variable {old middle new : Arena} {home : BlockId} {s : Node} {added : List Block}

/-- A block of the new arena is an old one or an added one. -/
theorem cases (linked : Linked old new home s added) {found : Block}
    (here : new.blocks[i]? = some found) :
    (∃ before, old.blocks[i]? = some before ∧
      found = if i = home then { before with rest := before.rest ++ [s] } else before) ∨
    (old.blocks.size ≤ i ∧ found ∈ added) := by
  have there := Array.inside here
  rcases Nat.lt_or_ge i old.blocks.size with early | late
  · have before := Array.getElem?_eq_getElem early
    have now := linked.kept i _ before
    exact .inl ⟨_, before, Option.some.inj (here.symm.trans now)⟩
  · refine .inr ⟨late, ?_⟩
    obtain ⟨k, rfl⟩ := Nat.exists_eq_add_of_le late
    have below : k < added.length := by
      rw [linked.size] at there
      exact Nat.lt_of_add_lt_add_left there
    have isAdded := List.getElem?_eq_getElem below
    have now := linked.extra k _ isAdded
    rw [← Option.some.inj (now.symm.trans here)]
    exact List.getElem_mem below

theorem grows (linked : Linked old new home s added) {lo : Nat} :
    old.Extends (· = home) lo new where
  names := Nat.le_of_eq linked.names.symm
  size := by
    rw [linked.size]
    exact Nat.le_add_right _ _
  grown := by
    intro i block here
    refine ⟨_, linked.kept i block here, ?_⟩
    split
    · exact { Block.Grows.refl lo new.names block with rest := List.prefix_append _ _ }
    · exact .refl _ _ _
  untouched := by
    intro i block here apart
    rw [linked.kept i block here, if_neg apart]

theorem named (linked : Linked old new home s added) (named : old.Named) : new.Named := by
  refine named.of_fronts linked.names.ge fun i block here => ?_
  rcases linked.cases here with ⟨before, here', rfl⟩ | ⟨_, isAdded⟩
  · refine .inr ⟨before, here', ?_⟩
    split <;> rfl
  · exact .inl (linked.fresh block isAdded).2.1

/-- One new block below the statement's block. -/
theorem of_new (isTag : tag ≠ .records)
    (done : (old.new (some home) tag).2.appendHead home s = .ok new)
    (there : home < old.blocks.size) : Linked old new home s [{ parent := some home, tag }] := by
  obtain ⟨proper, names, size, block, here, blocks⟩ := Arena.update_eq_ok done
  have notNew : home ≠ old.blocks.size := there.ne
  refine ⟨names, ?_, proper, there, ?_, ?_, ?_⟩
  · rw [size]
    simp [Arena.new]
  · intro i before isBefore
    have early : i ≠ old.blocks.size := Nat.ne_of_lt (Array.inside isBefore)
    rw [blocks i]
    rw [Arena.new_getElem?, if_neg notNew] at here
    split
    · next same =>
      subst same
      cases isBefore.symm.trans here
      rfl
    · rw [Arena.new_getElem?, if_neg early, isBefore]
  · intro i added isAdded
    cases i with
    | zero =>
      cases isAdded
      rw [Nat.add_zero, blocks, if_neg (Ne.symm notNew), Arena.new_getElem?, if_pos rfl]
    | succ i => cases isAdded
  · intro added member
    rw [List.mem_singleton.mp member]
    exact ⟨rfl, rfl, isTag⟩

/-- Two new blocks below the statement's block. -/
theorem of_two (isTag : tag ≠ .records)
    (done : ((old.new (some home) tag).2.new (some home) tag).2.appendHead home s = .ok new)
    (there : home < old.blocks.size) :
    Linked old new home s [{ parent := some home, tag }, { parent := some home, tag }] := by
  have linked := of_new isTag done (there.trans_le (by simp [Arena.new]))
  have size : (old.new (some home) tag).2.blocks.size = old.blocks.size + 1 := by simp [Arena.new]
  have notNew : home ≠ old.blocks.size := there.ne
  refine ⟨linked.names, ?_, linked.proper, there, ?_, ?_, ?_⟩
  · rw [linked.size, size]
    rfl
  · intro i before isBefore
    have early : i ≠ old.blocks.size := Nat.ne_of_lt (Array.inside isBefore)
    exact linked.kept i before (by rw [Arena.new_getElem?, if_neg early, isBefore])
  · intro i added isAdded
    rcases i with _ | _ | i
    · cases isAdded
      rw [Nat.add_zero, linked.kept old.blocks.size _ (by rw [Arena.new_getElem?, if_pos rfl]),
        if_neg (Ne.symm notNew)]
    · cases isAdded
      have now := linked.extra 0 _ rfl
      rw [size] at now
      exact now
    · cases isAdded
  · intro added member
    rw [(List.mem_cons.mp member).elim id List.mem_singleton.mp]
    exact ⟨rfl, rfl, isTag⟩

/-- The only new block can be changed. -/
theorem change {change : Block → Block} (linked : Linked old middle home s [block])
    (done : middle.update old.blocks.size change = .ok new)
    (parent : (change block).parent = block.parent) (front : (change block).front = block.front)
    (tag : (change block).tag = block.tag) :
    Linked old new home s [change block] := by
  obtain ⟨_, names, size, found, here, blocks⟩ := Arena.update_eq_ok done
  have isNew := linked.extra 0 block rfl
  cases isNew.symm.trans here
  refine ⟨names.trans linked.names, by rw [size, linked.size]; rfl, linked.proper, linked.there,
    ?_, ?_, ?_⟩
  · intro i before isBefore
    have early : i ≠ old.blocks.size := Nat.ne_of_lt (Array.inside isBefore)
    rw [blocks, if_neg early]
    exact linked.kept i before isBefore
  · intro i added isAdded
    cases i with
    | zero =>
      cases isAdded
      rw [Nat.add_zero, blocks, if_pos rfl]
    | succ i => cases isAdded
  · intro added member
    rw [List.mem_singleton.mp member, parent, front, tag]
    exact linked.fresh block (.head _)

end Linked

/-! ## The ways to make code -/

/-- How the code of an expression is made, setting only variables it may set. -/
inductive Codes (S : Terms) : (may : Nat → Prop) → (scope later : Scope) → Prop
  | refl {may} (scope : Scope) : Codes S may scope scope
  | trans {may scope middle later} (first : Codes S may scope middle)
      (second : Codes S may middle later) : Codes S may scope later
  /-- Nothing changes but what is noted about readers and variables. -/
  | notes {may scope} (touched : Option (List String)) (consumed : VarMap Nat) (fused : Nat) :
      Codes S may scope { scope with touched, consumed, fused }
  /-- The value at a path was declared in the current block. -/
  | memo {may scope} {n : Nat} (v : Var)
      (introduced : Introduces scope.fn.arena scope.current n)
      (isRead : ∀ p, scope.live.values.find? v = some (.path p) →
        ∃ q ∈ scope.fn.paths, q.text = p.text) :
      Codes S may scope { scope with live := { scope.live with
        memos := scope.live.memos.insert v ⟨variableName n, scope.current⟩ } }
  | reader {may scope} (p : Path) :
      Codes S may scope { scope with fn := { scope.fn with paths := scope.fn.paths ++ [p] } }
  /-- A reader is advanced and marked. -/
  | advance {may scope} {j : Nat} {stepped arena : Arena}
      (isReader : j < scope.fn.paths.length)
      (steps : scope.fn.arena.appendHead scope.current (nextOf j) = .ok stepped)
      (binds : stepped.bind scope.current (Function.readerName j) = .ok arena) :
      Codes S may scope (scope.withArena arena)
  /-- A column is copied beside a loop by position and read at the same position. -/
  | redirect {may scope} {home b : BlockId} {block : Block}
      {entry : String × Code.Override} {j : Nat} {array : String} {declared arena : Arena}
      (isOpen : scope.Open b) (isParent : scope.fn.arena.Parent b home)
      (isNew : scope.Redirects (Function.readerName j) none) (isReader : j < scope.fn.paths.length)
      (here : scope.fn.arena.blocks[b]? = some block) (counts : entry ∈ block.overrides)
      (declares : scope.fn.arena.declare home (copyOf j) = .ok (array, declared))
      (redirects : declared.setOverride b (Function.readerName j) ⟨array, entry.2.index⟩ = .ok arena) :
      Codes S may scope (scope.withArena arena)
  | emit {may scope} {s : Node} {arena : Arena} (simple : scope.Simple S may s)
      (done : scope.fn.arena.appendHead scope.current s = .ok arena) :
      Codes S may scope (scope.withArena arena)
  /-- A variable is declared in the current block and may be set from then on. -/
  | declareHere {may scope later} {init : Node} {name : String} {arena : Arena}
      (reads : scope.Reads S init)
      (done : scope.fn.arena.declareHere scope.current init = .ok (name, arena))
      (rest : Codes S (fun n => may n ∨ n = scope.fn.arena.names) (scope.withArena arena) later) :
      Codes S may scope later
  /-- Code goes into the two blocks of a branch and comes back. -/
  | fork {may scope first last} {test : Node} {tag : Code.Tag} {arena : Arena}
      (reads : scope.Reads S test) (inLine : tag.isLoop = false)
      (linked : Linked scope.fn.arena arena scope.current
        (.branch test scope.fn.arena.blocks.size (scope.fn.arena.blocks.size + 1))
        [{ parent := some scope.current, tag }, { parent := some scope.current, tag }])
      (onYes : Codes S may ((scope.withArena arena).goto scope.fn.arena.blocks.size) first)
      (onNo : Codes S may (first.goto (scope.fn.arena.blocks.size + 1)) last) :
      Codes S may scope (last.goto scope.current)

/-- The statement and the block that code goes into, and the loops over lists from then on. -/
inductive Scope.Opens (S : Terms) (scope : Scope) : Node → Block → List (BlockId × Path) → Prop
  | select {test : Node} {tag : Code.Tag} (reads : scope.Reads S test) (inLine : tag.isLoop = false) :
      Opens S scope (.branch test scope.fn.arena.blocks.size Code.emptyBlock)
        { parent := some scope.current, tag } scope.loops
  | stepping {j : Nat} {element : Path} (isReader : j < scope.fn.paths.length)
      (isBound : scope.Bound (Function.readerName j))
      (reads : scope.reader? element = some (Function.readerName j)) :
      Opens S scope (.loop (hasElement j) scope.fn.arena.blocks.size)
        { parent := some scope.current, tag := .unnest, tail := [nextOf j]
          bound := [Function.readerName j] } ((scope.fn.arena.blocks.size, element) :: scope.loops)

/-- How the code of a step of a plan is made. -/
inductive Makes (S : Terms) : (may : Nat → Prop) → (scope later : Scope) → Prop
  | code {may scope later} (codes : Codes S may scope later) :
      Makes S may scope later
  | trans {may scope middle later} (first : Makes S may scope middle)
      (second : Makes S may middle later) : Makes S may scope later
  /-- Variables get other meanings, over names that are known, and rows other variables. -/
  | frame {may scope later} (adds : scope.Adds later)
      (fn : later.fn = scope.fn) (saved : later.saved = scope.saved)
      (sane : scope.Sane S → later.Sane S) (intact : ∀ T, scope.Intact T → later.Intact T)
      (known : ∀ name, later.Knows name → scope.Knows name) (loops : later.loops = scope.loops)
      (own : S.strict → later.emitters = scope.emitters) : Makes S may scope later
  /-- A variable is declared in front of an open block and may be set from then on. -/
  | declare {may scope later} {b : BlockId} {init : Node} {name : String}
      {arena : Arena} (isOpen : scope.Rooted → scope.Open b) (quiet : init.isQuiet = true)
      (constant : ∀ name ∈ init.names, IsParam scope.fn name) (silent : init.accesses = [])
      (own : S.strict → init.isLocal = true ∧ b ≠ scope.fn.body)
      (done : scope.fn.arena.declare b init = .ok (name, arena))
      (rest : Makes S (fun n => may n ∨ n = scope.fn.arena.names) (scope.withArena arena) later) :
      Makes S may scope later
  | enter {may scope} {s : Node} {block : Block} {arena : Arena}
      {loops : List (BlockId × Path)} (opens : scope.Opens S s block loops)
      (linked : Linked scope.fn.arena arena scope.current s [block]) :
      Makes S may scope { (scope.withArena arena).goto scope.fn.arena.blocks.size with loops }
  /-- A list is copied, and code goes into a loop through its positions. -/
  | count {may scope} {j : Nat} {element : Path} {array index : String}
      {copied positioned arena : Arena} (isReader : j < scope.fn.paths.length)
      (copies : scope.fn.arena.declareHere scope.current (copyOf j) = .ok (array, copied))
      (positions : copied.declareHere scope.current (.long 0) = .ok (index, positioned))
      (linked : Linked positioned arena scope.current
        (.loop (hasPosition scope.fn.arena.names) scope.fn.arena.blocks.size)
        [{ parent := some scope.current, tag := .unnest, tail := [countOf scope.fn.arena.names]
           bound := [Function.readerName j]
           overrides := [(Function.readerName j, ⟨variableName scope.fn.arena.names,
             variableName (scope.fn.arena.names + 1)⟩)] }])
      (reads : scope.reader? element = some (Function.readerName j)) :
      Makes S may scope { (scope.withArena arena).goto scope.fn.arena.blocks.size with
        loops := (scope.fn.arena.blocks.size, element) :: scope.loops }
  /-- Two variables are set in a block of their own. -/
  | keep {may scope} {test key item : Node} {best payload : Nat}
      {tag : Code.Tag} {arena : Arena} (reads : scope.Reads S test) (readsKey : scope.Reads S key)
      (readsItem : scope.Reads S item) (inLine : tag.isLoop = false) (maySetBest : may best)
      (maySetPayload : may payload)
      (best' : scope.Knows (variableName best)) (payload' : scope.Knows (variableName payload))
      (linked : Linked scope.fn.arena arena scope.current
        (.branch test scope.fn.arena.blocks.size Code.emptyBlock)
        [{ parent := some scope.current, tag
           rest := [.set (variableName best) key, .set (variableName payload) item] }]) :
      Makes S may scope (scope.withArena arena)
  /-- A nested plan comes back to where it began. -/
  | nested {may scope inner}
      (inside : Makes S may { scope with saved := scope.live :: scope.saved } inner) :
      Makes S may scope { inner with live := scope.live, saved := scope.saved, current := scope.current }

/-- How the code of a whole function is made. -/
inductive Builds (S : Terms) : (scope later : Scope) → Prop
  | make {scope later} (makes : Makes S (fun _ => False) scope later) : Builds S scope later
  | trans {scope middle later} (first : Builds S scope middle) (second : Builds S middle later) :
      Builds S scope later
  /-- A loop sets a flag, and code goes into a block beside the loop that runs if the flag is set. -/
  | group {scope second} {outer : BlockId} {name : String} {flagged third arena : Arena}
      (isOpen : scope.Rooted → scope.Open outer) (own : S.strict → outer ≠ scope.fn.body)
      (declares : scope.fn.arena.declare outer (.bool false) = .ok (name, flagged))
      (inside : Makes S (fun _ => False) (scope.withArena flagged) second)
      (stays : second.current = scope.current)
      (sets : second.fn.arena.appendHead second.current
        (.set (variableName scope.fn.arena.names) (.bool true)) = .ok third)
      (linked : Linked third arena outer
        (.branch (.ident (variableName scope.fn.arena.names)) third.blocks.size Code.emptyBlock)
        [{ parent := some outer, tag := .groupBy }]) :
      Builds S scope ((second.withArena arena).goto third.blocks.size)
  | toBody (scope : Scope) (lax : ¬ S.strict) : Builds S scope (scope.goto scope.fn.body)
  | atBody {scope} {n : Node} {arena : Arena} (lax : ¬ S.strict) (quiet : n.isQuiet = true)
      (silent : n.accesses = []) (done : scope.fn.arena.appendHead scope.fn.body n = .ok arena) :
      Builds S scope (scope.withArena arena)

/-! ## What every way keeps -/

section kept

variable {S : Terms} {may more : Nat → Prop} {scope later : Scope} {arena : Arena} {home : BlockId} {s : Node}
variable {added : List Block}

/-- Linking new blocks to an open one. -/
theorem Linked.adds (linked : Linked scope.fn.arena arena home s added)
    (isOpen : scope.Rooted → scope.Open home) : scope.Adds (scope.withArena arena) := by
  refine ⟨.of_arena linked.grows (fun _ same => same ▸ isOpen) ?_ linked.named, rfl⟩
  intro id block beyond here
  rcases linked.cases here with ⟨before, here', _⟩ | ⟨_, isAdded⟩
  · exact absurd (Array.inside here') beyond.not_gt
  · obtain ⟨parent, _, isTag⟩ := linked.fresh block isAdded
    refine ⟨isTag, fun above _ isParent => ?_⟩
    cases parent.symm.trans isParent
    exact linked.there.trans_le beyond

/-- Code can go into a linked block. -/
theorem Linked.into (linked : Linked scope.fn.arena arena home s added)
    (isOpen : scope.Rooted → scope.Open home) {i : Nat} (below : i < added.length) :
    scope.Later ((scope.withArena arena).goto (scope.fn.arena.blocks.size + i)) ∧
      arena.Parent (scope.fn.arena.blocks.size + i) home := by
  have isAdded := List.getElem?_eq_getElem below
  have isParent : arena.Parent (scope.fn.arena.blocks.size + i) home :=
    ⟨_, linked.extra i _ isAdded, (linked.fresh _ (List.getElem_mem below)).1⟩
  refine ⟨(linked.adds isOpen).later.into (fun _ => Nat.le_add_right _ _) (fun _ => ?_) isParent
    isOpen, isParent⟩
  rw [linked.size]
  exact Nat.add_lt_add_left below _

theorem Linked.forks {first : Scope} {yes no : Block}
    (linked : Linked scope.fn.arena arena scope.current s [yes, no])
    (onYes : ((scope.withArena arena).goto scope.fn.arena.blocks.size).Adds first) :
    scope.Enters ((scope.withArena arena).goto scope.fn.arena.blocks.size) ∧
      scope.Enters (first.goto (scope.fn.arena.blocks.size + 1)) := by
  obtain ⟨intoYes, isParentYes⟩ := linked.into (fun _ => .refl) (i := 0) Nat.two_pos
  obtain ⟨_, isParent⟩ := linked.into (fun _ => .refl) (i := 1) Nat.one_lt_two
  replace isParent := onYes.later.arena.parent isParent
  refine ⟨⟨intoYes, .single isParentYes⟩, (intoYes.trans onYes.later).into
    (fun _ => Nat.le_add_right _ _) (fun _ => ?_) isParent fun _ => .refl, .single isParent⟩
  refine Nat.lt_of_lt_of_le ?_ onYes.later.arena.size
  change _ < arena.blocks.size
  rw [linked.size]
  exact Nat.add_lt_add_left Nat.one_lt_two _

theorem adds_advance {stepped : Arena}
    (steps : scope.fn.arena.appendHead scope.current (nextOf j) = .ok stepped)
    (binds : stepped.bind scope.current (Function.readerName j) = .ok arena) :
    scope.Adds (scope.withArena arena) := by
  have second : (scope.withArena stepped).Adds (scope.withArena arena) := adds_bind binds
  exact (adds_appendHead (fun _ => .refl) steps).trans second

/-- The code of an expression goes to the current block. -/
theorem Codes.outputs (codes : Codes S may scope later) : later.outputs = scope.outputs := by
  induction codes with
  | trans _ _ first second => exact second.trans first
  | declareHere _ _ _ ih => exact ih
  | fork _ _ _ _ _ onYes onNo => exact onNo.trans onYes
  | _ => rfl

theorem Codes.adds (codes : Codes S may scope later) : scope.Adds later := by
  induction codes with
  | refl scope => exact .refl scope
  | trans _ _ first second => exact first.trans second
  | notes | memo => exact ⟨.of_notes, rfl⟩
  | reader p => exact adds_path _ p
  | advance _ steps binds => exact adds_advance steps binds
  | redirect isOpen isParent isNew _ _ _ declares redirects =>
    exact adds_redirect (fun _ => isOpen) (fun _ => isOpen.tail isParent) isNew isOpen declares
      redirects
  | emit _ done => exact adds_appendHead (fun _ => .refl) done
  | declareHere _ done _ rest => exact (adds_declareHere done).trans rest
  | fork _ _ linked _ _ onYes onNo =>
    exact ⟨((linked.forks onYes).2.later.trans onNo.later).back fun _ => .refl, rfl⟩

/-- The code of an expression gives no variable another meaning. -/
structure Scope.SameLive (scope later : Scope) : Prop where
  values : later.live.values = scope.live.values
  flags : later.live.flags = scope.live.flags
  items : later.live.items = scope.live.items
  saved : later.saved = scope.saved

theorem Scope.SameLive.trans {middle : Scope} (first : scope.SameLive middle)
    (second : middle.SameLive later) : scope.SameLive later :=
  ⟨second.values.trans first.values, second.flags.trans first.flags,
    second.items.trans first.items, second.saved.trans first.saved⟩

theorem Codes.sameLive (codes : Codes S may scope later) : scope.SameLive later := by
  induction codes with
  | refl | notes | memo | reader | advance | redirect | emit => exact ⟨rfl, rfl, rfl, rfl⟩
  | trans _ _ first second => exact first.trans second
  | declareHere _ _ _ rest => exact ⟨rest.values, rest.flags, rest.items, rest.saved⟩
  | fork _ _ _ _ _ onYes onNo =>
    exact ⟨onNo.values.trans onYes.values, onNo.flags.trans onYes.flags,
      onNo.items.trans onYes.items, onNo.saved.trans onYes.saved⟩

theorem Introduces.kept {n : Nat} (introduced : Introduces scope.fn.arena b n)
    (later' : scope.Later later) : Introduces later.fn.arena b n := by
  obtain ⟨block, init, here, member⟩ := introduced
  obtain ⟨block', here', grows⟩ := later'.arena.grown b block here
  exact ⟨block', init, here', grows.head member⟩

theorem IsParam.kept (isParam : IsParam scope.fn name) (later' : scope.Later later) :
    IsParam later.fn name := by
  cases isParam with
  | cursor => exact .cursor
  | sink => exact .sink
  | reader below => exact .reader (below.trans_le later'.paths.length_le)

theorem Scope.Knows.kept (known : scope.Knows name) (enters : scope.Enters later)
    (same : scope.SameLive later) : later.Knows name := by
  have opens : ∀ b, scope.Open b → later.Open b := fun b isOpen =>
    enters.within.trans (enters.later.arena.within isOpen)
  cases known with
  | param isParam => exact .param (isParam.kept enters.later)
  | ofBlock isOpen introduced =>
    exact .ofBlock (opens _ isOpen) (introduced.kept enters.later)
  | value bound member => exact .value (by rw [same.values]; exact bound) member
  | flag bound => exact .flag (by rw [same.flags]; exact bound)
  | item bound => exact .item (by rw [same.items]; exact bound)
  | copy isOpen here member =>
    obtain ⟨block', here', grows⟩ := enters.later.arena.grown _ _ here
    obtain ⟨more, overrides, _⟩ := grows.overrides
    exact .copy (opens _ isOpen) here' (by rw [overrides]; exact List.mem_append_left _ member)
  | position isOpen here member =>
    obtain ⟨block', here', grows⟩ := enters.later.arena.grown _ _ here
    obtain ⟨more, overrides, _⟩ := grows.overrides
    exact .position (opens _ isOpen) here' (by rw [overrides]; exact List.mem_append_left _ member)

theorem Codes.knows (codes : Codes S may scope later) (known : scope.Knows name) :
    later.Knows name := known.kept codes.adds.enters codes.sameLive

theorem Codes.reads {n : Node} (codes : Codes S may scope later) (reads : scope.Reads S n) :
    later.Reads S n :=
  ⟨reads.quiet, fun name member => codes.knows (reads.names name member),
    codes.adds.current ▸ reads.allows.mono fun _ => codes.adds.later.arena.bound, reads.own⟩

theorem Scope.Sane.kept (sane : scope.Sane S) (later' : scope.Later later)
    (memos : later.live.memos = scope.live.memos) (values : later.live.values = scope.live.values) :
    later.Sane S where
  rooted := later'.rooted sane.rooted
  memo := by
    intro v memo found
    rw [memos] at found
    obtain ⟨n, name, introduced⟩ := sane.memo v memo found
    exact ⟨n, name, introduced.kept later'⟩
  quiet := by
    rw [values]
    exact sane.quiet

/-- Going to another block changes nothing but the place. -/
theorem Scope.Sane.goto (sane : scope.Sane S) (rooted : (scope.goto b).Rooted) :
    (scope.goto b).Sane S := ⟨rooted, sane.memo, sane.quiet⟩

theorem Codes.sane (codes : Codes S may scope later) (sane : scope.Sane S) : later.Sane S := by
  induction codes with
  | refl => exact sane
  | trans _ _ first second => exact second (first sane)
  | notes => exact sane.kept .of_notes rfl rfl
  | memo v introduced _ =>
    refine ⟨⟨sane.rooted.tree, sane.rooted.top, sane.rooted.current, sane.rooted.body⟩,
      fun w memo found => ?_, sane.quiet⟩
    rw [VarMap.find?_insert] at found
    split at found
    · cases found
      exact ⟨_, rfl, introduced⟩
    · exact sane.memo w memo found
  | reader p => exact sane.kept (adds_path _ p).later rfl rfl
  | advance _ steps binds => exact sane.kept (adds_advance steps binds).later rfl rfl
  | redirect isOpen isParent isNew _ _ _ declares redirects =>
    exact sane.kept (adds_redirect (fun _ => isOpen) (fun _ => isOpen.tail isParent) isNew isOpen
      declares redirects).later rfl rfl
  | emit _ done => exact sane.kept (adds_appendHead (fun _ => .refl) done).later rfl rfl
  | declareHere _ done _ rest => exact rest (sane.kept (adds_declareHere done).later rfl rfl)
  | @fork _ scope first last _ _ arena reads inLine linked yesCodes noCodes onYes onNo =>
    obtain ⟨intoYes, intoNo⟩ := linked.forks yesCodes.adds
    have linkedSane : (scope.withArena arena).Sane S :=
      sane.kept (linked.adds fun _ => .refl).later rfl rfl
    have yesSane := onYes (linkedSane.goto (intoYes.later.rooted sane.rooted))
    have noSane := onNo (yesSane.goto (intoNo.later.rooted sane.rooted))
    exact noSane.goto ((Codes.fork reads inLine linked yesCodes noCodes).adds.later.rooted sane.rooted)

/-- The two variables of a loop by position. -/
theorem adds_positions {array index : String} {copied positioned : Arena}
    (copies : scope.fn.arena.declareHere scope.current (copyOf j) = .ok (array, copied))
    (positions : copied.declareHere scope.current (.long 0) = .ok (index, positioned)) :
    scope.Adds (scope.withArena positioned) := by
  have second : (scope.withArena copied).Adds (scope.withArena positioned) := adds_declareHere positions
  exact (adds_declareHere copies).trans second

theorem positions_size {array index : String} {copied positioned : Arena}
    (copies : scope.fn.arena.declareHere scope.current (copyOf j) = .ok (array, copied))
    (positions : copied.declareHere scope.current (.long 0) = .ok (index, positioned)) :
    positioned.blocks.size = scope.fn.arena.blocks.size :=
  (Arena.declareHere_updates positions).2.size.trans (Arena.declareHere_updates copies).2.size

theorem Scope.Opens.loops {block : Block} {loops : List (BlockId × Path)}
    (opens : scope.Opens S s block loops) : scope.loops <:+ loops := by
  cases opens with
  | select => exact List.suffix_rfl
  | stepping => exact List.suffix_cons _ _

theorem Scope.Later.looping (later' : scope.Later later) {loops : List (BlockId × Path)}
    (more : scope.loops <:+ loops) : scope.Later { later with loops } :=
  { later' with loops := more, rooted := fun rooted => ⟨(later'.rooted rooted).tree,
      (later'.rooted rooted).top, (later'.rooted rooted).current, (later'.rooted rooted).body⟩ }

theorem Makes.enters (makes : Makes S may scope later) : scope.Enters later := by
  induction makes with
  | code codes => exact codes.adds.enters
  | trans _ _ first second => exact first.trans second
  | frame adds => exact adds.enters
  | declare isOpen _ _ _ _ done _ rest => exact (adds_declare isOpen done).enters.trans rest
  | enter opens linked =>
    obtain ⟨into, isParent⟩ := linked.into (fun _ => .refl) (i := 0) Nat.one_pos
    exact ⟨into.looping opens.loops, .single isParent⟩
  | @count _ scope _ _ _ _ _ positioned arena _ copies positions linked =>
    have begun := adds_positions copies positions
    have linked' : Linked (scope.withArena positioned).fn.arena arena _ _ _ := linked
    obtain ⟨into, isParent⟩ := linked'.into (fun _ => .refl) (i := 0) Nat.one_pos
    have size := positions_size copies positions
    rw [size] at into
    rw [size] at isParent
    exact ⟨(begun.later.trans into).looping (List.suffix_cons _ _), .single isParent⟩
  | keep _ _ _ _ _ _ _ _ linked => exact (linked.adds fun _ => .refl).enters
  | @nested _ scope inner _ inside =>
    have entered : scope.Later { scope with saved := scope.live :: scope.saved } :=
      .of_notes
    have left : inner.Later { inner with live := scope.live, saved := scope.saved } :=
      .of_notes
    exact ⟨((entered.trans inside.later).trans left).back fun _ => .refl, .refl⟩

theorem Makes.saved (makes : Makes S may scope later) : later.saved = scope.saved := by
  induction makes with
  | code codes => exact codes.sameLive.saved
  | trans _ _ first second => exact second.trans first
  | frame _ _ saved => exact saved
  | declare _ _ _ _ _ _ _ rest => exact rest
  | enter | count | keep | nested => rfl

theorem Makes.sane (makes : Makes S may scope later) (sane : scope.Sane S) : later.Sane S := by
  induction makes with
  | code codes => exact codes.sane sane
  | trans _ _ first second => exact second (first sane)
  | frame _ _ _ keeps => exact keeps sane
  | declare isOpen _ _ _ _ done _ rest =>
    exact rest (sane.kept (adds_declare isOpen done).later rfl rfl)
  | @enter may scope _ _ arena _ opens linked =>
    have linkedSane : (scope.withArena arena).Sane S :=
      sane.kept (linked.adds fun _ => .refl).later rfl rfl
    have makes : Makes S may scope _ := .enter opens linked
    exact ⟨makes.enters.later.rooted sane.rooted, linkedSane.memo, linkedSane.quiet⟩
  | @count may scope _ _ _ _ _ positioned arena isReader copies positions linked reads =>
    have makes : Makes S may scope _ := .count isReader copies positions linked reads
    have begun := adds_positions copies positions
    have linked' : Linked (scope.withArena positioned).fn.arena arena _ _ _ := linked
    have linkedSane : (scope.withArena arena).Sane S :=
      sane.kept (begun.trans (linked'.adds fun _ => .refl)).later rfl rfl
    exact ⟨makes.enters.later.rooted sane.rooted, linkedSane.memo, linkedSane.quiet⟩
  | keep _ _ _ _ _ _ _ _ linked => exact sane.kept (linked.adds fun _ => .refl).later rfl rfl
  | @nested _ scope inner inside _ =>
    have entered : scope.Later { scope with saved := scope.live :: scope.saved } :=
      .of_notes
    refine ⟨(Makes.nested inside).enters.later.rooted sane.rooted, fun v memo found => ?_,
      sane.quiet⟩
    obtain ⟨n, name, introduced⟩ := sane.memo v memo found
    have kept := introduced.kept (entered.trans inside.enters.later)
    exact ⟨n, name, kept⟩

end kept

end QueryFusion.Fusion

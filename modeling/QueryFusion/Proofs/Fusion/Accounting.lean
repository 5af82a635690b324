import QueryFusion.Proofs.Fusion.Assigned
import QueryFusion.Proofs.Fusion.Recordwise

/-!
# The code of every trace is accounted for

Whatever way code is made in the loop through the records, the names that a scope knows have values
where its code goes on. So every statement that a trace adds reads only variables that have values.
-/

namespace QueryFusion.Fusion

open Code
open Code.Arena (declaration)

variable {next b home : BlockId} {s init : Node} {added : List Block} {name index : String}
variable {seen : Nat → Prop} {ledger' ledger : Ledger} {fn' : Function} {tag : Tag}
variable {loops : List (BlockId × Path)} {positioned : Arena}

/-! ## Blocks that stay as they are -/

/-- Only one of the blocks that were there can have got code behind its front. -/
def SameRests (home : BlockId) (old new : Arena) : Prop :=
  ∀ (b : BlockId) (block : Block), old.blocks[b]? = some block → b ≠ home →
    ∃ block', new.blocks[b]? = some block' ∧ block'.rest = block.rest

section rests

variable {S : Terms} {may : Nat → Prop} {scope later : Scope}
variable {old middle new : Arena}

theorem SameRests.of_same (same : new = old) : SameRests home old new :=
  fun _ block here _ => ⟨block, same ▸ here, rfl⟩

theorem SameRests.trans (first : SameRests home old middle) (second : SameRests next middle new)
    (place : next = home ∨ old.blocks.size ≤ next) : SameRests home old new := by
  intro b block here apart
  obtain ⟨block', here', same⟩ := first b block here apart
  have apart' : b ≠ next := by
    rintro rfl
    rcases place with rfl | late
    · exact apart rfl
    · exact Nat.not_lt.mpr late (Array.inside here)
  obtain ⟨block'', here'', same'⟩ := second b block' here' apart'
  exact ⟨block'', here'', same'.trans same⟩

theorem Rewrites.sameRests {change : Block → Block} (rewrites : Rewrites b change old new)
    (quiet : b = home ∨ ∀ block, (change block).rest = block.rest) : SameRests home old new := by
  intro i block here apart
  refine ⟨_, rewrites.blocks i block here, ?_⟩
  split
  · next same => exact quiet.elim (fun isHome => absurd (same.trans isHome) apart) (· block)
  · rfl

theorem Linked.sameRests (linked : Linked old new home s added) : SameRests home old new := by
  intro i block here apart
  refine ⟨_, linked.kept i block here, ?_⟩
  rw [if_neg apart]

theorem sameRests_declareHere (done : old.declareHere home init = .ok (name, new)) :
    SameRests home old new :=
  (rewrites_of_updates (Arena.declareHere_updates done).2).sameRests (.inl rfl)

theorem sameRests_declare (done : old.declare b init = .ok (name, new)) : SameRests home old new :=
  (rewrites_of_updates (Arena.declare_updates done).2).sameRests (.inr fun _ => rfl)

theorem Codes.sameRests (codes : Codes S may scope later) :
    SameRests scope.current scope.fn.arena later.fn.arena := by
  induction codes with
  | refl | notes | memo | reader => exact .of_same rfl
  | trans firstCodes _ first second => exact first.trans second (.inl firstCodes.adds.current)
  | advance _ steps binds =>
    exact ((rewrites_of_updates (Arena.appendHead_updates steps)).sameRests (.inl rfl)).trans
      ((rewrites_of_updates (Arena.bind_updates binds)).sameRests (.inr fun _ => rfl)) (.inl rfl)
  | redirect _ _ _ _ _ _ declares redirects =>
    exact (sameRests_declare declares).trans ((rewrites_update redirects).sameRests
      (.inr fun _ => rfl)) (.inl rfl)
  | emit _ done => exact (rewrites_of_updates (Arena.appendHead_updates done)).sameRests (.inl rfl)
  | declareHere _ done _ rest => exact (sameRests_declareHere done).trans rest (.inl rfl)
  | fork _ _ linked _ _ onYes onNo =>
    exact (linked.sameRests.trans onYes (.inr le_rfl)).trans onNo (.inr (Nat.le_add_right _ _))

theorem Makes.place (makes : Makes S may scope later) :
    later.current = scope.current ∨ scope.fn.arena.blocks.size ≤ later.current := by
  induction makes with
  | code codes => exact .inl codes.adds.current
  | trans firstMakes _ first second =>
    rcases second with same | late
    · rw [same]
      exact first
    · exact .inr (firstMakes.enters.later.arena.size.trans late)
  | frame adds => exact .inl adds.current
  | declare _ _ _ _ _ done _ rest =>
    exact rest.imp_right fun late => (Arena.declare_updates done).2.size ▸ late
  | enter | count => exact .inr le_rfl
  | keep | nested => exact .inl rfl

theorem Makes.sameRests (makes : Makes S may scope later) :
    SameRests scope.current scope.fn.arena later.fn.arena := by
  induction makes with
  | code codes => exact codes.sameRests
  | trans firstMakes _ first second => exact first.trans second firstMakes.place
  | frame _ fn => exact .of_same (by rw [fn])
  | declare _ _ _ _ _ done _ rest => exact (sameRests_declare done).trans rest (.inl rfl)
  | enter _ linked => exact linked.sameRests
  | count _ copies positions linked =>
    exact ((sameRests_declareHere copies).trans (sameRests_declareHere positions) (.inl rfl)).trans
      linked.sameRests (.inl rfl)
  | keep _ _ _ _ _ _ _ _ linked => exact linked.sameRests
  | nested _ inside => exact inside

end rests

/-! ## Names that are covered -/

/-- All names that a scope knows have values where its code goes on. -/
def Ledger.Covers (ledger : Ledger) (scope : Scope) : Prop :=
  ∀ name, scope.Knows name → Visible scope.fn (ledger.reach scope.fn.arena scope.current) name

variable {fn : Function} {block : Block}

section covers

variable {scope later target : Scope} {n : Nat}

theorem Visible.variable (visible : Visible fn seen (variableName n)) : seen n := by
  rcases visible with isParam | ⟨k, same, isSeen⟩
  · generalize isName : variableName n = name at isParam
    cases isParam with
    | cursor => exact absurd isName (variableName_ne_cursor n)
    | sink => exact absurd isName (variableName_ne_sink n)
    | reader => exact absurd isName (variableName_ne_readerName n _)
  · exact variableName_injective same ▸ isSeen

section

variable (covers : ledger.Covers scope)

include covers

theorem Ledger.Covers.variable (known : scope.Knows (variableName n)) :
    ledger.reach scope.fn.arena scope.current n := (covers _ known).variable

/-- What was declared in an open block has a value. -/
theorem Ledger.Covers.declared (isOpen : scope.Open b)
    (here : scope.fn.arena.blocks[b]? = some block) (declared : DeclaredIn block.rest n) :
    ledger.reach scope.fn.arena scope.current n := by
  obtain ⟨init, member⟩ := declared
  exact covers.variable (.ofBlock isOpen ⟨block, init, here, List.mem_append_right _ member⟩)

theorem Ledger.Covers.transfer (accounted : Accounted ledger' target.fn)
    (widens : Widens scope.fn target.fn) (same : scope.SameLive target)
    (reached : ∀ n, ledger.reach scope.fn.arena scope.current n →
      ledger'.reach target.fn.arena target.current n)
    (rests : ∀ (b : BlockId) (block : Block), target.Open b →
      target.fn.arena.blocks[b]? = some block → ∀ n, DeclaredIn block.rest n →
      ledger'.reach target.fn.arena target.current n) : ledger'.Covers target := by
  have old : ∀ {name}, scope.Knows name →
      Visible target.fn (ledger'.reach target.fn.arena target.current) name :=
    fun known => (covers _ known).kept widens reached
  have inside : ∀ {b n}, target.Open b → ledger'.base target.fn.arena b n →
      ledger'.reach target.fn.arena target.current n :=
    fun isOpen isBase => .inl (accounted.base_of_within isOpen isBase)
  intro name known
  cases known with
  | param isParam => exact .inl isParam
  | @ofBlock b n isOpen introduced =>
    obtain ⟨block, init, here, member⟩ := introduced
    refine .inr ⟨n, rfl, ?_⟩
    rcases List.mem_append.mp member with inFront | inRest
    · exact .inl (.inr ⟨b, block, init, isOpen, here, inFront⟩)
    · exact rests b block isOpen here n ⟨init, inRest⟩
  | value bound member => exact old (.value (same.values ▸ bound) member)
  | flag bound => exact old (.flag (same.flags ▸ bound))
  | item bound => exact old (.item (same.items ▸ bound))
  | copy isOpen here member =>
    obtain ⟨⟨n, isName, isBase⟩, _⟩ := accounted.redirected _ _ here _ member
    exact .inr ⟨n, isName, inside isOpen isBase⟩
  | position isOpen here member =>
    obtain ⟨_, n, isName, isBase⟩ := accounted.redirected _ _ here _ member
    exact .inr ⟨n, isName, inside isOpen isBase⟩

/-- Code that went on and is back in its block. -/
theorem Ledger.Covers.back (accounted : Accounted ledger' target.fn)
    (rooted : scope.Rooted) (ledgerLater : ledger.Later ledger' scope.fn)
    (widens : Widens scope.fn target.fn)
    (same : scope.SameLive target) (rests : SameRests scope.current scope.fn.arena target.fn.arena)
    (current : target.current = scope.current) (opens : ∀ b, target.Open b → scope.Open b) :
    ledger'.Covers target := by
  have reached : ∀ n, ledger.reach scope.fn.arena scope.current n →
      ledger'.reach target.fn.arena target.current n := fun n reached => by
    rw [current]
    exact reached.kept rooted.current ledgerLater widens
  refine covers.transfer accounted widens same reached fun b block isOpen here n declared => ?_
  by_cases isHere : b = target.current
  · subst isHere
    exact .inr ⟨block, here, declared⟩
  · have isOpen' := opens b isOpen
    have there := Array.getElem?_eq_getElem (rooted.lt_of_open isOpen')
    obtain ⟨block', here', sameRest⟩ := rests b _ there (current ▸ isHere)
    cases here.symm.trans here'
    rw [sameRest] at declared
    exact reached n (covers.declared isOpen' there declared)

theorem Ledger.Covers.stays (accounted : Accounted ledger' later.fn)
    (rooted : scope.Rooted) (ledgerLater : ledger.Later ledger' scope.fn) (adds : scope.Adds later)
    (same : scope.SameLive later) (rests : SameRests scope.current scope.fn.arena later.fn.arena) :
    ledger'.Covers later :=
  covers.back accounted rooted ledgerLater adds.later.widens same rests adds.current
    fun b => (adds.open_iff rooted b).mp

/-- Code that goes on in an empty block below an open one. -/
theorem Ledger.Covers.below (accounted : Accounted ledger' target.fn)
    (rooted : scope.Rooted) (widens : Widens scope.fn target.fn) (same : scope.SameLive target)
    (opened : ∀ n, ledger.reach scope.fn.arena scope.current n → ledger'.opened target.current n)
    (isEmpty : ∀ block, target.fn.arena.blocks[target.current]? = some block → block.rest = [])
    (opens : ∀ b, target.Open b → b = target.current ∨ scope.Open b)
    (rests : ∀ (b : BlockId) (block block' : Block), scope.Open b →
      scope.fn.arena.blocks[b]? = some block → target.fn.arena.blocks[b]? = some block' →
      ∀ n, DeclaredIn block'.rest n → DeclaredIn block.rest n) : ledger'.Covers target := by
  refine covers.transfer accounted widens same (fun n reached => .inl (.inl (opened n reached))) ?_
  intro b block isOpen here n declared
  rcases opens b isOpen with rfl | isOpen'
  · rw [isEmpty block here] at declared
    obtain ⟨_, member⟩ := declared
    cases member
  · have there := Array.getElem?_eq_getElem (rooted.lt_of_open isOpen')
    have declared' := rests b _ block isOpen' there here n declared
    exact .inl (.inl (opened n (covers.declared isOpen' there declared')))

end

end covers

/-! ## Linked blocks -/

/-- New blocks are entered where some variables have values. -/
def Ledger.opening (ledger : Ledger) (size : Nat) (seen : Nat → Prop) : Ledger :=
  { ledger with opened := fun b => if b < size then ledger.opened b else seen }

section linked

variable {scope : Scope} {arena : Arena}
variable {n : Nat}

theorem Ledger.later_opening (ledger : Ledger) (fn : Function) (seen : Nat → Prop) :
    ledger.Later (ledger.opening fn.arena.blocks.size seen) fn :=
  ⟨fun _ below => if_pos below, fun _ _ => id, fun _ _ => id⟩

theorem Ledger.opened_opening {size : Nat} (late : size ≤ b) :
    (ledger.opening size seen).opened b = seen := if_neg late.not_gt

theorem Accounted.linked (accounted : Accounted ledger scope.fn) (rooted : scope.Rooted)
    (isOpen : scope.Open home) (linked : Linked scope.fn.arena arena home s added)
    (wide : ∀ n, ledger.opened home n → seen n)
    (accepts : home ≠ scope.fn.body → (ledger.opening scope.fn.arena.blocks.size seen).Accepts
      (scope.withArena arena).fn home (ledger.reach scope.fn.arena home) s)
    (isNew : ∀ (i : BlockId), scope.fn.arena.blocks.size ≤ i → ∀ block ∈ added,
      arena.blocks[i]? = some block →
      (ledger.opening scope.fn.arena.blocks.size seen).Sure (scope.withArena arena).fn i
        ((ledger.opening scope.fn.arena.blocks.size seen).base arena i) (block.rest ++ block.tail) ∧
      ∀ entry ∈ block.overrides,
        (ledger.opening scope.fn.arena.blocks.size seen).Redirected arena i entry) :
    Accounted (ledger.opening scope.fn.arena.blocks.size seen) (scope.withArena arena).fn := by
  have widens := (linked.adds fun _ => isOpen).later.widens
  have later := ledger.later_opening scope.fn seen
  refine accounted.grow rooted.tree widens later ?_ ?_ fun n late =>
    accounted.fresh n (widens.names.trans late)
  · intro i before block there here
    have below := Array.inside there
    cases (linked.kept i before there).symm.trans here
    split
    · next same =>
      subst same
      refine ⟨rfl, fun _ => .inl, fun _ => .inl, [s], rfl, fun isInside => ?_⟩
      refine ⟨(accepts isInside).kept (.refl _ _) (.refl _) ?_, trivial⟩
      rintro n (isBase | ⟨before', there', declared⟩)
      · exact .inl (isBase.kept below later widens)
      · cases there.symm.trans there'
        exact .inr declared
    · exact ⟨rfl, fun _ => .inl, fun _ => .inl, [], (List.append_nil _).symm, fun _ => trivial⟩
  · intro i block here there
    have late := Array.getElem?_eq_none_iff.mp there
    rcases linked.cases here with ⟨before, there', _⟩ | ⟨_, isAdded⟩
    · rw [there] at there'
      cases there'
    · obtain ⟨sure, redirected⟩ := isNew i late block isAdded here
      obtain ⟨parent, front, _⟩ := linked.fresh block isAdded
      refine ⟨front, sure, redirected, fun b isParent n opened => ?_⟩
      rw [parent] at isParent
      cases isParent
      rw [Ledger.opened_opening late]
      rw [later.opened home linked.there] at opened
      exact wide n opened

/-- A branch leads to a linked block. -/
theorem Linked.child (linked : Linked scope.fn.arena arena home s added) {i : Nat}
    {seen' : Nat → Prop} (isAdded : added[i]? = some block) (inLine : block.tag.isLoop = false)
    (wide : ∀ n, seen n → seen' n) :
    (ledger.opening scope.fn.arena.blocks.size seen).Child (scope.withArena arena).fn home seen'
      (scope.fn.arena.blocks.size + i) := by
  have member := List.mem_of_getElem? isAdded
  refine .inr ⟨⟨block, linked.extra i block isAdded, (linked.fresh block member).1, inLine⟩, ?_⟩
  rw [Ledger.opened_opening (Nat.le_add_right _ i)]
  exact wide

end linked

/-! ## Statements that traces add -/

variable {j : Nat} {array : String}

section statements

variable {scope : Scope} {arena : Arena}
variable {S : Terms} {may : Nat → Prop}

theorem enlarges_append (s : Node) :
    Enlarges (fun block => { block with rest := block.rest ++ [s] }) [s] :=
  ⟨fun _ => rfl, fun _ => rfl, fun _ => rfl, fun _ => rfl, fun _ _ => id⟩

theorem Accounted.reader (accounted : Accounted ledger scope.fn) (rooted : scope.Rooted) (p : Path) :
    Accounted ledger { scope.fn with paths := scope.fn.paths ++ [p] } := by
  have rewrites : Rewrites emptyBlock id scope.fn.arena scope.fn.arena :=
    ⟨le_rfl, rfl, fun i block here => by split <;> exact here⟩
  have enlarges : Enlarges id [] :=
    ⟨fun _ => rfl, fun _ => rfl, fun _ => rfl, fun _ => (List.append_nil _).symm, fun _ _ => id⟩
  exact accounted.rewrite rooted.tree rewrites enlarges (adds_path scope p).later.widens
    (.refl ledger _) accounted.fresh (fun _ _ => .inl) (fun _ _ => .inl) fun _ => trivial

theorem Accounted.bound {reader : String} (accounted : Accounted ledger scope.fn)
    (rooted : scope.Rooted) (done : scope.fn.arena.bind scope.current reader = .ok arena) :
    Accounted ledger (scope.withArena arena).fn := by
  have widens := (adds_bind done).later.widens
  have rewrites := rewrites_update (Arena.update_of_bind done)
  have enlarges : Enlarges (fun block => { block with bound := block.bound ++ [reader] }) [] :=
    ⟨fun _ => rfl, fun _ => rfl, fun _ => rfl, fun _ => (List.append_nil _).symm, fun _ _ => id⟩
  exact accounted.rewrite rooted.tree rewrites enlarges widens (.refl ledger _)
    (fun n late => accounted.fresh n (widens.names.trans late)) (fun _ _ => .inl)
    (fun _ _ => .inl) fun _ => trivial

/-- A variable is declared in front of an open block. -/
theorem Accounted.declare (accounted : Accounted ledger scope.fn) (rooted : scope.Rooted)
    (later : ledger.Later ledger' scope.fn)
    (fresh : ∀ n, scope.fn.arena.names < n → ledger'.role n = .plain) (isOpen : scope.Open b)
    (quiet : init.isQuiet = true) (constant : ∀ name ∈ init.names, IsParam scope.fn name)
    (flag : ledger'.role scope.fn.arena.names ≠ .plain → init = .bool false)
    (done : scope.fn.arena.declare b init = .ok (name, arena)) :
    Accounted ledger' (scope.withArena arena).fn := by
  obtain ⟨rfl, updates⟩ := Arena.declare_updates done
  have widens := (adds_declare (fun _ => isOpen) done).later.widens
  refine accounted.rewrite rooted.tree (rewrites_of_updates updates) (show Enlarges _ [] from
    ⟨fun _ => rfl, fun _ => rfl, fun _ => rfl, fun _ => (List.append_nil _).symm,
      fun _ _ => .tail _⟩) widens later ?_ ?_ (fun _ _ => .inl) fun _ => trivial
  · intro n late
    exact fresh n (Nat.lt_of_succ_le (Nat.le_trans updates.names.ge late))
  · intro block s member
    refine (List.mem_cons.mp member).symm.imp_right ?_
    rintro rfl
    refine ⟨⟨_, _, rfl⟩, .declare quiet (fun name member => ?_) ?_ flag⟩
    · exact .inl (widens.param (constant name member))
    exact Nat.lt_of_lt_of_eq (Nat.lt_succ_self _) updates.names.symm

/-- A variable is declared at the end of a block. -/
theorem Accounted.declareHere (accounted : Accounted ledger scope.fn) (rooted : scope.Rooted)
    (quiet : init.isQuiet = true) (names : ∀ name ∈ init.names,
      Visible scope.fn (ledger.reach scope.fn.arena scope.current) name)
    (done : scope.fn.arena.declareHere scope.current init = .ok (name, arena)) :
    Accounted ledger (scope.withArena arena).fn := by
  obtain ⟨rfl, updates⟩ := Arena.declareHere_updates done
  have widens := (adds_declareHere done).later.widens
  refine accounted.rewrite rooted.tree (rewrites_of_updates updates)
    ⟨fun _ => rfl, fun _ => rfl, fun _ => rfl, fun _ => rfl, fun _ _ => id⟩ widens
    (.refl ledger _) (fun n late => accounted.fresh n (widens.names.trans late))
    (fun _ _ => .inl) (fun _ _ => .inl) fun _ => ⟨?_, trivial⟩
  refine .declare quiet (fun name member => (names name member).kept widens fun _ => id) ?_ ?_
  · exact Nat.lt_of_lt_of_eq (Nat.lt_succ_self _) updates.names.symm
  · exact fun special => absurd (accounted.fresh _ le_rfl) special

theorem names_copyOf (isReader : j < scope.fn.paths.length) :
    ∀ name ∈ (copyOf j).names, IsParam scope.fn name := by
  intro name member
  rw [copyOf, Node.names, Node.names, Node.namesOf, List.append_nil, List.mem_singleton] at member
  exact member ▸ .reader isReader

theorem Accounted.redirect {entry : String × Override} {declared : Arena}
    (accounted : Accounted ledger scope.fn) (rooted : scope.Rooted) (isOpen : scope.Open b)
    (isParent : scope.fn.arena.Parent b home) (isReader : j < scope.fn.paths.length)
    (here : scope.fn.arena.blocks[b]? = some block) (counts : entry ∈ block.overrides)
    (declares : scope.fn.arena.declare home (copyOf j) = .ok (array, declared))
   
    (redirects : declared.setOverride b (Function.readerName j) ⟨array, entry.2.index⟩ = .ok arena) :
    Accounted ledger (scope.withArena arena).fn := by
  have opens : scope.Open home := isOpen.tail isParent
  have adds : scope.Adds (scope.withArena declared) := adds_declare (fun _ => opens) declares
  have first : Accounted ledger (scope.withArena declared).fn :=
    accounted.declare rooted (.refl ledger _) (fun n late => accounted.fresh n late.le)
      opens (isQuiet_copyOf j) (names_copyOf isReader)
      (fun special => absurd (accounted.fresh _ le_rfl) special) declares
  have rewrites := rewrites_update redirects
  have enlarges : Enlarges (fun block => { block with
      overrides := block.overrides.filter (·.1 != Function.readerName j) ++
        [(Function.readerName j, ⟨array, entry.2.index⟩)] }) [] :=
    ⟨fun _ => rfl, fun _ => rfl, fun _ => rfl, fun _ => (List.append_nil _).symm, fun _ _ => id⟩
  have widens : Widens (scope.withArena declared).fn (scope.withArena arena).fn :=
    rewrites.widens enlarges rfl List.prefix_rfl
  refine first.rewrite (adds.later.rooted rooted).tree rewrites enlarges widens (.refl ledger _)
    (fun n late => first.fresh n (widens.names.trans late)) (fun _ _ => .inl) ?_
    fun _ => trivial
  intro before other member
  rcases List.mem_append.mp member with old | isNew
  · exact .inl (List.mem_filter.mp old).1
  · refine .inr ?_
    rw [List.mem_singleton.mp isNew]
    obtain ⟨rfl, updates⟩ := Arena.declare_updates declares
    obtain ⟨_, n, isIndex, isBase⟩ := accounted.redirected b block here entry counts
    have below := Array.inside here
    have isBase' : ledger.base (scope.withArena declared).fn.arena b n :=
      isBase.kept below (.refl ledger _) adds.later.widens
    have isBase'' : ledger.base (scope.withArena arena).fn.arena b n :=
      isBase'.kept (updates.size ▸ below) (.refl ledger _) widens
    refine ⟨⟨_, rfl, ?_⟩, n, isIndex, isBase''⟩
    obtain ⟨at', _, there⟩ := updates.here
    obtain ⟨last, isLast, _, _, front, _⟩ := widens.kept home _ there
    exact .inr ⟨home, last, copyOf j,
      .single (widens.parent (adds.later.widens.parent isParent)), isLast,
      front _ (.head _)⟩

theorem Scope.Simple.accepted (simple : scope.Simple S may s) (covers : ledger.Covers scope)
    (settable : ∀ n, may n → ledger.Settable scope.fn n) :
    ledger.Accepts scope.fn scope.current (ledger.reach scope.fn.arena scope.current) s := by
  have visible : ∀ {n : Node}, scope.Reads S n → ∀ name ∈ n.names,
      Visible scope.fn (ledger.reach scope.fn.arena scope.current) name :=
    fun reads name member => covers name (reads.names name member)
  cases simple with
  | expr reads => exact .expr reads.quiet (visible reads)
  | leave isOpen here steps => exact .leave ⟨_, _, isOpen, here, steps⟩
  | set allowed known reads =>
    exact .set reads.quiet (visible reads) (settable _ allowed) (covers.variable known)

theorem Accounted.emit (accounted : Accounted ledger scope.fn) (rooted : scope.Rooted)
    (accepts : ledger.Accepts scope.fn scope.current (ledger.reach scope.fn.arena scope.current) s)
    (done : scope.fn.arena.appendHead scope.current s = .ok arena) :
    Accounted ledger (scope.withArena arena).fn := by
  have widens := (adds_appendHead (fun _ => .refl) done).later.widens
  exact accounted.rewrite rooted.tree (rewrites_of_updates (Arena.appendHead_updates done))
    (enlarges_append s) widens (.refl ledger _)
    (fun n late => accounted.fresh n (widens.names.trans late)) (fun _ _ => .inl)
    (fun _ _ => .inl) fun _ => ⟨accepts.kept (.refl ledger _) widens fun _ => id, trivial⟩

theorem names_nextOf (isReader : j < fn.paths.length) :
    ∀ name ∈ (nextOf j).names, Visible fn seen name := by
  intro name member
  rw [nextOf, Node.names, Node.names, Node.namesOf, List.append_nil, List.mem_singleton] at member
  exact .inl (member ▸ .reader isReader)

theorem Accounted.advance {stepped : Arena} (accounted : Accounted ledger scope.fn)
    (rooted : scope.Rooted) (isReader : j < scope.fn.paths.length)
    (steps : scope.fn.arena.appendHead scope.current (nextOf j) = .ok stepped)
    (binds : stepped.bind scope.current (Function.readerName j) = .ok arena) :
    Accounted ledger (scope.withArena arena).fn := by
  have emitted := accounted.emit rooted (.expr (isQuiet_nextOf j) (names_nextOf isReader)) steps
  exact emitted.bound ((adds_appendHead (fun _ => .refl) steps).later.rooted rooted) binds

end statements

/-! ## Traces -/

/-- A ledger with more blocks. -/
structure Ledger.Grows (ledger later : Ledger) (fn : Function) : Prop where
  role : later.role = ledger.role
  opened : ∀ b, b < fn.arena.blocks.size → later.opened b = ledger.opened b

theorem Ledger.Grows.later {later : Ledger} (grows : ledger.Grows later fn) :
    ledger.Later later fn :=
  ⟨grows.opened, fun _ _ isPlain => grows.role ▸ isPlain, fun _ _ isGuard => grows.role ▸ isGuard⟩

theorem Ledger.Grows.refl (ledger : Ledger) (fn : Function) : ledger.Grows ledger fn :=
  ⟨rfl, fun _ _ => rfl⟩

theorem Ledger.Grows.trans {middle later : Ledger} (first : ledger.Grows middle fn)
    (second : middle.Grows later fn') (size : fn.arena.blocks.size ≤ fn'.arena.blocks.size) :
    ledger.Grows later fn where
  role := second.role.trans first.role
  opened := fun b below =>
    (second.opened b (below.trans_le size)).trans (first.opened b below)

/-- The same variables have values where a block of the function is entered. -/
def Ledger.SameOpened (ledger later : Ledger) (fn : Function) : Prop :=
  ∀ b, b < fn.arena.blocks.size → later.opened b = ledger.opened b

theorem Ledger.SameOpened.trans {middle later : Ledger} (first : ledger.SameOpened middle fn)
    (second : middle.SameOpened later fn') (size : fn.arena.blocks.size ≤ fn'.arena.blocks.size) :
    ledger.SameOpened later fn :=
  fun b below => (second b (below.trans_le size)).trans (first b below)

theorem Ledger.grows_opening (ledger : Ledger) (fn : Function) (seen : Nat → Prop) :
    ledger.Grows (ledger.opening fn.arena.blocks.size seen) fn := ⟨rfl, fun _ below => if_pos below⟩

/-- A scope whose code is accounted for so far, with the variables that its code may set. -/
structure Books (S : Terms) (ledger : Ledger) (may : Nat → Prop) (scope : Scope) : Prop where
  sane : scope.Sane S
  recordwise : scope.Recordwise
  accounted : Accounted ledger scope.fn
  covers : ledger.Covers scope
  settable : ∀ n, may n → ledger.Settable scope.fn n

section traces

variable {S : Terms} {may : Nat → Prop} {scope later : Scope} {arena : Arena}

/-- Code that stays in its block. -/
theorem Books.stays (books : Books S ledger may scope) (adds : scope.Adds later)
    (same : scope.SameLive later) (rests : SameRests scope.current scope.fn.arena later.fn.arena)
    (sane : later.Sane S) (recordwise : later.Recordwise) (grows : ledger.Later ledger' scope.fn)
    (accounted : Accounted ledger' later.fn) : Books S ledger' may later where
  sane := sane
  recordwise := recordwise
  accounted := accounted
  covers := books.covers.stays accounted books.sane.rooted grows adds same rests
  settable := fun n allowed => (books.settable n allowed).kept grows adds.later.widens

theorem Books.below {first : Scope} {i : Nat} {touched : BlockId → Prop} {lo : Nat}
    (books : Books S ledger may scope) (linked : Linked scope.fn.arena arena scope.current s added)
    (isAdded : added[i]? = some block) (isEmpty : block.rest = [])
    (noVariable : ∀ n, ¬ DeclaredIn [s] n)
    (entered : scope.Enters (first.goto (scope.fn.arena.blocks.size + i)))
    (grown : arena.Extends touched lo first.fn.arena) (rests : SameRests next arena first.fn.arena)
    (elsewhere : next ≠ scope.fn.arena.blocks.size + i) (late : scope.fn.arena.blocks.size ≤ next)
    (same : scope.SameLive first) (sane : (first.goto (scope.fn.arena.blocks.size + i)).Sane S)
    (recordwise : (first.goto (scope.fn.arena.blocks.size + i)).Recordwise)
    (grows : (ledger.opening scope.fn.arena.blocks.size
      (ledger.reach scope.fn.arena scope.current)).Grows ledger' (scope.withArena arena).fn)
    (accounted : Accounted ledger' first.fn) :
    Books S ledger' may (first.goto (scope.fn.arena.blocks.size + i)) := by
  have size : scope.fn.arena.blocks.size + i < arena.blocks.size := by
    rw [linked.size]
    exact Nat.add_lt_add_left (List.getElem?_eq_some_iff.mp isAdded).1 _
  have all := (ledger.grows_opening scope.fn _).trans grows
    (Nat.le_of_lt (Nat.lt_of_le_of_lt (Nat.le_add_right _ i) size))
  have rooted := books.sane.rooted
  obtain ⟨last, isLast, sameRest⟩ := rests _ block (linked.extra i block isAdded) elsewhere.symm
  refine ⟨sane, recordwise, accounted, ?_, fun n allowed =>
    (books.settable n allowed).kept all.later entered.later.widens⟩
  refine books.covers.below accounted rooted entered.later.widens
    ⟨same.values, same.flags, same.items, same.saved⟩ ?_ ?_ ?_ ?_
  · intro n reached
    rw [Scope.goto_current, grows.opened _ size, Ledger.opened_opening (Nat.le_add_right _ i)]
    exact reached
  · intro found here
    cases isLast.symm.trans here
    rw [sameRest, isEmpty]
  · intro b isOpen
    rcases (Arena.within_iff isLast).mp isOpen with same | ⟨parent, isParent, above⟩
    · exact .inl same
    · have atHome : arena.Parent (scope.fn.arena.blocks.size + i) scope.current :=
        ⟨block, linked.extra i block isAdded, (linked.fresh block (List.mem_of_getElem? isAdded)).1⟩
      obtain ⟨found, here, isHome⟩ := grown.parent atHome
      cases isLast.symm.trans here
      cases isParent.symm.trans isHome
      exact .inr (entered.later.arena.within_of_lt rooted.tree above rooted.current)
  · intro b before after isOpen there here n declared
    have below := rooted.lt_of_open isOpen
    have apart : b ≠ next := Nat.ne_of_lt (below.trans_le late)
    obtain ⟨found, isFound, sameAgain⟩ := rests b _ (linked.kept b before there) apart
    cases here.symm.trans isFound
    rw [sameAgain] at declared
    split at declared
    · exact (DeclaredIn.append.mp declared).resolve_right (noVariable n)
    · exact declared

theorem Scope.Reads.visible {n : Node} (reads : scope.Reads S n) (covers : ledger.Covers scope) :
    ∀ name ∈ n.names, Visible scope.fn (ledger.reach scope.fn.arena scope.current) name :=
  fun name member => covers name (reads.names name member)

theorem Books.allows {more : Nat → Prop} (books : Books S ledger may scope)
    (settable : ∀ n, more n → ledger.Settable scope.fn n) : Books S ledger more scope :=
  { books with settable }

/-- A variable that was declared just now can be set. -/
theorem Books.fresh (books : Books S ledger may scope) (adds : scope.Adds later)
    (same : scope.SameLive later) (rests : SameRests scope.current scope.fn.arena later.fn.arena)
    (sane : later.Sane S) (recordwise : later.Recordwise) (accounted : Accounted ledger later.fn)
    (names : later.fn.arena.names = scope.fn.arena.names + 1) :
    Books S ledger (fun n => may n ∨ n = scope.fn.arena.names) later := by
  refine (books.stays adds same rests sane recordwise (.refl _ _) accounted).allows ?_
  rintro n (allowed | rfl)
  · exact (books.settable n allowed).kept (.refl _ _) adds.later.widens
  · exact ⟨Nat.lt_of_lt_of_eq (Nat.lt_succ_self _) names.symm, books.accounted.fresh _ le_rfl⟩

/-- Both blocks of a branch are entered where it stands. -/
theorem Books.forks {test : Node} (books : Books S ledger may scope) (reads : scope.Reads S test)
    (inLine : tag.isLoop = false) (linked : Linked scope.fn.arena arena scope.current
      (.branch test scope.fn.arena.blocks.size (scope.fn.arena.blocks.size + 1))
      [{ parent := some scope.current, tag }, { parent := some scope.current, tag }]) :
    Accounted (ledger.opening scope.fn.arena.blocks.size
      (ledger.reach scope.fn.arena scope.current)) (scope.withArena arena).fn := by
  refine books.accounted.linked books.sane.rooted .refl linked (fun n opened => .inl (.inl opened))
    (fun _ => ?_) ?_
  · refine .branch reads.quiet ?_ (linked.child (i := 0) rfl inLine fun _ => id)
      (linked.child (i := 1) rfl inLine fun _ => id)
    exact fun name member => (reads.visible books.covers name member).kept
      (linked.adds fun _ => .refl).later.widens fun _ => id
  · intro i _ block isAdded _
    simp only [List.mem_cons, List.not_mem_nil, or_false, or_self] at isAdded
    subst isAdded
    exact ⟨trivial, nofun⟩

variable (strict : S.strict)

include strict

theorem Books.codes (books : Books S ledger may scope) (codes : Codes S may scope later)
    (grows : ledger.Grows ledger' scope.fn) (accounted : Accounted ledger' later.fn) :
    Books S ledger' may later :=
  books.stays codes.adds codes.sameLive codes.sameRests (codes.sane books.sane)
    (codes.recordwise strict books.recordwise) grows.later accounted

/-- Code that opens no block. -/
theorem Books.coded (books : Books S ledger may scope) (codes : Codes S may scope later)
    (accounted : Accounted ledger later.fn) :
    ∃ ledger', ledger.Grows ledger' scope.fn ∧ Books S ledger' may later :=
  ⟨ledger, .refl _ _, books.codes strict codes (.refl _ _) accounted⟩

/-- The code of an expression is accounted for. -/
theorem Codes.books (codes : Codes S may scope later) : ∀ {ledger : Ledger},
    Books S ledger may scope → ∃ ledger', ledger.Grows ledger' scope.fn ∧ Books S ledger' may later := by
  induction codes with
  | refl => exact fun books => ⟨_, .refl _ _, books⟩
  | trans first _ ihFirst ihSecond =>
    intro ledger books
    obtain ⟨ledger₁, grows₁, books₁⟩ := ihFirst books
    obtain ⟨ledger₂, grows₂, books₂⟩ := ihSecond books₁
    exact ⟨ledger₂, grows₁.trans grows₂ first.adds.later.arena.size, books₂⟩
  | notes touched consumed fused =>
    exact fun books => books.coded strict (.notes touched consumed fused) books.accounted
  | memo v introduced isRead =>
    exact fun books => books.coded strict (.memo v introduced isRead) books.accounted
  | reader p =>
    exact fun books => books.coded strict (.reader p) (books.accounted.reader books.sane.rooted p)
  | advance isReader steps binds =>
    exact fun books => books.coded strict (.advance isReader steps binds)
      (books.accounted.advance books.sane.rooted isReader steps binds)
  | redirect isOpen isParent isNew isReader here counts declares redirects =>
    intro ledger books
    have accounted := books.accounted.redirect books.sane.rooted isOpen isParent isReader here counts
      declares redirects
    exact books.coded strict (.redirect isOpen isParent isNew isReader here counts declares redirects)
      accounted
  | emit simple done =>
    intro ledger books
    have accepts := simple.accepted books.covers books.settable
    exact books.coded strict (.emit simple done)
      (books.accounted.emit books.sane.rooted accepts done)
  | @declareHere may scope later init name arena reads done rest ih =>
    intro ledger books
    have first : Codes S may scope (scope.withArena arena) := .declareHere reads done (.refl _)
    have updates := (Arena.declareHere_updates done).2
    have accounted := books.accounted.declareHere books.sane.rooted reads.quiet
      (reads.visible books.covers) done
    have books' := books.fresh first.adds first.sameLive first.sameRests (first.sane books.sane)
      (first.recordwise strict books.recordwise) accounted updates.names
    obtain ⟨ledger', grows, books''⟩ := ih books'
    exact ⟨ledger', ⟨grows.role, fun b below => grows.opened b (updates.size ▸ below)⟩,
      books''.allows fun n allowed => books''.settable n (.inl allowed)⟩
  | @fork may scope first last test tag arena reads inLine linked yesCodes noCodes onYes onNo =>
    intro ledger books
    have rooted := books.sane.rooted
    have adds := linked.adds fun _ => .refl
    obtain ⟨intoYes, intoNo⟩ := linked.forks yesCodes.adds
    have linkedSane : (scope.withArena arena).Sane S := books.sane.kept adds.later rfl rfl
    have yesSane := linkedSane.goto (intoYes.later.rooted rooted)
    have noSane := (yesCodes.sane yesSane).goto (intoNo.later.rooted rooted)
    have onYesRecord := books.recordwise.linked linked (reads.own strict)
      (by simp [Block.statements, Block.head]) le_rfl
    have onNoRecord : (first.goto (scope.fn.arena.blocks.size + 1)).Recordwise :=
      (yesCodes.recordwise strict onYesRecord).goto
        (yesCodes.adds.later.body ▸ books.recordwise.confined.apart (Nat.le_succ _))
    have yesLive := yesCodes.sameLive
    have undeclared := not_declaredIn (s := .branch test scope.fn.arena.blocks.size
      (scope.fn.arena.blocks.size + 1)) fun _ _ same => by cases same
    have yesBooks := books.below linked (i := 0) rfl rfl undeclared intoYes
      (.refl (fun _ => True) 0 _) (.of_same rfl) (Nat.succ_ne_self _) (Nat.le_succ _)
      ⟨rfl, rfl, rfl, rfl⟩ yesSane onYesRecord (.refl _ _) (books.forks reads inLine linked)
    obtain ⟨ledger₁, grows₁, books₁⟩ := onYes yesBooks
    have noBooks := books.below linked (i := 1) rfl rfl undeclared intoNo
      yesCodes.adds.later.arena yesCodes.sameRests (Nat.ne_of_lt (Nat.lt_succ_self _)) le_rfl
      ⟨yesLive.values, yesLive.flags, yesLive.items, yesLive.saved⟩ noSane onNoRecord grows₁
      books₁.accounted
    obtain ⟨ledger₂, grows₂, books₂⟩ := onNo noBooks
    have grows := ((ledger.grows_opening scope.fn _).trans grows₁ adds.later.arena.size).trans grows₂
      (intoYes.later.trans yesCodes.adds.later).arena.size
    exact ⟨ledger₂, grows, books.codes strict (.fork reads inLine linked yesCodes noCodes) grows
      books₂.accounted⟩

omit strict

theorem Books.enter (books : Books S ledger may scope)
    (linked : Linked scope.fn.arena arena scope.current s [block])
    (recordwise : ((scope.withArena arena).goto scope.fn.arena.blocks.size).Recordwise)
    (isEmpty : block.rest = []) (noVariable : ∀ n, ¬ DeclaredIn [s] n)
    (accepts : (ledger.opening scope.fn.arena.blocks.size
      (ledger.reach scope.fn.arena scope.current)).Accepts (scope.withArena arena).fn scope.current
        (ledger.reach scope.fn.arena scope.current) s)
    (tail : (ledger.opening scope.fn.arena.blocks.size
      (ledger.reach scope.fn.arena scope.current)).Sure (scope.withArena arena).fn
        scope.fn.arena.blocks.size (ledger.reach scope.fn.arena scope.current) block.tail)
    (redirected : ∀ entry ∈ block.overrides,
      (∃ n, entry.2.array = variableName n ∧ ledger.reach scope.fn.arena scope.current n) ∧
        ∃ n, entry.2.index = variableName n ∧ ledger.reach scope.fn.arena scope.current n) :
    Books S (ledger.opening scope.fn.arena.blocks.size (ledger.reach scope.fn.arena scope.current)) may
      ((scope.withArena arena).goto scope.fn.arena.blocks.size) := by
  have rooted := books.sane.rooted
  have adds := linked.adds fun _ => .refl
  obtain ⟨into, isParent⟩ := linked.into (fun _ => .refl) (i := 0) Nat.one_pos
  have linkedSane : (scope.withArena arena).Sane S := books.sane.kept adds.later rfl rfl
  refine books.below linked (i := 0) rfl isEmpty noVariable ⟨into, .single isParent⟩
    (.refl (fun _ => True) 0 _) (.of_same rfl) (Nat.succ_ne_self _) (Nat.le_succ _) ⟨rfl, rfl, rfl, rfl⟩
    (linkedSane.goto (into.rooted rooted)) recordwise (.refl _ _) ?_
  refine books.accounted.linked rooted .refl linked (fun n opened => .inl (.inl opened))
    (fun _ => accepts) ?_
  intro i late added isAdded here
  rw [List.mem_singleton] at isAdded
  subst isAdded
  have isFirst : i = scope.fn.arena.blocks.size := by
    have below := Array.inside here
    rw [linked.size] at below
    exact Nat.le_antisymm (Nat.le_of_lt_succ below) late
  have opened : ∀ n, ledger.reach scope.fn.arena scope.current n →
      (ledger.opening scope.fn.arena.blocks.size
        (ledger.reach scope.fn.arena scope.current)).base arena i n := fun n reached => by
    refine .inl ?_
    rw [Ledger.opened_opening late]
    exact reached
  rw [isEmpty, List.nil_append]
  refine ⟨?_, fun entry member => (redirected entry member).imp ?_ ?_⟩
  · subst isFirst
    exact tail.mono opened
  · exact fun ⟨n, isName, reached⟩ => ⟨n, isName, opened n reached⟩
  · exact fun ⟨n, isName, reached⟩ => ⟨n, isName, opened n reached⟩

theorem names_hasElement (isReader : j < fn.paths.length) :
    ∀ name ∈ (hasElement j).names, Visible fn seen name := by
  intro name member
  rw [hasElement, Node.names, Node.names, Node.names, Node.namesOf, List.append_nil,
    List.mem_singleton] at member
  exact .inl (member ▸ .reader isReader)

theorem isQuiet_hasElement (j : Nat) : (hasElement j).isQuiet = true := by
  simp [hasElement, Node.isQuiet, Node.areQuiet, Member.isEndOfArray, Member.hasNext]

theorem isQuiet_hasPosition (n : Nat) : (hasPosition n).isQuiet = true := by
  simp [hasPosition, Node.isQuiet, Node.areQuiet]

theorem names_hasPosition {n : Nat} (copied : seen n) (counted : seen (n + 1)) :
    ∀ name ∈ (hasPosition n).names, Visible fn seen name := by
  intro name member
  simp only [hasPosition, Node.names, Node.namesOf, List.append_nil, List.cons_append,
    List.nil_append, List.mem_cons, List.not_mem_nil, or_false] at member
  rcases member with rfl | rfl
  · exact .inr ⟨_, rfl, counted⟩
  · exact .inr ⟨_, rfl, copied⟩

theorem Books.opens (books : Books S ledger may scope) (opens : scope.Opens S s block loops)
    (linked : Linked scope.fn.arena arena scope.current s [block])
    (recordwise : ((scope.withArena arena).goto scope.fn.arena.blocks.size).Recordwise) :
    Books S (ledger.opening scope.fn.arena.blocks.size (ledger.reach scope.fn.arena scope.current)) may
      ((scope.withArena arena).goto scope.fn.arena.blocks.size) := by
  have adds := linked.adds fun _ => .refl
  cases opens with
  | select reads inLine =>
    refine books.enter linked recordwise rfl (not_declaredIn nofun) ?_ trivial nofun
    refine .branch reads.quiet (fun name member => ?_) (linked.child (i := 0) rfl inLine fun _ => id)
      (.inl rfl)
    exact (reads.visible books.covers name member).kept adds.later.widens fun _ => id
  | stepping isReader =>
    refine books.enter linked recordwise rfl (not_declaredIn nofun) ?_ ?_ nofun
    · refine .loop (isQuiet_hasElement _) (names_hasElement isReader)
        (linked.into (fun _ => .refl) (i := 0) Nat.one_pos).2 fun n opened => ?_
      rw [Ledger.opened_opening le_rfl] at opened
      exact opened
    · exact ⟨.expr (isQuiet_nextOf _) (names_nextOf isReader), trivial⟩

theorem codes_positions {copied : Arena} (isReader : j < scope.fn.paths.length)
    (copies : scope.fn.arena.declareHere scope.current (copyOf j) = .ok (array, copied))
    (positions : copied.declareHere scope.current (.long 0) = .ok (index, positioned)) :
    Codes S may scope (scope.withArena positioned) := by
  have second : (scope.withArena copied).fn.arena.declareHere (scope.withArena copied).current
    (.long 0) = .ok (index, positioned) := positions
  exact .declareHere ⟨isQuiet_copyOf j, fun name member => .param (names_copyOf isReader name member),
    nofun, fun _ => rfl⟩ copies (.declareHere (reads_literal _) second (.refl _))

theorem reach_positions (ledger : Ledger) {copied : Arena}
    (copies : scope.fn.arena.declareHere scope.current (copyOf j) = .ok (array, copied))
    (positions : copied.declareHere scope.current (.long 0) = .ok (index, positioned)) :
    ledger.reach positioned scope.current scope.fn.arena.names ∧
      ledger.reach positioned scope.current (scope.fn.arena.names + 1) := by
  obtain ⟨rfl, updates⟩ := Arena.declareHere_updates copies
  obtain ⟨rfl, updates'⟩ := Arena.declareHere_updates positions
  obtain ⟨block, here, there⟩ := updates.here
  obtain ⟨block', here', there'⟩ := updates'.here
  cases there.symm.trans here'
  refine ⟨.inr ⟨_, there', copyOf j, ?_⟩, .inr ⟨_, there', .long 0, ?_⟩⟩
  · exact List.mem_append_left _ (List.mem_append_right _ (List.mem_singleton.mpr rfl))
  · refine List.mem_append_right _ (List.mem_singleton.mpr ?_)
    rw [declaration, updates.names]

/-- Two variables are set in a block of their own. -/
theorem Books.keeps {test key item : Node} {best payload : Nat} (books : Books S ledger may scope)
    (reads : scope.Reads S test) (readsKey : scope.Reads S key) (readsItem : scope.Reads S item)
    (inLine : tag.isLoop = false) (maySetBest : may best) (maySetPayload : may payload)
    (knownBest : scope.Knows (variableName best))
    (knownPayload : scope.Knows (variableName payload))
    (linked : Linked scope.fn.arena arena scope.current
      (.branch test scope.fn.arena.blocks.size emptyBlock)
      [{ parent := some scope.current, tag
         rest := [.set (variableName best) key, .set (variableName payload) item] }])
    (recordwise : (scope.withArena arena).Recordwise) :
    Books S (ledger.opening scope.fn.arena.blocks.size (ledger.reach scope.fn.arena scope.current)) may
      (scope.withArena arena) := by
  have adds := linked.adds fun _ => .refl
  have widens := adds.later.widens
  have covers := books.covers
  have later := ledger.later_opening scope.fn (ledger.reach scope.fn.arena scope.current)
  refine books.stays adds ⟨rfl, rfl, rfl, rfl⟩ linked.sameRests (books.sane.kept adds.later rfl rfl)
    recordwise later ?_
  refine books.accounted.linked books.sane.rooted .refl linked (fun n opened => .inl (.inl opened))
    (fun _ => ?_) ?_
  · refine .branch reads.quiet (fun name member => ?_) (linked.child (i := 0) rfl inLine fun _ => id)
      (.inl rfl)
    exact (reads.visible covers name member).kept widens fun _ => id
  · intro i late block isAdded _
    rw [List.mem_singleton] at isAdded
    subst isAdded
    have sets : ∀ {k : Nat} {value : Node} {seen : Nat → Prop}, may k → scope.Knows (variableName k) →
        scope.Reads S value → (∀ n, ledger.reach scope.fn.arena scope.current n → seen n) →
        (ledger.opening scope.fn.arena.blocks.size (ledger.reach scope.fn.arena scope.current)).Accepts
          (scope.withArena arena).fn i seen (.set (variableName k) value) := by
      intro k value seen allowed known reads wider
      exact .set reads.quiet (fun name member => (reads.visible covers name member).kept widens wider)
        ((books.settable k allowed).kept later widens) (wider k (covers.variable known))
    refine ⟨⟨sets maySetBest knownBest readsKey ?_, sets maySetPayload knownPayload readsItem ?_,
      trivial⟩, nofun⟩
    all_goals intro n reached
    · exact .inl (by rw [Ledger.opened_opening late]; exact reached)
    · exact .inl (.inl (by rw [Ledger.opened_opening late]; exact reached))

/-- What was saved and which loops there are does not matter. -/
theorem Books.noted (books : Books S ledger may scope) {saved : List Frame} :
    Books S ledger may { scope with saved, loops } where
  sane := by
    obtain ⟨⟨tree, top, current, body⟩, memo, quiet⟩ := books.sane
    exact ⟨⟨tree, top, current, body⟩, memo, quiet⟩
  recordwise := ⟨books.recordwise.confined, books.recordwise.inside, books.recordwise.emitters⟩
  accounted := books.accounted
  covers := by
    intro name known
    refine books.covers name ?_
    cases known with
    | param isParam => exact .param isParam
    | ofBlock isOpen introduced => exact .ofBlock isOpen introduced
    | value bound member => exact .value bound member
    | flag bound => exact .flag bound
    | item bound => exact .item bound
    | copy isOpen here member => exact .copy isOpen here member
    | position isOpen here member => exact .position isOpen here member
  settable := books.settable

theorem Books.counts {element : Path} {copied : Arena} (strict : S.strict)
    (books : Books S ledger may scope) (isReader : j < scope.fn.paths.length)
    (copies : scope.fn.arena.declareHere scope.current (copyOf j) = .ok (array, copied))
    (positions : copied.declareHere scope.current (.long 0) = .ok (index, positioned))
    (linked : Linked positioned arena scope.current
      (.loop (hasPosition scope.fn.arena.names) scope.fn.arena.blocks.size)
      [{ parent := some scope.current, tag := .unnest, tail := [countOf scope.fn.arena.names]
         bound := [Function.readerName j]
         overrides := [(Function.readerName j, ⟨variableName scope.fn.arena.names,
           variableName (scope.fn.arena.names + 1)⟩)] }])
    (reads : scope.reader? element = some (Function.readerName j)) :
    ∃ ledger', ledger.Grows ledger' scope.fn ∧ Books S ledger' may
      { (scope.withArena arena).goto scope.fn.arena.blocks.size with
        loops := (scope.fn.arena.blocks.size, element) :: scope.loops } := by
  have makes : Makes S may scope _ := .count isReader copies positions linked reads
  have recordwise := makes.recordwise strict books.recordwise
  have codes : Codes S may scope (scope.withArena positioned) :=
    codes_positions isReader copies positions
  have size := positions_size copies positions
  have linked' : Linked (scope.withArena positioned).fn.arena arena
    (scope.withArena positioned).current _ _ := linked
  obtain ⟨ledger', grows, books'⟩ := codes.books strict books
  obtain ⟨copyReached, positionReached⟩ := reach_positions ledger' copies positions
  have names : (scope.withArena arena).fn.arena.names = scope.fn.arena.names + 1 + 1 := by
    rw [linked.names, (Arena.declareHere_updates positions).2.names,
      (Arena.declareHere_updates copies).2.names]
  have settable : ledger'.Settable (scope.withArena arena).fn (scope.fn.arena.names + 1) :=
    ⟨Nat.lt_of_lt_of_eq (Nat.lt_succ_self _) names.symm,
      grows.role ▸ books.accounted.fresh _ (Nat.le_succ _)⟩
  refine ⟨_, grows.trans (ledger'.grows_opening (scope.withArena positioned).fn
    (ledger'.reach positioned scope.current)) size.ge, ?_⟩
  replace recordwise : ((scope.withArena arena).goto scope.fn.arena.blocks.size).Recordwise :=
    ⟨recordwise.confined, recordwise.inside, recordwise.emitters⟩
  rw [← size] at linked' recordwise ⊢
  refine .noted (books'.enter linked' recordwise rfl (not_declaredIn nofun) ?_ ?_ ?_)
  · refine .loop (isQuiet_hasPosition _) (names_hasPosition copyReached positionReached)
      (linked'.into (fun _ => .refl) (i := 0) Nat.one_pos).2 fun n opened => ?_
    rw [Ledger.opened_opening le_rfl] at opened
    exact opened
  · refine ⟨.set ?_ ?_ settable positionReached, trivial⟩
    · simp [Node.isQuiet, Node.long]
    · intro name member
      simp only [Node.names, Node.long, List.append_nil, List.mem_singleton] at member
      exact .inr ⟨_, member, positionReached⟩
  · intro entry member
    rw [List.mem_singleton.mp member]
    exact ⟨⟨_, rfl, copyReached⟩, _, rfl, positionReached⟩

/-- The code of a step of a plan is accounted for. -/
theorem Makes.books (strict : S.strict) (makes : Makes S may scope later) : ∀ {ledger : Ledger},
    Books S ledger may scope → ∃ ledger', ledger.Grows ledger' scope.fn ∧ Books S ledger' may later := by
  induction makes with
  | code codes => exact codes.books strict
  | trans first _ ihFirst ihSecond =>
    intro ledger books
    obtain ⟨ledger₁, grows₁, books₁⟩ := ihFirst books
    obtain ⟨ledger₂, grows₂, books₂⟩ := ihSecond books₁
    exact ⟨ledger₂, grows₁.trans grows₂ first.enters.later.arena.size, books₂⟩
  | @frame may scope later adds fn saved sane intact known loops own =>
    intro ledger books
    have makes : Makes S may scope later := .frame adds fn saved sane intact known loops own
    refine ⟨ledger, .refl _ _, sane books.sane, makes.recordwise strict books.recordwise,
      fn ▸ books.accounted, fun name isKnown => ?_, fn ▸ books.settable⟩
    rw [adds.current, fn]
    exact books.covers name (known name isKnown)
  | @declare may scope later b init name arena isOpen quiet constant silent own done _ ih =>
    intro ledger books
    have rooted := books.sane.rooted
    have adds : scope.Adds (scope.withArena arena) := adds_declare isOpen done
    have first : Makes S may scope (scope.withArena arena) :=
      .declare isOpen quiet constant silent own done (.code (.refl _))
    have updates := (Arena.declare_updates done).2
    have accounted := books.accounted.declare rooted (.refl ledger _)
      (fun n late => books.accounted.fresh n late.le) (isOpen rooted) quiet constant
      (fun special => absurd (books.accounted.fresh _ le_rfl) special) done
    have books' := books.fresh adds ⟨rfl, rfl, rfl, rfl⟩ (sameRests_declare done)
      (books.sane.kept adds.later rfl rfl) (first.recordwise strict books.recordwise) accounted
      updates.names
    obtain ⟨ledger', grows, books''⟩ := ih books'
    exact ⟨ledger', ⟨grows.role, fun b below => grows.opened b (updates.size ▸ below)⟩,
      books''.allows fun n allowed => books''.settable n (.inl allowed)⟩
  | @enter may scope _ _ _ _ opens linked =>
    intro ledger books
    have makes : Makes S may _ _ := .enter opens linked
    have recordwise := makes.recordwise strict books.recordwise
    exact ⟨_, ledger.grows_opening _ _, (books.opens opens linked
      ⟨recordwise.confined, recordwise.inside, recordwise.emitters⟩).noted⟩
  | count isReader copies positions linked reads =>
    exact fun books => books.counts strict isReader copies positions linked reads
  | keep reads readsKey readsItem inLine maySetBest maySetPayload best payload linked =>
    intro ledger books
    have makes : Makes S _ _ _ := .keep reads readsKey readsItem inLine maySetBest maySetPayload best
      payload linked
    exact ⟨_, ledger.grows_opening _ _, books.keeps reads readsKey readsItem inLine maySetBest
      maySetPayload best payload linked (makes.recordwise strict books.recordwise)⟩
  | @nested may scope inner inside ih =>
    intro ledger books
    obtain ⟨ledger', grows, books'⟩ := ih books.noted
    have makes : Makes S may scope _ := .nested inside
    exact ⟨ledger', grows, books.stays ⟨makes.enters.later, rfl⟩ ⟨rfl, rfl, rfl, rfl⟩ inside.sameRests
      (makes.sane books.sane) (makes.recordwise strict books.recordwise) grows.later books'.accounted⟩

/-! ## Groups beside a loop -/

/-- One variable is for something else. -/
def Ledger.labelled (ledger : Ledger) (k : Nat) (role : Role) : Ledger :=
  { ledger with role := fun n => if n = k then role else ledger.role n }

theorem Ledger.later_labelled {k : Nat} (role : Role)
    (notGuard : ∀ held, ledger.role k ≠ .guard held)
    (notPlain : k < fn.arena.names → ledger.role k ≠ .plain) :
    ledger.Later (ledger.labelled k role) fn where
  opened := fun _ _ => rfl
  plain := by
    intro n below isPlain
    refine (if_neg ?_).trans isPlain
    rintro rfl
    exact notPlain below isPlain
  guard := by
    intro n held isGuard
    refine (if_neg ?_).trans isGuard
    rintro rfl
    exact notGuard held isGuard

variable {outer : BlockId}

theorem Books.flag (books : Books S ledger may scope) (isOpen : scope.Open outer)
    (apart : outer ≠ scope.fn.body)
    (declares : scope.fn.arena.declare outer (.bool false) = .ok (name, arena)) :
    Books S (ledger.labelled scope.fn.arena.names .idle) may (scope.withArena arena) := by
  have isPlain := books.accounted.fresh _ le_rfl
  have later := ledger.later_labelled .idle (fun held => by rw [isPlain]; exact nofun)
    fun below => absurd below (Nat.lt_irrefl _)
  have adds : scope.Adds (scope.withArena arena) := adds_declare (fun _ => isOpen) declares
  refine books.stays adds ⟨rfl, rfl, rfl, rfl⟩ (sameRests_declare declares)
    (books.sane.kept adds.later rfl rfl) ⟨books.recordwise.confined.declare apart rfl declares,
      books.recordwise.inside, books.recordwise.emitters⟩ later ?_
  have quiet : (Node.bool false).isQuiet = true := by rw [Node.bool, Node.isQuiet]
  refine books.accounted.declare books.sane.rooted later ?_ isOpen quiet (by rintro _ ⟨⟩)
    (fun _ => rfl) declares
  exact fun n after => (if_neg after.ne').trans (books.accounted.fresh n after.le)

/-- A variable in front of an open block stays there. -/
theorem Fronted.of_declare {second : Scope}
    (declares : scope.fn.arena.declare outer init = .ok (name, arena))
    (widens : Widens (scope.withArena arena).fn second.fn) :
    Fronted second.fn.arena outer scope.fn.arena.names := by
  obtain ⟨rfl, updates⟩ := Arena.declare_updates declares
  obtain ⟨block, _, there⟩ := updates.here
  obtain ⟨last, here, _, _, front, _⟩ := widens.kept outer _ there
  exact ⟨outer, last, init, .refl, here, front _ (.head _)⟩

theorem Books.group {k : Nat} {third : Arena} (books : Books S ledger may scope)
    (isIdle : ledger.role k = .idle) (below : k < scope.fn.arena.names) (isOpen : scope.Open outer)
    (fronted : Fronted scope.fn.arena outer k)
    (sets : scope.fn.arena.appendHead scope.current (.set (variableName k) (.bool true)) = .ok third)
    (linked : Linked third arena outer
      (.branch (.ident (variableName k)) third.blocks.size emptyBlock)
      [{ parent := some outer, tag := .groupBy }])
    (sane : ((scope.withArena arena).goto third.blocks.size).Sane S)
    (recordwise : ((scope.withArena arena).goto third.blocks.size).Recordwise) :
    ∃ ledger', ledger.SameOpened ledger' scope.fn ∧
      Books S ledger' (fun _ => False) ((scope.withArena arena).goto third.blocks.size) := by
  have rooted := books.sane.rooted
  have updates := Arena.appendHead_updates sets
  have setAdds : scope.Adds (scope.withArena third) := adds_appendHead (fun _ => .refl) sets
  have isOpen' : (scope.withArena third).Open outer := setAdds.open isOpen
  have linked' : Linked (scope.withArena third).fn.arena arena _ _ _ := linked
  have linkAdds := linked'.adds fun _ => isOpen'
  let held := ledger.reach scope.fn.arena scope.current
  have later : ledger.Later (ledger.labelled k (.guard held)) scope.fn :=
    ledger.later_labelled _ (fun held => by rw [isIdle]; exact nofun)
      fun _ => by rw [isIdle]; exact nofun
  have fresh : ∀ n, scope.fn.arena.names ≤ n → (ledger.labelled k (.guard held)).role n = .plain :=
    fun n late => (if_neg (Nat.ne_of_gt (below.trans_le late))).trans (books.accounted.fresh n late)
  have isGuard : (ledger.labelled k (.guard held)).role k = .guard held := if_pos rfl
  have isHeld : ∀ n, ledger.base scope.fn.arena outer n → held n :=
    fun n isBase => .inl (books.accounted.base_of_within isOpen isBase)
  have marked : Accounted (ledger.labelled k (.guard held)) (scope.withArena third).fn := by
    refine books.accounted.rewrite rooted.tree (rewrites_of_updates updates) (enlarges_append _)
      setAdds.later.widens later (fun n late => fresh n (setAdds.later.arena.names.trans late))
      (fun _ _ => .inl) (fun _ _ => .inl) fun _ => ⟨?_, trivial⟩
    exact .mark isGuard (isHeld k (.inr fronted)) fun _ => id
  have accounted := marked.linked (setAdds.later.rooted rooted) isOpen' linked'
    (fun n opened => isHeld n (.inl opened))
    (fun _ => .guarded isGuard (.inl (.inr (fronted.kept setAdds.later.widens)))
      (linked'.child (i := 0) rfl rfl fun _ => .inr)) (by
      intro i _ block isAdded _
      rw [List.mem_singleton.mp isAdded]
      exact ⟨trivial, nofun⟩)
  have toLinked := (setAdds.trans linkAdds).later
  refine ⟨_, fun b below => ?_, sane, recordwise, accounted, ?_, fun _ => False.elim⟩
  · exact if_pos (Nat.lt_of_lt_of_eq below updates.size.symm)
  refine books.covers.below accounted rooted toLinked.widens ⟨rfl, rfl, rfl, rfl⟩ ?_ ?_ ?_ ?_
  · intro n reached
    rw [Scope.goto_current]
    rw [Ledger.opened_opening le_rfl]
    exact reached
  · intro block here
    have isNew := linked.extra 0 _ rfl
    cases isNew.symm.trans here
    rfl
  · intro b isOpenYes
    have isNew := linked.extra 0 _ rfl
    rcases (Arena.within_iff isNew).mp isOpenYes with same | ⟨parent, isParent, above⟩
    · exact .inl same
    · cases isParent
      exact .inr (isOpen.trans (toLinked.arena.within_of_lt rooted.tree above
        (rooted.lt_of_open isOpen)))
  · intro b before after isOpen there here n declared
    have middle := (rewrites_of_updates updates).blocks b before there
    have last := linked.kept b _ middle
    cases last.symm.trans here
    have atThird : ∀ {n}, DeclaredIn (if b = scope.current then
        { before with rest := before.rest ++ [.set (variableName k) (.bool true)] }
        else before).rest n → DeclaredIn before.rest n := by
      intro n declared
      split at declared
      · exact (DeclaredIn.append.mp declared).resolve_right (not_declaredIn (by nofun) n)
      · exact declared
    split at declared
    · exact atThird ((DeclaredIn.append.mp declared).resolve_right (not_declaredIn (by nofun) n))
    · exact atThird declared

/-- The code of a whole function is accounted for. -/
theorem Builds.books (strict : S.strict) (builds : Builds S scope later) : ∀ {ledger : Ledger},
    Books S ledger (fun _ => False) scope →
    ∃ ledger', ledger.SameOpened ledger' scope.fn ∧ Books S ledger' (fun _ => False) later := by
  induction builds with
  | make makes =>
    intro ledger books
    obtain ⟨ledger', grows, books'⟩ := makes.books strict books
    exact ⟨ledger', grows.opened, books'⟩
  | trans first _ ihFirst ihSecond =>
    intro ledger books
    obtain ⟨ledger₁, same₁, books₁⟩ := ihFirst books
    obtain ⟨ledger₂, same₂, books₂⟩ := ihSecond books₁
    exact ⟨ledger₂, same₁.trans same₂ (first.kept books.sane).1.arena.size, books₂⟩
  | @group scope second outer name flagged third arena isOpen own declares inside stays sets linked =>
    intro ledger books
    have rooted := books.sane.rooted
    have adds : scope.Adds (scope.withArena flagged) := adds_declare isOpen declares
    have inner := inside.enters
    have builds : Builds S scope _ := .group isOpen own declares inside stays sets linked
    obtain ⟨ledger₂, grows, books₂⟩ :=
      inside.books strict (books.flag (isOpen rooted) (own strict) declares)
    have isIdle : ledger₂.role scope.fn.arena.names = .idle := grows.role ▸ if_pos rfl
    have below : scope.fn.arena.names < second.fn.arena.names :=
      Nat.lt_of_lt_of_le (Nat.lt_of_lt_of_eq (Nat.lt_succ_self _)
        (Arena.declare_updates declares).2.names.symm) inner.later.arena.names
    obtain ⟨ledger₃, same, books₃⟩ := books₂.group isIdle below
      (inner.open (adds.open (isOpen rooted))) (.of_declare declares inner.later.widens) sets linked
      (builds.kept books.sane).2 (builds.recordwise strict books.recordwise)
    refine ⟨ledger₃, .trans ?_ same (adds.later.trans inner.later).arena.size, books₃⟩
    exact fun b early => grows.opened b (early.trans_le adds.later.arena.size)
  | toBody _ lax => exact absurd strict lax
  | atBody lax => exact absurd strict lax

end traces

end QueryFusion.Fusion

import QueryFusion.Proofs.Code.Arena
import QueryFusion.Proofs.Fusion.Variables

/-!
# Intact scopes

A scope is intact if its blocks form a tree whose statements lead to later blocks only, readers are
advanced only if the function has them, once where a block marks them, and asked only where they were
advanced, and a declared copy of a path has a reader. Whatever the
compiler asks an intact scope has an answer, and a block of it can be changed. A step works if, besides
what it yields, it ends without a fault wherever some condition holds.
-/

namespace QueryFusion.Code

variable {n : Node} {new arena : Arena} {b : BlockId} {id : Nat} {β : Type}

/-- The blocks that a statement leads to. -/
def Node.leadsTo : Node → List Nat
  | .branch _ yes no => yes :: if no = emptyBlock then [] else [no]
  | .loop _ body => [body]
  | _ => []

/-- The blocks that a statement leads to lie between two others. -/
def Node.LeadsOn (lo hi : Nat) (n : Node) : Prop := ∀ next ∈ n.leadsTo, lo < next ∧ next < hi

theorem Node.LeadsOn.plain {lo hi : Nat} (plain : n.leadsTo = []) : n.LeadsOn lo hi := by
  unfold Node.LeadsOn
  rw [plain]
  nofun

/-- A reader is advanced in a block or around it. -/
def Arena.Bound (arena : Arena) (b : BlockId) (reader : String) : Prop :=
  ∃ id block, arena.Within b id ∧ arena.blocks[id]? = some block ∧ reader ∈ block.bound

theorem Arena.Extends.bound {old : Arena} {touched : BlockId → Prop} {lo : Nat} {r : String}
    (extends' : old.Extends touched lo new) (bound : old.Bound b r) : new.Bound b r := by
  obtain ⟨id, block, within, here, member⟩ := bound
  obtain ⟨block', here', grows⟩ := extends'.grown id block here
  exact ⟨id, block', extends'.within within, here', grows.bound.subset member⟩

/-- A node advances no reader and asks only readers that were advanced. -/
def Arena.Allows (arena : Arena) (b : BlockId) (n : Node) : Prop :=
  ∀ access ∈ n.accesses, access.1 = .ask ∧ arena.Bound b access.2

theorem Arena.allows_silent (silent : n.accesses = []) : arena.Allows b n := by
  unfold Arena.Allows
  rw [silent]
  nofun

theorem Arena.Allows.mono {old : Arena} {c : BlockId} (allows : old.Allows b n)
    (wider : ∀ r, old.Bound b r → new.Bound c r) : new.Allows c n :=
  fun access member => (allows access member).imp_right (wider access.2)

theorem Arena.Allows.advances (allows : arena.Allows b n) : n.advances = [] := by
  refine List.map_eq_nil_iff.mpr (List.filter_eq_nil_iff.mpr fun access member => ?_)
  rw [(allows access member).1]
  nofun

/-- The statements of a block lead onwards, advance the readers that are marked and ask readers that
were advanced. The body of a loop over a list has a reader of its own, which it marks first and
advances at its end, unless it reads a copy of the list. -/
structure Block.Marked (arena : Arena) (id : Nat) (readers : List String) (own : Option String)
    (block : Block) : Prop where
  leads : ∀ n ∈ block.statements, n.LeadsOn id arena.size
  bound : ∀ r ∈ block.bound, r ∈ readers
  distinct : block.bound.Nodup
  marks : block.bound = own.toList ++ block.head.flatMap Node.advances
  steps : block.tail.flatMap Node.advances = if block.overrides = [] then own.toList else []
  asks : ∀ n ∈ block.statements, ∀ r, (.ask, r) ∈ n.accesses → arena.Bound id r

/-- A block in its place of a table: what it refers to is there. -/
structure Block.Fits (arena : Arena) (id : Nat) (readers : List String) (own : Option String)
    (block : Block) : Prop extends block.Marked arena id readers own where
  parent : ∀ p : Nat, block.parent = some p → 0 < p ∧ p < id
  inside : block.tag = .unnest ∨ block.overrides ≠ [] → block.parent.isSome

variable {readers : List String} {own : BlockId → Option String}

theorem Block.Fits.mono {readers' : List String} {own : Option String} {block : Block}
    (fits : block.Fits arena id readers own) (larger : arena.size ≤ new.size)
    (wider : ∀ r, arena.Bound id r → new.Bound id r) (more : readers ⊆ readers') :
    block.Fits new id readers' own :=
  { fits with
    leads := fun n member next isNext =>
      (fits.leads n member next isNext).imp_right fun low => low.trans_le larger
    bound := fun r member => more (fits.bound r member)
    asks := fun n member r asked => wider r (fits.asks n member r asked) }

/-- A table of blocks that all fit. -/
def Arena.Fits (arena : Arena) (readers : List String) (own : BlockId → Option String) : Prop :=
  ∀ (id : Nat) (block : Block), arena.blocks[id]? = some block → block.Fits arena id readers (own id)

namespace Arena

theorem exists_block (inside : id < arena.size) :
    ∃ block, arena.blocks[id]? = some block := ⟨_, Array.getElem?_eq_getElem inside⟩

theorem Fits.findUp (fits : arena.Fits readers own) (probe : BlockId → Block → Option β) :
    ∀ (steps id : Nat), id < steps → id < arena.size →
      ∃ found, arena.findUp probe steps (some id) = .ok found
  | 0, _, low, _ => absurd low (Nat.not_lt_zero _)
  | steps + 1, id, low, inside => by
    obtain ⟨block, here⟩ := exists_block inside
    refine Except.exists_ok_bind ⟨block, get_eq_ok.mpr here⟩ fun _ found => ?_
    cases here.symm.trans (get_eq_ok.mp found)
    split
    · exact ⟨_, rfl⟩
    · cases isParent : block.parent with
      | none => cases steps <;> exact ⟨none, rfl⟩
      | some p =>
        have := (fits id block here).parent p isParent
        exact fits.findUp probe steps p (by omega) (by omega)

theorem Fits.search (fits : arena.Fits readers own) {id : BlockId} (inside : id < arena.size)
    (probe : BlockId → Block → Option β) : ∃ found, arena.search (some id) probe = .ok found :=
  fits.findUp probe _ id (Nat.lt_succ_of_lt inside) inside

theorem Fits.meets (fits : arena.Fits readers own) (ancestor : BlockId) :
    ∀ (steps id : Nat), id < steps → id < arena.size →
      ∃ answer, arena.meets ancestor steps (some id) = .ok answer
  | 0, _, low, _ => absurd low (Nat.not_lt_zero _)
  | steps + 1, id, low, inside => by
    obtain ⟨block, here⟩ := exists_block inside
    rw [Arena.meets]
    split
    · exact ⟨_, rfl⟩
    · rw [get_eq_ok.mpr here]
      change ∃ answer, arena.meets ancestor steps block.parent = .ok answer
      cases isParent : block.parent with
      | none => cases steps <;> exact ⟨false, rfl⟩
      | some p =>
        have := (fits id block here).parent p isParent
        exact fits.meets ancestor steps p (by omega) (by omega)

theorem update_ok (arena : Arena) (change : Block → Block) (isSome : 0 < id)
    (inside : id < arena.size) : ∃ new, arena.update id change = .ok new := by
  obtain ⟨block, here⟩ := exists_block inside
  rw [Arena.update, if_neg (show id ≠ emptyBlock from isSome.ne'), get_eq_ok.mpr here]
  exact ⟨_, rfl⟩

theorem Fits.blockText (fits : arena.Fits readers own) : ∀ (nesting id depth : Nat),
    id < arena.size → arena.size ≤ id + nesting →
      ∃ text, Function.blockText arena nesting id depth = .ok text
  | 0, _, _, inside, low => by omega
  | nesting + 1, id, depth, inside, low => by
    obtain ⟨block, here⟩ := exists_block inside
    have deeper (next depth : Nat) (spot : id < next ∧ next < arena.size) :
        ∃ text, Function.blockText arena nesting next depth = .ok text :=
      fits.blockText nesting next depth spot.2 (by omega)
    refine Except.exists_ok_bind ⟨block, get_eq_ok.mpr here⟩ fun _ found => ?_
    cases here.symm.trans (get_eq_ok.mp found)
    refine Except.exists_ok_bind (Except.exists_ok_mapM _ fun n member => ?_) fun _ _ => ⟨_, rfl⟩
    have leads := (fits id _ here).leads n member
    unfold Function.statementText
    split
    · next cond yes no =>
      refine Except.exists_ok_bind (deeper yes _ (leads yes (.head _))) fun _ _ => ?_
      dsimp only
      split
      · exact ⟨_, rfl⟩
      · next notEmpty =>
        have spot := leads no (List.mem_cons_of_mem _ (by simp [notEmpty]))
        refine Except.exists_ok_bind (exists_block spot.2 |>.imp fun _ => get_eq_ok.mpr) fun _ _ => ?_
        refine Except.exists_ok_bind ⟨_, rfl⟩ fun _ _ => ?_
        split
        · exact Except.exists_ok_bind (deeper no _ spot) fun _ _ => ⟨_, rfl⟩
        · exact ⟨_, rfl⟩
    · exact Except.exists_ok_bind (deeper _ _ (leads _ (.head _))) fun _ _ => ⟨_, rfl⟩
    all_goals exact ⟨_, rfl⟩

/-- A block that can be changed. -/
def Has (arena : Arena) (id : Nat) : Prop := 0 < id ∧ id < arena.blocks.size

theorem Has.update {other : BlockId} {change : Block → Block} (has : arena.Has id)
    (done : arena.update other change = .ok new) : new.Has id :=
  ⟨has.1, has.2.trans_eq (update_eq_ok done).2.2.1.symm⟩

theorem Has.push (has : arena.Has id) (parent : Option BlockId) (tag : Tag) :
    (arena.new parent tag).2.Has id ∧ (arena.new parent tag).2.Has arena.blocks.size := by
  have size : (arena.new parent tag).2.blocks.size = arena.blocks.size + 1 := Array.size_push _
  unfold Has
  rw [size]
  exact ⟨⟨has.1, has.2.trans (Nat.lt_succ_self _)⟩, Nat.zero_lt_of_lt has.2, Nat.lt_succ_self _⟩

theorem Has.declares (has : arena.Has id) (init : Node) :
    (∃ answer, arena.declare id init = .ok answer) ∧ ∃ answer, arena.declareHere id init = .ok answer := by
  constructor <;>
    exact Except.exists_ok_bind (update_ok arena.newName.2 _ has.1 has.2) fun _ _ => ⟨_, rfl⟩

/-- A reader can be advanced in a block in which it is not. -/
theorem Has.binds (has : arena.Has id) {reader : String}
    (unbound : ∀ block, arena.blocks[id]? = some block → reader ∉ block.bound) :
    ∃ new, arena.bind id reader = .ok new := by
  obtain ⟨block, here⟩ := exists_block has.2
  refine Except.exists_ok_bind (update_ok arena _ has.1 has.2) fun new _ => ?_
  refine Except.exists_ok_bind ⟨block, get_eq_ok.mpr here⟩ fun _ found => ⟨new, if_neg ?_⟩
  cases here.symm.trans (get_eq_ok.mp found)
  rw [List.contains_iff_mem]
  exact unbound block here

end Arena

end QueryFusion.Code

namespace QueryFusion.Fusion

open Code

/-! ## The invariant -/

/-- In a state of variables, the paths that variables stand for are those of a schema, and a path with
a declared copy is one of some paths. -/
structure Frame.Fits (paths : List Path) (schema : Plan.Schema) (frame : Frame) : Prop where
  reads : ∀ v p, frame.memos.has v → frame.values.find? v = some (.path p) →
    ∃ q ∈ paths, q.text = p.text
  pushed : ∀ v p, frame.values.find? v = some (.path p) → schema.has p = true

theorem Frame.Fits.mono {paths more : List Path} {schema : Plan.Schema} {frame : Frame}
    (fits : frame.Fits paths schema) (fewer : paths ⊆ more) : frame.Fits more schema :=
  { fits with reads := fun v p memo isPath =>
      have ⟨q, member, text⟩ := fits.reads v p memo isPath
      ⟨q, fewer member, text⟩ }

/-- The reader of the list that a loop goes through, by the body of the loop. -/
def Scope.loopReader? (scope : Scope) (b : BlockId) : Option String :=
  (scope.loops.lookup b).bind scope.reader?

/-- What code is made under: the schema of the scan, if it is known, and whether the code is to depend
on one record only; then it reads none of the variables that are hidden. -/
structure Terms where
  schema : Option Plan.Schema := none
  strict : Prop := False
  hides : Nat → Prop := fun _ => False

/-- What every step that makes code relies on. If a schema is given, it is that of the scan. -/
structure Scope.Intact (S : Terms) (scope : Scope) : Prop where
  fits : scope.fn.arena.Fits scope.fn.readers scope.loopReader?
  loops : ∀ b element, scope.loops.lookup b = some element →
    b < scope.fn.arena.blocks.size ∧ ∃ reader, scope.reader? element = some reader
  body : scope.fn.arena.Has scope.fn.body
  current : scope.fn.arena.Has scope.current
  unfrozen : scope.fn.frozen = false
  schema : ∀ s ∈ S.schema, scope.schema = s
  frames : ∀ frame ∈ scope.live :: scope.saved, frame.Fits scope.fn.paths scope.schema

variable {α β : Type} {S : Terms} {scope : Scope} {p : Path} {reader : String}

theorem Scope.Intact.live (intact : scope.Intact S) : scope.live.Fits scope.fn.paths scope.schema :=
  intact.frames _ (.head _)

theorem readers_subset {fn fn' : Function} (paths : fn.paths <+: fn'.paths) :
    fn.readers ⊆ fn'.readers := by
  intro r member
  obtain ⟨i, isIn, same⟩ := List.mem_map.mp member
  exact List.mem_map.mpr ⟨i, List.mem_range.mpr
    (Nat.lt_of_lt_of_le (List.mem_range.mp isIn) paths.length_le), same⟩

/-- A path is read that is not in the schema of the scan. -/
inductive FuseError.IsUnpushed : FuseError → Prop
  | noReader (path dataset : String) : IsUnpushed (.noReader path dataset)
  | notPushedDown (call : Call) (path : String) : IsUnpushed (.notPushedDown call path)

/-- An abort is reported as an error. Where something is known of schemas, no path is missing. -/
def Abort.Reported (known : Option α) : Abort → Prop
  | .fault _ => False
  | .error cause => cause.IsUnpushed → known = none
  | .plan _ => True

theorem Abort.Reported.mono {known : Option α} {other : Option β} {abort : Abort}
    (reported : abort.Reported known) (less : known = none → other = none) : abort.Reported other :=
  match abort, reported with
  | .error _, reported => fun unpushed => less (reported unpushed)
  | .plan _, _ => trivial

/-! ## Steps that work -/

/-- What a step from a scope yields if it succeeds, and that it ends without a fault if something
holds. -/
structure Works (S : Terms) (ok : Prop) (step : Emit α) (scope : Scope)
    (holds : α → Scope → Prop) : Prop where
  yields : Yields step scope holds
  ends : ok → ∀ abort, step scope = .error abort → abort.Reported S.schema

section rules

variable {ok : Prop} {step : Emit α} {next : α → Emit β} {holds : α → Scope → Prop}

theorem Works.bind {holds : β → Scope → Prop}
    (first : Works S ok step scope fun a later => Works S ok (next a) later holds) :
    Works S ok (step >>= next) scope holds where
  yields := .bind (first.yields.mono fun _ _ works => works.yields)
  ends := by
    intro isOk abort
    change (step scope >>= fun answer => next answer.1 answer.2) = _ → _
    cases ran : step scope with
    | error other =>
      rintro ⟨⟩
      exact first.ends isOk abort ran
    | ok answer => exact (first.yields answer.1 answer.2 ran).ends isOk abort

theorem Works.mono {more : α → Scope → Prop} (works : Works S ok step scope holds)
    (weaker : ∀ a later, holds a later → more a later) : Works S ok step scope more :=
  ⟨works.yields.mono weaker, works.ends⟩

theorem Works.given {less : Prop} (works : Works S ok step scope holds) (given : less → ok) :
    Works S less step scope holds := ⟨works.yields, fun isLess => works.ends (given isLess)⟩

/-- A step that leaves the scope as it is. -/
theorem Works.asked {holds : β → Scope → Prop} {told : α → Prop}
    (first : Works S ok step scope fun a later => later = scope ∧ told a)
    (second : ∀ a, told a → Works S ok (next a) scope holds) : Works S ok (step >>= next) scope holds :=
  .bind (first.mono fun a _ ⟨same, held⟩ => same ▸ second a held)

theorem Works.of_yields (yields : Yields step scope holds)
    (succeeds : ok → ∃ answer, step scope = .ok answer) : Works S ok step scope holds := by
  refine ⟨yields, fun isOk abort failed => ?_⟩
  obtain ⟨answer, ran⟩ := succeeds isOk
  cases ran.symm.trans failed

theorem Works.pure {a : α} (held : holds a scope) : Works S ok (Pure.pure a : Emit α) scope holds :=
  .of_yields (.pure held) fun _ => ⟨_, rfl⟩

theorem Works.throw {abort : Abort} (never : ok → False) :
    Works S ok (MonadExcept.throw abort : Emit α) scope holds :=
  ⟨.throw, fun isOk => (never isOk).elim⟩

theorem Works.fail {cause : FuseError} (reported : ok → cause.IsUnpushed → S.schema = none) :
    Works S ok (failWith cause : Emit α) scope holds :=
  ⟨.failWith, fun isOk => by rintro _ ⟨⟩; exact reported isOk⟩

theorem Works.get {next : Scope → Emit α} (works : Works S ok (next scope) scope holds) :
    Works S ok (MonadState.get >>= next) scope holds := ⟨works.yields, works.ends⟩

theorem Works.modifying {holds : PUnit → Scope → Prop} {change : Scope → Scope}
    (held : holds ⟨⟩ (change scope)) : Works S ok (modify change : Emit PUnit) scope holds :=
  .of_yields (.modifying held) fun _ => ⟨_, rfl⟩

theorem Works.set {holds : PUnit → Scope → Prop} {new : Scope} (held : holds ⟨⟩ new) :
    Works S ok (MonadStateOf.set new : Emit PUnit) scope holds :=
  .of_yields (.set held) fun _ => ⟨_, rfl⟩

theorem Works.lift {answer : Except Abort α}
    (ends : ok → ∀ abort, answer = .error abort → abort.Reported S.schema)
    (held : ∀ a, answer = .ok a → holds a scope) : Works S ok (liftM answer : Emit α) scope holds := by
  refine ⟨.lift held, fun isOk abort failed => ends isOk abort ?_⟩
  cases answer with
  | ok a => cases failed
  | error other =>
    cases failed
    rfl

/-- A question whose answer is known to exist. -/
theorem Works.asks {answer : Except Fault α} (succeeds : ok → ∃ a, answer = .ok a)
    (held : ∀ a, answer = .ok a → holds a scope) :
    Works S ok (liftM (orAbort answer) : Emit α) scope holds := by
  refine .of_yields (.lift fun a same => held a (orAbort_eq_ok.mp same)) fun isOk => ?_
  obtain ⟨a, rfl⟩ := succeeds isOk
  exact ⟨_, rfl⟩

theorem Works.changeArena {holds : PUnit → Scope → Prop} {change : Arena → Except Fault Arena}
    (succeeds : ok → ∃ arena, change scope.fn.arena = .ok arena)
    (held : ∀ arena, change scope.fn.arena = .ok arena →
      holds ⟨⟩ { scope with fn := { scope.fn with arena } }) :
    Works S ok (Fusion.changeArena change) scope holds :=
  .get (.bind (.asks succeeds fun arena done => .set (held arena done)))

theorem Works.drawArena {draw : Arena → Except Fault (α × Arena)}
    (succeeds : ok → ∃ answer, draw scope.fn.arena = .ok answer)
    (held : ∀ a arena, draw scope.fn.arena = .ok (a, arena) →
      holds a { scope with fn := { scope.fn with arena } }) :
    Works S ok (Fusion.drawArena draw) scope holds :=
  .get (.bind (.asks succeeds fun (a, arena) done =>
    .bind (.set (.pure (held a arena done)))))

/-- Emitting adds a statement to the current block. -/
theorem works_emit {n : Node} {holds : PUnit → Scope → Prop} (has : ok → scope.fn.arena.Has scope.current)
    (held : ∀ arena, scope.fn.arena.appendHead scope.current n = .ok arena →
      holds ⟨⟩ { scope with fn := { scope.fn with arena } }) : Works S ok (emit n) scope holds :=
  .get (.changeArena (fun isOk => Arena.update_ok _ _ (has isOk).1 (has isOk).2) held)

/-- Opening a block adds an empty one at the end. -/
theorem works_openBlock {parent : BlockId} {tag : Tag} {holds : BlockId → Scope → Prop}
    (held : holds scope.fn.arena.blocks.size { scope with fn :=
      { scope.fn with arena := (scope.fn.arena.new (some parent) tag).2 } }) :
    Works S ok (openBlock parent tag) scope holds :=
  .drawArena (fun _ => ⟨_, rfl⟩) fun id arena done => by
    cases done
    exact held

end rules

/-! ## Questions -/

/-- A question that has an answer and leaves the scope as it is. -/
def Replies (step : Emit α) (scope : Scope) : Prop := ∃ a, step scope = .ok (a, scope)

section answers

variable {step : Emit α} {next : α → Emit β}

theorem Replies.bind (first : Replies step scope) (second : ∀ a, Replies (next a) scope) :
    Replies (step >>= next) scope := by
  obtain ⟨a, ran⟩ := first
  obtain ⟨b, ran'⟩ := second a
  exact ⟨b, Except.bind_eq_ok.mpr ⟨_, ran, ran'⟩⟩

theorem Replies.pure {a : α} : Replies (Pure.pure a) scope := ⟨a, rfl⟩

theorem Replies.get {next : Scope → Emit α} (answers : Replies (next scope) scope) :
    Replies (MonadState.get >>= next) scope := answers

theorem Replies.ask {ask : Arena → Except Fault α} (succeeds : ∃ a, ask scope.fn.arena = .ok a) :
    Replies (askArena ask) scope := by
  obtain ⟨a, asked⟩ := succeeds
  refine ⟨a, ?_⟩
  change (orAbort (ask scope.fn.arena) >>= fun a => Except.ok (a, scope)) = _
  rw [asked]
  rfl

/-- Whatever a question with an answer yields. -/
theorem Works.query {ok : Prop} {holds : α → Scope → Prop} (yields : Yields step scope holds)
    (answers : ok → Replies step scope) : Works S ok step scope holds :=
  .of_yields yields fun isOk => have ⟨_, ran⟩ := answers isOk; ⟨_, ran⟩

variable (intact : scope.Intact S)

include intact

theorem replies_overrideOf (reader : String) : Replies (overrideOf reader) scope :=
  .get (.ask (intact.fits.search intact.current.2 _))

theorem replies_ownOverride {next : Option (Override × BlockId) → Emit β}
    (each : ∀ found, Replies (next found) scope) : Replies (match scope.reader? p with
      | some reader => overrideOf reader >>= next
      | none => pure none >>= next) scope := by
  split
  · exact (replies_overrideOf intact _).bind each
  · exact each none

theorem replies_firstOverride : ∀ ps : List Path, Replies (firstOverride ps) scope
  | [] => .pure
  | p :: rest => by
    refine .get (replies_ownOverride intact fun found => ?_)
    cases found with
    | some target => exact .pure
    | none => exact replies_firstOverride rest

theorem replies_isOverridden (p : Path) : Replies (isOverridden p) scope := by
  refine .get (replies_ownOverride intact fun found => ?_)
  cases found with
  | some target => exact .pure
  | none => exact (replies_firstOverride intact _).bind fun _ => .pure

theorem replies_isBound (reader : String) :
    Replies (askArena (·.isBound (some scope.current) reader)) scope :=
  .ask (Except.exists_ok_bind (intact.fits.search intact.current.2 _) fun _ _ => ⟨_, rfl⟩)

theorem replies_parentOf {b : BlockId} {block : Block} (here : scope.fn.arena.blocks[b]? = some block)
    (inside : block.tag = .unnest ∨ block.overrides ≠ []) : Replies (parentOf b) scope := by
  obtain ⟨parent, isParent⟩ := Option.isSome_iff_exists.mp ((intact.fits b block here).inside inside)
  obtain ⟨found, ran⟩ : Replies (askArena (·.get b)) scope := .ask ⟨block, Arena.get_eq_ok.mpr here⟩
  have isHere : found = block := by
    have asked : Yields (askArena (·.get b)) scope fun found _ => found = block :=
      .askArena fun found done => Option.some.inj ((Arena.get_eq_ok.mp done).symm.trans here)
    exact asked found scope ran
  refine ⟨parent, Except.bind_eq_ok.mpr ⟨_, ran, ?_⟩⟩
  subst isHere
  simp only [isParent]
  rfl

theorem replies_visibleMemo? (v : Var) : Replies (visibleMemo? v) scope := by
  refine .get ?_
  split
  · exact .pure
  · refine (Replies.ask (intact.fits.meets _ _ _ (Nat.lt_succ_of_lt intact.current.2)
      intact.current.2)).bind fun answer => ?_
    split <;> exact .pure

theorem replies_iterable? (e : Expr) : Replies (iterable? e) scope := by
  refine .get ?_
  split
  · exact .pure
  · next p _ =>
    dsimp only
    split
    · exact .pure
    · have continues (busy : Bool) : Replies (do
          if busy then pure none
          else if ← isOverridden p.elements then pure none
          else pure (some p.elements) : Emit (Option Path)) scope := by
        split
        · exact .pure
        · refine (replies_isOverridden intact _).bind fun answer => ?_
          split <;> exact .pure
      split
      · exact (replies_isBound intact _).bind continues
      · exact continues false

theorem replies_chainStep (seen : List String) (body : Plan.Body) :
    Replies (chainStep seen body) scope := by
  unfold chainStep
  split
  · exact .pure
  · exact .pure
  · refine (replies_iterable? intact _).bind fun found => ?_
    split <;> exact .pure
  · exact .pure
  · exact .pure

end answers

end QueryFusion.Fusion

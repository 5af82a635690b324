import QueryFusion.Proofs.Fusion.Traces
import QueryFusion.Proofs.Plan.Sturdy

/-!
# Traces keep scopes intact

Whatever way code is made, the scope stays intact. What the steps that make code need of a plan is that
its expressions have a text, that a binding has both of its parts, and that the paths that they read
are pushed down.
-/

namespace QueryFusion

/-- An expression can be compiled: nothing is absent in it, and the given schema has the paths that
it reads. -/
structure Expr.Taken (S : Option Plan.Schema) (e : Expr) : Prop where
  whole : e.Whole
  registers : ∀ s ∈ S, s.Registers e

/-- An operator can be compiled. -/
structure Plan.Body.Taken (S : Option Plan.Schema) (body : Plan.Body) : Prop where
  proper : body.Proper
  registers : ∀ s ∈ S, ∀ e ∈ body.uses, s.Registers e

variable {S : Fusion.Terms} {ok : Prop}

/-- An expression fits the terms: it can be compiled if something holds, and it reads nothing hidden. -/
structure Expr.Fits (S : Fusion.Terms) (ok : Prop) (e : Expr) : Prop where
  taken : ok → e.Taken S.schema
  clear : S.strict → ∀ v ∈ e.occurrences, ¬ S.hides v.id

theorem Expr.Fits.of_lax {e : Expr} (lax : ¬ S.strict) : e.Fits S False :=
  ⟨nofun, fun strict => absurd strict lax⟩

theorem Expr.Fits.any {e : Expr} : e.Fits {} False := .of_lax id

theorem Expr.mem_occurrencesArgs {v : Var} {e : Expr} (occurs : v ∈ e.occurrences) :
    ∀ {args : List Expr}, e ∈ args → v ∈ occurrencesArgs args
  | _ :: _, .head _ => List.mem_append_left _ occurs
  | _ :: _, .tail _ later => List.mem_append_right _ (mem_occurrencesArgs occurs later)

/-- The arguments of a call that is no access to a path. -/
theorem Expr.Fits.args {fn : Func} {args : List Expr} {loc : Location}
    (fits : (Expr.call fn args loc).Fits S ok)
    (noPath : ok → fn = .fieldAccess → ∀ s ∈ S.schema, s.pathOf? (.call fn args loc) = none) :
    ∀ e ∈ args, e.Fits S ok := fun e member => by
  refine ⟨fun isOk => ⟨(fits.taken isOk).whole.args e member, fun s isGiven q isRead => ?_⟩,
    fun strict v occurs => fits.clear strict v (mem_occurrencesArgs occurs member)⟩
  have reads := ((fits.taken isOk).registers s isGiven).reads (D := fun _ => True) fun _ _ => trivial
  rcases Plan.Schema.reads_call reads with ⟨p, isAccess, isPath, _⟩ | ⟨_, others⟩
  · rw [noPath isOk isAccess s isGiven] at isPath
    cases isPath
  · exact (others.each e member q isRead).2

/-- An operator fits the terms. -/
structure Plan.Body.Fits (S : Fusion.Terms) (ok : Prop) (body : Plan.Body) : Prop where
  taken : ok → body.Taken S.schema
  clear : S.strict → ∀ e ∈ body.uses, ∀ v ∈ e.occurrences, ¬ S.hides v.id

theorem Plan.Body.Fits.any {body : Plan.Body} : body.Fits {} False := ⟨nofun, nofun⟩

theorem Plan.Body.Fits.exprs {body : Plan.Body} (fits : body.Fits S ok) :
    ∀ e ∈ body.uses, e.Fits S ok := fun e member =>
  ⟨fun isOk => ⟨(fits.taken isOk).proper.whole e (Body.mem_exprs member),
    fun s isGiven => (fits.taken isOk).registers s isGiven e member⟩, fun strict => fits.clear strict e member⟩

/-- Every operator of a plan fits the terms. -/
def Plan.Fits (S : Fusion.Terms) (ok : Prop) (plan : Plan) : Prop :=
  ∀ (id : Plan.OpId) op, plan.ops[id]? = some op → op.body.Fits S ok

theorem Plan.Fits.edited {plan other : Plan} (fits : plan.Fits S ok)
    (edited : plan.Edited other) {rank : Plan.OpId → Nat} (sturdy : ok → other.Sturdy rank) :
    other.Fits S ok := fun id op found => by
  have inside := Array.inside found
  rw [edited.size] at inside
  obtain ⟨op', found', _, _, uses⟩ := edited.find id _ (Array.getElem?_eq_getElem inside)
  cases found.symm.trans found'
  have before := fits id _ (Array.getElem?_eq_getElem inside)
  exact ⟨fun isOk => ⟨(sturdy isOk).proper id op found, fun s isGiven e member =>
    (before.taken isOk).registers s isGiven e (uses member)⟩, fun strict e member =>
      before.clear strict e (uses member)⟩

end QueryFusion

namespace QueryFusion.Fusion

open Code

variable {reader : String} {block : Block} {n s test : Node} {id : Nat} {home b : BlockId}
variable {added : List Block} {own' own : BlockId → Option String} {old : Arena}
variable {readers : List String}

/-! ## Nested aggregates and loops -/

variable {α : Type} {S : Terms} {ok : Prop} {scope : Scope}

/-- The aggregate of a nested plan has a variable for each of its calls, and they fit the terms. -/
structure NestedAggregate.Fits (S : Terms) (ok : Prop) (aggregate : NestedAggregate) : Prop where
  lengths : ok → aggregate.vars.length = aggregate.calls.length
  calls : ∀ call ∈ aggregate.calls, call.expr.Fits S ok

theorem NestedAggregate.Fits.vars {aggregate : NestedAggregate} (fits : aggregate.Fits S ok)
    {call : Call} (isCall : aggregate.calls = [call]) (isOk : ok) : aggregate.vars ≠ [] := by
  intro none
  have := fits.lengths isOk
  rw [none, isCall] at this
  cases this

theorem exists_ok_anyM {f : α → Except Fault Bool} : ∀ as : List α,
    (∀ a, ∃ answer, f a = .ok answer) → ∃ answer, as.anyM f = .ok answer
  | [], _ => ⟨false, rfl⟩
  | a :: as, each => by
    refine Except.exists_ok_bind (each a) fun answer _ => ?_
    cases answer
    · exact exists_ok_anyM as each
    · exact ⟨true, rfl⟩

theorem exists_ok_exprInLoop {loop : Nat} (has : loop < scope.fn.arena.size)
    (e : Expr) : ∃ answer, scope.exprInLoop loop e = .ok answer := by
  unfold Scope.exprInLoop
  dsimp only
  split
  · exact ⟨true, rfl⟩
  · refine exists_ok_anyM _ fun v => ?_
    refine Except.exists_ok_bind (exists_ok_anyM _ fun reader => ?_) fun _ _ => ⟨_, rfl⟩
    exact Except.exists_ok_bind ((Arena.exists_block has).imp fun _ => Arena.get_eq_ok.mpr)
      fun _ _ => ⟨_, rfl⟩

/-! ## Blocks that fit -/

section fits

variable {new : Arena}
variable {change : Block → Block}

/-- A reader is marked once in a block. -/
theorem Arena.unbound_of_bind (done : old.bind b reader = .ok new)
    (here : old.blocks[b]? = some block) : reader ∉ block.bound := by
  obtain ⟨_, _, rest⟩ := Except.bind_eq_ok.mp done
  obtain ⟨found, isFound, rest⟩ := Except.bind_eq_ok.mp rest
  cases here.symm.trans (Arena.get_eq_ok.mp isFound)
  split at rest
  · cases rest
  · next free => exact fun member => free (List.contains_iff_mem.mpr member)

/-- Changing one block in a way that fits. -/
theorem Rewrites.fits (rewrites : Rewrites b change old new) (fits : old.Fits readers own)
    (wider : ∀ block, (change block).parent = block.parent ∧ block.bound ⊆ (change block).bound)
    (each : ∀ block, old.blocks[b]? = some block → block.Fits new b readers (own b) →
      (change block).Fits new b readers (own b)) : new.Fits readers own := by
  have bound : ∀ {i r}, old.Bound i r → new.Bound i r := by
    rintro i r ⟨id, block, within, here, member⟩
    refine ⟨id, _, Relation.ReflTransGen.mono ?_ _ _ within, rewrites.blocks id block here, ?_⟩
    · rintro child parent ⟨block, here, isParent⟩
      refine ⟨_, rewrites.blocks child block here, ?_⟩
      split
      · exact (wider block).1.trans isParent
      · exact isParent
    · split
      · exact (wider block).2 member
      · exact member
  intro i block here
  obtain ⟨before, there, rfl⟩ := rewrites.before here
  have fit := (fits i before there).mono rewrites.size.ge (fun _ => bound) fun _ => id
  split
  · next same =>
    subst same
    exact each before there fit
  · exact fit

theorem Rewrites.fits_plain (rewrites : Rewrites b change old new) (fits : old.Fits readers own)
    (plain : n.leadsTo = []) (allows : new.Allows b n)
    (same : ∀ block, (change block).parent = block.parent ∧ (change block).tag = block.tag ∧
      (change block).overrides = block.overrides ∧ (change block).bound = block.bound)
    (statements : ∀ block, (∀ s ∈ (change block).statements, s = n ∨ s ∈ block.statements) ∧
      (change block).head.flatMap Node.advances = block.head.flatMap Node.advances ∧
      (change block).tail.flatMap Node.advances = block.tail.flatMap Node.advances) :
    new.Fits readers own := by
  refine rewrites.fits fits (fun block => ⟨(same block).1, (same block).2.2.2 ▸ fun _ => id⟩)
    fun block _ fits => ?_
  obtain ⟨parent, tag, overrides, bound⟩ := same block
  obtain ⟨added, head, tail⟩ := statements block
  refine ⟨⟨fun s member => ?_, bound ▸ fits.bound, bound ▸ fits.distinct, ?_, ?_, fun s member => ?_⟩,
    parent ▸ fits.parent, ?_⟩
  · exact (added s member).elim (· ▸ .plain plain) (fits.leads s)
  · rw [bound, head]
    exact fits.marks
  · rw [overrides, tail]
    exact fits.steps
  · exact (added s member).elim (· ▸ fun r asked => (allows _ asked).2) (fits.asks s)
  · rw [tag, overrides, parent]
    exact fits.inside

section

variable {init : Node} {name : String} (fits : old.Fits readers own)

include fits

theorem fits_appendHead (plain : n.leadsTo = []) (allows : old.Allows b n)
    (done : old.appendHead b n = .ok new) : new.Fits readers own :=
  (rewrites_update done).fits_plain fits plain
    (allows.mono fun _ => (Arena.appendHead_updates done).extends'.bound)
    (fun _ => ⟨rfl, rfl, rfl, rfl⟩) fun _ => ⟨by simp [Block.statements, Block.head, or_left_comm],
      by simp [Block.head, allows.advances], rfl⟩

theorem fits_appendTail (plain : n.leadsTo = []) (silent : n.accesses = [])
    (done : old.appendTail b n = .ok new) : new.Fits readers own :=
  (rewrites_update done).fits_plain fits plain (Arena.allows_silent silent)
    (fun _ => ⟨rfl, rfl, rfl, rfl⟩) fun _ => ⟨by
      simp only [Block.statements, Block.head, List.mem_append, List.mem_singleton]
      tauto, rfl, by simp [Node.advances, silent]⟩

theorem fits_declare (silent : init.accesses = []) (done : old.declare b init = .ok (name, new)) :
    new.Fits readers own :=
  (rewrites_of_updates (Arena.declare_updates done).2).fits_plain fits
    (n := .assign name init true) rfl (Arena.allows_silent silent) (fun _ => ⟨rfl, rfl, rfl, rfl⟩)
    fun _ => ⟨by simp [Block.statements, Block.head],
      by simp [Block.head, Node.advances, Node.accesses, silent], rfl⟩

theorem fits_declareHere (allows : old.Allows b init)
    (done : old.declareHere b init = .ok (name, new)) : new.Fits readers own :=
  have stays : (Node.assign name init true).advances = [] := allows.advances
  (rewrites_of_updates (Arena.declareHere_updates done).2).fits_plain fits
    (n := .assign name init true) rfl
    (allows.mono fun _ => (Arena.declareHere_updates done).2.extends'.bound)
    (fun _ => ⟨rfl, rfl, rfl, rfl⟩) fun _ => ⟨by simp [Block.statements, Block.head, or_left_comm],
      by simp [Block.head, stays], rfl⟩

/-- A reader is advanced and marked where it was not marked. -/
theorem fits_advance {j : Nat} {stepped : Arena} (isReader : Function.readerName j ∈ readers)
    (steps : old.appendHead b (nextOf j) = .ok stepped)
    (binds : stepped.bind b (Function.readerName j) = .ok new) : new.Fits readers own := by
  have updates := (Arena.appendHead_updates steps).trans (Arena.bind_updates binds)
  refine (rewrites_of_updates updates).fits fits (fun _ => ⟨rfl, List.subset_append_left _ _⟩)
    fun block here fits => ?_
  have there := (rewrites_of_updates (Arena.appendHead_updates steps)).blocks b block here
  rw [if_pos rfl] at there
  have isIn : ∀ s ∈ (block.front ++ (block.rest ++ [nextOf j])) ++ block.tail,
      s = nextOf j ∨ s ∈ block.statements := by
    simp [Block.statements, Block.head, or_left_comm]
  refine ⟨⟨fun s member => ?_, fun r member => ?_, ?_, ?_, fits.steps, fun s member => ?_⟩,
    fits.parent, fits.inside⟩
  · exact (isIn s member).elim (· ▸ .plain rfl) (fits.leads s)
  · exact (List.mem_append.mp member).elim (fits.bound r) fun isNew => List.mem_singleton.mp isNew ▸ isReader
  · have free := Arena.unbound_of_bind binds there
    exact fits.distinct.append (List.nodup_singleton _) (List.disjoint_singleton.mpr free)
  · change block.bound ++ _ = _ ++ (block.front ++ (block.rest ++ [nextOf j])).flatMap _
    rw [← List.append_assoc, List.flatMap_append, ← List.append_assoc]
    exact congrArg (· ++ [Function.readerName j]) fits.marks
  · refine (isIn s member).elim (fun isNew r asked => ?_) (fits.asks s)
    cases List.mem_singleton.mp (isNew ▸ asked : (Access.ask, r) ∈ [(.advance, _)])

end

/-- A block without marks. -/
theorem marked_plain (bound : block.bound = []) (tail : block.tail = [])
    (head : ∀ t ∈ block.head, t.leadsTo = [] ∧ new.Allows id t) :
    block.Marked new id readers none := by
  have isHead : block.statements = block.head := by rw [Block.statements, tail, List.append_nil]
  refine ⟨isHead ▸ fun t member => .plain (head t member).1, by rw [bound]; nofun,
    bound ▸ List.nodup_nil, ?_, ?_, isHead ▸ fun t member r asked => ((head t member).2 _ asked).2⟩
  · rw [bound]
    exact (List.flatMap_eq_nil_iff.mpr fun t member => (head t member).2.advances).symm
  · rw [tail]
    exact (ite_self _).symm

/-- The body of a loop over a list. -/
theorem marked_loop {step : Node} (bound : block.bound = [reader]) (isReader : reader ∈ readers)
    (head : block.head = []) (tail : block.tail = [step]) (plain : step.leadsTo = [])
    (accesses : step.accesses = if block.overrides = [] then [(.advance, reader)] else []) :
    block.Marked new id readers (some reader) := by
  have isStep : block.statements = [step] := by rw [Block.statements, head, tail, List.nil_append]
  refine ⟨?_, ?_, bound ▸ List.nodup_singleton _, by rw [bound, head]; rfl, ?_, ?_⟩
  · rw [isStep, List.forall_mem_singleton]
    exact .plain plain
  · rw [bound, List.forall_mem_singleton]
    exact isReader
  · rw [tail]
    split at accesses <;> simp [Node.advances, *]
  · rw [isStep, List.forall_mem_singleton, accesses]
    split <;> simp

theorem Linked.wider {i : BlockId} {r : String} (linked : Linked old new home s added) :
    old.Bound i r → new.Bound i r :=
  have grows : old.Extends (· = home) 0 new := linked.grows
  grows.bound

/-- Linking blocks behind all others. -/
theorem Linked.fits (linked : Linked old new home s added) (fits : old.Fits readers own)
    (same : ∀ i < old.blocks.size, own' i = own i) (leads : s.LeadsOn home new.size)
    (allows : old.Allows home s)
    (isNew : ∀ i, old.blocks.size ≤ i → i < new.blocks.size → ∀ block ∈ added,
      block.Marked new i readers (own' i)) : new.Fits readers own' := by
  intro i block here
  rcases linked.cases here with ⟨before, there, rfl⟩ | ⟨late, isAdded⟩
  · have larger : old.blocks.size ≤ new.blocks.size := linked.size ▸ Nat.le_add_right _ _
    have fit := (fits i before there).mono larger (fun _ => linked.wider) fun _ => id
    rw [same i (Array.inside there)]
    split
    · next isHome =>
      subst isHome
      have isIn : ∀ t ∈ { before with rest := before.rest ++ [s] }.statements,
          t = s ∨ t ∈ before.statements := by
        simp [Block.statements, Block.head, or_left_comm]
      refine { fit with
        leads := fun t member => (isIn t member).elim (· ▸ leads) (fit.leads t)
        asks := fun t member => (isIn t member).elim
          (· ▸ fun r asked => linked.wider (allows _ asked).2) (fit.asks t)
        marks := fit.marks.trans ?_ }
      simp [Block.head, allows.advances]
    · exact fit
  · have isParent := (linked.fresh block isAdded).1
    refine ⟨isNew i late (Array.inside here) block isAdded, fun p same => ?_, fun _ => by
      rw [isParent]; rfl⟩
    cases isParent.symm.trans same
    exact ⟨Nat.pos_of_ne_zero linked.proper, linked.there.trans_le late⟩

end fits

/-! ## Intact scopes along traces -/

section intact

variable {T : Terms} {may : Nat → Prop} {later : Scope} {arena : Arena}

theorem Scope.Intact.withArena (intact : scope.Intact S)
    (fits : arena.Fits scope.fn.readers scope.loopReader?)
    (size : scope.fn.arena.blocks.size ≤ arena.blocks.size) : (scope.withArena arena).Intact S :=
  { intact with
    fits
    loops := fun b element isLoop => (intact.loops b element isLoop).imp_left fun low => low.trans_le size
    body := ⟨intact.body.1, intact.body.2.trans_le size⟩
    current := ⟨intact.current.1, intact.current.2.trans_le size⟩ }

theorem Scope.Intact.goto (intact : scope.Intact S) (has : scope.fn.arena.Has b) :
    (scope.goto b).Intact S := { intact with current := has }

/-- A block that is not there is no body of a loop. -/
theorem Scope.Intact.unlooped (intact : scope.Intact S) (late : scope.fn.arena.blocks.size ≤ b) :
    scope.loopReader? b = none := by
  unfold Scope.loopReader?
  cases isLoop : scope.loops.lookup b with
  | none => rfl
  | some element => exact absurd (intact.loops b element isLoop).1 late.not_gt

theorem Scope.Later.reader? {p : Path} (later' : scope.Later later)
    (reads : scope.reader? p = some reader) : later.reader? p = some reader := by
  obtain ⟨more, paths⟩ := later'.paths
  obtain ⟨j, found, isName⟩ := Option.map_eq_some_iff.mp reads
  rw [Scope.reader?, ← paths, List.findIdx?_append, found, ← isName]
  rfl

/-- The loops stay the same, and so do their readers. -/
theorem Scope.Intact.relooped (intact : scope.Intact S) (later' : scope.Later later)
    (loops : later.loops = scope.loops) : later.loopReader? = scope.loopReader? ∧
      ∀ b element, later.loops.lookup b = some element →
        b < later.fn.arena.blocks.size ∧ ∃ reader, later.reader? element = some reader := by
  rw [loops]
  refine ⟨funext fun b => ?_, fun b element isLoop => ?_⟩
  · unfold Scope.loopReader?
    rw [loops]
    cases isLoop : scope.loops.lookup b with
    | none => rfl
    | some element =>
      obtain ⟨r, isRead⟩ := (intact.loops b element isLoop).2
      exact (later'.reader? isRead).trans isRead.symm
  · obtain ⟨low, r, isRead⟩ := intact.loops b element isLoop
    exact ⟨low.trans_le later'.arena.size, r, later'.reader? isRead⟩

/-- Only notes and what variables stand for change. -/
theorem Scope.Intact.reframed (intact : scope.Intact S) (adds : scope.Adds later)
    (fn : later.fn = scope.fn) (loops : later.loops = scope.loops)
    (frames : ∀ frame ∈ later.live :: later.saved, frame.Fits scope.fn.paths scope.schema) :
    later.Intact S := by
  obtain ⟨same, loops⟩ := intact.relooped adds.later loops
  refine ⟨by rw [fn, same]; exact intact.fits, loops, by rw [fn]; exact intact.body,
    by rw [fn, adds.current]; exact intact.current, by rw [fn]; exact intact.unfrozen,
    by rw [adds.later.schema]; exact intact.schema, ?_⟩
  rw [fn, adds.later.schema]
  exact frames

/-- What variables stand for is put aside for a nested plan. -/
theorem Scope.Intact.entered (intact : scope.Intact S) :
    ({ scope with saved := scope.live :: scope.saved } : Scope).Intact S :=
  { intact with
    frames := fun frame member =>
      (List.mem_cons.mp member).elim (fun same => same ▸ intact.live) (intact.frames frame) }

theorem isReader_mem {fn : Function} {j : Nat} (below : j < fn.paths.length) :
    Function.readerName j ∈ fn.readers := List.mem_map.mpr ⟨j, List.mem_range.mpr below, rfl⟩

/-- Statements that open no block lead nowhere. -/
theorem leadsTo_of_quiet (quiet : n.isQuiet = true) : n.leadsTo = [] := by
  unfold Node.leadsTo
  split
  · rw [Node.isQuiet] at quiet
    cases quiet
  · rw [Node.isQuiet] at quiet
    cases quiet
  · rfl

theorem Scope.Simple.leadsTo (simple : scope.Simple S may s) : s.leadsTo = [] := by
  cases simple with
  | expr reads => exact leadsTo_of_quiet reads.quiet
  | leave | set => rfl

theorem Scope.Simple.allows (simple : scope.Simple S may s) :
    scope.fn.arena.Allows scope.current s := by
  cases simple with
  | expr reads => exact reads.allows
  | leave => exact Arena.allows_silent rfl
  | set _ _ reads => exact reads.allows

/-- A branch leads to blocks that come later. -/
theorem Linked.leads_branch {yes no : Nat}
    (linked : Linked old arena home (.branch test yes no) added)
    (onYes : old.blocks.size ≤ yes ∧ yes < arena.blocks.size)
    (onNo : no ≠ emptyBlock → old.blocks.size ≤ no ∧ no < arena.blocks.size) :
    (Node.branch test yes no).LeadsOn home arena.size := by
  intro next member
  rcases List.mem_cons.mp member with rfl | isNo
  · exact ⟨linked.there.trans_le onYes.1, onYes.2⟩
  · split at isNo
    · cases isNo
    · next notEmpty =>
      cases List.mem_singleton.mp isNo
      exact ⟨linked.there.trans_le (onNo notEmpty).1, (onNo notEmpty).2⟩

/-- A statement that leads to one new block. -/
theorem Linked.fits_one (linked : Linked old arena home s [block]) (fits : old.Fits readers own)
    (same : ∀ i < old.blocks.size, own' i = own i) (leads : s.leadsTo = [old.blocks.size])
    (allows : old.Allows home s)
    (isNew : block.Marked arena old.blocks.size readers (own' old.blocks.size)) :
    arena.Fits readers own' := by
  have size : arena.blocks.size = old.blocks.size + 1 := linked.size
  refine linked.fits fits same (fun next member => ?_) allows fun i late here other isAdded => ?_
  · rw [leads] at member
    rw [List.mem_singleton.mp member]
    exact ⟨linked.there, Nat.lt_of_succ_le size.ge⟩
  · obtain rfl : i = old.blocks.size := by omega
    exact List.mem_singleton.mp isAdded ▸ isNew

/-- A branch into one new block. -/
theorem Linked.fits_select
    (linked : Linked scope.fn.arena arena home (.branch test scope.fn.arena.blocks.size emptyBlock) [block])
    (intact : scope.Intact S) (allows : scope.fn.arena.Allows home test)
    (isNew : block.Marked arena scope.fn.arena.blocks.size scope.fn.readers none) :
    arena.Fits scope.fn.readers scope.loopReader? :=
  linked.fits_one intact.fits (fun _ _ => rfl) rfl allows (intact.unlooped le_rfl ▸ isNew)

/-- Code goes into the body of a loop over a list. -/
theorem Scope.Intact.looping {element : Path} (intact : scope.Intact S)
    (reads : scope.reader? element = some reader)
    (size : arena.blocks.size = scope.fn.arena.blocks.size + 1)
    (fits : ∀ own, (∀ i < scope.fn.arena.blocks.size, own i = scope.loopReader? i) →
      own scope.fn.arena.blocks.size = some reader → arena.Fits scope.fn.readers own) :
    ({ (scope.withArena arena).goto scope.fn.arena.blocks.size with
      loops := (scope.fn.arena.blocks.size, element) :: scope.loops } : Scope).Intact S := by
  have low := intact.current.2
  refine { intact with
    fits := fits _ (fun i low => ?_) ?_
    loops := fun b other isLoop => ?_
    body := ⟨intact.body.1, intact.body.2.trans (size ▸ Nat.lt_succ_self _)⟩
    current := ⟨Nat.zero_lt_of_lt low, size ▸ Nat.lt_succ_self _⟩ }
  · unfold Scope.loopReader?
    rw [List.lookup_cons, beq_false_of_ne low.ne]
    rfl
  · unfold Scope.loopReader?
    rw [List.lookup_cons_self]
    exact reads
  · rw [List.lookup_cons] at isLoop
    split at isLoop
    · next same =>
      cases isLoop
      rw [eq_of_beq same]
      exact ⟨size ▸ Nat.lt_succ_self _, _, reads⟩
    · exact (intact.loops b other isLoop).imp_left fun low => size ▸ low.trans (Nat.lt_succ_self _)

theorem Linked.intact_forks {tag : Code.Tag} {first : Scope}
    (linked : Linked scope.fn.arena arena scope.current
      (.branch test scope.fn.arena.blocks.size (scope.fn.arena.blocks.size + 1))
      [{ parent := some scope.current, tag }, { parent := some scope.current, tag }])
    (onYes : ((scope.withArena arena).goto scope.fn.arena.blocks.size).Adds first)
    (allows : scope.fn.arena.Allows scope.current test) (intact : scope.Intact S) :
    ((scope.withArena arena).goto scope.fn.arena.blocks.size).Intact S ∧
      (first.Intact S → (first.goto (scope.fn.arena.blocks.size + 1)).Intact S) := by
  have size : arena.blocks.size = scope.fn.arena.blocks.size + 2 := linked.size
  have low := intact.current.2
  have fits : arena.Fits scope.fn.readers scope.loopReader? := by
    refine linked.fits intact.fits (fun _ _ => rfl) (linked.leads_branch ⟨le_rfl, by omega⟩ fun _ =>
      ⟨Nat.le_succ _, by omega⟩) allows fun i late _ block isAdded => ?_
    simp only [List.mem_cons, List.not_mem_nil, or_false, or_self] at isAdded
    rw [isAdded, intact.unlooped late]
    exact marked_plain rfl rfl nofun
  have more : arena.blocks.size ≤ first.fn.arena.blocks.size := onYes.later.arena.size
  exact ⟨(intact.withArena fits (by omega)).goto ⟨Nat.zero_lt_of_lt low, by
    show _ < arena.blocks.size
    omega⟩, fun intact => intact.goto ⟨Nat.succ_pos _, by omega⟩⟩

theorem Codes.intact (codes : Codes T may scope later) : scope.Intact S → later.Intact S := by
  induction codes with
  | refl => exact id
  | trans _ _ first second => exact fun intact => second (first intact)
  | notes => exact fun intact => intact.reframed ⟨.of_notes, rfl⟩ rfl rfl intact.frames
  | @memo _ scope n v introduced isRead =>
    intro intact
    refine { intact with frames := fun frame member => ?_ }
    rcases List.mem_cons.mp member with rfl | old
    · refine ⟨fun w p memo isPath => ?_, intact.live.pushed⟩
      rw [VarMap.has, VarMap.find?_insert] at memo
      split at memo
      · next same => exact isRead p (by rw [← VarMap.find?_congr _ same]; exact isPath)
      · exact intact.live.reads w p memo isPath
    · exact intact.frames frame (.tail _ old)
  | @reader _ scope p =>
    intro intact
    have paths : scope.fn.paths <+: scope.fn.paths ++ [p] := List.prefix_append _ _
    have readers : scope.fn.readers ⊆
        ({ scope.fn with paths := scope.fn.paths ++ [p] } : Function).readers := readers_subset paths
    obtain ⟨same, loops⟩ := intact.relooped (adds_path scope p).later rfl
    exact { intact with
      fits := same ▸ fun i block here => (intact.fits i block here).mono le_rfl (fun _ => id) readers
      loops
      frames := fun frame member => (intact.frames frame member).mono paths.subset }
  | advance isReader steps binds =>
    intro intact
    refine intact.withArena (fits_advance intact.fits (isReader_mem isReader) steps binds) ?_
    exact (adds_advance steps binds).later.arena.size
  | @redirect _ scope home b block entry j array declared arena isOpen isParent isNew isReader here
      counts declares redirects =>
    intro intact
    refine intact.withArena ((rewrites_update redirects).fits (fits_declare intact.fits rfl declares)
      (fun _ => ⟨rfl, List.Subset.refl _⟩) fun found there fits => ?_) ?_
    · obtain ⟨_, at', rfl⟩ := (rewrites_of_updates (Arena.declare_updates declares).2).before there
      obtain ⟨_, at'', parent⟩ := isParent
      cases here.symm.trans at'
      cases here.symm.trans at''
      refine { fits with steps := fits.steps.trans ?_, inside := fun _ => ?_ }
      · rw [apply_ite Block.overrides, ite_self, if_neg (List.ne_nil_of_mem counts)]
        exact (if_neg (List.append_ne_nil_of_right_ne_nil _ (List.cons_ne_nil _ _))).symm
      · change Option.isSome (Block.parent (ite _ _ _)) = true
        rw [apply_ite Block.parent, ite_self, parent]
        rfl
    · exact ((Arena.update_eq_ok redirects).2.2.1.trans (Arena.declare_updates declares).2.size).ge
  | emit simple done =>
    exact fun intact => intact.withArena (fits_appendHead intact.fits simple.leadsTo
      simple.allows done) (Arena.appendHead_updates done).size.ge
  | declareHere reads done _ rest =>
    exact fun intact => rest (intact.withArena (fits_declareHere intact.fits reads.allows done)
      (Arena.declareHere_updates done).2.size.ge)
  | @fork _ scope first last test tag arena reads inLine linked yesCodes noCodes onYes onNo =>
    intro intact
    obtain ⟨intoYes, intoNo⟩ := linked.intact_forks yesCodes.adds reads.allows intact
    have larger := (Codes.fork reads inLine linked yesCodes noCodes).adds.later.arena.size
    exact (onNo (intoNo (onYes intoYes))).goto ⟨intact.current.1, intact.current.2.trans_le larger⟩

theorem Makes.intact (makes : Makes T may scope later) : scope.Intact S → later.Intact S := by
  induction makes with
  | code codes => exact codes.intact
  | trans _ _ first second => exact fun intact => second (first intact)
  | frame _ _ _ _ keeps => exact keeps S
  | declare _ _ _ silent _ done _ rest =>
    exact fun intact => rest (intact.withArena (fits_declare intact.fits silent done)
      (Arena.declare_updates done).2.size.ge)
  | @enter _ scope s block arena _ opens linked =>
    intro intact
    have size : arena.blocks.size = scope.fn.arena.blocks.size + 1 := linked.size
    cases opens with
    | select reads =>
      have fits := linked.fits_select intact reads.allows (marked_plain rfl rfl nofun)
      exact (intact.withArena fits (size ▸ Nat.le_succ _)).goto
        ⟨Nat.zero_lt_of_lt intact.current.2, size ▸ Nat.lt_succ_self _⟩
    | stepping isReader isBound reads =>
      refine intact.looping reads size fun own same isOwn => linked.fits_one intact.fits same rfl ?_ ?_
      · exact List.forall_mem_singleton.mpr ⟨rfl, isBound⟩
      · exact isOwn ▸ marked_loop rfl (isReader_mem isReader) rfl rfl rfl rfl
  | @count _ scope j _ array index copied positioned arena isReader copies positions linked reads =>
    intro intact
    have same : positioned.blocks.size = scope.fn.arena.blocks.size := positions_size copies positions
    rw [← same] at linked
    refine intact.looping reads (same ▸ linked.size) fun own others isOwn => ?_
    refine linked.fits_one (fits_declareHere (fits_declareHere intact.fits (Arena.allows_silent rfl)
      copies) (Arena.allows_silent rfl) positions) (same ▸ others) rfl (Arena.allows_silent rfl) ?_
    exact same ▸ isOwn ▸ marked_loop rfl (isReader_mem isReader) rfl rfl rfl rfl
  | @keep _ scope _ _ _ _ _ _ arena reads readsKey readsItem _ _ _ _ _ linked =>
    intro intact
    refine intact.withArena (linked.fits_select intact reads.allows (marked_plain rfl rfl ?_))
      (linked.size.symm ▸ Nat.le_add_right _ _)
    have below {n : Node} (reads : scope.Reads T n) : arena.Allows scope.fn.arena.blocks.size n := by
      refine reads.allows.mono fun r bound => ?_
      obtain ⟨id, block, within, rest⟩ := linked.wider bound
      exact ⟨id, block, .head ⟨_, linked.extra 0 _ rfl, rfl⟩ within, rest⟩
    have keyBelow := below readsKey
    have itemBelow := below readsItem
    intro t member
    rcases List.mem_cons.mp member with rfl | member
    · exact ⟨rfl, keyBelow⟩
    · rw [List.mem_singleton.mp member]
      exact ⟨rfl, itemBelow⟩
  | @nested _ scope inner makes inside =>
    intro intact
    have left := inside intact.entered
    have saved := makes.saved
    refine { left with
      current := ⟨intact.current.1, intact.current.2.trans_le makes.enters.later.arena.size⟩
      frames := fun frame member => left.frames frame (.tail _ (saved ▸ member)) }

theorem Builds.intact (builds : Builds T scope later) : scope.Intact S → later.Intact S := by
  induction builds with
  | make makes => exact makes.intact
  | trans _ _ first second => exact fun intact => second (first intact)
  | @group scope second outer name flagged third arena _ _ declares inside _ sets linked =>
    intro intact
    have declared := intact.withArena (fits_declare intact.fits rfl declares)
      (Arena.declare_updates declares).2.size.ge
    have entered := inside.intact declared
    have set := entered.withArena (fits_appendHead entered.fits rfl (Arena.allows_silent rfl) sets)
      (Arena.appendHead_updates sets).size.ge
    have size : arena.blocks.size = third.blocks.size + 1 := linked.size
    exact (set.withArena (linked.fits_select set (Arena.allows_silent rfl) (marked_plain rfl rfl nofun))
      (size ▸ Nat.le_succ _)).goto ⟨Nat.zero_lt_of_lt set.current.2, size ▸ Nat.lt_succ_self _⟩
  | toBody => exact fun intact => intact.goto intact.body
  | atBody _ quiet silent done =>
    exact fun intact => intact.withArena (fits_appendHead intact.fits (leadsTo_of_quiet quiet)
      (Arena.allows_silent silent) done) (Arena.appendHead_updates done).size.ge

end intact

end QueryFusion.Fusion

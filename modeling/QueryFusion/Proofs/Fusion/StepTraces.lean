import QueryFusion.Proofs.Fusion.ExprTraces

/-!
# The trace of the steps of a plan

Every step that fuses an operator makes its code in the ways of a trace, and so does the step that
writes the rows of a function. In an intact scope, and over a plan that can be compiled, no step faults.
-/

namespace QueryFusion.Fusion

open Code
open Code.Arena (declaration)

variable {meaning : Meaning} {given : Prop} {element : Path} {inner : Scope} {call : Call}

/-- A node over literals only. -/
structure Node.Constant (n : Node) : Prop where
  quiet : n.isQuiet = true
  names : n.names = []
  silent : n.accesses = []

theorem constant_lit (l : Literal) : Node.Constant (.lit l) := ⟨by rw [Node.isQuiet], rfl, rfl⟩

/-- The call that makes an aggregator. -/
theorem constant_call (fn : String) (first second : Literal) :
    Node.Constant (.call fn [.lit first, .lit second]) :=
  ⟨by simp [Node.isQuiet, Node.areQuiet], rfl, rfl⟩

/-- Code stands in the loop over the records: the body of the function is neither the current block nor
around a loop over a list. -/
structure Scope.Apart (scope : Scope) : Prop where
  current : scope.current ≠ scope.fn.body
  loops : ∀ (u b : BlockId) block, scope.fn.arena.blocks[u]? = some block → block.tag = .unnest →
    block.parent = some b → b ≠ scope.fn.body

section Makes

variable {α β : Type} {S : Terms} {ok : Prop} {may : Nat → Prop} {scope : Scope}

/-- A step makes the code of a step of a plan and answers with something that holds then. In an intact
scope it does not fault if something holds. -/
def MakesAt (S : Terms) (ok : Prop) (may : Nat → Prop) (step : Emit α) (scope : Scope)
    (holds : α → Scope → Prop) : Prop :=
  Works S (ok ∧ scope.Intact S) step scope fun a later => Makes S may scope later ∧ holds a later

variable {step : Emit α}

theorem CodesAt.makes {holds : α → Scope → Prop}
    (codes : CodesAt S ok may step scope holds) : MakesAt S ok may step scope holds :=
  .mono codes fun _ _ ⟨codes, held⟩ => ⟨.code codes, held⟩

theorem MakesAt.anything {holds : α → Scope → Prop}
    (makes : MakesAt S ok may step scope holds) : MakesAt S ok may step scope Anything :=
  .mono makes fun _ _ ⟨made, _⟩ => ⟨made, trivial⟩

variable {next : α → Emit β} {holds : β → Scope → Prop}

/-- A step after code was made. -/
theorem MakesAt.after {first : Scope} {step : Emit β} (makes : MakesAt S ok may step scope holds)
    (made : Makes S may first scope) : Works S (ok ∧ first.Intact S) step scope fun b later =>
      Makes S may first later ∧ holds b later :=
  .mono (.given makes (And.imp_right made.intact)) fun _ _ ⟨more, held⟩ =>
    ⟨made.trans more, held⟩

theorem MakesAt.bind {middle : α → Scope → Prop} (first : MakesAt S ok may step scope middle)
    (second : ∀ a later, Makes S may scope later → middle a later →
      MakesAt S ok may (next a) later holds) : MakesAt S ok may (step >>= next) scope holds :=
  Works.bind (Works.mono first fun a later ⟨makes, held⟩ => (second a later makes held).after makes)

/-- The code of an expression comes first. -/
theorem CodesAt.bindMakes {middle : α → Scope → Prop} (first : CodesAt S ok may step scope middle)
    (second : ∀ a later, Codes S may scope later → middle a later →
      MakesAt S ok may (next a) later holds) : MakesAt S ok may (step >>= next) scope holds :=
  first.run id fun a later codes held => (second a later codes held).after (.code codes)

theorem MakesAt.then {middle : α → Scope → Prop} (first : MakesAt S ok may step scope middle)
    (second : ∀ a later, MakesAt S ok may (next a) later holds) :
    MakesAt S ok may (step >>= next) scope holds :=
  first.bind fun a later _ _ => second a later

theorem MakesAt.pure {a : α} {holds : α → Scope → Prop} (held : holds a scope) :
    MakesAt S ok may (Pure.pure a : Emit α) scope holds := (CodesAt.pure held).makes

theorem MakesAt.returns {middle : α → Scope → Prop} {answer : α → β}
    (first : MakesAt S ok may step scope middle) :
    MakesAt S ok may (step >>= fun a => Pure.pure (answer a)) scope Anything :=
  first.then fun _ _ => .pure trivial

theorem MakesAt.get {next : Scope → Emit β} (makes : MakesAt S ok may (next scope) scope holds) :
    MakesAt S ok may (MonadState.get >>= next) scope holds := Works.get makes

theorem MakesAt.forM {step : α → Emit PUnit} : ∀ (as : List α),
    (∀ a ∈ as, ∀ scope : Scope, scope.Sane S → MakesAt S ok may (step a) scope Anything) →
    ∀ scope : Scope, scope.Sane S → MakesAt S ok may (as.forM step) scope Anything
  | [], _, _, _ => .pure trivial
  | a :: as, each, scope, sane => .bind (each a (.head _) scope sane) fun _ later makes _ =>
      .forM as (List.forall_mem_cons.mp each).2 later (makes.sane sane)

/-- A variable of a block, and where it is introduced. -/
def IsVariable (b : BlockId) (name : String) (scope : Scope) : Prop :=
  ∃ n, name = variableName n ∧ Introduces scope.fn.arena b n

variable {b : BlockId} {name : String}

theorem IsVariable.knows (isVariable : IsVariable b name scope)
    (isOpen : scope.Open b) : scope.Knows name := by
  obtain ⟨n, rfl, introduced⟩ := isVariable
  exact .ofBlock isOpen introduced

variable {later : Scope}

theorem IsVariable.kept
    (isVariable : IsVariable b name scope) (later' : scope.Later later) : IsVariable b name later := by
  obtain ⟨n, same, introduced⟩ := isVariable
  exact ⟨n, same, introduced.kept later'⟩

/-- A step that stays in a block and names a variable of it. -/
theorem MakesAt.naming {step : Emit String} {next : String → Emit β}
    (makes : MakesAt S ok may step scope fun name later =>
      later.current = scope.current ∧ IsVariable scope.current name later)
    (each : ∀ name later, later.Knows name → MakesAt S ok may (next name) later holds) :
    MakesAt S ok may (step >>= next) scope holds := by
  refine .bind makes fun name later _ ⟨current, isVariable⟩ => each name later ?_
  have isOpen : later.Open scope.current := current ▸ .refl
  exact isVariable.knows isOpen

theorem MakesAt.declare {init : Node} {next : String → Emit β}
    (sane : scope.Sane S) (isOpen : scope.Open b) (constant : Node.Constant init)
    (own : S.strict → init.isLocal = true ∧ b ≠ scope.fn.body)
    (each : ∀ later, scope.Adds later → scope.SameLive later → later.Sane S →
      Introduces later.fn.arena b scope.fn.arena.names →
      MakesAt S ok (fun n => may n ∨ n = scope.fn.arena.names)
        (next (variableName scope.fn.arena.names)) later holds) :
    MakesAt S ok may (declare b init >>= next) scope holds := by
  refine Works.bind (Works.drawArena (fun given => ((given.2.open isOpen).declares _).1)
    fun name arena done => ?_)
  have adds : scope.Adds (scope.withArena arena) := adds_declare (fun _ => isOpen) done
  have introduced := introduces_declare done
  obtain ⟨isName, updates⟩ := Arena.declare_updates done
  subst isName
  refine .mono (.given (each _ adds ⟨rfl, rfl, rfl, rfl⟩ (sane.kept adds.later rfl rfl)
    introduced) (And.imp_right fun intact => intact.withArena (fits_declare intact.fits constant.silent
      done) updates.size.ge)) ?_
  rintro b later ⟨makes, held⟩
  exact ⟨.declare (fun _ => isOpen) constant.quiet (by rw [constant.names]; nofun) constant.silent own
    done makes, held⟩

/-! ## Meanings and outputs -/

theorem codesAt_countFused (scope : Scope) : CodesAt S ok may countFused scope Anything :=
  codesAt_notes fun _ => rfl

theorem makes_frame (adds : scope.Adds later) (fn : later.fn = scope.fn)
    (saved : later.saved = scope.saved) (loops : later.loops = scope.loops)
    (own : S.strict → later.emitters = scope.emitters)
    (memos : ∀ v memo, later.live.memos.find? v = some memo → scope.live.memos.find? v = some memo)
    (values : ∀ v node readers, later.live.values.find? v = some (.code node readers) →
      scope.live.values.find? v = some (.code node readers) ∨ scope.Reads S node ∧ node.accesses = [])
    (paths : ∀ v p, later.live.values.find? v = some (.path p) →
      scope.live.values.find? v = some (.path p) ∨
        scope.schema.has p = true ∧ later.live.memos.find? v = none)
    (flags : ∀ v name, later.live.flags.find? v = some name →
      scope.live.flags.find? v = some name ∨ scope.Knows name)
    (items : ∀ v name, later.live.items.find? v = some name →
      scope.live.items.find? v = some name ∨ scope.Knows name) :
    Makes S may scope later := by
  have opens : ∀ b, later.Open b → scope.Open b := by
    intro b isOpen
    unfold Scope.Open at isOpen
    rw [fn, adds.current] at isOpen
    exact isOpen
  refine .frame adds fn saved (fun sane => ⟨adds.later.rooted sane.rooted, ?_, ?_⟩) (fun S intact =>
    intact.reframed adds fn loops fun frame member => ?_) ?_ loops own
  · rw [fn]
    exact fun v memo found => sane.memo v memo (memos v memo found)
  · intro v node readers bound
    rcases values v node readers bound with old | ⟨reads, silent⟩
    · exact sane.quiet v node readers old
    · exact ⟨reads.quiet, silent, fun strict _ => reads.own strict⟩
  · rcases List.mem_cons.mp member with rfl | old
    · refine ⟨fun v p hasMemo isPath => ?_, fun v p isPath => ?_⟩
      · obtain ⟨memo, found⟩ := Option.isSome_iff_exists.mp hasMemo
        rcases paths v p isPath with old | ⟨_, none⟩
        · exact intact.live.reads v p (by rw [VarMap.has, memos v memo found]; rfl) old
        · cases none.symm.trans found
      · exact (paths v p isPath).elim (intact.live.pushed v p) And.left
    · exact intact.frames frame (.tail _ (saved ▸ old))
  · intro name known
    cases known with
    | param isParam => exact .param (fn ▸ isParam)
    | ofBlock isOpen introduced => exact .ofBlock (opens _ isOpen) (fn ▸ introduced)
    | value bound member =>
      rcases values _ _ _ bound with old | ⟨reads, _⟩
      · exact .value old member
      · exact reads.names _ member
    | flag bound => exact (flags _ _ bound).elim .flag id
    | item bound => exact (items _ _ bound).elim .item id
    | copy isOpen here member => exact .copy (opens _ isOpen) (fn ▸ here) member
    | position isOpen here member => exact .position (opens _ isOpen) (fn ▸ here) member

/-- Only the variables of the rows change. -/
theorem makesAt_rows {change : Scope → Scope}
    (same : ∀ scope, change scope = { scope with outputs := (change scope).outputs }) :
    MakesAt S ok may (modify change) scope fun _ later => later.current = scope.current := by
  refine .modifying ?_
  rw [same]
  exact ⟨makes_frame ⟨.of_notes, rfl⟩ rfl rfl rfl (fun _ => rfl) (fun _ _ => id) (fun _ _ _ => .inl)
    (fun _ _ => .inl) (fun _ _ => .inl) (fun _ _ => .inl), rfl⟩

theorem makesAt_putOutput (v : Var) (scope : Scope) :
    MakesAt S ok may (putOutput v) scope fun _ later => later.current = scope.current :=
  makesAt_rows fun scope => by split <;> rfl

theorem makesAt_clearOutput (scope : Scope) :
    MakesAt S ok may clearOutput scope fun _ later => later.current = scope.current :=
  makesAt_rows fun scope => by split <;> rfl

theorem makesAt_projectOutput (vars : List Var) (scope : Scope) :
    MakesAt S ok may (projectOutput vars) scope fun _ later => later.current = scope.current :=
  makesAt_rows fun scope => by split <;> rfl

/-- What a variable can stand for. -/
inductive Scope.Means (scope : Scope) : Meaning → Prop
  | path {p : Path} (has : scope.schema.has p = true) : Means scope (.path p)
  | ident {name : String} {readers : List String} (known : scope.Knows name) :
      Means scope (.code (.ident name) readers)

/-- A variable gets a new meaning. -/
theorem makes_bind {v : Var} (adds : scope.Adds later) (fn : later.fn = scope.fn)
    (saved : later.saved = scope.saved) (loops : later.loops = scope.loops)
    (emitters : later.emitters = scope.emitters) (live : later.live = { scope.live with
      values := scope.live.values.insert v meaning, memos := scope.live.memos.erase v })
    (means : scope.Means meaning) : Makes S may scope later := by
  refine makes_frame adds fn saved loops (fun _ => emitters) ?_ ?_ ?_ (fun w name found => .inl ?_) fun w name found => .inl ?_
  · intro w memo found
    rw [live, VarMap.find?_erase] at found
    split at found
    · cases found
    · exact found
  · intro w node readers bound
    rw [live, VarMap.find?_insert] at bound
    split at bound
    · cases bound
      cases means with
      | ident known => exact .inr ⟨reads_ident known, rfl⟩
    · exact .inl bound
  · intro w p bound
    rw [live, VarMap.find?_insert] at bound
    split at bound
    · next same =>
      cases bound
      cases means with
      | path has => exact .inr ⟨has, by rw [live, VarMap.find?_erase, if_pos same]⟩
    · exact .inl bound
  · rw [live] at found
    exact found
  · rw [live] at found
    exact found

theorem makesAt_bindMeaning (v : Var) (means : scope.Means meaning) :
    MakesAt S ok may (bindMeaning v meaning) scope fun _ later => later.current = scope.current :=
  .modifying ⟨makes_bind ⟨.of_notes, rfl⟩ rfl rfl rfl rfl rfl means, rfl⟩

theorem makesAt_keepItem (v : Var) (known : scope.Knows name) :
    MakesAt S ok may (keepItem v name) scope Anything := by
  refine .modifying ⟨makes_frame ⟨.of_notes, rfl⟩ rfl rfl rfl (fun _ => rfl)
    (fun _ _ => id) (fun _ _ _ => .inl) (fun _ _ => .inl) (fun _ _ => .inl) ?_, trivial⟩
  intro w other bound
  rw [VarMap.find?_insert] at bound
  split at bound
  · exact .inr (Option.some.inj bound ▸ known)
  · exact .inl bound

/-- Lets a variable stand for a flag. -/
theorem makesAt_keepFlag (v : Var) (known : scope.Knows name) : MakesAt S ok may (modify fun scope =>
      { scope with live := { scope.live with flags := scope.live.flags.insert v name } }) scope
      Anything := by
  refine .modifying ⟨makes_frame ⟨.of_notes, rfl⟩ rfl rfl rfl (fun _ => rfl)
    (fun _ _ => id) (fun _ _ _ => .inl) (fun _ _ => .inl) ?_ (fun _ _ => .inl), trivial⟩
  intro w other bound
  rw [VarMap.find?_insert] at bound
  split at bound
  · exact .inr (Option.some.inj bound ▸ known)
  · exact .inl bound

theorem codesAt_tracking {holds : α → Scope → Prop} (sane : scope.Sane S)
    (codes : ∀ scope : Scope, scope.Sane S → CodesAt S ok may step scope holds)
    (kept : ∀ a (first second : Scope), Codes S may first second → holds a first → holds a second) :
    CodesAt S ok may (tracking step) scope fun a later => holds a.1 later := by
  have noted (touched : Option (List String)) (scope : Scope) :
      CodesAt S ok may (modify fun scope => { scope with touched }) scope Anything :=
    codesAt_notes fun _ => rfl
  refine .get (.bind (noted (some []) scope) fun _ first starts _ => ?_)
  refine .bind (codes first (starts.sane sane)) fun a second runs held => ?_
  refine .get (.bind (noted _ second) fun _ third ends _ => ?_)
  refine .bind (codesAt_touchAll _ third) fun _ fourth touches _ => ?_
  exact .pure (kept a second fourth (ends.trans touches) held)

theorem makesAt_assignVar (v : Var) {e : Expr} (fits : e.Fits S ok) (sane : scope.Sane S) :
    MakesAt S ok may (assignVar v e) scope fun _ later => later.current = scope.current := by
  have binds (first : Scope) (meaning : Meaning) (same : first.current = scope.current)
      (means : first.Means meaning) : MakesAt S ok may (do bindMeaning v meaning; putOutput v) first
        fun _ last => last.current = scope.current :=
    .bind (makesAt_bindMeaning v means) fun _ later _ same' =>
      .mono (makesAt_putOutput v later) fun _ _ ⟨makes, same''⟩ =>
        ⟨makes, same''.trans (same'.trans same)⟩
  refine .get ?_
  dsimp only
  split
  · next isPath => exact binds scope _ rfl (.path (Option.filter_eq_some_iff.mp isPath).2)
  · have named : CodesAt S ok may (tracking do temp (← codeOf e)) scope fun a later =>
        later.Knows a.1 := by
      have names : ∀ scope : Scope, scope.Sane S → CodesAt S ok may (do temp (← codeOf e)) scope
          fun name later => later.Knows name := fun scope sane =>
        .bind (codesAt_codeOf e fits may scope sane) fun _ _ _ reads => codesAt_temp reads
      exact codesAt_tracking sane names fun _ _ _ codes => codes.knows
    refine CodesAt.bindMakes named ?_
    rintro ⟨name, readers⟩ later codes known
    exact binds later _ codes.adds.current (.ident known)

theorem makesAt_selectOn {cond : Expr} (fits : cond.Fits S ok) (sane : scope.Sane S) :
    MakesAt S ok may (selectOn cond) scope Anything := by
  refine CodesAt.bindMakes (codesAt_codeOf cond fits may scope sane) fun test later codes reads => ?_
  have here := (codes.sane sane).rooted.current
  refine MakesAt.get (Works.bind (works_openBlock (Works.bind (works_emit
    (fun given => (given.2.current.push _ _).1) fun arena done => .modifying ?_))))
  exact ⟨.enter (.select reads rfl) (.of_new (by decide) done here), trivial⟩

/-! ## Loops -/

/-- Entering a loop lets a variable stand for the element. -/
theorem works_enterLoop {v : Var} {body : BlockId} {before : Scope}
    (has : scope.schema.has element = true) (enters : Makes S may before
      { scope.goto body with loops := (body, element) :: scope.loops }) :
    Works S given (enterLoop v body element) scope fun _ later => Makes S may before later ∧
      later.fn = scope.fn ∧ later.current = body := by
  refine .bind (.modifying (.bind (.modifying (.bind
    (.modifying (.modifying ⟨enters.trans ?_, ?_, rfl⟩))))))
  · split <;> exact makes_bind ⟨.of_same rfl rfl rfl rfl rfl List.suffix_rfl rfl, rfl⟩ rfl rfl rfl
      rfl rfl (.path has)
  · split <;> rfl

/-- Binding a reader changes only what its block advances. -/
theorem Arena.update_of_bind {old new : Arena} {reader : String}
    (done : old.bind b reader = .ok new) :
    old.update b (fun block => { block with bound := block.bound ++ [reader] }) = .ok new := by
  obtain ⟨updated, isUpdated, rest⟩ := Except.bind_eq_ok.mp done
  obtain ⟨block, _, rest⟩ := Except.bind_eq_ok.mp rest
  split at rest
  · cases rest
  · exact (Except.ok.inj rest) ▸ isUpdated

/-- A list can be iterated: its elements are pushed down, and their reader is not advanced here. -/
abbrev Iterable (scope : Scope) (element : Path) : Prop :=
  scope.schema.has element = true ∧ ∀ reader, scope.reader? element = some reader → ¬ scope.Bound reader

theorem reader?_added {p : Path} (isNew : scope.reader? p = none) :
    { scope with fn := { scope.fn with paths := scope.fn.paths ++ [p] } }.reader? p =
      some (Function.readerName scope.fn.paths.length) := by
  have none : scope.fn.paths.findIdx? (fun q => q.text == p.text) = none :=
    Option.map_eq_none_iff.mp isNew
  simp [Scope.reader?, List.findIdx?_append, none]

theorem makesAt_loopReader {next : String → Emit β} (sane : scope.Sane S)
    (iterable : Iterable scope element) (each : ∀ j later, scope.Adds later → later.Sane S →
      later.schema.has element = true → j < later.fn.paths.length →
      later.reader? element = some (Function.readerName j) →
      (scope.Intact S → ∀ block, later.fn.arena.blocks[later.current]? = some block →
        Function.readerName j ∉ block.bound) →
      MakesAt S (ok ∧ scope.Intact S) may (next (Function.readerName j)) later holds) :
    MakesAt S ok may (do
      let reader ← readerOf element
      touch reader
      next reader) scope holds := by
  obtain ⟨has, unbound⟩ := iterable
  have finish {reader : String} {first : Scope} (codes : Codes S may scope first)
      (isReader : IsReader reader first) (reads : first.reader? element = some reader)
      (arena : first.fn.arena = scope.fn.arena)
      (free : scope.Intact S → ∀ block, scope.fn.arena.blocks[scope.current]? = some block →
        reader ∉ block.bound) : Works S (ok ∧ scope.Intact S) (do touch reader; next reader) first
          fun b later => Makes S may scope later ∧ holds b later := by
    have touches (touched : Option (List String)) : Codes S may scope { first with touched } :=
      codes.trans (.notes _ _ _)
    obtain ⟨j, below, rfl⟩ := isReader
    refine .bind (.modifying (.mono (.given (each j _ (touches _).adds
      ((touches _).sane sane) (codes.adds.later.schema ▸ has) below reads fun intact block here => ?_)
      fun given => ⟨given, (touches _).intact given.2⟩) fun _ _ ⟨makes, held⟩ =>
        ⟨(Makes.code (touches _)).trans makes, held⟩))
    refine free intact block ?_
    rw [← codes.adds.current, ← arena]
    exact here
  refine Works.bind (Works.mono (works_readerOf element fun _ => has) ?_)
  rintro reader first (⟨found, rfl⟩ | ⟨isNew, _, rfl, rfl⟩)
  · exact finish (.refl _) (.of_reader? found) found rfl fun _ block here member =>
      unbound reader found ⟨_, block, .refl, here, member⟩
  · refine finish (.reader element) ⟨scope.fn.paths.length, by simp, rfl⟩
      (reader?_added isNew) rfl fun intact block here member => ?_
    obtain ⟨i, isIn, same⟩ := List.mem_map.mp ((intact.fits _ block here).bound _ member)
    exact absurd (readerName_injective same) (List.mem_range.mp isIn).ne

theorem makesAt_loopByReader (v : Var) (sane : scope.Sane S) (iterable : Iterable scope element) :
    MakesAt S ok may (loopByReader v element) scope Anything := by
  refine MakesAt.get (makesAt_loopReader sane iterable fun j start started sane has below reads free => ?_)
  rw [← started.current, ← bind_assoc]
  refine Works.bind (works_advance below (fun given => given.2.current) (fun given => free given.1.2)
    fun later (advances : Codes S may start later) paths isBound => ?_)
  have here := (advances.sane sane).rooted.current
  rw [← advances.adds.current]
  refine Works.bind (works_openBlock (Works.bind (works_emit
    (fun given => ((advances.intact given.2).current.push _ _).1) fun looped done => ?_)))
  have hasBody (given : (ok ∧ scope.Intact S) ∧ start.Intact S) :=
    Arena.Has.update ((advances.intact given.2).current.push (some later.current) .unnest).2 done
  refine Works.bind (Works.changeArena (fun given =>
    Arena.update_ok _ _ (hasBody given).1 (hasBody given).2) fun stepping tailDone => ?_)
  have linked := (Linked.of_new (by decide) done here).change tailDone rfl rfl rfl
  refine Works.bind (Works.changeArena (fun given => ((hasBody given).update tailDone).binds
    fun block there => ?_) fun arena boundDone => ?_)
  · cases (linked.extra 0 _ rfl).symm.trans there
    exact List.not_mem_nil
  have linked := linked.change (Arena.update_of_bind boundDone) rfl rfl rfl
  have steps : Makes S may start _ := (Makes.code advances).trans
    (.enter (.stepping (paths ▸ below) isBound (by rw [Scope.reader?, paths]; exact reads)) linked)
  exact .mono (works_enterLoop (advances.adds.later.schema ▸ has) steps) fun _ _ entered =>
    ⟨entered.1, trivial⟩

theorem makesAt_loopByPosition (v pos : Var) {element : Path} (sane : scope.Sane S)
    (iterable : Iterable scope element) :
    MakesAt S ok may (loopByPosition v pos element) scope Anything := by
  refine MakesAt.get (makesAt_loopReader sane iterable fun j start started sane has below reads _ => ?_)
  rw [← started.current]
  refine Works.bind (Works.get (Works.drawArena (fun given => (given.2.current.declares _).2)
    fun array copied copies => ?_))
  obtain ⟨isArray, copyUpdates⟩ := Arena.declareHere_updates copies
  have hasHome (given : (ok ∧ scope.Intact S) ∧ start.Intact S) : copied.Has start.current :=
    ⟨given.2.current.1, given.2.current.2.trans_eq copyUpdates.size.symm⟩
  refine Works.bind (Works.get (Works.drawArena (fun given => ((hasHome given).declares _).2)
    fun index positioned positions => ?_))
  obtain ⟨isIndex, positionUpdates⟩ := Arena.declareHere_updates positions
  have size := positions_size copies positions
  have names : copied.names = start.fn.arena.names + 1 := copyUpdates.names
  have here : start.current < positioned.blocks.size := by
    rw [size]
    exact sane.rooted.current
  replace isIndex : index = variableName (start.fn.arena.names + 1) := by rw [isIndex, ← names]
  subst isArray isIndex
  have hasNow (given : (ok ∧ scope.Intact S) ∧ start.Intact S) : positioned.Has start.current :=
    ⟨given.2.current.1, here⟩
  refine Works.bind (works_openBlock (Works.bind (works_emit
    (fun given => ((hasNow given).push _ _).1) fun looped done => ?_)))
  have hasBody (given : (ok ∧ scope.Intact S) ∧ start.Intact S) :=
    Arena.Has.update ((hasNow given).push (some start.current) .unnest).2 done
  refine Works.bind (Works.changeArena (fun given =>
    Arena.update_ok _ _ (hasBody given).1 (hasBody given).2) fun stepping tailDone => ?_)
  have hasBody (given : (ok ∧ scope.Intact S) ∧ start.Intact S) := (hasBody given).update tailDone
  refine Works.bind (Works.changeArena (fun given =>
    Arena.update_ok _ _ (hasBody given).1 (hasBody given).2) fun redirected redirectDone => ?_)
  have linked := ((Linked.of_new (by decide) done here).change tailDone rfl rfl rfl).change redirectDone rfl rfl rfl
  refine .bind (.changeArena (fun given => ((hasBody given).update redirectDone).binds
    fun block there => ?_) fun arena boundDone => ?_)
  · cases (linked.extra 0 _ rfl).symm.trans there
    exact List.not_mem_nil
  have linked := linked.change (Arena.update_of_bind boundDone) rfl rfl rfl
  have counts : Makes S may start { (start.withArena arena).goto positioned.blocks.size with
      loops := (positioned.blocks.size, element) :: start.loops } := by
    rw [size] at linked ⊢
    exact .count below copies positions linked reads
  refine .bind (.mono (works_enterLoop has counts) ?_)
  rintro _ entered ⟨makes, fn, current⟩
  have known : entered.Knows (variableName (start.fn.arena.names + 1)) := by
    have isAdded := linked.extra 0 _ rfl
    rw [← current] at isAdded
    have here' := isAdded
    change (start.withArena arena).fn.arena.blocks[_]? = _ at here'
    rw [← fn] at here'
    exact .position .refl here' (List.mem_singleton.mpr rfl)
  exact ((makesAt_bindMeaning pos (.ident known)).then fun _ later =>
    (makesAt_putOutput pos later).anything).after makes

theorem makesAt_fuseUnnest (v : Var) (pos : Option Var) (e : Expr) (sane : scope.Sane S) :
    MakesAt S ok may (fuseUnnest v pos e) scope Anything := by
  refine .asking (yields_iterable? e scope) (replies_iterable? · e) fun found iterates => ?_
  cases found with
  | none => exact MakesAt.pure trivial
  | some element =>
    cases pos with
    | none => exact (makesAt_loopByReader v sane (iterates element rfl)).returns
    | some p => exact (makesAt_loopByPosition v p sane (iterates element rfl)).returns

/-! ## Accumulators -/

section accumulators

theorem codesAt_incrementOf (fits : ∀ e ∈ call.args, e.Fits S ok) :
    ReadsValue S ok (incrementOf call) := by
  intro may scope sane
  unfold incrementOf
  split
  · exact .pure (reads_literal _)
  · next isArgs =>
    split
    · exact .pure (reads_literal _)
    · refine .bind (codesAt_codeOf _ (fits _ (by simp [isArgs])) may scope sane)
        fun _ _ _ reads => .pure ?_
      exact (Scope.ReadsAll.cons reads readsAll_nil).call ⟨by decide, by decide⟩

theorem makesAt_accumulate (fits : call.expr.Fits S ok) {home : BlockId} (sane : scope.Sane S)
    (isOpen : scope.Open home) (apart : S.strict → home ≠ scope.fn.body) :
    MakesAt S ok may (accumulate call home) scope fun name later =>
      later.current = scope.current ∧ IsVariable home name later := by
  unfold accumulate
  split
  · exact CodesAt.makes CodesAt.failWith
  · next isKnown =>
    have fitsArgs := fits.args fun _ same => by
      simp [isAccumulable, same, Func.isCount, Func.isSum, Func.isMin, Func.isMax] at isKnown
    have seedLit : ∃ l, seedOf call.fn = .lit l := by
      unfold seedOf
      split
      · exact ⟨_, rfl⟩
      · exact ⟨_, rfl⟩
    obtain ⟨l, isSeed⟩ := seedLit
    rw [isSeed]
    refine .declare sane isOpen (constant_lit l) (fun strict => ⟨rfl, apart strict⟩)
      fun first adds _ sane introduced => ?_
    have updates : ∀ (op : BinaryOp) (n : Node) (later : Scope), Codes S
        (fun n => may n ∨ n = scope.fn.arena.names) first later → later.Reads S n →
        MakesAt S ok (fun n => may n ∨ n = scope.fn.arena.names) (do
          emit (.set (variableName scope.fn.arena.names)
            (.binary op (.ident (variableName scope.fn.arena.names)) n))
          pure (variableName scope.fn.arena.names)) later fun name later =>
            later.current = scope.current ∧ IsVariable home name later := by
      intro op n later codes reads
      have introduced' := introduced.kept codes.adds.later
      have known : later.Knows (variableName scope.fn.arena.names) :=
        .ofBlock (codes.adds.open (adds.open isOpen)) introduced'
      refine CodesAt.bindMakes (codesAt_emit (.set (.inr rfl) known ((reads_ident known).binary reads)))
        fun _ last sets _ => .pure ⟨((adds.trans codes.adds).trans sets.adds).current,
          _, rfl, introduced'.kept sets.adds.later⟩
    split
    · exact CodesAt.bindMakes (codesAt_incrementOf fitsArgs _ first sane) (updates .add)
    · split
      · next arg isArgs =>
        exact CodesAt.bindMakes (codesAt_codeOf arg (fitsArgs arg (by simp [isArgs])) _
          first sane) (updates (combinatorOf call.fn))
      · exact CodesAt.makes CodesAt.failWith

theorem codesAt_aggregatorValue (fits : call.expr.Fits S ok) {kind : String}
    (isKind : aggregatorKind? call = some kind) : ReadsValue S ok (aggregatorValue call) := by
  have fitsArgs := fits.args fun _ same => by
    simp [aggregatorKind?, same, Func.isCount, Func.isSum] at isKind
  intro may scope sane
  unfold aggregatorValue
  split
  · exact codesAt_incrementOf fitsArgs may scope sane
  · next notCount =>
    split
    · next isArgs =>
      exact codesAt_codeOf _ (fitsArgs _ (by simp [isArgs])) may scope sane
    · next isArgs =>
      rw [aggregatorKind?, if_neg notCount, isArgs] at isKind
      simp at isKind

end accumulators

theorem makesAt_accumulateAll (lax : ¬ S.strict) : ∀ (calls : List Call) (vars : List Var),
    (ok → vars.length = calls.length) → (∀ call ∈ calls, call.expr.Fits S ok) →
    ∀ scope : Scope, scope.Sane S → MakesAt S ok may (accumulateAll vars calls) scope Anything
  | [], _, _, _, _, _ => by
    unfold accumulateAll
    exact .pure trivial
  | call :: calls, vars, lengths, fits, scope, sane => by
    unfold accumulateAll
    refine .get (.bind (makesAt_accumulate (fits call (.head _)) sane sane.rooted.body
      fun strict => absurd strict lax) fun acc first makes ⟨_, isVariable⟩ => ?_)
    split
    · exact .throw fun given => nomatch lengths given.1
    · have isOpen : first.Open scope.fn.body := by
        rw [← makes.enters.later.body]
        exact (makes.sane sane).rooted.body
      refine .bind (makesAt_bindMeaning _ (.ident (isVariable.knows isOpen)))
        fun _ second bound _ => ?_
      refine .bind (makesAt_putOutput _ second) fun _ third puts _ => ?_
      exact makesAt_accumulateAll lax calls _ (fun isOk => Nat.succ.inj (lengths isOk))
        (List.forall_mem_cons.mp fits).2 third
        (puts.sane (bound.sane (makes.sane sane)))

/-! ## Nested plans -/

theorem makesAt_assignVars : ∀ (vars : List Var) (exprs : List Expr),
    (ok → vars.length = exprs.length) → (∀ e ∈ exprs, e.Fits S ok) →
    ∀ scope : Scope, scope.Sane S →
      MakesAt S ok may (assignVars vars exprs) scope fun _ later => later.current = scope.current
  | [], _, _, _, _, _ => .pure rfl
  | _ :: _, [], lengths, _, _, _ => .throw fun given => Nat.succ_ne_zero _ (lengths given.1)
  | v :: vars, e :: exprs, lengths, fits, scope, sane => by
    refine .bind (makesAt_assignVar v (fits e (.head _)) sane) fun _ later makes same => ?_
    exact .mono (makesAt_assignVars vars exprs (fun isOk => Nat.succ.inj (lengths isOk))
      (List.forall_mem_cons.mp fits).2 later (makes.sane sane))
        fun _ _ ⟨more, same'⟩ => ⟨more, same'.trans same⟩

theorem makesAt_compileStep {body : Plan.Body} (fits : body.Fits S ok) (scope : Scope)
    (sane : scope.Sane S) : MakesAt S ok may (compileStep body) scope Anything := by
  unfold compileStep
  split
  · exact makesAt_selectOn (fits.exprs _ (.head _)) sane
  · exact (makesAt_assignVars _ _ (fun isOk => (fits.taken isOk).proper.aligned) fits.exprs scope
      sane).anything
  · refine (makesAt_fuseUnnest _ _ _ sane).then fun fused later => ?_
    split
    · exact .pure trivial
    · exact CodesAt.makes (codesAt_unfit fun isOk => (fits.taken isOk).proper.whole _ (.head _))
  · exact .pure trivial

section nested

variable {chain : List Plan.Body} (fits : ∀ body ∈ chain, body.Fits S ok)

include fits

theorem makesAt_compileChain (holds : α → Arena → Prop) {last : Emit α}
    (sane : scope.Sane S) (each : ∀ inner : Scope, scope.Enters inner → inner.Sane S →
      MakesAt S ok may last inner fun a later => holds a later.fn.arena) :
    MakesAt S ok may (compileChain chain last) scope fun a later =>
      later.current = scope.current ∧ holds a later.fn.arena := by
  have entered : Scope.Later scope { scope with saved := scope.live :: scope.saved } :=
    .of_notes
  have inside : MakesAt S ok may (do chain.forM compileStep; last)
      { scope with saved := scope.live :: scope.saved } fun a later => holds a later.fn.arena := by
    have sane' := sane.kept entered rfl rfl
    refine .bind (.forM chain (fun body member => makesAt_compileStep
      (fits body member)) _ sane') fun _ inner makes _ => ?_
    exact each inner ⟨entered.trans makes.enters.later, makes.enters.within⟩ (makes.sane sane')
  refine Works.get (Works.bind (Works.set (Works.bind (Works.mono (Works.given inside
    (And.imp_right .entered)) ?_))))
  rintro a inner ⟨makes, held⟩
  refine .get ?_
  rw [makes.saved]
  exact .bind (.set (.pure ⟨.nested makes, rfl, held⟩))

omit fits in
theorem Scope.Enters.knows {n : Nat} (entered : scope.Enters inner)
    (introduced : Introduces scope.fn.arena scope.current n) : inner.Knows (variableName n) :=
  .ofBlock entered.within (introduced.kept entered.later)

omit fits in
theorem Scope.Enters.leaves {loop outerLoop : Option BlockId} (entered : scope.Enters inner)
    (rooted : scope.Rooted)
    (isLoop : inner.fn.arena.enclosing (some inner.current) Tag.isLoop = .ok loop)
    (isOuter : inner.fn.arena.enclosing (some scope.current) Tag.isLoop = .ok outerLoop)
    (differ : loop ≠ outerLoop) : inner.Simple S may .leave := by
  have another : ∃ b, inner.Marked Tag.isLoop b ∧
      ¬ (inner.goto scope.current).Marked Tag.isLoop b := by
    refine Classical.byContradiction fun none => differ ?_
    refine enclosing_eq (entered.later.rooted rooted) entered.within ?_ isLoop isOuter
    exact fun b isMarked => Classical.byContradiction fun isOutside => none ⟨b, isMarked, isOutside⟩
  obtain ⟨b, ⟨isOpen, block, here, accepted⟩, isInside⟩ := another
  refine .leave isOpen here ?_
  have notRecords : block.tag ≠ .records := fun isRecords => by
    rcases entered.later.trail rooted b isOpen with old | isNew
    · exact isInside ⟨entered.later.arena.within old, block, here, accepted⟩
    · exact Nat.not_lt.mpr isNew (entered.later.records b block here isRecords)
  cases isTag : block.tag with
  | unnest => rfl
  | records => exact absurd isTag notRecords
  | none | function | select | subplan | groupBy | case | unnamed =>
    rw [isTag] at accepted
    cases accepted

theorem makesAt_existsFlag (leaves : Bool) (sane : scope.Sane S) (apart : S.strict → scope.Apart) :
    MakesAt S ok may (existsFlag chain leaves) scope fun name later =>
      later.current = scope.current ∧ IsVariable scope.current name later := by
  refine .get (.declare sane .refl (constant_lit _)
    (fun strict => ⟨rfl, (apart strict).current⟩) fun first adds _ sane introduced => ?_)
  rw [← adds.current] at introduced ⊢
  refine .bind (makesAt_compileChain fits (fun _ _ => True) sane
    fun inner entered _ => ?_)
    fun _ last makes held => .pure ⟨held.1, _, rfl, introduced.kept makes.enters.later⟩
  refine CodesAt.makes (CodesAt.bind (codesAt_emit
    (.set (.inr rfl) (entered.knows introduced) (reads_literal _))) fun _ later sets _ => ?_)
  have toLater := entered.trans sets.adds.enters
  split
  · refine .get (.asking (.askArena fun loop isLoop => ⟨rfl, isLoop⟩)
      (fun intact => .ask (intact.fits.search intact.current.2 _)) fun loop isLoop => ?_)
    refine .asking (.askArena fun outerLoop isOuter => ⟨rfl, isOuter⟩)
      (fun intact => .ask (intact.fits.search ?_ _)) fun outerLoop isOuter => ?_
    · exact sane.rooted.current.trans_le toLater.later.arena.size
    split
    · next differ => exact codesAt_emit (toLater.leaves sane.rooted isLoop isOuter differ)
    · exact CodesAt.pure trivial
  · exact .pure trivial

theorem makesAt_firstItem {key : Plan.OrderKey} {item : Expr} (fitsKey : key.expr.Fits S ok)
    (fitsItem : item.Fits S ok) (sane : scope.Sane S) (apart : S.strict → scope.Apart) :
    MakesAt S ok may (firstItem chain key item) scope fun name later =>
      later.current = scope.current ∧ IsVariable scope.current name later := by
  refine MakesAt.get (MakesAt.declare sane .refl (constant_lit _)
    (fun strict => ⟨rfl, (apart strict).current⟩) fun first adds _ sane introducedBest => ?_)
  have apart (strict : S.strict) : first.current ≠ first.fn.body := by
    rw [adds.current, adds.later.body]
    exact (apart strict).current
  rw [← adds.current] at introducedBest ⊢
  refine MakesAt.declare sane .refl (constant_lit _) (fun strict => ⟨rfl, apart strict⟩)
    fun second adds' _ sane introduced => ?_
  replace introducedBest := introducedBest.kept adds'.later
  rw [← adds'.current] at introducedBest introduced ⊢
  refine MakesAt.bind (makesAt_compileChain fits (fun _ _ => True) sane fun inner entered sane => ?_)
    fun _ last makes held => MakesAt.pure ⟨held.1, _, rfl, introduced.kept makes.enters.later⟩
  refine CodesAt.bindMakes (codesAt_codeOf key.expr fitsKey _ inner sane)
    fun keyNode third codes reads => ?_
  refine CodesAt.bindMakes (codesAt_temp reads) fun k fourth codes₂ knownKey => ?_
  have toFourth := codes.trans codes₂
  refine CodesAt.bindMakes (codesAt_codeOf item fitsItem _ fourth (toFourth.sane sane))
    fun itemNode fifth codes₃ reads' => ?_
  refine CodesAt.bindMakes (codesAt_temp reads') fun p sixth codes₄ knownItem => ?_
  have toSixth := toFourth.trans (codes₃.trans codes₄)
  have bestKnown := toSixth.knows (entered.knows introducedBest)
  have payloadKnown := toSixth.knows (entered.knows introduced)
  replace knownKey := (codes₃.trans codes₄).knows knownKey
  refine MakesAt.get (Works.bind (works_openBlock (Works.bind (works_emit
    (fun given => (given.2.current.push _ _).1) fun branched done => ?_))))
  have has (given : ok ∧ sixth.Intact S) :=
    Arena.Has.update (given.2.current.push (some sixth.current) .subplan).2 done
  refine Works.bind (Works.changeArena (fun given =>
    Arena.update_ok _ _ (has given).1 (has given).2) fun stored bestDone => ?_)
  have has (given : ok ∧ sixth.Intact S) := (has given).update bestDone
  refine Works.changeArena (fun given => Arena.update_ok _ _ (has given).1 (has given).2)
    fun arena itemDone => ⟨?_, trivial⟩
  have linked := ((Linked.of_new (by decide) done (toSixth.sane sane).rooted.current).change bestDone rfl
    rfl rfl).change itemDone rfl rfl rfl
  refine .keep ?_ (reads_ident knownKey) (reads_ident knownItem) rfl (.inl (.inr rfl)) (.inr rfl)
    bestKnown payloadKnown linked
  exact ((Scope.ReadsAll.cons (reads_ident bestKnown) readsAll_nil).call ⟨by decide, by decide⟩).binary
    ((reads_ident knownKey).binary (reads_ident bestKnown))

theorem makesAt_compileAggregate (fitsCall : call.expr.Fits S ok) (sane : scope.Sane S)
    (apart : S.strict → scope.Apart) :
    MakesAt S ok may (compileChain chain (accumulate call scope.current)) scope fun name later =>
      later.current = scope.current ∧ IsVariable scope.current name later :=
  makesAt_compileChain fits (fun name arena => ∃ n, name = variableName n ∧
      Introduces arena scope.current n)
    sane fun _ entered sane => .mono (makesAt_accumulate fitsCall sane entered.within
      fun strict => entered.later.body ▸ (apart strict).current)
      fun _ _ ⟨makes, _, isVariable⟩ => ⟨makes, isVariable⟩

end nested

section lists

variable {plan : Plan} {rank : Plan.OpId → Nat}
variable (sturdy : ok → plan.Sturdy rank) (fits : plan.Fits S ok)

include sturdy fits

theorem works_chainFrom (owner : Plan.OpId) :
    ∀ (depth : Nat) (seen : List String) (chain : List Plan.Body) (top : Option Plan.OpId),
    (∀ body ∈ chain, body.Fits S ok) →
    (ok → 0 < depth ∧ ∀ id ∈ top, id < plan.ops.size ∧ rank id + 1 < depth) →
    Works S (ok ∧ scope.Intact S) (chainFrom plan owner depth seen chain top) scope
      fun found later => later = scope ∧ ∀ chain, found = some chain → ∀ body ∈ chain, body.Fits S ok
  | 0, _, _, _, _, deep => .throw fun given => absurd (deep given.1).1 (Nat.lt_irrefl 0)
  | _ + 1, _, _, none, _, _ => .pure ⟨rfl, nofun⟩
  | depth + 1, seen, chain, some top, fitsChain, deep => by
    refine .bind (.asks (fun given => ⟨_, Plan.get_eq_ok.mpr (Array.getElem?_eq_getElem
      ((deep given.1).2 top rfl).1)⟩) fun op isOp => ?_)
    have found := Plan.get_eq_ok.mp isOp
    split
    · refine .pure ⟨rfl, fun chain' same => ?_⟩
      split at same
      · cases same
        exact fitsChain
      · cases same
    · refine .asking ((yields_chainStep seen op.body scope).mono fun _ _ same => ⟨same, trivial⟩)
        (replies_chainStep · seen op.body) fun next (_ : True) => ?_
      split
      · exact .pure ⟨rfl, nofun⟩
      · refine works_chainFrom owner depth _ _ op.input? (fun body member => ?_) fun isOk => ?_
        · rcases List.mem_cons.mp member with rfl | old
          · exact fits top op found
          · exact fitsChain body old
        · have low := ((deep isOk).2 top rfl).2
          refine ⟨by omega, fun input isInput => ?_⟩
          have below := Plan.below_of_input? found isInput
          have := (sturdy isOk).ranked top input below
          exact ⟨(sturdy isOk).made.found top input below, by omega⟩

theorem works_nestedChain? (owner : Plan.OpId) {top : Option Plan.OpId}
    (inside : ok → ∀ id ∈ top, id < plan.ops.size) :
    Works S (ok ∧ scope.Intact S) (nestedChain? plan owner top) scope fun found later =>
      later = scope ∧ ∀ chain, found = some chain → ∀ body ∈ chain, body.Fits S ok :=
  works_chainFrom sturdy fits owner _ [] [] top nofun fun isOk => ⟨Nat.succ_pos _,
    fun id isTop => ⟨inside isOk id isTop,
      Nat.succ_lt_succ ((sturdy isOk).low id (inside isOk id isTop))⟩⟩

theorem makesAt_fuseList (owner : Plan.OpId) {below : Option Plan.OpId}
    (inside : ok → ∀ id ∈ below, id < plan.ops.size) {item : Expr} (fitsItem : item.Fits S ok)
    (out : Var) (sane : scope.Sane S) (apart : S.strict → scope.Apart) :
    MakesAt S ok may (fuseList plan owner below item out) scope Anything := by
  have keeps : ∀ {step : Emit String},
      (MakesAt S ok may step scope fun name later =>
        later.current = scope.current ∧ IsVariable scope.current name later) →
      MakesAt S ok may (do keepItem out (← step); pure true) scope Anything := fun makes =>
    .naming makes fun name later known => (makesAt_keepItem out known).returns
  have fetch {id : Plan.OpId} (inside : id < plan.ops.size) : ∃ op, plan.get id = .ok op :=
    ⟨_, Plan.get_eq_ok.mpr (Array.getElem?_eq_getElem inside)⟩
  have step {id : Plan.OpId} {op : Plan.Operator} (found : plan.get id = .ok op) (isOk : ok) :
      ∀ input ∈ op.input?, input < plan.ops.size := fun input isInput =>
    (sturdy isOk).made.found id input (Plan.below_of_input? (Plan.get_eq_ok.mp found) isInput)
  unfold fuseList
  split
  · exact .pure trivial
  · next id =>
    refine Works.bind (Works.asks (fun given => fetch (inside given.1 id rfl)) fun op found => ?_)
    have fitsOp := fits id op (Plan.get_eq_ok.mp found)
    split
    · split
      · exact MakesAt.pure trivial
      · next orderId isInput =>
        refine .bind (.asks (fun given => fetch (step found given.1 orderId isInput))
          fun order foundOrder => ?_)
        split
        · next key _ isOrder =>
          have fitsKey := (fits orderId order (Plan.get_eq_ok.mp foundOrder)).exprs key.expr
            (by simp [isOrder, Plan.Body.uses, Plan.Body.exprs])
          split
          · exact MakesAt.pure trivial
          · refine .asked (works_nestedChain? sturdy fits owner (step foundOrder))
              fun found proper => ?_
            split
            · exact MakesAt.pure trivial
            · exact keeps (makesAt_firstItem (proper _ rfl) fitsKey fitsItem sane apart)
        · exact MakesAt.pure trivial
    · next vars call _ isAggregate =>
      rw [isAggregate] at fitsOp
      split
      · exact MakesAt.pure trivial
      · split
        · split
          · exact .throw fun given => nomatch (fitsOp.taken given.1).proper.aligned.1
          · split
            · exact MakesAt.pure trivial
            · refine .asked (works_nestedChain? sturdy fits owner (step found))
                fun found proper => ?_
              split
              · exact MakesAt.pure trivial
              · exact .get (keeps (makesAt_compileAggregate (proper _ rfl)
                  (fitsOp.exprs call.expr (by simp [Plan.Body.uses, Plan.Body.exprs])) sane apart))
        · exact MakesAt.pure trivial
    · exact MakesAt.pure trivial

end lists

/-! ## Group-bys -/

section groups

variable {keys : List Plan.Binding} {aggregate : NestedAggregate}

/-- An aggregate with a variable has a first one. -/
theorem works_firstVar : ∀ {vars : List Var}, (given → vars ≠ []) →
    Works S given (firstVar vars) scope fun _ later => later = scope ∧ True
  | [], nonempty => .throw fun isGiven => nonempty isGiven rfl
  | _ :: _, _ => .pure ⟨rfl, trivial⟩

theorem makesAt_emitGroups (lax : ¬ S.strict) (aggregator : String) (vars : ok → aggregate.vars ≠ [])
    (scope : Scope) : MakesAt S ok may (emitGroups aggregator keys aggregate) scope Anything := by
  have puts (keys : List Plan.Binding) :
      ∀ scope, MakesAt S ok may (keys.forM fun key => putOutput key.var) scope Anything := by
    induction keys with
    | nil => exact fun _ => .pure trivial
    | cons key rest ih => exact fun scope => (makesAt_putOutput key.var scope).then fun _ => ih
  have notes (emitters : Scope → List String) : MakesAt S ok may
      (modify fun scope => { scope with emitters := emitters scope }) scope Anything :=
    .modifying ⟨makes_frame ⟨.of_notes, rfl⟩ rfl rfl rfl (fun strict => absurd strict lax)
      (fun _ _ => id) (fun _ _ _ => .inl) (fun _ _ => .inl) (fun _ _ => .inl) (fun _ _ => .inl), trivial⟩
  refine (notes _).then fun _ scope => (makesAt_clearOutput scope).then fun _ scope => ?_
  refine (puts keys scope).then fun _ scope => ?_
  exact .asked (works_firstVar fun given => vars given.1) fun out _ =>
    (makesAt_putOutput out _).anything

/-- Giving a group and a value to an aggregator of the body. -/
theorem makesAt_give {init : Node} {start : Emit α} {value : α → Emit Node}
    {key : α → Node} (lax : ¬ S.strict) (sane : scope.Sane S) (constant : Node.Constant init)
    (vars : ok → aggregate.vars ≠ [])
    (starts : ∀ (may : Nat → Prop) (scope : Scope), scope.Sane S →
      CodesAt S ok may start scope fun a later => later.Reads S (key a))
    (values : ∀ a, ReadsValue S ok (value a)) :
    MakesAt S ok may (do
      let aggregator ← declare scope.fn.body init
      let a ← start
      let n ← value a
      emit (.member (.ident aggregator) Member.accumulate [key a, n])
      emitGroups aggregator keys aggregate
      pure true) scope Anything := by
  refine .declare sane sane.rooted.body constant (fun strict => absurd strict lax)
    fun first adds _ sane introduced => ?_
  refine CodesAt.bindMakes (starts _ first sane) fun a second codes reads => ?_
  refine CodesAt.bindMakes (values a _ second (codes.sane sane)) fun n third codes' reads' => ?_
  have toThird := codes.trans codes'
  have isOpen : third.Open scope.fn.body := by
    rw [← adds.later.body, ← toThird.adds.later.body]
    exact (toThird.sane sane).rooted.body
  have known : third.Knows (variableName scope.fn.arena.names) :=
    .ofBlock isOpen (introduced.kept toThird.adds.later)
  refine CodesAt.bindMakes (codesAt_emit (.expr ?_)) fun _ fourth _ _ => ?_
  · exact Scope.ReadsAll.member (reads_ident known) (by decide) (by decide) (by decide) (by decide)
      (.cons (codes'.reads reads) (.cons reads' readsAll_nil))
  · exact (makesAt_emitGroups lax _ vars fourth).then fun _ _ => .pure trivial

theorem Scope.ReadsAll.head {n : Node} {rest : List Node} (reads : scope.ReadsAll S (n :: rest)) :
    scope.Reads S n := by
  refine ⟨?_, fun name member => reads.names name ?_, fun access member => reads.allows access ?_,
    fun strict => ?_⟩
  · have quiet := reads.quiet
    rw [Node.areQuiet, Bool.and_eq_true] at quiet
    exact quiet.1
  · exact List.mem_append_left _ member
  · exact List.mem_append_left _ member
  · have own := reads.own strict
    rw [Node.areLocal, Bool.and_eq_true] at own
    exact own.1

variable (fits : aggregate.Fits S ok) (fitsKeys : ∀ key ∈ keys, key.expr.Fits S ok)

include fits fitsKeys

theorem makesAt_groupBest (lax : ¬ S.strict) (topK : Option TopK) (sane : scope.Sane S) :
    MakesAt S ok may (groupBest topK keys aggregate) scope Anything := by
  unfold groupBest
  split
  · next k key call isCall =>
    split
    · next arg isArgs =>
      split
      · next isBest =>
        have fitsArg := (fits.calls call (by simp [isCall])).args (fun _ same => by
          simp [same, Func.isMin, Func.isMax] at isBest) arg (by simp [isArgs])
        exact .get (makesAt_give lax sane (constant_call _ _ _) (fits.vars isCall)
          (codesAt_codeOf key.expr (fitsKeys key (by simp))) fun _ => codesAt_codeOf arg fitsArg)
      · exact .pure trivial
    · exact .pure trivial
  · exact .pure trivial

theorem makesAt_groupByHash (lax : ¬ S.strict) (config : Plan.Config) (sane : scope.Sane S) :
    MakesAt S ok may (groupByHash config keys aggregate) scope Anything := by
  unfold groupByHash
  split
  · next call isCall =>
    split
    · exact .pure trivial
    · next isKind =>
      refine .get (makesAt_give lax sane (constant_call _ _ _) (fits.vars isCall)
        (fun may scope sane => ?_) fun _ =>
          codesAt_aggregatorValue (fits.calls call (by simp [isCall])) isKind)
      refine .mono (codesAt_codesOf _ (fun e member => ?_) may scope sane)
        fun nodes later readsAll => ?_
      · obtain ⟨key, isIn, rfl⟩ := List.mem_map.mp member
        exact fitsKeys key isIn
      · split
        · exact readsAll.head
        · exact readsAll.call ⟨by decide, by decide⟩
  · exact .pure trivial

end groups

end Makes

/-! ## Whole functions -/

section Builds

variable {α β : Type} {S : Terms} {ok : Prop} {scope later : Scope}

/-- What making a function keeps. -/
theorem Builds.kept (builds : Builds S scope later) (sane : scope.Sane S) :
    scope.Later later ∧ later.Sane S := by
  induction builds with
  | make makes => exact ⟨makes.enters.later, makes.sane sane⟩
  | trans _ _ first second =>
    obtain ⟨toMiddle, middle⟩ := first sane
    obtain ⟨toLater, last⟩ := second middle
    exact ⟨toMiddle.trans toLater, last⟩
  | @group scope second outer name flagged third arena isOpen _ declares inside stays sets linked =>
    have declared : scope.Adds (scope.withArena flagged) := adds_declare isOpen declares
    have inner := inside.sane (sane.kept declared.later rfl rfl)
    have set : second.Adds (second.withArena third) := adds_appendHead (fun _ => .refl) sets
    have adds : scope.Adds (second.withArena third) :=
      ⟨declared.later.trans (inside.enters.later.trans set.later), stays⟩
    have linked' : Linked (second.withArena third).fn.arena arena _ _ _ := linked
    have outerOpen := adds.open (isOpen sane.rooted)
    obtain ⟨into, _⟩ := linked'.into (fun _ => outerOpen) (i := 0) Nat.one_pos
    have toGroup := adds.later.trans into
    have sane' : (second.withArena arena).Sane S :=
      inner.kept (set.trans (linked'.adds fun _ => outerOpen)).later rfl rfl
    exact ⟨toGroup, sane'.goto (toGroup.rooted sane.rooted)⟩
  | toBody scope =>
    have toBody : scope.Later (scope.goto scope.fn.body) :=
      (Scope.Later.refl scope).back fun rooted => rooted.body
    exact ⟨toBody, sane.goto (toBody.rooted sane.rooted)⟩
  | atBody _ _ _ done =>
    have adds := adds_appendHead (fun rooted => rooted.body) done
    exact ⟨adds.later, sane.kept adds.later rfl rfl⟩

theorem Builds.saved (builds : Builds S scope later) : later.saved = scope.saved := by
  induction builds with
  | make makes => exact makes.saved
  | trans _ _ first second => exact second.trans first
  | group _ _ _ inside => exact inside.saved
  | toBody | atBody => rfl

/-- A step makes the code of a function and answers with something that holds then. In an intact scope
it does not fault if something holds. -/
def BuildsAt (S : Terms) (ok : Prop) (step : Emit α) (scope : Scope)
    (holds : α → Scope → Prop) : Prop :=
  Works S (ok ∧ scope.Intact S) step scope fun a later => Builds S scope later ∧ holds a later

theorem MakesAt.builds {step : Emit α} {holds : α → Scope → Prop}
    (makes : MakesAt S ok (fun _ => False) step scope holds) : BuildsAt S ok step scope holds :=
  .mono makes fun _ _ ⟨makes, held⟩ => ⟨.make makes, held⟩

theorem BuildsAt.bind {step : Emit α} {next : α → Emit β} {middle : α → Scope → Prop}
    {holds : β → Scope → Prop} (first : BuildsAt S ok step scope middle)
    (second : ∀ a later, Builds S scope later → BuildsAt S ok (next a) later holds) :
    BuildsAt S ok (step >>= next) scope holds :=
  Works.bind (Works.mono first fun a later ⟨builds, _⟩ => Works.mono (Works.given
    (second a later builds) (And.imp_right builds.intact)) fun _ _ ⟨more, held⟩ =>
      ⟨builds.trans more, held⟩)

theorem BuildsAt.pure {a : α} : BuildsAt S ok (Pure.pure a : Emit α) scope Anything :=
  (MakesAt.pure trivial).builds

section groups

variable {keys : List Plan.Binding} {aggregate : NestedAggregate}
variable (fits : aggregate.Fits S ok) (fitsKeys : ∀ key ∈ keys, key.expr.Fits S ok)

/-- What is written for a group, in the block of the group. -/
theorem makesAt_writeGroup {may : Nat → Prop} {vars : List Var}
    (fits : ∀ key ∈ keys, key.expr.Fits S ok) (nonempty : ok → vars ≠ [])
    {acc : String} {outer : BlockId} (isVariable : IsVariable outer acc scope)
    (isOpen : scope.Open outer) (sane : scope.Sane S) : MakesAt S ok may (do
      clearOutput
      keys.forM fun key => assignVar key.var key.expr
      let out ← firstVar vars
      bindMeaning out (.code (.ident acc) [])
      putOutput out
      pure true) scope Anything := by
  refine .bind (makesAt_clearOutput scope) fun _ first clears _ => ?_
  refine .bind (.forM keys (fun key member _ sane =>
    (makesAt_assignVar key.var (fits key member) sane).anything) first (clears.sane sane))
    fun _ second assigns _ => ?_
  refine .asked (works_firstVar fun given => nonempty given.1) fun out _ => ?_
  have enters := clears.enters.trans assigns.enters
  have isOpen' : second.Open outer := enters.within.trans (enters.later.arena.within isOpen)
  exact (makesAt_bindMeaning out (.ident ((isVariable.kept enters.later).knows isOpen'))).then
    fun _ third => (makesAt_putOutput out third).returns

include fits fitsKeys

theorem buildsAt_groupPerRecord (sane : scope.Sane S) (apart : S.strict → scope.Apart) :
    BuildsAt S ok (groupPerRecord keys aggregate) scope Anything := by
  refine .get (.asking (yields_enclosing _ scope)
    (fun intact => .ask (intact.fits.search intact.current.2 _)) fun loop? encloses => ?_)
  split
  · next loop call isCall =>
    obtain ⟨isOpen, block, there, isUnnest⟩ := encloses loop rfl
    split
    · exact BuildsAt.pure
    · refine .bind (.asks (fun _ => exists_ok_anyM keys fun key =>
        exists_ok_exprInLoop (Array.inside there) key.expr) fun dependent _ => ?_)
      split
      · exact BuildsAt.pure
      · refine .asking (yields_parentOf loop _) (replies_parentOf · there
          (.inl (by simpa using isUnnest))) fun outer isParent => ?_
        have outerOpen : scope.Open outer := isOpen.tail isParent
        have own (strict : S.strict) : outer ≠ scope.fn.body := by
          obtain ⟨_, there', parent⟩ := isParent
          cases there.symm.trans there'
          exact (apart strict).loops loop outer block there (by simpa using isUnnest) parent
        refine .bind (.drawArena (fun given => ((given.2.open outerOpen).declares _).1)
          fun flag flagged declares => ?_)
        have declared : scope.Adds (scope.withArena flagged) :=
          adds_declare (fun _ => outerOpen) declares
        obtain ⟨isFlag, updates⟩ := Arena.declare_updates declares
        subst isFlag
        have begins (given : ok ∧ scope.Intact S) : ok ∧ (scope.withArena flagged).Intact S :=
          ⟨given.1, given.2.withArena (fits_declare given.2.fits rfl declares) updates.size.ge⟩
        have accumulates : MakesAt S ok (fun _ => False) (accumulate call outer)
            (scope.withArena flagged) fun name later =>
              later.current = scope.current ∧ IsVariable outer name later :=
          makesAt_accumulate (fits.calls call (by simp [isCall]))
            (sane.kept declared.later rfl rfl) (declared.open outerOpen) own
        refine .bind (.mono (.given accumulates begins) ?_)
        rintro acc second ⟨inside, current, isVariable⟩
        have stays : (scope.withArena flagged).Adds second := ⟨inside.enters.later, current⟩
        have intact (given : ok ∧ scope.Intact S) := inside.intact (begins given).2
        refine .bind (works_emit (fun given => (intact given).current) fun third sets => ?_)
        have set : second.Adds (second.withArena third) := adds_appendHead (fun _ => .refl) sets
        have adds := declared.trans (stays.trans set)
        have there : outer < third.blocks.size :=
          (adds.later.rooted sane.rooted).lt_of_open (adds.open outerOpen)
        have has (given : ok ∧ scope.Intact S) : third.Has outer :=
          ⟨(given.2.open outerOpen).1, there⟩
        refine .bind (works_openBlock (.bind (.changeArena (fun given =>
          Arena.update_ok _ _ ((has given).push (some outer) .groupBy).1.1
            ((has given).push _ _).1.2) fun arena branches => ?_)))
        have linked := Linked.of_new (by decide) branches there
        have group : Builds S scope ((second.withArena arena).goto third.blocks.size) :=
          .group (fun _ => outerOpen) own declares inside stays.current sets linked
        have linked' : Linked (second.withArena third).fn.arena arena _ _ _ := linked
        obtain ⟨into, isParent'⟩ := linked'.into (fun _ => adds.open outerOpen) (i := 0) Nat.one_pos
        refine .bind (.modifying ?_)
        have writes : MakesAt S ok (fun _ => False) _ _ Anything := makesAt_writeGroup fitsKeys
          (fits.vars isCall) ((isVariable.kept set.later).kept into)
          (.single isParent') (group.kept sane).2
        exact .mono (.given writes (And.imp_right group.intact)) fun _ _ ⟨more, _⟩ =>
          ⟨group.trans (.make more), trivial⟩
  · exact BuildsAt.pure

theorem buildsAt_groupLocally (lax : ¬ S.strict) (config : Plan.Config) (topK : Option TopK)
    (sane : scope.Sane S) :
    BuildsAt S ok (groupLocally config topK keys aggregate) scope Anything := by
  refine .bind (buildsAt_groupPerRecord fits fitsKeys sane
    fun strict => absurd strict lax) fun perRecord first builds => ?_
  replace sane := (builds.kept sane).2
  split
  · exact .pure
  · refine .bind (makesAt_groupBest fits fitsKeys lax topK sane).builds fun best second builds => ?_
    replace sane := (builds.kept sane).2
    split
    · exact .pure
    · refine .bind (makesAt_groupByHash fits fitsKeys lax config sane).builds
        fun hash third builds => ?_
      split <;> exact .pure

end groups

/-- An assign has at least the bindings that are fused. -/
theorem makesAt_assignLeading {may : Nat → Prop} : ∀ (vars : List Var) (exprs : List Expr),
    (ok → vars.length = exprs.length) → (∀ e ∈ exprs, e.Fits S ok) →
    ∀ scope : Scope, scope.Sane S →
      MakesAt S ok may (assignLeading vars exprs) scope fun count _ => count ≤ vars.length
  | [], _, _, _, _, _ => .pure (Nat.zero_le _)
  | _ :: _, [], lengths, _, _, _ => .throw fun given => Nat.succ_ne_zero _ (lengths given.1)
  | v :: vars, e :: exprs, lengths, fits, scope, sane => by
    unfold assignLeading
    split
    · refine .bind (makesAt_assignVar v (fits e (.head _)) sane) fun _ later makes _ => ?_
      exact .bind (makesAt_assignLeading vars exprs (fun isOk => Nat.succ.inj (lengths isOk))
        (List.forall_mem_cons.mp fits).2 later (makes.sane sane))
        fun _ _ _ few => .pure (Nat.succ_le_succ few)
    · exact .pure (Nat.zero_le _)

theorem buildsAt_aggregateAll {vars : List Var} {calls : List Call}
    (lax : ¬ S.strict) (lengths : ok → vars.length = calls.length)
    (fits : ∀ call ∈ calls, call.expr.Fits S ok) (sane : scope.Sane S) : BuildsAt S ok (do
      clearOutput
      accumulateAll vars calls
      moveTo (← get).fn.body) scope Anything := by
  refine .bind (makesAt_clearOutput scope).builds fun _ first builds => ?_
  replace sane := (builds.kept sane).2
  refine .bind (makesAt_accumulateAll lax calls vars lengths fits first sane).builds
    fun _ second _ => ?_
  exact .get (.modifying ⟨.toBody second lax, trivial⟩)

end Builds

end QueryFusion.Fusion

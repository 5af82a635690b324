import QueryFusion.Proofs.Fusion.Sure

/-!
# The trace of the code of expressions

Each step of the compiler makes its code in the ways of a trace, and the code it answers with reads
only names that the scope knows then. In an intact scope, and over expressions that can be compiled, no
step faults.
-/

namespace QueryFusion.Fusion

open Code
open Code.Arena (declaration)

section Codes

variable {α β : Type} {S : Terms} {ok : Prop} {may : Nat → Prop} {scope : Scope}

/-- A step makes the code of an expression and answers with something that holds then. In an intact
scope it does not fault if something holds. -/
def CodesAt (S : Terms) (ok : Prop) (may : Nat → Prop) (step : Emit α) (scope : Scope)
    (holds : α → Scope → Prop) : Prop :=
  Works S (ok ∧ scope.Intact S) step scope fun a later => Codes S may scope later ∧ holds a later

variable {step : Emit α} {next : α → Emit β} {holds : α → Scope → Prop}

/-- Code that is part of a larger step. -/
theorem CodesAt.run {given : Prop} {more : β → Scope → Prop} (codes : CodesAt S ok may step scope holds)
    (intact : given → ok ∧ scope.Intact S) (each : ∀ a later, Codes S may scope later →
      holds a later → Works S given (next a) later more) : Works S given (step >>= next) scope more :=
  .bind (.mono (.given codes intact) fun a later ⟨codes, held⟩ => each a later codes held)

theorem CodesAt.bind {more : β → Scope → Prop} (first : CodesAt S ok may step scope holds)
    (second : ∀ a later, Codes S may scope later → holds a later →
      CodesAt S ok may (next a) later more) : CodesAt S ok may (step >>= next) scope more :=
  first.run id fun a later codes held => .mono (.given (second a later codes held)
    (And.imp_right codes.intact)) fun _ _ ⟨more, held'⟩ => ⟨codes.trans more, held'⟩

theorem CodesAt.pure {a : α} (held : holds a scope) :
    CodesAt S ok may (Pure.pure a : Emit α) scope holds := Works.pure ⟨.refl scope, held⟩

theorem CodesAt.failWith {cause : FuseError} (reported : ¬ cause.IsUnpushed := by rintro ⟨⟩) :
    CodesAt S ok may (Fusion.failWith cause : Emit α) scope holds :=
  .fail fun _ unpushed => absurd unpushed reported

theorem CodesAt.get {next : Scope → Emit β} {holds : β → Scope → Prop}
    (codes : CodesAt S ok may (next scope) scope holds) :
    CodesAt S ok may (MonadState.get >>= next) scope holds := Works.get codes

theorem CodesAt.mono {more : α → Scope → Prop}
    (codes : CodesAt S ok may step scope holds) (weaker : ∀ a later, holds a later → more a later) :
    CodesAt S ok may step scope more :=
  Works.mono codes fun a later ⟨codes, held⟩ => ⟨codes, weaker a later held⟩

/-- Nothing is asked of the answer. -/
abbrev Anything (_ : α) (_ : Scope) : Prop := True

theorem CodesAt.then {more : β → Scope → Prop} (first : CodesAt S ok may step scope holds)
    (second : ∀ a later, CodesAt S ok may (next a) later more) :
    CodesAt S ok may (step >>= next) scope more :=
  first.bind fun a later _ _ => second a later

/-- A question about an intact scope comes first. -/
theorem Works.asking {told : α → Prop} {more : β → Scope → Prop}
    (yields : Yields step scope fun a later => later = scope ∧ told a)
    (replies : scope.Intact S → Replies step scope)
    (each : ∀ a, told a → Works S (ok ∧ scope.Intact S) (next a) scope more) :
    Works S (ok ∧ scope.Intact S) (step >>= next) scope more :=
  .asked (.query yields fun given => replies given.2) each

/-- A change of what is noted about readers and variables. -/
theorem codesAt_notes {change : Scope → Scope} (same : ∀ scope, change scope = { scope with
      touched := (change scope).touched, consumed := (change scope).consumed
      fused := (change scope).fused }) : CodesAt S ok may (modify change) scope Anything := by
  refine .modifying ⟨?_, trivial⟩
  rw [same]
  exact .notes _ _ _

theorem codesAt_touch (reader : String) (scope : Scope) : CodesAt S ok may (touch reader) scope Anything :=
  codesAt_notes fun _ => rfl

theorem codesAt_touchAll : ∀ (readers : List String) (scope : Scope),
    CodesAt S ok may (readers.forM touch) scope Anything
  | [], _ => .pure trivial
  | reader :: rest, scope => (codesAt_touch reader scope).then fun _ => codesAt_touchAll rest

/-- The reader of a path is a parameter. -/
def IsReader (reader : String) (scope : Scope) : Prop :=
  ∃ j, j < scope.fn.paths.length ∧ reader = Function.readerName j

variable {reader : String}

theorem IsReader.of_reader? {p : Path} (found : scope.reader? p = some reader) :
    IsReader reader scope := by
  obtain ⟨j, isFound, rfl⟩ := Option.map_eq_some_iff.mp found
  exact ⟨j, (List.findIdx?_eq_some_iff_getElem.mp isFound).1, rfl⟩

theorem IsReader.kept {later : Scope} (isReader : IsReader reader scope)
    (codes : Codes S may scope later) : IsReader reader later := by
  obtain ⟨j, below, name⟩ := isReader
  exact ⟨j, below.trans_le codes.adds.later.paths.length_le, name⟩

theorem works_readerOf (p : Path) (has : scope.Intact S → scope.schema.has p = true) :
    Works S (ok ∧ scope.Intact S) (readerOf p) scope fun reader later =>
      (scope.reader? p = some reader ∧ later = scope) ∨
      (scope.reader? p = none ∧ scope.schema.has p = true ∧
        reader = Function.readerName scope.fn.paths.length ∧
        later = { scope with fn := { scope.fn with paths := scope.fn.paths ++ [p] } }) := by
  have sure : Works S (ok ∧ scope.Intact S) (readerOf p) scope Anything := by
    refine .get ?_
    split
    · exact .pure trivial
    · split
      · refine .bind (.asks (fun given => ?_) fun _ _ =>
          .bind (.set (.pure trivial)))
        rw [Function.addReader, if_neg (by rw [given.2.unfrozen]; decide)]
        exact ⟨_, rfl⟩
      · next missing => exact .fail fun given => absurd (has given.2) missing
  exact ⟨yields_readerOf p scope, sure.ends⟩

/-- The reader of a path that the function has. -/
structure ReadsPath (p : Path) (reader : String) (scope : Scope) : Prop where
  isReader : IsReader reader scope
  isPath : ∃ q ∈ scope.fn.paths, q.text = p.text

theorem ReadsPath.kept {p : Path} {later : Scope} (reads : ReadsPath p reader scope)
    (codes : Codes S may scope later) : ReadsPath p reader later :=
  have ⟨q, member, text⟩ := reads.isPath
  ⟨reads.isReader.kept codes, q, codes.adds.later.paths.subset member, text⟩

theorem codesAt_readerOf (p : Path) (has : scope.Intact S → scope.schema.has p = true) :
    CodesAt S ok may (readerOf p) scope (ReadsPath p) := by
  refine Works.mono (works_readerOf p has) ?_
  rintro reader later (⟨found, rfl⟩ | ⟨_, _, rfl, rfl⟩)
  · obtain ⟨i, isIndex, _⟩ := Option.map_eq_some_iff.mp found
    obtain ⟨low, same, _⟩ := List.findIdx?_eq_some_iff_getElem.mp isIndex
    exact ⟨.refl _, .of_reader? found, _, List.getElem_mem low, by simpa using same⟩
  · exact ⟨.reader p, ⟨scope.fn.paths.length, by simp, rfl⟩, p, List.mem_append_right _ (.head _), rfl⟩

/-- The value of a reader that was advanced. -/
theorem IsReader.reads (isReader : IsReader reader scope) (isBound : scope.Bound reader) :
    scope.Reads S (.member (.ident reader) Member.getValue []) := by
  obtain ⟨j, below, rfl⟩ := isReader
  refine ⟨by simp [Node.isQuiet, Node.areQuiet, Member.getValue, Member.hasNext], fun name isName => ?_,
    List.forall_mem_singleton.mpr ⟨rfl, isBound⟩, fun _ => rfl⟩
  rw [Node.names, Node.names, Node.namesOf, List.append_nil, List.mem_singleton] at isName
  exact isName ▸ .param (.reader below)

theorem codesAt_emit {s : Node} (simple : scope.Simple S may s) :
    CodesAt S ok may (emit s) scope Anything :=
  works_emit (fun given => given.2.current) fun _ done => ⟨.emit simple done, trivial⟩

/-- A reader is advanced in a block in which it is not. -/
theorem works_advance {given : Prop} {holds : PUnit → Scope → Prop} {j : Nat}
    (below : j < scope.fn.paths.length) (has : given → scope.fn.arena.Has scope.current)
    (free : given → ∀ block, scope.fn.arena.blocks[scope.current]? = some block →
      Function.readerName j ∉ block.bound)
    (held : ∀ later, Codes S may scope later → later.fn.paths = scope.fn.paths →
      later.Bound (Function.readerName j) → holds ⟨⟩ later) :
    Works S given (do
      emit (nextOf j)
      changeArena (·.bind scope.current (Function.readerName j))) scope holds := by
  refine .bind (works_emit has fun stepped steps => ?_)
  refine .changeArena (fun isGiven => ?_) fun arena binds => held _ (.advance below steps binds) rfl ?_
  · refine ((has isGiven).update steps).binds fun block here => ?_
    obtain ⟨before, there, rfl⟩ := (rewrites_update steps).before here
    rw [if_pos rfl]
    exact free isGiven before there
  · obtain ⟨block, _, here⟩ := (Arena.bind_updates binds).here
    exact ⟨_, _, .refl, here, List.mem_append_right _ (.head _)⟩

theorem codesAt_advance (isReader : IsReader reader scope) :
    CodesAt S ok may (advance reader) scope fun _ later => later.Bound reader := by
  refine .get (.asking (yields_isBound reader scope) (replies_isBound · reader)
    fun answer isBound => ?_)
  split
  · next isTrue => exact CodesAt.pure (isBound.mp isTrue)
  · next isFree =>
    obtain ⟨j, below, rfl⟩ := isReader
    refine works_advance below (fun given => given.2.current) (fun _ block here member => isFree ?_)
      fun later codes _ bound => ⟨codes, bound⟩
    exact isBound.mpr ⟨_, block, .refl, here, member⟩

theorem codesAt_advanceUnlessOverridden (p : Path) (has : scope.Intact S → scope.schema.has p = true) :
    CodesAt S ok may (do unless ← isOverridden p do advance (← readerOf p)) scope Anything := by
  refine .asking (yields_isOverridden p scope) (replies_isOverridden · p) fun answer _ => ?_
  split
  · exact CodesAt.pure trivial
  · exact CodesAt.bind (codesAt_readerOf p has) fun _ _ _ reads =>
      (codesAt_advance reads.isReader).mono fun _ _ _ => trivial

variable {b : BlockId}

/-- A redirection that is found is one of an open block. -/
theorem Scope.FirstRedirects.entry {ps : List Path} {target : Override}
    (first : scope.FirstRedirects ps (some (target, b))) : scope.Open b ∧
      ∃ block reader, scope.fn.arena.blocks[b]? = some block ∧ (reader, target) ∈ block.overrides := by
  induction ps with
  | nil => cases first
  | cons p rest ih =>
    rcases first with ⟨found, ⟨reader, _, isOpen, block, here, isTarget⟩, same⟩ | ⟨_, later⟩
    · cases same
      exact ⟨isOpen, block, reader, here, mem_of_lookup isTarget⟩
    · exact ih later

/-- Reading a copy at a position. -/
theorem reads_element {block : Block} {entry : String × Override}
    (isOpen : scope.Open b) (here : scope.fn.arena.blocks[b]? = some block)
    (member : entry ∈ block.overrides) :
    scope.Reads S (.element (.ident entry.2.array) (.ident entry.2.index)) := by
  refine ⟨by simp [Node.isQuiet], fun name isName => ?_, nofun, fun _ => rfl⟩
  rw [Node.names, Node.names, Node.names, List.singleton_append, List.mem_cons,
    List.mem_singleton] at isName
  rcases isName with rfl | rfl
  · exact .copy isOpen here member
  · exact .position isOpen here member

/-- A block and the block around it can be changed. -/
theorem Scope.Intact.parent {home : BlockId} (intact : scope.Intact S)
    (isParent : scope.fn.arena.Parent b home) : scope.fn.arena.Has b ∧ scope.fn.arena.Has home := by
  obtain ⟨block, here, same⟩ := isParent
  have low := (intact.fits b block here).parent home same
  have high := Array.inside here
  exact ⟨⟨Nat.zero_lt_of_lt low.2, high⟩, low.1, low.2.trans high⟩

theorem Scope.Intact.open (intact : scope.Intact S) (isOpen : scope.Open b) : scope.fn.arena.Has b := by
  cases isOpen with
  | refl => exact intact.current
  | tail _ isParent => exact (intact.parent isParent).2

theorem codesAt_readPath (p : Path) (has : scope.Intact S → scope.schema.has p = true) :
    CodesAt S ok may (readPath p) scope fun n later =>
      later.Reads S n ∧ ∃ q ∈ later.fn.paths, q.text = p.text := by
  refine .bind (codesAt_readerOf p has) fun reader scope _ reads => ?_
  refine .bind (codesAt_touch reader scope) fun _ later touched _ => ?_
  obtain ⟨isReader, isPath⟩ := reads.kept touched
  refine .asking (yields_overrideOf reader later) (replies_overrideOf · reader) fun own redirects => ?_
  split
  · next target b =>
    obtain ⟨isOpen, block, here, found⟩ := redirects
    exact CodesAt.pure ⟨reads_element isOpen here (mem_of_lookup found), isPath⟩
  · refine .asking (yields_firstOverride _ _) (replies_firstOverride · _) fun found first => ?_
    split
    · next target b =>
      obtain ⟨isOpen, block, other, here, member⟩ := first.entry
      obtain ⟨j, below, rfl⟩ := isReader
      refine .asking (yields_parentOf b _) (replies_parentOf · here
        (.inr (List.ne_nil_of_mem member))) fun home isParent => ?_
      refine .bind (.drawArena (fun given => ((given.2.parent isParent).2.declares _).1)
        fun array declared declares => ?_)
      obtain ⟨named, updates⟩ := Arena.declare_updates declares
      refine .bind (.changeArena (fun given => ?_) fun arena redirects' => .pure ?_)
      · have has := (given.2.parent isParent).1
        exact Arena.update_ok _ _ has.1 (has.2.trans_eq updates.size.symm)
      have codes : Codes S may _ _ :=
        .redirect isOpen isParent redirects below here member declares redirects'
      refine ⟨codes, ?_, isPath⟩
      have fresh := updates.overrides (fun _ => rfl) fun found here => redirects b found isOpen here
      obtain ⟨_, _, _, now, _, here'⟩ := Arena.setOverride_extends redirects' fresh named
        le_rfl (by rw [updates.names]; exact Nat.lt_succ_self _)
      exact reads_element (codes.adds.open isOpen) here'
        (List.mem_append_right _ (List.mem_singleton.mpr rfl))
    · exact CodesAt.bind (codesAt_advance isReader) fun _ later codes isBound =>
        have kept := ReadsPath.kept ⟨isReader, isPath⟩ codes
        .pure ⟨kept.isReader.reads isBound, kept.isPath⟩

mutual

theorem codesAt_advanceAll : ∀ (e : Expr) (scope : Scope),
    CodesAt S ok may (advanceAll e) scope Anything
  | .absent, _ => .pure trivial
  | .var v, scope => by
    refine .get ?_
    split
    · next p isPath =>
      exact codesAt_advanceUnlessOverridden p fun intact => intact.live.pushed v p isPath
    · exact .pure trivial
  | .const _, _ => .pure trivial
  | .call fn args loc, scope => by
    refine .get ?_
    dsimp only
    split
    · next p accessed =>
      exact codesAt_advanceUnlessOverridden p fun _ => (Option.filter_eq_some_iff.mp accessed).2
    · exact codesAt_advanceArgs args scope

theorem codesAt_advanceArgs : ∀ (es : List Expr) (scope : Scope),
    CodesAt S ok may (advanceArgs es) scope Anything
  | [], _ => .pure trivial
  | e :: rest, scope => (codesAt_advanceAll e scope).then fun _ => codesAt_advanceArgs rest

end

/-! ## Variables -/

variable {name : String}

theorem reads_ident (known : scope.Knows name) : scope.Reads S (.ident name) := by
  refine ⟨by simp [Node.isQuiet], fun other isName => ?_, nofun, fun _ => rfl⟩
  rw [Node.names, List.mem_singleton] at isName
  exact isName ▸ known

theorem reads_literal (l : Literal) : scope.Reads S (.lit l) :=
  ⟨by simp [Node.isQuiet], nofun, nofun, fun _ => rfl⟩

variable {init : Node}

theorem introduces_declareHere {arena : Arena}
    (done : scope.fn.arena.declareHere b init = .ok (name, arena)) :
    Introduces arena b scope.fn.arena.names := by
  obtain ⟨rfl, updates⟩ := Arena.declareHere_updates done
  obtain ⟨block, _, here⟩ := updates.here
  refine ⟨_, init, here, ?_⟩
  exact List.mem_append_right _ (List.mem_append_right _ (List.mem_singleton.mpr rfl))

/-- A variable that was declared in front of a block. -/
theorem introduces_declare {arena : Arena}
    (done : scope.fn.arena.declare b init = .ok (name, arena)) :
    Introduces arena b scope.fn.arena.names := by
  obtain ⟨rfl, updates⟩ := Arena.declare_updates done
  obtain ⟨block, _, here⟩ := updates.here
  exact ⟨_, init, here, List.mem_append_left _ (.head _)⟩

theorem codesAt_declareHere (reads : scope.Reads S init) :
    CodesAt S ok may (declareHere init) scope fun name later => later.Knows name := by
  refine .get (.drawArena (fun given => (given.2.current.declares _).2) fun name arena done => ?_)
  refine ⟨.declareHere reads done (.refl _), ?_⟩
  rw [(Arena.declareHere_updates done).1]
  exact .ofBlock .refl (introduces_declareHere done)

variable {n : Node}

theorem codesAt_temp (reads : scope.Reads S n) :
    CodesAt S ok may (temp n) scope fun name later => later.Knows name := by
  unfold temp
  split
  · exact .pure (reads.names _ (by rw [Node.names]; exact .head _))
  · exact codesAt_declareHere reads

theorem codesAt_valueOf (v : Var) (clear : S.strict → ¬ S.hides v.id) (sane : scope.Sane S) :
    CodesAt S ok may (valueOf v) scope fun n later => later.Reads S n := by
  refine .get ?_
  split
  · next flag isFlag => exact .pure (reads_ident (.flag isFlag))
  · split
    · exact .failWith
    · split
      · exact .failWith
      · next node readers bound =>
        refine .bind (codesAt_touchAll readers scope) fun _ later codes _ => ?_
        obtain ⟨quiet, silent, own⟩ := sane.quiet v node readers bound
        exact .pure (codes.reads ⟨quiet, fun name member => .value bound member,
          Arena.allows_silent silent, fun strict => own strict (clear strict)⟩)
      · next p isPath =>
        have has (intact : scope.Intact S) := intact.live.pushed v p isPath
        refine .asking (yields_isOverridden p scope) (replies_isOverridden · p) fun answer _ => ?_
        split
        · exact (codesAt_readPath p has).mono fun _ _ => And.left
        · refine .asking (yields_visibleMemo? v _) (replies_visibleMemo? · v) fun memo isVisible => ?_
          split
          · next name =>
            obtain ⟨memo, found, rfl, isOpen⟩ := isVisible name rfl
            obtain ⟨n, isName, introduced⟩ := sane.memo v memo found
            rw [isName]
            split
            · refine CodesAt.bind (codesAt_touch _ _) fun _ later codes _ => ?_
              exact .pure (codes.reads (reads_ident (.ofBlock isOpen introduced)))
            · next none =>
              refine .throw fun given => ?_
              obtain ⟨q, member, text⟩ := given.2.live.reads v p (by rw [VarMap.has, found]; rfl) isPath
              have := List.findIdx?_eq_none_iff.mp (Option.map_eq_none_iff.mp none) q member
              simp [text] at this
          · refine CodesAt.bind (codesAt_readPath p has) fun value later codes held => ?_
            obtain ⟨reads, isRead⟩ := held
            refine Works.bind (Works.get (Works.drawArena (fun given => (given.2.current.declares _).2)
              fun name arena done => ?_))
            refine .bind (.modifying (.pure ?_))
            have introduced := introduces_declareHere done
            rw [(Arena.declareHere_updates done).1]
            refine ⟨.declareHere reads done (.memo v introduced fun q isPath' => ?_), ?_⟩
            · cases isPath.symm.trans (codes.sameLive.values ▸ isPath')
              exact isRead
            · exact reads_ident (.ofBlock .refl introduced)

theorem codesAt_inlineValueOf (v : Var) (clear : S.strict → ¬ S.hides v.id)
    (sane : scope.Sane S) : CodesAt S ok may (inlineValueOf v) scope fun n later => later.Reads S n := by
  refine .get ?_
  split
  · next p isPath =>
    refine .asking (yields_visibleMemo? v scope) (replies_visibleMemo? · v) fun memo isVisible => ?_
    split
    · next name =>
      obtain ⟨memo, found, rfl, isOpen⟩ := isVisible name rfl
      obtain ⟨n, isName, introduced⟩ := sane.memo v memo found
      rw [isName]
      exact CodesAt.pure (reads_ident (.ofBlock isOpen introduced))
    · exact (codesAt_readPath p fun intact => intact.live.pushed v p isPath).mono fun _ _ => And.left
  · exact codesAt_valueOf v clear sane

/-! ## Expressions -/

theorem codesAt_consume (v : Var) (scope : Scope) :
    CodesAt S ok may (modify fun scope => { scope with consumed := scope.consumed.increment v }) scope
      Anything := codesAt_notes fun _ => rfl

theorem codesAt_textOf {e : Expr} (whole : ok → e.Whole) : CodesAt S ok may (textOf e) scope Anything :=
  .asks (fun given => (whole given.1).text) fun _ _ => ⟨.refl scope, trivial⟩

/-- Failing with the text of an expression. -/
theorem codesAt_unfit {e : Expr} {cause : String → FuseError} {holds : β → Scope → Prop}
    (whole : ok → e.Whole) (reported : ∀ text, ¬ (cause text).IsUnpushed := by rintro _ ⟨⟩) :
    CodesAt S ok may (do failWith (cause (← textOf e)) : Emit β) scope holds :=
  (codesAt_textOf whole).then fun _ _ => .failWith (reported _)

/-- A flag that was found is known. -/
def KnowsFlag (flag? : Option String) (scope : Scope) : Prop :=
  ∀ flag, flag? = some flag → scope.Knows flag

theorem codesAt_flagOf? (left right : Expr) (scope : Scope) :
    CodesAt S ok may (flagOf? left right) scope KnowsFlag := by
  have flagged (tested other : Expr) (scope : Scope) :
      CodesAt S ok may (flagTested? tested other) scope KnowsFlag := by
    unfold flagTested?
    split
    · refine .get ?_
      split
      · next flag isFlag =>
        split
        · refine .bind (codesAt_consume _ _) fun _ later codes _ => .pure ?_
          intro found same
          cases same
          exact codes.knows (.flag isFlag)
        · exact .pure (by rintro _ ⟨⟩)
      · exact .pure (by rintro _ ⟨⟩)
    · exact .pure (by rintro _ ⟨⟩)
  refine .bind (flagged left right scope) fun found later _ known => ?_
  split
  · exact .pure known
  · exact flagged right left later

theorem codesAt_itemAt (call : Call) (fits : ∀ e ∈ call.args, e.Fits S ok) :
    CodesAt S ok may (itemAt call) scope fun n later => later.Reads S n := by
  unfold itemAt
  split
  · next target index isArgs =>
    rw [isArgs] at fits
    split
    · refine .get ?_
      split
      · exact .failWith
      · next item isItem =>
        split
        · refine .bind (codesAt_consume _ _) fun _ later codes _ => .pure ?_
          split
          · exact reads_ident (codes.knows (.item isItem))
          · exact reads_literal _
        · exact codesAt_unfit fun isOk => ((fits _ (by simp)).taken isOk).whole
    · exact codesAt_unfit fun isOk => ((fits _ (by simp)).taken isOk).whole
  · exact .failWith

theorem literalOf_isLiteral {c : Constant} (same : literalOf c = .ok n) : ∃ l, n = .lit l := by
  unfold literalOf at same
  split at same
  all_goals first
    | exact ⟨_, (Except.ok.inj same).symm⟩
    | cases same

theorem Scope.Reads.not (reads : scope.Reads S n) : scope.Reads S (.not n) := by
  refine ⟨by rw [Node.isQuiet]; exact reads.quiet, fun name member => reads.names name ?_, fun access
    member => reads.allows access ?_, fun strict => ?_⟩
  · exact member
  · exact member
  · rw [Node.isLocal]
    exact reads.own strict

theorem Scope.Reads.binary {op : BinaryOp} {left right : Node} (first : scope.Reads S left)
    (second : scope.Reads S right) : scope.Reads S (.binary op left right) := by
  refine ⟨by rw [Node.isQuiet, first.quiet, second.quiet]; rfl, fun name member => ?_, fun access
    member => ?_, fun strict => ?_⟩
  · exact (List.mem_append.mp member).elim (first.names name) (second.names name)
  · exact (List.mem_append.mp member).elim (first.allows access) (second.allows access)
  · rw [Node.isLocal, first.own strict, second.own strict]
    rfl

/-- Quiet arguments over names that the scope knows, which ask only readers that were advanced. -/
structure Scope.ReadsAll (S : Terms) (scope : Scope) (args : List Node) : Prop where
  quiet : Node.areQuiet args = true
  names : ∀ name ∈ Node.namesOf args, scope.Knows name
  allows : ∀ access ∈ Node.accessesOf args, access.1 = .ask ∧ scope.Bound access.2
  own : S.strict → Node.areLocal args = true

theorem readsAll_nil : scope.ReadsAll S [] := ⟨by rw [Node.areQuiet], nofun, nofun, fun _ => rfl⟩

variable {args : List Node}

theorem Scope.ReadsAll.cons (first : scope.Reads S n)
    (others : scope.ReadsAll S args) : scope.ReadsAll S (n :: args) := by
  refine ⟨by rw [Node.areQuiet, first.quiet, others.quiet]; rfl, fun name member => ?_, fun access
    member => ?_, fun strict => ?_⟩
  · exact (List.mem_append.mp member).elim (first.names name) (others.names name)
  · exact (List.mem_append.mp member).elim (first.allows access) (others.allows access)
  · rw [Node.areLocal, first.own strict, others.own strict]
    rfl

/-- A function that makes no aggregator. -/
def IsPlain (fn : String) : Prop := fn ≠ Builtin.newHashAggregator ∧ fn ≠ Builtin.newTopKAggregator

theorem isPlain_name (fn : Func) : IsPlain fn.name := by
  cases fn with
  | unnamed code =>
    have starts : ∀ name : String, name.toList.head? ≠ some 'F' → (Func.unnamed code).name ≠ name := by
      rintro _ other rfl
      have parts : (Func.unnamed code).name = "Func(" ++ toString code ++ ")" := rfl
      rw [parts, String.toList_append, String.toList_append] at other
      exact other rfl
    exact ⟨starts _ (by decide), starts _ (by decide)⟩
  | _ => exact ⟨by decide, by decide⟩

theorem Scope.ReadsAll.call {fn : String} (plain : IsPlain fn) (reads : scope.ReadsAll S args) :
    scope.Reads S (.call fn args) := by
  refine ⟨by rw [Node.isQuiet]; exact reads.quiet, fun name member => reads.names name ?_, fun access
    member => reads.allows access ?_, fun strict => ?_⟩
  · exact member
  · exact member
  · simp [Node.isLocal, plain.1, plain.2, reads.own strict]

theorem Scope.ReadsAll.member {object : Node}
    (first : scope.Reads S object) (quiet : name ≠ Member.hasNext)
    (stays : name ≠ Member.next) (silent : ¬ (name = Member.getValue ∨ name = Member.isEndOfArray))
    (plain : name ≠ Member.describe) (reads : scope.ReadsAll S args) :
    scope.Reads S (.member object name args) := by
  refine ⟨by simp [Node.isQuiet, first.quiet, reads.quiet, quiet], fun other isName => ?_, fun access
    member => ?_, fun strict => by simp [Node.isLocal, first.own strict, reads.own strict, plain]⟩
  · exact (List.mem_append.mp isName).elim (first.names other) (reads.names other)
  · rw [Node.accesses, if_neg stays, if_neg silent, List.nil_append] at member
    exact (List.mem_append.mp member).elim (first.allows access) (reads.allows access)

/-- A step makes the code of an expression and answers with what reads its value. -/
abbrev ReadsValue (S : Terms) (ok : Prop) (step : Emit Node) : Prop :=
  ∀ (may : Nat → Prop) (scope : Scope), scope.Sane S →
    CodesAt S ok may step scope fun n later => later.Reads S n

mutual

theorem codesAt_codeOf {ok : Prop} : ∀ e : Expr, e.Fits S ok → ReadsValue S ok (codeOf e)
  | .absent, _, _, _, _ => .failWith
  | .var v, fits, _, scope, sane =>
    codesAt_valueOf v (fun strict => fits.clear strict v (List.mem_singleton.mpr rfl)) sane
  | .const c, _, _, scope, _ => by
    refine .lift (fun _ abort => by cases c <;> rintro ⟨⟩ ⟨⟩) fun n same => ⟨.refl scope, ?_⟩
    have isNode : literalOf c = .ok n := by
      cases isLiteral : literalOf c with
      | error cause =>
        rw [isLiteral] at same
        cases same
      | ok n' =>
        rw [isLiteral] at same
        exact congrArg Except.ok (Except.ok.inj same)
    obtain ⟨l, rfl⟩ := literalOf_isLiteral isNode
    exact reads_literal l
  | .call fn args loc, fits, may, scope, sane => by
    have called {ok : Prop} (fits : ∀ e ∈ args, e.Fits S ok) : CodesAt S ok may (do
        return Node.call fn.name (← codesOf args)) scope fun n later => later.Reads S n :=
      .bind (codesAt_codesOf args fits may scope sane) fun _ _ _ reads =>
        .pure (reads.call (isPlain_name fn))
    have plain (other : fn ≠ .fieldAccess) : ∀ e ∈ args, e.Fits S ok :=
      fits.args fun _ same => absurd same other
    unfold codeOf
    dsimp only
    split
    · exact .failWith
    · split
      · next op isOperator =>
        refine codesAt_pairCode _ op args (plain ?_) may scope sane
        rintro rfl
        cases isOperator
      · split
        · exact codesAt_notCode _ args (plain nofun) may scope sane
        · exact codesAt_foldCode _ _ args (plain nofun) may scope sane
        · exact codesAt_foldCode _ _ args (plain nofun) may scope sane
        · split
          · exact .failWith
          · refine Works.bind (Works.get (Works.drawArena (fun given => (given.2.current.declares _).2)
              fun name arena done => ?_))
            have declared : scope.Adds (scope.withArena arena) := adds_declareHere done
            have declares : Codes S may scope (scope.withArena arena) :=
              .declareHere (reads_literal _) done (.refl _)
            have introduced := introduces_declareHere done
            have isName := (Arena.declareHere_updates done).1
            refine CodesAt.run (codesAt_advanceArgs args (scope.withArena arena))
              (And.imp_right declares.intact) fun _ advanced
                (advances' : Codes S (fun n => may n ∨ n = scope.fn.arena.names) _ _) _ => ?_
            refine .get ?_
            have sane' := advances'.sane (sane.kept declared.later rfl rfl)
            have known : advanced.Knows (variableName scope.fn.arena.names) :=
              advances'.knows (.ofBlock .refl introduced)
            rw [isName]
            refine .bind (.mono (.given (codesAt_armsCode scope.fn.arena.names args
              (plain nofun) (fun n => may n ∨ n = scope.fn.arena.names) advanced sane' (.inr rfl) known)
              (And.imp_right fun intact => advances'.intact (declares.intact intact))) ?_)
            rintro _ last arms
            refine .bind (.modifying (.pure ⟨?_, ?_⟩))
            · exact .declareHere (reads_literal _) done (advances'.trans arms)
            · exact reads_ident (arms.knows known)
        · exact codesAt_itemAt _ (plain nofun)
        · refine .get ?_
          split
          · next isPath =>
            split
            · next has => exact (codesAt_readPath _ fun _ => has).mono fun _ _ => And.left
            · next missing =>
              refine .fail fun ⟨isOk, intact⟩ _ => Option.eq_none_iff_forall_not_mem.mpr fun s isGiven => ?_
              obtain rfl := intact.schema s isGiven
              have reads := (fits.taken isOk).registers _ isGiven
              unfold Plan.Schema.Registers at reads
              rw [Plan.Schema.reads, if_pos rfl,
                show scope.schema.pathOf? (.call .fieldAccess args loc) = _ from isPath] at reads
              exact missing (reads _ (.head _))
          · next noPath =>
            have fits : (Expr.call .fieldAccess args loc).Fits S (ok ∧ scope.Intact S) :=
              ⟨fun given => fits.taken given.1, fits.clear⟩
            exact .given (called (fits.args fun given _ s isGiven =>
              given.2.schema s isGiven ▸ noPath)) fun given => ⟨given, given.2⟩
        · next other => exact called (plain other)

theorem codesAt_codesOf {ok : Prop} : ∀ es : List Expr, (∀ e ∈ es, e.Fits S ok) → ∀ (may : Nat → Prop)
    (scope : Scope), scope.Sane S → CodesAt S ok may (codesOf es) scope fun ns later => later.ReadsAll S ns
  | [], _, _, _, _ => .pure readsAll_nil
  | e :: rest, fits, may, scope, sane => by
    refine .bind (codesAt_codeOf e (fits e (.head _)) may scope sane)
      fun first later codes reads => ?_
    refine .bind (codesAt_codesOf rest (List.forall_mem_cons.mp fits).2 may
      later (codes.sane sane)) fun others last more readsAll => ?_
    exact .pure (.cons (more.reads reads) readsAll)

theorem codesAt_pairCode {ok : Prop} (call : Call) (op : BinaryOp) : ∀ es : List Expr,
    (∀ e ∈ es, e.Fits S ok) → ReadsValue S ok (pairCode call op es)
  | [], _, _, _, _ => .failWith
  | [_], _, _, _, _ => .failWith
  | [left, right], fits, may, scope, sane => by
    unfold pairCode
    have continues (flag? : Option String) (scope : Scope) (sane : scope.Sane S)
        (known : KnowsFlag flag? scope) : CodesAt S ok may (do
        match flag? with
        | some flag => pure (if op = .eq then .not (.ident flag) else .ident flag)
        | none =>
          let l ← codeOf left
          let r ← codeOf right
          pure (.binary op l r) : Emit Node) scope fun n later => later.Reads S n := by
      split
      · next flag =>
        have isFlag : scope.Reads S _ := reads_ident (known flag rfl)
        refine .pure ?_
        split
        · exact isFlag.not
        · exact isFlag
      · refine .bind (codesAt_codeOf left (fits left (by simp)) may scope sane)
          fun l later codes first => ?_
        refine .bind (codesAt_codeOf right (fits right (by simp)) may later (codes.sane sane))
          fun r last more second => ?_
        exact .pure ((more.reads first).binary second)
    dsimp only
    split
    · exact .bind (codesAt_flagOf? left right scope) fun flag? later codes known =>
        continues flag? later (codes.sane sane) known
    · have none : CodesAt S ok may (pure none : Emit (Option String)) scope KnowsFlag :=
        .pure nofun
      exact .bind none fun flag? later codes known =>
        continues flag? later (codes.sane sane) known
  | _ :: _ :: _ :: _, _, _, _, _ => .failWith

theorem codesAt_notCode {ok : Prop} (call : Call) : ∀ es : List Expr, (∀ e ∈ es, e.Fits S ok) →
    ReadsValue S ok (notCode call es)
  | [], _, _, _, _ => .failWith
  | [e], fits, may, scope, sane =>
    .bind (codesAt_codeOf e (fits e (.head _)) may scope sane) fun _ _ _ reads =>
      .pure reads.not
  | _ :: _ :: _, _, _, _, _ => .failWith

theorem codesAt_foldCode {ok : Prop} (call : Call) (op : BinaryOp) : ∀ es : List Expr,
    (∀ e ∈ es, e.Fits S ok) → ReadsValue S ok (foldCode call op es)
  | [], _, _, _, _ => .failWith
  | e :: rest, fits, may, scope, sane => by
    exact .bind (codesAt_codeOf e (fits e (.head _)) may scope sane)
      fun first later codes reads => codesAt_foldCodeFrom op first rest
        (List.forall_mem_cons.mp fits).2 may later (codes.sane sane) reads

theorem codesAt_foldCodeFrom {ok : Prop} (op : BinaryOp) :
    ∀ (folded : Node) (es : List Expr), (∀ e ∈ es, e.Fits S ok) → ∀ (may : Nat → Prop)
      (scope : Scope), scope.Sane S → scope.Reads S folded →
      CodesAt S ok may (foldCodeFrom op folded es) scope fun n later => later.Reads S n
  | _, [], _, _, _, _, reads => .pure reads
  | folded, e :: rest, fits, may, scope, sane, reads => by
    exact .bind (codesAt_codeOf e (fits e (.head _)) may scope sane)
      fun next later codes second => codesAt_foldCodeFrom op (.binary op folded next) rest
        (List.forall_mem_cons.mp fits).2 may later (codes.sane sane)
        ((codes.reads reads).binary second)

theorem codesAt_armsCode {ok : Prop} (result : Nat) :
    ∀ es : List Expr, (∀ e ∈ es, e.Fits S ok) → ∀ (may : Nat → Prop) (scope : Scope), scope.Sane S →
      may result → scope.Knows (variableName result) →
      Works S (ok ∧ scope.Intact S) (armsCode (variableName result) es) scope fun _ later =>
        Codes S may scope (later.goto scope.current)
  | [], _, _, scope, _, _, _ => Works.pure (.refl scope)
  | [default], fits, may, scope, sane, allowed, known => by
    refine Works.mono (CodesAt.bind (codesAt_codeOf default (fits default (.head _)) may scope sane)
      fun value later codes reads => codesAt_emit (.set allowed (codes.knows known) reads)) ?_
    rintro _ last ⟨whole, _⟩
    have back : last.goto scope.current = last := by
      rw [← whole.adds.current]
      rfl
    rw [back]
    exact whole
  | cond :: value :: rest, fits, may, scope, sane, allowed, known => by
    refine CodesAt.run (codesAt_codeOf cond (fits cond (.head _)) may scope sane) id
      fun test tested tests reads => ?_
    replace known := tests.knows known
    replace sane := tests.sane sane
    rw [← tests.adds.current]
    refine Works.mono (Works.given ?_ (And.imp_right tests.intact)) fun _ later codes => tests.trans codes
    refine Works.get (Works.bind (works_openBlock (Works.bind (works_openBlock ?_))))
    rw [show ((tested.fn.arena.new _ _).2.blocks.size : Nat) = tested.fn.arena.blocks.size + 1 from
      Array.size_push _]
    refine Works.bind (works_emit (fun given => ((given.2.current.push _ _).1.push _ _).1)
      fun arena done => ?_)
    have linked := Linked.of_two (by decide) done sane.rooted.current
    have linkedSane : (tested.withArena arena).Sane S :=
      sane.kept (linked.adds fun _ => .refl).later rfl rfl
    obtain ⟨intoYes, _⟩ := linked.forks (.refl _)
    refine .bind (.modifying ?_)
    refine CodesAt.run (codesAt_codeOf value (fits value (by simp)) may _
      (linkedSane.goto (intoYes.later.rooted sane.rooted)))
      (And.imp_right fun intact => (linked.intact_forks (.refl _) reads.allows intact).1)
      fun assigned first codes readsValue => ?_
    have knownYes := codes.knows (known.kept intoYes ⟨rfl, rfl, rfl, rfl⟩)
    refine CodesAt.run (codesAt_emit (.set allowed knownYes readsValue)) (And.imp_right fun intact =>
      codes.intact (linked.intact_forks (.refl _) reads.allows intact).1) fun _ last sets _ => ?_
    have onYes := codes.trans sets
    obtain ⟨_, intoNo⟩ := linked.forks onYes.adds
    have same := onYes.sameLive
    have sameLive : tested.SameLive (last.goto (tested.fn.arena.blocks.size + 1)) :=
      ⟨same.values, same.flags, same.items, same.saved⟩
    refine .bind (.modifying ?_)
    refine .mono (.given (codesAt_armsCode result rest (fun e member => fits e
      (by simp [member])) may _ ?_ allowed (known.kept intoNo sameLive)) (And.imp_right fun intact =>
      have ⟨yes, no⟩ := linked.intact_forks onYes.adds reads.allows intact
      no (onYes.intact yes))) ?_
    · have yesSane := onYes.sane (linkedSane.goto (intoYes.later.rooted sane.rooted))
      exact yesSane.goto (intoNo.later.rooted sane.rooted)
    · rintro _ final arms
      have fork := Codes.fork reads rfl linked onYes arms
      exact fork

end

end Codes

end QueryFusion.Fusion

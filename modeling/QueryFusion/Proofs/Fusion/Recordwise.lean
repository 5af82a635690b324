import QueryFusion.Proofs.Fusion.Closing
import QueryFusion.Proofs.Plan.Pruned

/-!
# Functions that keep nothing between records

A function keeps nothing from one record to the next if its body is only the loop through the records,
it makes no aggregator and it asks for no metadata of a record. The compiler makes such code as long as
it fuses no aggregate and no group-by over several records and reads no metadata: flags of subplans and
accumulators of lists are then declared in the loop through the records.
-/

namespace QueryFusion.Fusion

open EStateM (EndsIn Keeps)
open Code
open Plan (OpId Operator Body)

variable {scope : Scope} {b : BlockId} {added : List Block} {f : ScanFunction}
variable {config : Plan.Config}

/-! ## Confined code -/

/-- The body of a function is only the loop through the records, and every statement is local. -/
structure Confined (body : BlockId) (arena : Arena) : Prop where
  bare : ∃ block, arena.blocks[body]? = some block ∧ block.parent = none ∧ block.front = [] ∧
    block.rest.length = 1
  alone : ∀ (b : BlockId) block, arena.blocks[b]? = some block → block.parent = some body →
    block.tag = .records ∧ block.overrides = []
  isLocal : ∀ (b : BlockId) block, arena.blocks[b]? = some block →
    ∀ s ∈ block.statements, s.isLocal = true

section confined

variable {body home : BlockId} {old new : Arena} {change : Block → Block} {s init : Node}
variable {name : String}

/-- A block with one more statement. -/
theorem mem_statements_append (block : Block) {block' : Block} {t : Node}
    (member : t ∈ block'.statements) (front : block'.front = block.front)
    (rest : block'.rest = block.rest ++ [s]) (tail : block'.tail = block.tail) : t ∈ block.statements ∨ t = s := by
  simp only [Block.statements, Block.head, front, rest, tail, List.mem_append,
    List.mem_singleton] at member ⊢
  tauto

theorem Confined.rewrites (confined : Confined body old) (rewrites : Rewrites b change old new)
    (apart : b ≠ body) (parent : ∀ block, (change block).parent = block.parent)
    (tag : ∀ block, (change block).tag = block.tag)
    (overrides : ∀ block, old.blocks[b]? = some block → block.parent = some body →
      (change block).overrides = block.overrides)
    (own : ∀ block, ∀ s ∈ (change block).statements, s ∈ block.statements ∨ s.isLocal = true) :
    Confined body new where
  bare := by
    obtain ⟨block, here, bare⟩ := confined.bare
    exact ⟨block, by rw [rewrites.blocks body block here, if_neg (Ne.symm apart)], bare⟩
  alone := by
    intro i block here isParent
    obtain ⟨before, there, rfl⟩ := rewrites.before here
    split at isParent
    · next same =>
      subst same
      rw [parent] at isParent
      rw [if_pos rfl, tag, overrides before there isParent]
      exact confined.alone i before there isParent
    · next other =>
      rw [if_neg other]
      exact confined.alone i before there isParent
  isLocal := by
    intro i block here s member
    obtain ⟨before, there, rfl⟩ := rewrites.before here
    split at member
    · exact (own before s member).elim (confined.isLocal i before there s) id
    · exact confined.isLocal i before there s member

theorem Confined.appendHead (confined : Confined body old) (apart : b ≠ body) (own : s.isLocal = true)
    (done : old.appendHead b s = .ok new) : Confined body new := by
  refine confined.rewrites (rewrites_of_updates (Arena.appendHead_updates done)) apart (fun _ => rfl)
    (fun _ => rfl) (fun _ _ _ => rfl) fun block t member => ?_
  exact (mem_statements_append block member rfl rfl rfl).imp_right (by rintro rfl; exact own)

theorem Confined.declareHere (confined : Confined body old) (apart : b ≠ body)
    (own : init.isLocal = true) (done : old.declareHere b init = .ok (name, new)) :
    Confined body new := by
  refine confined.rewrites (rewrites_of_updates (Arena.declareHere_updates done).2) apart
    (fun _ => rfl) (fun _ => rfl) (fun _ _ _ => rfl) fun block t member => ?_
  exact (mem_statements_append block member rfl rfl rfl).imp_right (by rintro rfl; exact own)

theorem Confined.declare (confined : Confined body old) (apart : b ≠ body)
    (own : init.isLocal = true) (done : old.declare b init = .ok (name, new)) :
    Confined body new := by
  refine confined.rewrites (rewrites_of_updates (Arena.declare_updates done).2) apart
    (fun _ => rfl) (fun _ => rfl) (fun _ _ _ => rfl) fun block t member => ?_
  rcases List.mem_cons.mp member with rfl | old
  · exact .inr own
  · exact .inl old

theorem Confined.linked (confined : Confined body old) (linked : Linked old new home s added)
    (apart : home ≠ body) (own : s.isLocal = true)
    (news : ∀ block ∈ added, ∀ t ∈ block.statements, t.isLocal = true) : Confined body new where
  bare := by
    obtain ⟨block, here, bare⟩ := confined.bare
    exact ⟨block, by rw [linked.kept body block here, if_neg (Ne.symm apart)], bare⟩
  alone := by
    intro i block here isParent
    rcases linked.cases here with ⟨before, there, rfl⟩ | ⟨_, isAdded⟩
    · split at isParent
      · next same =>
        rw [if_pos same]
        exact confined.alone i before there isParent
      · next other =>
        rw [if_neg other]
        exact confined.alone i before there isParent
    · rw [(linked.fresh block isAdded).1] at isParent
      exact absurd (Option.some.inj isParent) apart
  isLocal := by
    intro i block here t member
    rcases linked.cases here with ⟨before, there, rfl⟩ | ⟨_, isAdded⟩
    · split at member
      · exact (mem_statements_append before member rfl rfl rfl).elim (confined.isLocal i before there t) (· ▸ own)
      · exact confined.isLocal i before there t member
    · exact news block isAdded t member

/-- A new block is not the body. -/
theorem Confined.apart (confined : Confined body old) (late : old.blocks.size ≤ b) : b ≠ body := by
  obtain ⟨block, here, _⟩ := confined.bare
  exact (Nat.lt_of_lt_of_le (Array.inside here) late).ne'

end confined

/-! ## Traces that stay in the loop through the records -/

/-- Code goes on in the loop through the records, and writes rows there. -/
structure Scope.Recordwise (scope : Scope) : Prop where
  confined : Confined scope.fn.body scope.fn.arena
  inside : scope.current ≠ scope.fn.body
  emitters : scope.emitters = []

theorem Scope.Recordwise.apart (recordwise : scope.Recordwise) : scope.Apart where
  current := recordwise.inside
  loops := by
    rintro u b block here isUnnest parent rfl
    rw [(recordwise.confined.alone u block here parent).1] at isUnnest
    cases isUnnest

theorem Scope.Recordwise.goto (recordwise : scope.Recordwise) (apart : b ≠ scope.fn.body) :
    (scope.goto b).Recordwise :=
  ⟨recordwise.confined, apart, recordwise.emitters⟩

/-- Code goes into a new block. -/
theorem Scope.Recordwise.linked {arena : Arena} {s : Node} (recordwise : scope.Recordwise)
    (linked : Linked scope.fn.arena arena scope.current s added) (own : s.isLocal = true)
    (news : ∀ block ∈ added, ∀ t ∈ block.statements, t.isLocal = true)
    (late : scope.fn.arena.blocks.size ≤ b) : ((scope.withArena arena).goto b).Recordwise :=
  ⟨recordwise.confined.linked linked recordwise.inside own news, recordwise.confined.apart late,
    recordwise.emitters⟩

section traces

variable {S : Terms} {may : Nat → Prop} {later : Scope} (strict : S.strict)

include strict

theorem Codes.recordwise (codes : Codes S may scope later) : scope.Recordwise → later.Recordwise := by
  induction codes with
  | refl => exact id
  | trans _ _ first second => exact fun own => second (first own)
  | notes | memo | reader => exact fun own => ⟨own.confined, own.inside, own.emitters⟩
  | advance _ steps binds =>
    intro own
    have stepped := own.confined.appendHead own.inside rfl steps
    exact ⟨stepped.rewrites (rewrites_of_updates (Arena.bind_updates binds)) own.inside (fun _ => rfl)
      (fun _ => rfl) (fun _ _ _ => rfl) fun _ _ => .inl, own.inside, own.emitters⟩
  | @redirect _ scope home b block _ _ _ _ _ isOpen isParent _ _ here counts declares redirects =>
    intro own
    obtain ⟨_, here', parent⟩ := isParent
    cases here.symm.trans here'
    have apart : home ≠ scope.fn.body := by
      rintro rfl
      rw [(own.confined.alone b block here parent).2] at counts
      cases counts
    have below : b ≠ scope.fn.body := by
      rintro rfl
      obtain ⟨_, there, isTop, _⟩ := own.confined.bare
      cases here.symm.trans there
      cases isTop.symm.trans parent
    have declared := own.confined.declare apart rfl declares
    refine ⟨declared.rewrites (rewrites_update redirects) below (fun _ => rfl) (fun _ => rfl)
      (fun after there isTop => ?_) fun _ _ => .inl, own.inside, own.emitters⟩
    obtain ⟨after', there', grows⟩ := (Arena.declare_updates declares).2.extends'.grown b block here
    cases there.symm.trans there'
    rw [grows.parent, parent] at isTop
    exact absurd (Option.some.inj isTop) apart
  | emit simple done =>
    intro own
    refine ⟨own.confined.appendHead own.inside ?_ done, own.inside, own.emitters⟩
    cases simple with
    | expr reads => exact reads.own strict
    | leave => rfl
    | set _ _ reads => exact reads.own strict
  | declareHere reads done _ ih =>
    exact fun own => ih ⟨own.confined.declareHere own.inside (reads.own strict) done, own.inside,
      own.emitters⟩
  | fork reads _ linked yesCodes noCodes onYes onNo =>
    intro own
    have first := onYes (own.linked linked (reads.own strict) (by simp [Block.statements, Block.head])
      le_rfl)
    have body := yesCodes.adds.later.body
    have last := onNo (first.goto (body ▸ own.confined.apart (Nat.le_succ _)))
    exact last.goto ((noCodes.adds.later.body.trans body).symm ▸ own.inside)

theorem Makes.recordwise (makes : Makes S may scope later) : scope.Recordwise → later.Recordwise := by
  induction makes with
  | code codes => exact codes.recordwise strict
  | trans _ _ first second => exact fun own => second (first own)
  | frame adds fn _ _ _ _ _ emitters =>
    intro own
    refine ⟨?_, ?_, (emitters strict).trans own.emitters⟩
    · rw [fn]
      exact own.confined
    · rw [adds.current, fn]
      exact own.inside
  | declare _ _ _ _ isOwn done _ ih =>
    exact fun own => ih ⟨own.confined.declare (isOwn strict).2 (isOwn strict).1 done, own.inside,
      own.emitters⟩
  | enter opens linked =>
    intro own
    cases opens with
    | select reads =>
      exact ⟨own.confined.linked linked own.inside (reads.own strict)
        (by simp [Block.statements, Block.head]), own.confined.apart le_rfl, own.emitters⟩
    | stepping =>
      exact ⟨own.confined.linked linked own.inside rfl
        (by simp [Block.statements, Block.head]; rfl), own.confined.apart le_rfl, own.emitters⟩
  | count _ copies positions linked =>
    intro own
    have positioned := (own.confined.declareHere own.inside rfl copies).declareHere own.inside rfl
      positions
    exact ⟨positioned.linked linked own.inside rfl (by simp [Block.statements, Block.head]; rfl),
      own.confined.apart le_rfl, own.emitters⟩
  | keep reads readsKey readsItem _ _ _ _ _ linked =>
    intro own
    refine ⟨own.confined.linked linked own.inside (reads.own strict) ?_, own.inside, own.emitters⟩
    simp only [Block.statements, Block.head, List.nil_append, List.append_nil, List.mem_cons,
      List.not_mem_nil, or_false, forall_eq_or_imp, forall_eq]
    exact ⟨readsKey.own strict, readsItem.own strict⟩
  | @nested _ scope inner makes inside =>
    intro own
    have within := inside ⟨own.confined, own.inside, own.emitters⟩
    refine ⟨within.confined, ?_, within.emitters⟩
    exact makes.enters.later.body.symm ▸ own.inside

theorem Builds.recordwise (builds : Builds S scope later) : scope.Recordwise → later.Recordwise := by
  induction builds with
  | make makes => exact makes.recordwise strict
  | trans _ _ first second => exact fun own => second (first own)
  | @group scope second outer _ _ third _ _ isOwn declares inside _ sets linked =>
    intro own
    have apart := isOwn strict
    have inner := inside.recordwise strict
      ⟨own.confined.declare apart rfl declares, own.inside, own.emitters⟩
    have set := inner.confined.appendHead inner.inside rfl sets
    have body : second.fn.body = scope.fn.body := inside.enters.later.body
    exact ⟨set.linked linked (body ▸ apart) rfl (by simp [Block.statements, Block.head]),
      set.apart le_rfl, inner.emitters⟩
  | toBody _ lax => exact absurd strict lax
  | atBody lax => exact absurd strict lax

end traces

theorem opened_recordwise (scan : OpId) (dataset : String) (vars : List Var) (schema : Plan.Schema) :
    (Scope.opened scan dataset vars schema).Recordwise where
  confined :=
    { bare := ⟨_, rfl, rfl, rfl, rfl⟩
      alone := by
        intro b block here isParent
        obtain ⟨⟨_, top⟩ | ⟨_, top⟩ | ⟨rfl, _⟩, _⟩ := emptyFunction_block here
        · cases top.symm.trans isParent
        · cases top.symm.trans isParent
        · cases here
          exact ⟨rfl, rfl⟩
      isLocal := by
        intro b block here s member
        obtain ⟨_, front, tail, _, _, rest⟩ := emptyFunction_block here
        by_cases isBody : b = 1
        · subst isBody
          cases here
          cases List.mem_singleton.mp member
          rfl
        · rw [Block.statements, Block.head, front, tail, rest isBody] at member
          cases member }
  inside := (by decide : (2 : BlockId) ≠ 1)
  emitters := rfl

/-! ## Group-bys -/

section groups

variable {S : Terms} {topK : Option TopK}
variable {keys : List Plan.Binding} {aggregate : NestedAggregate}

theorem yields_groupBest : Yields (groupBest topK keys aggregate) scope fun fused later =>
    if fused then topK.isSome = true else later = scope := by
  unfold groupBest
  split
  · split
    · split
      · exact .bind fun _ _ _ => .bind fun _ _ _ => .bind fun _ _ _ =>
          .bind fun _ _ _ => .bind fun _ _ _ => .bind fun _ _ _ => .pure rfl
      · exact .pure rfl
    · exact .pure rfl
  · exact .pure rfl

theorem yields_groupByHash : Yields (groupByHash config keys aggregate) scope fun fused later =>
    fused = false → later = scope := by
  unfold groupByHash
  split
  · split
    · exact .pure fun _ => rfl
    · exact .bind fun _ _ _ => .bind fun _ _ _ => .bind fun _ _ _ =>
        .bind fun _ _ _ => .bind fun _ _ _ => .bind fun _ _ _ => .pure nofun
  · exact .pure fun _ => rfl

theorem builds_groupLocally (fits : aggregate.Fits S False)
    (fitsKeys : ∀ key ∈ keys, key.expr.Fits S False) (sane : scope.Sane S)
    (apart : S.strict → scope.Apart) :
    Yields (groupLocally config topK keys aggregate) scope fun answer later =>
      (∀ grouping, answer = some grouping → grouping = .perRecord) → Builds S scope later := by
  refine .bind ((buildsAt_groupPerRecord fits fitsKeys sane apart).yields.mono
    fun fused first ⟨builds, _⟩ => ?_)
  split
  · exact .pure fun _ => builds
  · refine .bind (yields_groupBest.mono fun best second told => ?_)
    split
    · next isBest =>
      rw [if_pos isBest] at told
      obtain ⟨k, rfl⟩ := Option.isSome_iff_exists.mp told
      exact .pure fun perRecord => absurd (perRecord _ rfl) nofun
    · next isOther =>
      rw [if_neg isOther] at told
      subst told
      refine .bind (yields_groupByHash.mono fun hashed third told => ?_)
      split
      · exact .pure fun perRecord => absurd (perRecord _ rfl) nofun
      · next isRefused => exact .pure fun _ => told (by simpa using isRefused) ▸ builds

end groups

/-! ## Plans fused record by record -/

/-- Whether a note tells of a group-by over several records. -/
def Note.isAcross : Note → Bool
  | .grouped _ .perRecord _ => false
  | .grouped .. => true
  | _ => false

/-- No aggregate of a plan was fused, and no group-by but record by record. -/
structure FusesByRecord (plan after : Plan) (notes : List Note) : Prop where
  aggregates : ∀ op o vars calls isGlobal, plan.ops[op]? = some o →
    o.body = .aggregate vars calls isGlobal → ¬ plan.Bypassed after op
  groupings : ∀ note ∈ notes, note.isAcross = false

/-- The code for a scan depends on one record only, and not on its metadata. -/
def recordTerms (plan : Plan) (scan : OpId) : Terms where
  strict := True
  hides id := id ∈ (plan.metadata scan).map Var.id

section states

variable {plan after before : Plan} {scan : OpId} {notes fewer : List Note} {st st' : State}
variable {later : Scope}

theorem FusesByRecord.earlier (byRecord : FusesByRecord plan after notes)
    (stays : ∀ op, plan.Bypassed before op → plan.Bypassed after op) (isFewer : fewer ⊆ notes) :
    FusesByRecord plan before fewer :=
  ⟨fun op o vars calls isGlobal found isBody bypassed =>
    byRecord.aggregates op o vars calls isGlobal found isBody (stays op bypassed),
    fun note member => byRecord.groupings note (isFewer member)⟩

/-- The code of a scope was made under the terms of its scan. -/
def Scope.OwnCode (plan : Plan) (scan : OpId) (scope : Scope) : Prop :=
  ∃ dataset vars schema, vars.tail = plan.metadata scan ∧
    Builds (recordTerms plan scan) (.opened scan dataset vars schema) scope

theorem Scope.OwnCode.sane (own : scope.OwnCode plan scan) : scope.Sane (recordTerms plan scan) := by
  obtain ⟨dataset, vars, schema, metadata, builds⟩ := own
  exact (builds.kept (opened_sane scan dataset vars schema fun _ v member =>
    List.mem_map_of_mem (metadata ▸ member))).2

theorem Scope.OwnCode.recordwise (own : scope.OwnCode plan scan) : scope.Recordwise := by
  obtain ⟨dataset, vars, schema, _, builds⟩ := own
  exact builds.recordwise trivial (opened_recordwise scan dataset vars schema)

theorem Scope.OwnCode.trans (own : scope.OwnCode plan scan)
    (builds : Builds (recordTerms plan scan) scope later) : later.OwnCode plan scan := by
  obtain ⟨dataset, vars, schema, metadata, first⟩ := own
  exact ⟨dataset, vars, schema, metadata, first.trans builds⟩

/-- The code of a function was made under the terms of a scan and then sealed. -/
def ScanFunction.OwnCode (plan : Plan) (scan : OpId) (f : ScanFunction) : Prop :=
  ∃ done final, done.OwnCode plan scan ∧ Sealed done final ∧ f.fn = final.fn

theorem Scope.OwnCode.completed (own : scope.OwnCode plan scan) (sane : scope.Sane {})
    (completed : Completed scope f)
    (shown : ∀ v ∈ f.outputs, v.id ∉ (plan.metadata scan).map Var.id) : f.OwnCode plan scan := by
  obtain ⟨last, output, frozen, _, outputs⟩ := completed
  have rows : scope.OwnRows (recordTerms plan scan) := by
    rw [outputs, writeOutput_outputs sane output] at shown
    exact fun _ => ⟨shown, own.recordwise.emitters⟩
  obtain ⟨done, wrote, isSealed⟩ := sealed_of_writeOutput output frozen fun later wrote =>
    ((builds_writeRows own.sane rows wrote).kept own.sane).1.body
  exact ⟨done, _, own.trans (builds_writeRows own.sane rows wrote), isSealed, rfl⟩

/-- As long as a plan is fused record by record, the code for a scan keeps to a record. -/
structure OwnCode (plan : Plan) (scan : OpId) (st : State) : Prop where
  pruned : plan.Pruned st.draft.plan
  scope : ∀ scope, st.scope = some scope → scope.Sane {} ∧
    (FusesByRecord plan st.draft.plan st.notes → scope.scan = scan → scope.OwnCode plan scan)
  functions : FusesByRecord plan st.draft.plan st.notes → ∀ f ∈ st.functions, f.scan = scan →
    (∀ v ∈ f.outputs, v.id ∉ (plan.metadata scan).map Var.id) → f.OwnCode plan scan

theorem Marks.retouched (marks : Marks before f after) : Plan.Retouched before after := by
  obtain ⟨dataset, vars, function, outputs, inputs, isScan, marked⟩ := marks
  intro i
  rw [marked]
  split
  · next same =>
    subst same
    exact .inr ⟨_, _, _, isScan, rfl, .marked⟩
  · exact .inl rfl

namespace OwnCode

theorem step (own : OwnCode plan scan st) (pruned : plan.Pruned st'.draft.plan)
    (stays : ∀ op, plan.Bypassed st.draft.plan op → plan.Bypassed st'.draft.plan op)
    (tells : st.notes ⊆ st'.notes) (functions : st'.functions = st.functions)
    (scope : ∀ later, st'.scope = some later → later.Sane {} ∧
      (FusesByRecord plan st'.draft.plan st'.notes → FusesByRecord plan st.draft.plan st.notes →
        later.scan = scan → later.OwnCode plan scan)) : OwnCode plan scan st' :=
  ⟨pruned, fun later isOpen => (scope later isOpen).imp_right fun mine byRecord =>
    mine byRecord (byRecord.earlier stays tells),
    fun byRecord => functions ▸ own.functions (byRecord.earlier stays tells)⟩

/-- A step that edits the plan. -/
theorem edited (own : OwnCode plan scan st) {draft : Plan.Draft} (pruned : plan.Pruned draft.plan)
    (stays : ∀ op, plan.Bypassed st.draft.plan op → plan.Bypassed draft.plan op) :
    OwnCode plan scan { st with draft } :=
  own.step pruned stays (List.Subset.refl _) rfl fun later isOpen =>
    (own.scope later isOpen).imp_right fun mine _ => mine

/-- The operators of the draft read nothing hidden. -/
theorem fits (own : OwnCode plan scan st) (unread : plan.Unread (plan.metadata scan)) :
    st.draft.plan.Fits (recordTerms plan scan) False := by
  intro id o found
  obtain ⟨first, isFirst, stems⟩ := own.pruned.stems id o found
  exact ⟨nofun, fun _ e member => unread first (Array.mem_of_getElem? isFirst) e (stems.uses member)⟩

theorem invariant (s : Setting) (unread : plan.Unread (plan.metadata scan)) :
    Invariant s { mode := .strict, known := plan.Originates } (OwnCode plan scan) fun _ _ => True where
  sure := nofun
  loses _ _ _ _ := trivial
  fails _ _ _ _ := trivial
  knows st id o own := own.pruned.stems id o
  same st st' draft scope functions notes own :=
    own.step (draft ▸ own.pruned) (fun _ => draft ▸ id) notes functions fun later isOpen =>
      (own.scope later (scope ▸ isOpen)).imp_right fun mine _ => mine
  emits {_ _ st scope a later} emits own isOpen done := by
    obtain ⟨sane, mine⟩ := own.scope scope isOpen
    obtain ⟨later', sane'⟩ := (emits.traces sane done).kept sane
    refine own.step own.pruned (fun _ => id) (List.Subset.refl _) rfl fun open' same => ?_
    cases same
    refine ⟨sane', fun _ byRecord isScan => ?_⟩
    have mine := mine byRecord (later'.scan.symm.trans isScan)
    exact mine.trans ((emits (fun _ => rfl) nofun (own.fits unread)).trace mine.sane
      (fun _ => mine.recordwise.apart) done)
  aggregates _ {op consumer vars calls isGlobal st scope later} known own isOpen done := by
    refine .of_ok fun _ st' ended => ?_
    obtain ⟨draft, removed, rfl⟩ := onDraft_eq_ok ended
    obtain ⟨pruned, bypassed⟩ := own.pruned.removed removed
    have emits : Emits {} False (emitAggregates vars calls) := .aggregates id nofun fun _ _ => .any
    have sane := (own.scope scope isOpen).1
    refine own.step pruned (fun _ => own.pruned.stays_bypassed removed) (List.Subset.refl _) rfl
      fun open' same => ?_
    cases same
    refine ⟨((emits.trace sane nofun done).kept sane).2, fun byRecord => ?_⟩
    obtain ⟨o, found, stems⟩ := known
    have isBody : o.body = .aggregate vars calls isGlobal := by
      cases isBody : o.body <;> rw [isBody] at stems <;> cases stems
      rfl
    exact absurd bypassed (byRecord.aggregates op o vars calls isGlobal found isBody)
  groups _ {config topK keys aggregate st scope answer later} fits own isOpen done := by
    obtain ⟨sane, mine⟩ := own.scope scope isOpen
    have emits : Emits {} False (groupLocally config topK keys aggregate) :=
      .groups id _ _ ⟨nofun, fun _ _ => .any⟩ fun _ _ => .any
    obtain ⟨later', sane'⟩ := (emits.trace sane nofun done).kept sane
    have grouped (byRecord : FusesByRecord plan st.draft.plan st.notes) (isScan : later.scan = scan)
        (perRecord : ∀ grouping, answer = some grouping → grouping = .perRecord) :
        later.OwnCode plan scan := by
      have mine := mine byRecord (later'.scan.symm.trans isScan)
      obtain ⟨fitsKeys, fits⟩ := fits _ (own.fits unread)
      exact mine.trans (builds_groupLocally fits fitsKeys mine.sane (fun _ => mine.recordwise.apart)
        answer later done perRecord)
    constructor
    · rintro rfl
      refine own.step own.pruned (fun _ => id) (List.Subset.refl _) rfl fun open' same => ?_
      cases same
      exact ⟨sane', fun _ byRecord isScan => grouped byRecord isScan nofun⟩
    · rintro grouping rfl
      refine own.step own.pruned (fun _ => id) (List.subset_append_left _ _) rfl fun open' same => ?_
      cases same
      refine ⟨sane', fun after byRecord isScan => grouped byRecord isScan fun _ isSome => ?_⟩
      cases isSome
      have told := after.groupings _ (List.mem_append_right _ (List.mem_singleton_self _))
      cases grouping with
      | perRecord => rfl
      | best | hash => cases told
  removes op consumer _ _ st own := by
    refine .of_ok fun _ st' ended => ?_
    obtain ⟨draft, removed, rfl⟩ := onDraft_eq_ok ended
    exact own.edited (own.pruned.removed removed).1 fun _ => own.pruned.stays_bypassed removed
  unbinds op i st own _ := by
    refine .of_ok fun _ st' ended => ?_
    obtain ⟨draft, removed, rfl⟩ := onDraft_eq_ok ended
    have retouched := Plan.retouched_removeBinding removed
    exact ⟨own.edited (retouched.pruned own.pruned) fun _ => retouched.bypassed, nofun⟩
  drops st own := own.step own.pruned (fun _ => id) (List.Subset.refl _) rfl nofun
  completes st scope own isOpen := by
    refine .of_ok fun _ st' ended => ?_
    obtain ⟨f, completed, marks, same⟩ := finalize_eq_ok ended
    have retouched := marks.retouched
    have before (byRecord : FusesByRecord plan st'.draft.plan st'.notes) :
        FusesByRecord plan st.draft.plan st.notes :=
      byRecord.earlier (fun _ => retouched.bypassed) fun _ member => by
        rw [same]
        exact member
    refine ⟨retouched.pruned own.pruned, fun open' isOpen' => ?_, fun byRecord g member => ?_⟩
    · rw [same] at isOpen'
      cases isOpen'
    · rw [same] at member
      rcases List.mem_append.mp member with old | isNew
      · exact own.functions (before byRecord) g old
      · rw [List.mem_singleton.mp isNew]
        intro isScan shown
        obtain ⟨sane, mine⟩ := own.scope scope isOpen
        have sameScan : f.scan = scope.scan := by
          obtain ⟨_, output, _, isLast, _⟩ := completed
          rw [isLast, writeOutput_scan sane output]
        exact (mine (before byRecord) (sameScan.symm.trans isScan)).completed sane completed shown
  opens scan' dataset vars function outputs schema st _ known _ own := by
    refine own.step own.pruned (fun _ => id) (List.Subset.refl _) rfl fun later same => ?_
    cases same
    refine ⟨opened_sane scan' dataset vars schema nofun, fun _ _ isScan => ?_⟩
    cases isScan
    exact ⟨dataset, vars, schema, known.metadata.symm, .make (.code (.refl _))⟩
  below _ _ _ _ _ _ _ _ := trivial

end OwnCode

end states

theorem compile_ownCode {plan : Plan} {root : OpId} {catalog : Plan.Catalog}
    {schemas : Option Plan.Schemas} {stem : String} {functions : List ScanFunction}
    (compiled : (compile plan root config catalog schemas stem).result = .ok functions)
    (isFunction : f ∈ functions)
    (byRecord : FusesByRecord plan (compile plan root config catalog schemas stem).plan
      (compile plan root config catalog schemas stem).notes)
    (unread : plan.Unread (plan.metadata f.scan))
    (unwritten : ∀ v ∈ f.outputs, v.id ∉ (plan.metadata f.scan).map Var.id) :
    f.OwnCode plan f.scan := by
  unfold compile at compiled byRecord
  dsimp only at compiled byRecord
  split at compiled
  · cases compiled
  · next s isSetting =>
    simp only [isSetting] at byRecord
    obtain ⟨st, ended, rfl, shapes, notes⟩ := finish_eq_ok compiled
    have start : OwnCode plan f.scan { draft := { plan } } :=
      ⟨.refl plan, nofun, fun _ => nofun⟩
    have own := ((OwnCode.invariant s unread).compileAll trivial).ok start ended
    have retouched : Plan.Retouched st.draft.plan _ := fun i => .inl (shapes i)
    exact own.functions (byRecord.earlier (fun _ => retouched.bypassed) notes) f isFunction rfl unwritten

end QueryFusion.Fusion

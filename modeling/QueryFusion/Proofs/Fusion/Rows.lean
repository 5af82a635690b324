import QueryFusion.Proofs.Fusion.Bindings

/-!
# Selecting and writing rows

A select guards the code that comes after it. Where a tuple has passed all operators, the values of
the outputs are written as a row; rows and groups are outside of what code can read.
-/

namespace QueryFusion

open Code

/-- Machines that differ in what they have written or grouped only. -/
def Engine.Machine.Alike (m m' : Machine) : Prop :=
  ∃ hashes topKs written flushed, m.hashes.size ≤ hashes.size ∧ m.topKs.size ≤ topKs.size ∧
    m' = { m with hashes, topKs, written, flushed }

theorem Engine.Machine.Alike.frame {m m' : Machine} (alike : m.Alike m') (written : Nat → Prop) :
    m.Frame written m' := by
  obtain ⟨hashes, topKs, written', flushed, _, _, rfl⟩ := alike
  exact ⟨fun _ _ => rfl, fun _ => id, rfl, rfl⟩

namespace Fusion

open Engine

section alike

variable {D : Path → Prop} {final scope later : Scope} {may : Nat → Prop} {spot : Spot}
variable {m m' : Machine} {hidden : Nat → Prop} {seen : Expr → Prop} {known : Expr → Option Value}
variable {accepted : RunError → Prop}

theorem Ready.alike (ready : Ready final scope spot m) (alike : m.Alike m') :
    Ready final scope spot m' := by
  obtain ⟨hashes, topKs, written, flushed, moreHashes, moreTopKs, rfl⟩ := alike
  obtain ⟨⟨wired, record, ordinal⟩, reads, declared⟩ := ready
  refine ⟨⟨{ wired with }, record, ordinal⟩, reads, ?_⟩
  intro b n init isOpen declares
  obtain ⟨v, found, suits⟩ := declared b n init isOpen declares
  exact ⟨v, found, fun makes => (suits makes).mono moreHashes moreTopKs⟩

end alike

/-! ## Selects -/

section selects

variable {D : Path → Prop} {final scope later : Scope} {may : Nat → Prop} {spot : Spot}
variable {m m' : Machine} {hidden : Nat → Prop} {seen : Expr → Prop} {known : Expr → Option Value}
variable {accepted : RunError → Prop} {v : Var}

/-- A condition is true of given values. -/
def Passing (cond : Expr) (known : Expr → Option Value) : Prop :=
  ∃ c, cond.value? known = some c ∧ c.truth = true

theorem sim_selectOn {α : Type} {next : Emit α} {cond : Expr} (pre : Prop)
    {fact : Scope → α → Scope → Prop} {post : α → Scope → Flow → Machine → Prop}
    (domain : ∀ e, (known e).isSome ↔ seen e) (sound : Sound D scope)
    (inScope : InScope D scope hidden seen) (within : cond.Within seen)
    (reads : scope.schema.Reads D cond) (isNew : ∀ n, scope.New n → may n)
    (tolerant : Tolerates (cond.value? known) accepted)
    (skip : ∀ inner a later c m', fact inner a later → pre → cond.value? known = some c →
      c.truth = false → m.Still m' → m.Frame (fun n => n < inner.fn.arena.names) m' →
      post a later .proceed m')
    (taken : ∀ inner m', Sound D inner → InScope D inner hidden seen →
      scope.Step D inner → scope.Remembers inner →
      scope.fn.arena.blocks.size ≤ inner.current →
      Sim D final may spot next inner m' (pre ∧ m.Still m' ∧
        m.Frame (fun n => n < inner.fn.arena.names) m' ∧ Live inner spot hidden seen known m' ∧
        Passing cond known) (fact inner) post fun cause => Passing cond known → accepted cause) :
    Sim D final may spot (do selectOn cond; next) scope m (pre ∧ Live scope spot hidden seen known m)
      (fun a later => ∃ inner, fact inner a later) post accepted := by
  have shape : (do selectOn cond; next : Emit α) = (do
      let test ← codeOf cond
      let here ← get
      let yes ← openBlock here.current .select
      emit (.branch test yes emptyBlock)
      moveTo yes
      next) := by
    unfold selectOn
    simp only [bind_assoc]
  rw [shape]
  refine .then (sim_codeOf (inScope.unknown_call domain) cond within reads accepted hidden scope m
    tolerant sound inScope rfl) sound isNew And.right fun test first m₁ sound₁ step adds made _ => ?_
  let entered (a : α) (later : Scope) : Prop := ∃ inner : Scope,
    first.fn.arena.names ≤ inner.fn.arena.names ∧ fact inner a later
  have weaker : ∀ a later, entered a later → ∃ inner, fact inner a later :=
    fun _ _ ⟨inner, _, held⟩ => ⟨inner, held⟩
  refine Sim.get ((Sim.branch (by decide) (Answers (cond.value? known)) sound₁ ?_ ?_ ?_ ?_).mono id weaker
    (fun _ _ _ _ _ _ => id) fun _ => id)
  · rintro completes ready ⟨_, _, _, _, carries⟩
    obtain ⟨answer, isAnswer, stable⟩ := carries.stable
    exact ⟨answer, isAnswer, stable.apply completes ready⟩
  · rintro cause _ isAnswer
    obtain ⟨ofCall, isNone⟩ := isAnswer.error rfl
    exact tolerant isNone cause ofCall
  · rintro a later c ⟨inner, names, held⟩ ⟨⟨begins, _⟩, frame, _, still, _⟩ isAnswer isFalse
    exact skip inner a later c m₁ held begins isAnswer.same.symm isFalse still
      (frame.mono fun n written => written.2.1.trans_le names)
  · intro inner sound₂ steps same isNew₂ fresh
    have remembers := same.remembers steps.enters.later
    have whole : scope.Remembers inner := made.remembers.trans remembers (.inl made.current)
    have isNew₃ : scope.fn.arena.blocks.size ≤ inner.current :=
      made.remembers.size.trans isNew₂
    refine ((taken inner m₁ sound₂ (inScope.remembers whole) (step.append steps made.current) whole
      isNew₃).when _ fun held => held.2.2.2.2).mono ?_
      (fun _ _ held => ⟨inner, remembers.names, held⟩) (fun _ _ _ _ _ _ => id) fun _ => id
    rintro ⟨⟨⟨begins, _⟩, frame, _, still, carries⟩, c, isAnswer, isTrue⟩
    refine ⟨begins, still, frame.mono ?_, ?_, c, isAnswer.same.symm, isTrue⟩
    · exact fun n written => written.2.1.trans_le remembers.names
    refine carries.live.enter (inScope.remembers made.remembers) remembers steps.enters.later
      sound₁.rooted fresh isNew₂ ?_
    intro v memo found isAdded
    rw [same] at found
    exact absurd found isAdded

end selects

/-! ## Rows -/

section rows

variable {D : Path → Prop} {final scope later : Scope} {may : Nat → Prop} {spot : Spot}
variable {m m' : Machine} {hidden : Nat → Prop} {seen : Expr → Prop} {known : Expr → Option Value}
variable {accepted : RunError → Prop} {v : Var}

/-- The code of a variable that is used once more at most. -/
theorem sim_inlineValueOf (sound : Sound D scope) (inScope : InScope D scope hidden seen)
    (isSeen : seen (.var v)) :
    Computes D final spot hidden seen known (inlineValueOf v) scope m (known (.var v)) accepted := by
  obtain ⟨meaning, isMeaning, isPath⟩ := inScope.value v isSeen
  refine .get ?_
  rw [isMeaning]
  cases meaning with
  | code node readers => exact sim_valueOf sound inScope isSeen
  | path p =>
    obtain ⟨isD, isFlat⟩ := isPath p rfl
    have isKnown : Live scope spot hidden seen known m → ∃ x, known (.var v) = some x := fun live =>
      Option.isSome_iff_exists.mp ((live.domain _).mpr isSeen)
    refine .ask (yields_visibleMemo? v scope) fun found isVisible => ?_
    cases found with
    | some name =>
      obtain ⟨memo, isMemo, rfl, isOpen⟩ := isVisible name rfl
      refine .pure ⟨.refl scope, ?_⟩ fun live => ?_
      · intro name isName
        obtain ⟨n, shown, isVariable⟩ := (inScope.memos v memo isMemo).2
        cases isName
        exact ⟨n, shown, isVariable⟩
      · obtain ⟨x, isValue⟩ := isKnown live
        rw [isValue]
        have fixed := live.memo v x p memo isValue isMeaning isMemo isOpen
        exact ⟨rfl, .refl m, live, .ok x, .ok x, fixed.denotes⟩
    | none =>
      refine sim_pathValue sound isD isFlat fun live => ?_
      obtain ⟨x, isValue⟩ := isKnown live
      rw [isValue, live.path v x p isValue isMeaning]

/-- The values of some variables. -/
def rowOf (known : Expr → Option Value) (vars : List Var) : Option (List Value) :=
  vars.mapM fun v => known (.var v)

theorem rowOf_cons (v : Var) (rest : List Var) : rowOf known (v :: rest) =
    (known (.var v)).bind fun x => (rowOf known rest).bind fun xs => some (x :: xs) := by
  unfold rowOf
  rw [List.mapM_cons]
  rfl

theorem rowOf_isSome : ∀ vars : List Var, (∀ v ∈ vars, (known (.var v)).isSome) →
    (rowOf known vars).isSome
  | [], _ => rfl
  | v :: rest, each => by
    obtain ⟨x, isValue⟩ := Option.isSome_iff_exists.mp (each v (.head _))
    obtain ⟨xs, isRow⟩ := Option.isSome_iff_exists.mp
      (rowOf_isSome rest (List.forall_mem_cons.mp each).2)
    rw [rowOf_cons, isValue, isRow]
    rfl

theorem sim_inlineValues : ∀ (vars : List Var) (scope : Scope) (m : Machine), Sound D scope →
    InScope D scope hidden seen → (∀ v ∈ vars, seen (.var v)) →
    Evaluates D final spot hidden seen known (vars.mapM inlineValueOf) evalAll
      (fun _ _ => True) scope m (rowOf known vars) accepted
  | [], _, _, _, _, _ => by
    refine .pure ⟨.refl _, trivial⟩ fun live => ?_
    exact ⟨rfl, .refl _, live, .ok [], .ok [], fun _ _ _ _ _ _ => rfl⟩
  | v :: rest, scope, m, sound, inScope, isSeen => by
    have head : Computes D final spot hidden seen known (inlineValueOf v) scope m (known (.var v))
        accepted := sim_inlineValueOf sound inScope (isSeen v (.head _))
    rw [List.mapM_cons, rowOf_cons]
    have others : ∀ later m', Sound D later → InScope D later hidden seen →
        Evaluates D final spot hidden seen known (rest.mapM inlineValueOf) evalAll
          (fun _ _ => True) later m' (rowOf known rest) accepted := by
      intro later m' sound' inScope'
      exact sim_inlineValues rest later m' sound' inScope' (List.forall_mem_cons.mp isSeen).2
    refine .both (fun x xs => .ok (x :: xs)) sound inScope head
      (fun _ later m' sound' inScope' _ => others later m' sound' inScope') ?_ ?_ ?_
    · intro node nodes
      rfl
    · exact fun x xs => .ok (x :: xs)
    · exact fun _ _ _ => trivial

/-- Writing a row. -/
theorem Ends.append_row {fn : Function} {nodes : List Node} {row : List Value} {paths : List Path}
    {wanted : Flow → Machine → Prop} (wired : m.Wired paths)
    (evaluates : evalAll nodes m = some (.ok (row, m)))
    (held : wanted .proceed { m with written := row :: m.written }) :
    Ends (exec fn (.member (.ident Function.sink) Member.append nodes)) m wanted
      accepted := by
  refine .member (.of_eq (a := .null) ?_ held)
  rw [eval, bind_apply, eval_ident wired.sink]
  dsimp only
  rw [bind_apply, evaluates]
  rfl

/-- The row of a tuple is written where the code stands. -/
theorem sim_writeRow {vars : List Var} (sound : Sound D scope)
    (inScope : InScope D scope hidden seen) (isSeen : ∀ v ∈ vars, seen (.var v)) :
    Sim D final scope.New spot (do
      let values ← vars.mapM inlineValueOf
      emit (.member (.ident Function.sink) Member.append values)) scope m
      (Live scope spot hidden seen known m) (fun _ later => scope.Remembers later)
      (fun _ _ => Onward fun m' => ∃ row mid, rowOf known vars = some row ∧ m.Still mid ∧
        m' = { mid with written := row :: mid.written }) accepted := by
  refine .then (sim_inlineValues vars scope m sound inScope isSeen) sound (fun _ => id) id
    fun nodes first m₁ sound₁ _ _ made _ => ?_
  refine ((Sim.emit (Onward fun m' => ∃ row mid, rowOf known vars = some row ∧ m.Still mid ∧
    m' = { mid with written := row :: mid.written }) sound₁ ?_).steps).mono id ?_
    (fun _ _ _ _ _ _ => id) fun _ => id
  · rintro completes ready ⟨live, _, _, still, carries⟩
    obtain ⟨answer, isAnswer, stable⟩ := carries.stable
    have evaluates := stable.apply completes ready
    obtain ⟨row, isRow⟩ := Option.isSome_iff_exists.mp
      (rowOf_isSome vars fun v member => (live.domain _).mpr (isSeen v member))
    have same := isAnswer.same
    rw [isRow] at same
    cases answer with
    | error cause => cases same
    | ok row' =>
      obtain rfl := Option.some.inj same
      refine Ends.append_row ready.stands.wired evaluates ?_
      have alike : m₁.Alike { m₁ with written := row' :: m₁.written } :=
        ⟨_, _, _, _, le_rfl, le_rfl, rfl⟩
      exact ⟨ready.alike alike, alike.frame _, rfl, row', m₁, isRow, still, rfl⟩
  · rintro _ later ⟨steps, current', rebuilt⟩
    exact made.remembers.trans (rebuilt.sameVars.remembers steps.enters.later) (.inl made.current)

end rows

end Fusion

end QueryFusion

import QueryFusion.Proofs.Document.Decoded
import QueryFusion.Proofs.Fusion.Atomic

/-!
# Compilations never fault

The compiler keeps a plan sturdy and the code of the open scope intact. On such a state no step
faults: scopes are closed outside of nested plans, readers are bound once, functions are frozen
once, and every operator, binding and block that is looked up is there. Taking the edits of a failed
compilation back ends for the same reason.
-/

namespace QueryFusion.Fusion

open EStateM (EndsIn)
open Plan (OpId Operator Body)

/-! ## New scopes -/

theorem emptyFunction_fits : emptyFunction.arena.Fits [] fun _ => none := by
  intro id block found
  match id with
  | 0 | 1 | 2 =>
    cases found
    refine ⟨⟨fun n member next leads => ?_, nofun, .nil, rfl, rfl, fun n member => ?_⟩,
      fun p isParent => ?_, by decide⟩
    · revert next n
      decide
    · have silent : n.accesses = [] := by
        revert n
        decide
      exact fun r asked => (Code.Arena.allows_silent silent _ asked).2
    · cases isParent <;> decide
  | id + 3 => cases found

variable {S : Terms}

theorem Scope.opened_intact (scan : OpId) (dataset : String) (vars : List Var)
    (schema : Plan.Schema) (given : ∀ s ∈ S.schema, schema = s) :
    (Scope.opened scan dataset vars schema).Intact S where
  fits := emptyFunction_fits
  loops := nofun
  body := (by decide : 0 < 1 ∧ 1 < emptyFunction.arena.size)
  current := (by decide : 0 < 2 ∧ 2 < emptyFunction.arena.size)
  unfrozen := rfl
  schema := given
  frames := by
    intro frame member
    cases List.mem_singleton.mp member
    refine ⟨fun v p memo => (by cases memo), fun v p found => ?_⟩
    obtain ⟨i, _, _, _, isScanned⟩ := opened_values scan dataset vars schema found
    unfold scanMeaning at isScanned
    split at isScanned <;> cases isScanned

/-! ## Steady states -/

/-- An operator that scans a dataset. -/
def IsScan (plan : Plan) (id : OpId) : Prop := ∃ op, plan.ops[id]? = some op ∧ op.kind = .dataScan

variable {id : OpId}

theorem IsScan.edited {plan other : Plan} (isScan : IsScan plan id)
    (edited : plan.Edited other) : IsScan other id := by
  obtain ⟨op, found, kind⟩ := isScan
  obtain ⟨op', found', kind', _⟩ := edited.find id op found
  exact ⟨op', found', kind'.trans kind⟩

/-- What a run starts from: a plan, how deep each operator is, and the schemas of the scans, if they are
known to have what the plan reads. -/
structure Ground where
  plan : Plan
  rank : OpId → Nat
  schemas : Option Plan.Schemas

/-- No step on an open scope faults: it is an intact one over a scan, outside of any nested plan. -/
structure Scope.Ready (G : Ground) (plan : Plan) (scope : Scope) (S : Terms) : Prop where
  lax : ¬ S.strict
  intact : scope.Intact S
  sane : scope.Sane S
  fits : plan.Fits S True
  given : S.schema = none → G.schemas = none
  saved : scope.saved = []
  isScan : IsScan plan scope.scan

/-- A state of a run in which no step faults. -/
structure Steady (G : Ground) (st : State) : Prop where
  edited : G.plan.Edited st.draft.plan
  sturdy : st.draft.plan.Sturdy G.rank
  fits : ∀ schemas ∈ G.schemas, ∀ scan s, schemas.lookup scan = some s →
    st.draft.plan.Fits { schema := some s } True
  scope : ∀ scope, st.scope = some scope → ∃ S, scope.Ready G st.draft.plan S

variable {α : Type} {rank : OpId → Nat} {G : Ground} {st : State}

/-- A step on the draft that does not fault. -/
theorem Steady.drafting {step : Plan.Drafting α} {holds : Plan.Draft → Prop}
    {wrap : Plan.PlanError → FuseError} (steady : Steady G st)
    (drafts : Plan.Drafts G.rank step st.draft holds) (known : ∀ cause, ¬ (wrap cause).IsUnpushed) :
    EndsIn (fun later => Steady G later ∧ holds later.draft) (onDraft wrap step) st
      fun abort _ => abort.Reported G.schemas := by
  unfold Plan.Drafts EndsIn at drafts
  unfold EndsIn onDraft
  cases ran : step st.draft with
  | ok a draft =>
    rw [ran] at drafts
    obtain ⟨sturdy, edited, held⟩ := drafts
    refine ⟨⟨steady.edited.trans edited, sturdy, fun schemas isKnown scan s isSchema =>
      (steady.fits schemas isKnown scan s isSchema).edited edited fun _ => sturdy, fun scope isOpen => ?_⟩,
      held⟩
    obtain ⟨S, ready⟩ := steady.scope scope isOpen
    exact ⟨S, { ready with
      fits := ready.fits.edited edited fun _ => sturdy
      isScan := ready.isScan.edited edited }⟩
  | error failure draft =>
    rw [ran] at drafts
    cases failure with
    | error cause => exact fun unpushed => (known cause unpushed).elim
    | fault fault => exact drafts.elim

theorem Steady.finalize (s : Setting) (steady : Steady G st) {scope : Scope}
    (ready : scope.Ready G st.draft.plan S) : EndsIn (Steady G) (Fusion.finalize s scope) st
      fun abort _ => abort.Reported G.schemas := by
  have wrote : Works S _ writeOutput scope _ := works_writeOutput ready.sane
    fun strict => absurd strict ready.lax
  unfold Fusion.finalize
  cases ran : writeOutput scope with
  | error abort => exact (wrote.ends ready.intact abort ran).mono ready.given
  | ok answer =>
    obtain ⟨_, last⟩ := answer
    obtain ⟨scan, _, _, keeps⟩ := wrote.yields _ _ ran
    have intact := keeps ready.intact
    have freezes : ∀ name, ({ last.fn with name } : Code.Function).freeze =
        .ok { last.fn with name, frozen := true } := by
      intro name
      unfold Code.Function.freeze
      rw [if_neg (by rw [intact.unfrozen]; decide)]
      rfl
    have isScan : IsScan st.draft.plan last.scan := scan ▸ ready.isScan
    obtain ⟨op, found, kind⟩ := isScan
    dsimp only
    refine Invariant.endsIn_get (Invariant.endsIn_orFault (fun fault failed => ?_) fun fn frozen => ?_)
    · cases (freezes _).symm.trans failed
    cases (freezes _).symm.trans frozen
    refine .bind (steady.drafting (Plan.drafts_markScan steady.sturdy found kind _ _)
      fun _ isUnpushed => (by cases isUnpushed)) fun _ later ⟨steady, _⟩ => ?_
    have texts := intact.fits.blockText (last.fn.arena.size + 1) last.fn.body 1 intact.body.2 (by omega)
    refine Invariant.endsIn_orFault (fun fault failed => ?_) fun fingerprint _ =>
      ⟨steady.edited, steady.sturdy, steady.fits, steady.scope⟩
    obtain ⟨_, isOk⟩ := Except.exists_ok_bind
      (Except.exists_ok_bind (Except.exists_ok_bind texts fun _ _ => ⟨_, rfl⟩) fun _ _ => ⟨_, rfl⟩)
      fun _ _ => ⟨_, rfl⟩
    cases failed.symm.trans isOk

/-- The compiler keeps to steady states, and no step faults. -/
theorem Steady.invariant {s : Setting} (expected : ∀ schemas ∈ G.schemas, s.schemas = schemas) :
    Invariant s { mode := .sure, editable := (· < G.plan.ops.size), plan := G.plan, rank := G.rank
                  known := fun id body => ∃ o, G.plan.ops[id]? = some o ∧ body.kind = o.kind } (Steady G)
      fun abort _ => abort.Reported G.schemas where
  sure _ := ⟨fun _ => id, fun _ => Steady.edited, fun _ => Steady.sturdy, fun _ scope steady isOpen =>
    (steady.scope scope isOpen).elim fun _ => Scope.Ready.saved⟩
  loses _ _ _ reported := (reported rfl).mono nofun
  knows st id o steady found := by
    have inside := Array.inside found
    rw [steady.edited.size] at inside
    obtain ⟨_, found', kind, _⟩ := steady.edited.find id _ (Array.getElem?_eq_getElem inside)
    cases found.symm.trans found'
    exact ⟨_, Array.getElem?_eq_getElem inside, kind⟩
  same st st' draft scope _ _ steady := by
    refine ⟨draft ▸ steady.edited, draft ▸ steady.sturdy, draft ▸ steady.fits, fun open' same => ?_⟩
    rw [draft]
    exact steady.scope open' (scope ▸ same)
  emits {_ _ st scope a later} emits steady isOpen done := by
    obtain ⟨S, ready⟩ := steady.scope scope isOpen
    have built := (emits (absurd · ready.lax) (fun _ => rfl) ready.fits).trace ready.sane
      (absurd · ready.lax) done
    obtain ⟨later', sane⟩ := built.kept ready.sane
    refine ⟨steady.edited, steady.sturdy, steady.fits, fun scope' same => ⟨S, ?_⟩⟩
    cases same
    exact ⟨ready.lax, built.intact ready.intact, sane, ready.fits, ready.given,
      built.saved.trans ready.saved, later'.scan ▸ ready.isScan⟩
  fails {_ _ st scope abort} emits steady isOpen failed := by
    obtain ⟨S, ready⟩ := steady.scope scope isOpen
    exact (((emits (absurd · ready.lax) (fun _ => rfl) ready.fits).builds ready.sane
      (absurd · ready.lax)).ends ⟨trivial, ready.intact⟩ abort failed).mono ready.given
  aggregates := nofun
  groups := nofun
  removes op consumer inside insideConsumer st steady :=
    (steady.drafting (Plan.drafts_remove steady.sturdy (steady.edited.size ▸ inside)
      (steady.edited.size ▸ insideConsumer)) (by rintro _ ⟨⟩)).mono fun _ => And.left
  unbinds op i st steady bindings :=
    (steady.drafting (Plan.drafts_removeBinding steady.sturdy (bindings rfl)) (by rintro _ ⟨⟩)).mono
      fun _ ⟨steady, bindings⟩ => ⟨steady, fun _ => bindings⟩
  drops st steady := ⟨steady.edited, steady.sturdy, steady.fits, nofun⟩
  completes st scope steady isOpen := by
    obtain ⟨S, ready⟩ := steady.scope scope isOpen
    have closed : Steady G { st with scope := none } :=
      ⟨steady.edited, steady.sturdy, steady.fits, nofun⟩
    exact closed.finalize s ready
  opens scan dataset vars function outputs schema st _ known isSchema steady := by
    obtain ⟨o, found, kind⟩ := known
    have isScan : IsScan G.plan scan := ⟨o, found, kind.symm⟩
    refine ⟨steady.edited, steady.sturdy, steady.fits, fun scope same => ?_⟩
    cases same
    have isScan := isScan.edited steady.edited
    cases known : G.schemas with
    | none =>
      exact ⟨{}, id, Scope.opened_intact _ _ _ _ nofun, opened_sane _ _ _ _ nofun, fun id op found =>
        ⟨fun _ => ⟨steady.sturdy.proper id op found, nofun⟩, nofun⟩, fun _ => known, rfl, isScan⟩
    | some schemas =>
      exact ⟨{ schema := some schema }, id, Scope.opened_intact _ _ _ _ (by rintro _ ⟨⟩; rfl),
        opened_sane _ _ _ _ nofun, steady.fits schemas known scan schema (expected schemas known ▸ isSchema),
        by rintro ⟨⟩, rfl, isScan⟩
  below st op o steady _ found input isInput :=
    steady.edited.size ▸ (steady.sturdy.inputs found input isInput).1

/-! ## Compilations -/

section compilations

variable {plan : Plan} {root : OpId}

theorem giveUp_reports (sturdy : plan.Sturdy rank) (inside : root < plan.ops.size)
    (undoable : Undoable plan root st) (abort : Abort) (message : String) :
    (giveUp root abort message st).result = .error abort := by
  have same := undoable.drafted.shape
  obtain ⟨last, recomputed, _⟩ := (sturdy.sameShape same.symm).recompute (same.size ▸ inside)
  have undone : Plan.undo (some root) st.draft = .ok () { st.draft.revert with plan := last } := by
    change Plan.onPlan (Plan.recompute root) st.draft.revert = _
    unfold Plan.onPlan
    rw [recomputed]
  unfold giveUp
  rw [undone]

theorem compile_eq_finish (sturdy : plan.Sturdy rank) (inside : root < plan.ops.size)
    (config : Plan.Config) (catalog : Plan.Catalog) (stem : String) :
    ∃ s : Setting, Plan.expectedSchemas plan root = .ok s.schemas ∧
      compile plan root config catalog none stem =
        finish root (compileAll s root { draft := { plan } }) := by
  obtain ⟨schemas, expected⟩ := sturdy.expectedSchemas inside
  obtain ⟨uses, used⟩ : ∃ uses, usesBelow plan root = .ok uses := exists_ok_below sturdy inside _
  refine ⟨{ config, catalog, schemas, uses, stem }, expected, ?_⟩
  unfold compile
  simp only [expected, used, bind, Except.bind, pure, Except.pure]

theorem compile_reports (sturdy : plan.Sturdy rank) (inside : root < plan.ops.size)
    (live : ∀ id, plan.Reaches root id → plan.HasEnv id) (config : Plan.Config)
    (catalog : Plan.Catalog) (stem : String) (fault : Fault) :
    (compile plan root config catalog none stem).result ≠ .error (.fault fault) := by
  obtain ⟨s, _, compiled⟩ := compile_eq_finish sturdy inside config catalog stem
  have steady : Steady ⟨plan, rank, none⟩ { draft := { plan } } :=
    ⟨.refl plan, sturdy, by rintro _ ⟨⟩, by rintro _ ⟨⟩⟩
  have undoable : Undoable plan root { draft := { plan } } :=
    ⟨⟨.refl plan, fun _ _ reaches below => reaches.tail below, live, fun _ _ => rfl⟩, nofun, nofun⟩
  have runs := (Steady.invariant (s := s) (G := ⟨plan, rank, none⟩) nofun).compileAll inside _ steady
  have keeps := (undoable_invariant s).compileAll .refl _ undoable
  unfold EndsIn at runs keeps
  rw [compiled]
  unfold finish
  cases ended : compileAll s root { draft := { plan } } with
  | ok _ st =>
    rw [ended] at runs
    obtain ⟨last, recomputed, _⟩ := runs.sturdy.recompute (runs.edited.size ▸ inside)
    simp only [Plan.onPlan, recomputed]
    exact nofun
  | error abort st =>
    rw [ended] at runs keeps
    cases abort with
    | error cause => simp only [giveUp_reports sturdy inside keeps]; exact nofun
    | plan cause => simp only [giveUp_reports sturdy inside keeps]; exact nofun
    | fault fault => exact runs.elim

end compilations

open Document in
theorem sturdy_of_decoded {spec : PlanSpec} {doc : Document} (decoded : decodeSpec spec = .ok doc) :
    (∃ rank, doc.plan.Sturdy rank) ∧ doc.root < doc.plan.ops.size ∧
      ∀ id, id < doc.plan.ops.size → doc.plan.HasEnv id := by
  obtain ⟨rootSpec, state, first, computed, _⟩ := decodeSpec_parts decoded
  obtain ⟨sound, forest⟩ := decodes_plan first
  obtain ⟨plan, computed', shape, live⟩ := sound.computeEnv forest
  cases computed.symm.trans computed'
  have made := Plan.wellMade_of_forest forest
  obtain ⟨rank, ranked, low⟩ := (Plan.isTree_of_forest forest).acyclic.exists_ranked made.found
  have sturdy : state.plan.Sturdy rank := ⟨made, ranked, low, fun id op found =>
    ⟨made.aligned id op found, fun e member => ((sound.fresh id op found).exprs e member).text⟩⟩
  exact ⟨⟨rank, sturdy.sameShape shape⟩, shape.size ▸ (forest.root_mem _ (.head _)).2, live⟩

open Document in
/-- Compiling a decoded plan, over any datasets and configuration, ends with functions or with an
error: no precondition is broken, nothing is looked up that is not there, and no bound on the depth
of a walk is reached. -/
theorem compile_decoded_faultless (doc : Document)
    (decoded : (∃ text, decode text = .ok doc) ∨ ∃ spec, decodeSpec spec = .ok doc)
    (config : Plan.Config) (catalog : Plan.Catalog) (stem : String) (fault : Fault) :
    (compile doc.plan doc.root config catalog none stem).result ≠ .error (.fault fault) := by
  obtain ⟨spec, decoded⟩ : ∃ spec, decodeSpec spec = .ok doc := by
    rcases decoded with ⟨text, decoded⟩ | decoded
    · unfold decode at decoded
      split at decoded
      · exact ⟨_, decoded⟩
      · cases decoded
    · exact decoded
  obtain ⟨⟨rank, sturdy⟩, inside, live⟩ := sturdy_of_decoded decoded
  refine compile_reports sturdy inside (fun id reaches => live id ?_) config catalog stem fault
  rcases Relation.ReflTransGen.cases_tail reaches with rfl | ⟨owner, _, below⟩
  · exact inside
  · exact sturdy.made.found owner id below

/-- A count of the elements of a list for each record that has a marked one. -/
def markedLists : Document.PlanSpec where
  datasets := [{ name := "d" }]
  plan := some {
    op := "group-by"
    keys := [{ var := "k", expr := some { path := "r.u" } }]
    nested := some {
      op := "aggregate"
      bind := [{ var := "c", expr := some { fn := "count", args := [some { var := some "x" }] } }]
      input := some { op := "nested-tuple-source" } }
    input := some {
      op := "unnest"
      var := "x"
      expr := some { path := "r.a" }
      input := some {
        op := "select"
        cond := some { var := some "f" }
        input := some {
          op := "subplan"
          nested := some {
            op := "aggregate"
            bind := [{ var := "f", expr := some { fn := "non-empty-stream" } }]
            input := some {
              op := "unnest"
              var := "y"
              expr := some { path := "r.marks" }
              input := some { op := "nested-tuple-source" } } }
          input := some { op := "data-scan", dataset := "d", vars := ["r"] } } } } }

theorem compile_markedLists_faultless : ∃ doc, Document.decodeSpec markedLists = .ok doc ∧
    ∀ config catalog stem fault,
      (compile doc.plan doc.root config catalog none stem).result ≠ .error (.fault fault) := by
  have accepted : (Document.decodeSpec markedLists).isOk = true := by decide +kernel
  match decoded : Document.decodeSpec markedLists with
  | .ok doc => exact ⟨doc, rfl, compile_decoded_faultless doc (.inr ⟨markedLists, decoded⟩)⟩
  | .error _ =>
    rw [decoded] at accepted
    cases accepted

end QueryFusion.Fusion

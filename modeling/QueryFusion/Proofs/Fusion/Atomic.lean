import QueryFusion.Proofs.Fusion.Invariants

/-!
# Failed compilations leave the plan as it was

Every step of the compiler leaves a draft from which the plan it started from can be restored: it
edits reachable operators only, records how to take each edit back, and stores variables at
reachable operators only. A compilation that fails takes its edits back, so it leaves the plan it
was given.
-/

namespace QueryFusion.Fusion

open EStateM (Keeps EndsIn)
open Plan (OpId Operator Body Drafted)

variable {original : Plan} {root : OpId}

/-- A state of the compiler whose draft came from a plan, and whose open scope is over a scan that is
reachable in it. -/
structure Undoable (original : Plan) (root : OpId) (st : State) : Prop where
  drafted : Drafted original root st.draft
  scan : ∀ scope, st.scope = some scope → original.Reaches root scope.scan
  sane : ∀ scope, st.scope = some scope → scope.Sane {}

/-- A step on the draft. -/
theorem keeps_onDraft {α : Type} {wrap : Plan.PlanError → FuseError} {step : Plan.Drafting α}
    (keeps : Keeps (Drafted original root) step) :
    Keeps (Undoable original root) (onDraft wrap step) := by
  intro st undoable
  have after := keeps st.draft undoable.drafted
  unfold EndsIn onDraft at *
  cases outcome : step st.draft with
  | ok a draft =>
    rw [outcome] at after
    exact ⟨after, undoable.scan, undoable.sane⟩
  | error failure draft =>
    rw [outcome] at after
    cases failure <;> exact ⟨after, undoable.scan, undoable.sane⟩

theorem keeps_finalize (s : Setting) {scope : Scope} (sane : scope.Sane {})
    (reaches : original.Reaches root scope.scan) :
    Keeps (Undoable original root) (finalize s scope) := by
  unfold finalize
  split
  · exact .throw _
  · next done =>
    have same := writeOutput_scan sane done
    intro st undoable
    refine Invariant.endsIn_get (Invariant.endsIn_orFault (fun _ _ => undoable) fun fn _ => ?_)
    refine .bind (keeps_onDraft (.bind (Plan.keeps_markScan _ _ _)
      fun _ => Plan.keeps_onPlan_computeEnv (same ▸ reaches)) st undoable) fun _ st undoable => ?_
    exact Invariant.endsIn_orFault (fun _ _ => undoable) fun fingerprint _ =>
      ⟨undoable.drafted, undoable.scan, undoable.sane⟩

theorem undoable_invariant (s : Setting) :
    Invariant s { editable := original.Reaches root } (Undoable original root) where
  sure := nofun
  loses _ _ undoable _ := undoable
  fails _ undoable _ _ := undoable
  knows _ _ _ _ _ := trivial
  aggregates := nofun
  groups := nofun
  same st st' draft scope _ _ undoable :=
    ⟨draft ▸ undoable.drafted, scope ▸ undoable.scan, scope ▸ undoable.sane⟩
  emits {_ _ st scope a later} emits undoable isOpen done := by
    have sane := undoable.sane scope isOpen
    have kept := (emits.traces sane done).kept sane
    refine ⟨undoable.drafted, fun open' same => ?_, fun open' same => ?_⟩
    · cases same
      exact kept.1.scan ▸ undoable.scan scope isOpen
    · exact Option.some.inj same ▸ kept.2
  removes _ _ _ reaches := keeps_onDraft (Plan.keeps_remove reaches)
  unbinds op i st undoable _ := (keeps_onDraft (Plan.keeps_removeBinding op i) st undoable).mono
    fun _ undoable => ⟨undoable, nofun⟩
  drops _ undoable := ⟨undoable.drafted, nofun, nofun⟩
  completes st scope undoable isOpen :=
    keeps_finalize s (undoable.sane scope isOpen) (undoable.scan scope isOpen) _
      ⟨undoable.drafted, nofun, nofun⟩
  opens scan dataset vars _ _ schema _ reaches _ _ undoable := by
    refine ⟨undoable.drafted, fun open' same => ?_, fun open' same => ?_⟩
    · exact Option.some.inj same ▸ reaches
    · exact Option.some.inj same ▸ opened_sane scan dataset vars schema nofun
  below _ op o undoable reaches found input isInput :=
    undoable.drafted.closed op input reaches ⟨o, found, List.mem_append_left _ isInput⟩

/-! ## Giving up -/

/-- Giving up from an undoable state restores the plan. -/
theorem giveUp_plan {st : State} (undoable : Undoable original root st)
    (settled : original.Settled root) (acyclic : original.Acyclic)
    (owned : original.LeavesOwned root) (abort : Abort) (message : String) :
    (giveUp root abort message st).plan = original := by
  unfold giveUp
  rw [undoable.drafted.undo settled acyclic owned]

theorem finish_plan {step : Fuse Unit} {start : State} {abort : Abort}
    (ends : EndsIn (Undoable original root) step start)
    (settled : original.Settled root) (acyclic : original.Acyclic)
    (owned : original.LeavesOwned root) (failed : (finish root (step start)).result = .error abort)
    (reported : ∀ fault, abort ≠ .fault fault) : (finish root (step start)).plan = original := by
  unfold EndsIn at ends
  unfold finish at failed ⊢
  generalize step start = outcome at ends failed ⊢
  cases outcome with
  | ok _ st =>
    have undoable : Undoable original root st := ends
    have recomputed := Plan.keeps_onPlan_recompute st.draft undoable.drafted
    unfold EndsIn at recomputed
    dsimp only at failed ⊢
    cases ended : Plan.onPlan (Plan.recompute root) st.draft with
    | ok _ draft =>
      rw [ended] at failed
      cases failed
    | error failure draft =>
      rw [ended] at failed recomputed
      cases failure with
      | error cause =>
        have undoable' : Undoable original root { st with draft } :=
          ⟨recomputed, undoable.scan, undoable.sane⟩
        exact giveUp_plan undoable' settled acyclic owned _ _
      | fault fault =>
        cases failed
        exact absurd rfl (reported fault)
  | error cause st =>
    have undoable : Undoable original root st := ends
    cases cause with
    | error cause => exact giveUp_plan undoable settled acyclic owned _ _
    | plan cause => exact giveUp_plan undoable settled acyclic owned _ _
    | fault fault =>
      cases failed
      exact absurd rfl (reported fault)

/-- A compilation that returns an error leaves every operator as it was: its inputs, its bindings,
the function and outputs of a scan, and the stored variables. -/
theorem compile_error_restores (plan : Plan) (root : OpId) (config : Plan.Config)
    (catalog : Plan.Catalog) (schemas : Option Plan.Schemas) (stem : String) (abort : Abort)
    (acyclic : plan.Acyclic) (owned : plan.LeavesOwned root) (settled : plan.Settled root)
    (failed : (compile plan root config catalog schemas stem).result = .error abort)
    (reported : ∀ fault, abort ≠ .fault fault) :
    (compile plan root config catalog schemas stem).plan = plan := by
  have start : Undoable plan root { draft := { plan } } :=
    ⟨.start settled acyclic owned, nofun, nofun⟩
  unfold compile at failed ⊢
  dsimp only at failed ⊢
  split at failed
  · next fault same =>
    cases failed
    exact absurd rfl (reported fault)
  · next s same =>
    exact finish_plan ((undoable_invariant s).compileAll .refl _ start) settled acyclic owned failed reported

/-- A plan whose select indexes a value that is no kept list, above an assign that can be fused. -/
def unindexable : Plan :=
  let r : Var := ⟨0, "r", .record⟩
  let x : Var := ⟨1, "x", .any⟩
  { ops := #[
      { body := .scan "d" [r] "" [], inputs := [], env := some [r] },
      { body := .assign [x] [.field (.var r) "a"], inputs := [0], env := some [r, x] },
      { body := .select (.call .getItem [.var x, .const (.int 0)] Location.none), inputs := [1]
        env := some [r, x] },
      { body := .boundary .distributeResult [], inputs := [2], env := some [r, x] }] }

/-- The only dataset that `unindexable` scans, in the column format. -/
def columnar : Plan.Catalog := Plan.Catalog.insert {} "d" ⟨"d", .internal, .column⟩

/-- The assign is taken out before the select fails, and is put back. -/
theorem compile_unindexable_restores :
    ∃ cause, (compile unindexable 3 {} columnar none "f").result = .error (.error cause) ∧
      (compile unindexable 3 {} columnar none "f").plan = unindexable := by
  have acyclic : unindexable.Acyclic := Plan.acyclic_of_descending (by decide)
  have owned : unindexable.LeavesOwned 3 := Plan.leavesOwned_of_none fun id owner => by
    match id with
    | ⟨0, _⟩ | ⟨1, _⟩ | ⟨2, _⟩ | ⟨3, _⟩ => exact nofun
  have fails : (match (compile unindexable 3 {} columnar none "f").result with
      | .error (.error _) => true
      | _ => false) = true := by decide +kernel
  split at fails
  · next cause failed =>
    exact ⟨cause, failed, compile_error_restores _ _ _ _ _ _ _ acyclic owned rfl failed nofun⟩
  · cases fails

end QueryFusion.Fusion

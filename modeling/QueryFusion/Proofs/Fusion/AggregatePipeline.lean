import QueryFusion.Proofs.Fusion.Accumulators
import QueryFusion.Proofs.Fusion.ScalarPipeline

/-!
# Fusing aggregates over a scalar pipeline keeps their meaning

Counts, sums and extremes over a scalar pipeline are fused together with the whole pipeline. The
function that the compiler makes of them delivers one row with the folds of the aggregates over the
tuples that the pipeline makes of the records.
-/

namespace QueryFusion

open Plan (OpId Body)

namespace Plan

/-- What an aggregate over all records does. -/
def aggregateOf (bindings : List (Var × Call)) : Body :=
  .aggregate (bindings.map Prod.fst) (bindings.map Prod.snd) false

/-- A boundary over counts, sums and extremes over a scalar pipeline over a scan. The aggregates read
variables of their input only. -/
structure AggregatePipeline (plan : Plan) (root : OpId) (kind : OpKind) (results : List Var)
    (op : OpId) (bindings : List (Var × Call)) (steps : List (OpId × Body)) (scan : OpId)
    (dataset : String) (vars : List Var) : Prop extends Pipeline plan root kind results
      [(op, aggregateOf bindings)] (bindings.map Prod.fst) steps scan dataset vars where
  calls : ∀ binding ∈ bindings, Fusion.isAccumulable binding.2 = true ∧
    binding.2.expr.ReadsOnly (delivered vars (steps.map Prod.snd))

/-- What is evaluated for the records: the operators of the pipeline and the aggregate. -/
def evaluatedBy (bindings : List (Var × Call)) (steps : List (OpId × Body)) : List Body :=
  steps.map Prod.snd ++ [aggregateOf bindings]

section pipeline

variable {plan : Plan} {root op scan : OpId} {kind : OpKind} {results vars : List Var}
variable {bindings : List (Var × Call)} {steps : List (OpId × Body)} {dataset : String}
variable {schemas : Schemas} {schema : Schema}

namespace AggregatePipeline

variable (pipeline : plan.AggregatePipeline root kind results op bindings steps scan dataset vars)

include pipeline

theorem fits
    (found : expectedSchemas plan root = .ok schemas) (isSchema : schemas.lookup scan = some schema) :
    (∀ step ∈ steps ++ [(op, aggregateOf bindings)], schema.Fits step.2) ∧ schema.Scans vars := by
  refine pipeline.toPipeline.fits found isSchema (List.forall_mem_singleton.mpr rfl)
    (List.flatMap_singleton _ _) fun wider sub => ⟨fun e member => ?_, nofun, trivial⟩
  obtain ⟨call, isCall, rfl⟩ := List.mem_map.mp member
  obtain ⟨binding, isBinding, rfl⟩ := List.mem_map.mp isCall
  exact (pipeline.calls binding isBinding).2.mono sub

theorem gathers (fits : schema.Fits (aggregateOf bindings)) :
    Fusion.Gathers (· ∈ schema.pathsRead (evaluatedBy bindings steps)) schema
      ⟨vars, steps.map Prod.snd, bindings⟩ := by
  obtain ⟨_, distinct, apart⟩ := pipeline.apart
  refine ⟨fun binding member => ?_, fun binding member => apart _ (List.mem_map_of_mem member), distinct⟩
  obtain ⟨isCall, reads⟩ := pipeline.calls binding member
  refine ⟨allWithin_of_readsOnly binding.2.args reads, fun q isRead => ?_⟩
  have notField : binding.2.fn ≠ .fieldAccess := by
    intro same
    rw [Fusion.isAccumulable, same] at isCall
    cases isCall
  have isRead : q ∈ schema.reads binding.2.expr := by
    rw [Call.expr, Schema.reads, if_neg notField]
    exact isRead
  have isExpr : binding.2.expr ∈ (aggregateOf bindings).exprs :=
    List.mem_map_of_mem (List.mem_map_of_mem member)
  exact ⟨mem_pathsRead (List.mem_append_right _ (.head _)) isExpr isRead,
    fits.registers _ isExpr q isRead⟩

end AggregatePipeline

end pipeline

end Plan

namespace Fusion

section compiling

variable {s : Setting} {scan : OpId} {dataset : String} {vars : List Var}
variable {steps removed kept : List (OpId × Body)} {f : ScanFunction}

theorem Splits.top_kept {plan : Plan} {top : OpId} (splits : Splits steps removed kept)
    (stacked : plan.Stacked scan kept.reverse top) :
    (kept = [] ∧ removed = steps) ∨ (steps.map Prod.fst).getLast? = some top := by
  have isTop : kept ≠ [] → (kept.map Prod.fst).getLast? = some top := by
    intro isSome
    cases isLast : kept.reverse with
    | nil => exact absurd (List.reverse_eq_nil_iff.mp isLast) isSome
    | cons op rest =>
      rw [isLast] at stacked
      rw [← List.head?_reverse, ← List.map_reverse, isLast, stacked.1]
      rfl
  cases splits with
  | whole =>
    cases kept with
    | nil => exact .inl ⟨rfl, (List.append_nil _).symm⟩
    | cons op rest =>
      rw [← isTop (List.cons_ne_nil op rest)]
      simp [List.getLast?_cons]
  | bindings removed kept id more exprs count isSome isPart =>
    rw [← isTop (List.cons_ne_nil _ _)]
    simp [List.getLast?_cons]

theorem MadeOf.aggregates {op : OpId} {bindings : List (Var × Call)}
    (madeOf : MadeOf s scan dataset vars (steps ++ [(op, Plan.aggregateOf bindings)]) f)
    (feeds : ∀ schema, s.schemas.lookup scan = some schema → ∃ D,
      Feeds D schema vars (steps.map Prod.snd) ∧
        Gathers D schema ⟨vars, steps.map Prod.snd, bindings⟩) :
    f.outputs = bindings.map Prod.fst ∧
      ∀ records, Aggregates f.fn ⟨vars, steps.map Prod.snd, bindings⟩ records := by
  obtain ⟨schema, scope, isSchema, fused, last, output, frozen, _, outputs⟩ := madeOf
  obtain ⟨D, feeds, gathers⟩ := feeds schema isSchema
  rw [List.map_append, List.map_singleton, fuseSteps_concat] at fused
  obtain ⟨⟨_, first⟩, isSteps, rest⟩ := Except.bind_eq_ok.mp fused
  obtain ⟨⟨_, moved⟩, aggregated, counted⟩ := Except.bind_eq_ok.mp rest
  obtain ⟨⟨_, later⟩, accumulated, isMoved⟩ := Except.bind_eq_ok.mp aggregated
  cases isMoved
  cases counted
  have gathering : Gathering D scan dataset schema ⟨vars, steps.map Prod.snd, bindings⟩ later :=
    { feeds, gathers
      isFused := Except.bind_eq_ok.mpr ⟨_, isSteps, Except.bind_eq_ok.mpr ⟨_, rfl, accumulated⟩⟩ }
  obtain ⟨_, gathered⟩ := gathering.codes
  let atEnd : Scope := { later with current := later.fn.body, fused := later.fused + 1 }
  have gathered' : (Scope.opened scan dataset vars schema).Gathered bindings atEnd := { gathered with }
  have sameFn : later.fn = atEnd.fn := rfl
  obtain ⟨ending, same⟩ := ending_of_writeOutput sameFn (gathered'.writeRows rfl) output frozen
  exact ⟨outputs.trans (same.trans gathered.outputs), gathering.aggregates ending⟩

end compiling

/-- Fused aggregates compute their folds: where the compiler takes counts, sums and extremes over a
scalar pipeline out of the plan, the function at the scan delivers one row with their folds over the
tuples that the pipeline makes of the records. -/
theorem compile_aggregate_delivers {plan : Plan} {root op scan : OpId} {kind : Plan.OpKind}
    {results vars : List Var} {bindings : List (Var × Call)} {steps : List (OpId × Body)}
    {dataset stem : String} {config : Plan.Config} {catalog : Plan.Catalog}
    {functions : List ScanFunction} {f : ScanFunction}
    (pipeline : plan.AggregatePipeline root kind results op bindings steps scan dataset vars)
    (apart : plan.readsApart root scan (Plan.evaluatedBy bindings steps) = true)
    (compiled : (compile plan root config catalog none stem).result = .ok functions)
    (member : f ∈ functions)
    (fused : (compile plan root config catalog none stem).plan.shape root ≠
      some (.boundary kind results, [op])) :
    f.outputs = bindings.map Prod.fst ∧
      (compile plan root config catalog none stem).plan.shape scan =
        some (.scan dataset vars f.fn.name f.outputs, []) ∧
      (compile plan root config catalog none stem).plan.shape root =
        some (.boundary kind results, [scan]) ∧
      ∀ records, Aggregates f.fn ⟨vars, steps.map Prod.snd, bindings⟩ records := by
  obtain ⟨s, removed, kept, below, expected, madeOf, splits, stacked, isRoot, marked⟩ :=
    compile_pipeline pipeline.toPipeline (List.forall_mem_singleton.mpr trivial) compiled member
  rcases splits.top_kept stacked with ⟨rfl, rfl⟩ | isTop
  · obtain rfl : below = scan := stacked
    obtain ⟨isOutputs, aggregates⟩ := madeOf.aggregates fun schema isSchema => by
      obtain ⟨fits, scans⟩ := pipeline.fits expected isSchema
      exact ⟨_, pipeline.feeds (List.subset_append_left _ _) apart expected isSchema
        (fun step isStep => fits step (List.mem_append_left _ isStep)) scans,
        pipeline.gathers (fits _ (List.mem_append_right _ (.head _)))⟩
    exact ⟨isOutputs, marked, isRoot, aggregates⟩
  · rw [List.map_append, List.reverse_singleton, List.map_singleton, List.getLast?_concat] at isTop
    rw [← Option.some.inj isTop] at isRoot
    exact absurd isRoot fused

/-- The variable of the record in `adultTotals`. -/
def adultTotalsRecord : Var := ⟨0, "r", .record⟩

/-- The select in `adultTotals`. -/
def adultTotalsSteps : List (OpId × Body) :=
  [(1, .select (.call .gt [.field (.var adultTotalsRecord) "age", .const (.int 18)] Location.none))]

/-- The aggregates in `adultTotals`: how many records there are, how many known names, the sum of the
wages and the first name. -/
def adultTotalsCalls : List (Var × Call) :=
  let field (name : String) : List Expr := [.field (.var adultTotalsRecord) name]
  [(⟨1, "c", .any⟩, ⟨.localCount, [], Location.none⟩),
    (⟨2, "n", .any⟩, ⟨.localCount, field "name", Location.none⟩),
    (⟨3, "s", .any⟩, ⟨.localSum, field "wage", Location.none⟩),
    (⟨4, "m", .any⟩, ⟨.localMin, field "name", Location.none⟩)]

/-- A plan that aggregates selected records. -/
def adultTotals : Plan :=
  { ops := #[
      { body := .scan "d" [adultTotalsRecord] "" [], inputs := [] },
      { body := (adultTotalsSteps[0]).2, inputs := [0] },
      { body := Plan.aggregateOf adultTotalsCalls, inputs := [1] },
      { body := .boundary .distributeResult [], inputs := [2] }] }

/-- The select and the aggregates become one function. -/
theorem compile_adultTotals_delivers :
    ∃ f, (compile adultTotals 3 {} columnar none "f").result = .ok [f] ∧ ∀ records, Aggregates f.fn
      ⟨[adultTotalsRecord], adultTotalsSteps.map Prod.snd, adultTotalsCalls⟩ records := by
  have reads (e : Expr) (vars : List Var) (within : ∀ w ∈ e.occurrences, ∃ v ∈ vars, v.id = w.id) :
      e.ReadsOnly vars := within
  have calls : ∀ binding ∈ adultTotalsCalls, isAccumulable binding.2 = true ∧
      ∀ w ∈ binding.2.expr.occurrences, ∃ v ∈ Plan.delivered [adultTotalsRecord]
        (adultTotalsSteps.map Prod.snd), v.id = w.id := by decide
  have pipeline : adultTotals.AggregatePipeline 3 .distributeResult [] 2 adultTotalsCalls
      adultTotalsSteps 0 "d" [adultTotalsRecord] :=
    ⟨⟨⟨"", [], rfl⟩, ⟨rfl, 2, rfl, rfl, 1, rfl, rfl, 0, rfl, rfl⟩, ⟨reads _ _ (by decide), trivial⟩,
      by decide⟩, calls⟩
  have apart : adultTotals.readsApart 3 0 (Plan.evaluatedBy adultTotalsCalls adultTotalsSteps) =
      true := by decide +kernel
  have isFused : ((compile adultTotals 3 {} columnar none "f").plan.shape 3).map Prod.snd =
      some [0] := by decide +kernel
  obtain ⟨f, compiled⟩ := Except.exists_eq_ok_singleton
    (show (compile adultTotals 3 {} columnar none "f").result.toOption.map _ = _ by decide +kernel)
  obtain ⟨_, _, _, aggregates⟩ := compile_aggregate_delivers pipeline
    apart compiled (List.mem_singleton_self f) fun kept => by
      rw [kept] at isFused
      cases isFused
  exact ⟨f, compiled, aggregates⟩

end Fusion

end QueryFusion

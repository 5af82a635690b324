import QueryFusion.Proofs.Fusion.ScalarStack

/-!
# Fusing a scalar pipeline keeps its meaning

The operators of a scalar pipeline can rely on the expected schema of its scan, so the function that
the compiler makes of them delivers what they make of the records.
-/

namespace QueryFusion

open Plan (OpId Operator Body Tuple)

namespace Plan

variable {plan : Plan} {schemas : Schemas} {schema : Schema} {exprs : List Expr} {body : Body}
variable {vars : List Var}

/-- The paths that operators read. -/
def Schema.pathsRead (schema : Schema) (steps : List Body) : List Path :=
  steps.flatMap fun body => body.exprs.flatMap fun e => (schema.reads e).map Prod.fst

/-- Whether the paths that operators read above a scan have different texts. -/
def readsApart (plan : Plan) (root scan : OpId) (steps : List Body) : Bool :=
  match expectedSchemas plan root with
  | .ok schemas => (schemas.lookup scan).all fun schema => decide (∀ p ∈ schema.pathsRead steps,
      ∀ q ∈ schema.pathsRead steps, p.text = q.text → p = q)
  | .error _ => true

theorem texts_of_readsApart {root scan : OpId} {steps : List Body}
    (apart : plan.readsApart root scan steps = true)
    (found : expectedSchemas plan root = .ok schemas)
    (isSchema : schemas.lookup scan = some schema) :
    ∀ p ∈ schema.pathsRead steps, ∀ q ∈ schema.pathsRead steps, p.text = q.text → p = q := by
  unfold readsApart at apart
  rw [found] at apart
  dsimp only at apart
  rw [isSchema] at apart
  exact of_decide_eq_true apart

/-- A boundary over some operators over a scalar pipeline over a scan, in which the operators of the
pipeline read variables of their input only and every variable is produced once. The operators of the
pipeline are listed from the scan up, those at the top from the boundary down. -/
structure Pipeline (plan : Plan) (root : OpId) (kind : OpKind) (results : List Var)
    (top : List (OpId × Body)) (produced : List Var) (steps : List (OpId × Body)) (scan : OpId)
    (dataset : String) (vars : List Var) : Prop where
  isScan : ∃ function outputs, plan.shape scan = some (.scan dataset vars function outputs, [])
  stacked : plan.Stacked scan ((root, .boundary kind results) :: (top ++ steps.reverse)) root
  isScoped : Scoped vars (steps.map Prod.snd)
  distinct : ((vars ++ steps.flatMap (·.2.produces) ++ produced ++ results).map Var.id).Nodup

/-! ## Scoping -/

theorem AssignScoped.take : ∀ {vars more : List Var} {exprs : List Expr} (count : Nat),
    AssignScoped vars more exprs → AssignScoped vars (more.take count) (exprs.take count)
  | _, _, _, 0, _ => by
    trivial
  | _, [], _, _ + 1, _ => by
    trivial
  | _, _ :: _, [], _ + 1, _ => trivial
  | _, _ :: _, _ :: _, count + 1, ⟨first, others⟩ => ⟨first, others.take count⟩

theorem Scoped.append_left : ∀ {first second : List Body} {vars : List Var},
    Scoped vars (first ++ second) → Scoped vars first
  | [], _, _, _ => trivial
  | _ :: _, _, _, ⟨here, rest⟩ => ⟨here, rest.append_left⟩

theorem Scoped.take_assign {more : List Var} {count : Nat} {rest : List Body} :
    ∀ {first : List Body} {vars : List Var}, Scoped vars (first ++ .assign more exprs :: rest) →
    Scoped vars (first ++ [.assign (more.take count) (exprs.take count)])
  | [], _, ⟨here, _⟩ => ⟨.take count here, trivial⟩
  | _ :: _, _, ⟨here, rest⟩ => ⟨here, rest.take_assign⟩

theorem Scoped.mem : ∀ {steps : List Body} {vars : List Var}, Scoped vars steps →
    ∀ body ∈ steps, ∃ reads, body.Scoped reads
  | [], _, _, _, member => nomatch member
  | _ :: _, vars, ⟨here, rest⟩, body, member => by
    rcases List.mem_cons.mp member with rfl | later
    · exact ⟨vars, here⟩
    · exact rest.mem body later

theorem Body.Scoped.readsFrom (isScoped : body.Scoped vars) : body.ReadsFrom vars := by
  cases body with
  | select cond => exact List.forall_mem_singleton.mpr isScoped
  | assign more exprs => exact isScoped
  | project kept =>
    intro e member
    obtain ⟨v, isKept, rfl⟩ := List.mem_map.mp member
    exact isScoped v isKept
  | _ => exact isScoped.elim

theorem Body.Scoped.of_delivers {wider : List Var} (isScoped : body.Scoped vars)
    (sub : ∀ v ∈ vars, v.Of wider) : ∀ v ∈ body.delivers vars, v.Of (body.produces ++ wider) := by
  have wide : ∀ {v : Var}, v.Of wider → v.Of (body.produces ++ wider) := fun isVar =>
    .mono isVar fun _ => List.mem_append_right _
  intro v member
  cases body with
  | select cond => exact wide (sub v member)
  | assign more exprs =>
    rcases List.mem_append.mp member with isNew | isOld
    · exact ⟨v, List.mem_append_left _ (List.mem_reverse.mp isNew), rfl⟩
    · exact wide (sub v isOld)
  | project kept =>
    obtain ⟨u, isVar, same⟩ := isScoped v member v (List.mem_singleton_self v)
    obtain ⟨w, isWide, same'⟩ := sub u isVar
    exact wide ⟨w, isWide, same'.trans same⟩
  | _ => exact isScoped.elim

theorem Scoped.flows {above : List (OpId × Body)} : ∀ {steps : List (OpId × Body)}
    {vars wider : List Var}, Scoped vars (steps.map Prod.snd) → (∀ v ∈ vars, v.Of wider) →
    (∀ wider, (∀ v ∈ delivered vars (steps.map Prod.snd), v.Of wider) → Pushdown.Flows wider above) →
    Pushdown.Flows wider (steps ++ above)
  | [], _, wider, _, sub, flows => flows wider sub
  | _ :: _, _, _, ⟨here, rest⟩, sub, flows =>
    ⟨here.readsFrom.mono sub, rest.flows (here.of_delivers sub) flows⟩

theorem Scoped.of_delivered : ∀ {steps : List Body} {vars wider : List Var}, Scoped vars steps →
    (∀ v ∈ vars, v.Of wider) → ∀ v ∈ delivered vars steps, v.Of (wider ++ steps.flatMap Body.produces)
  | [], _, wider, _, sub, v, member => by
    rw [List.flatMap_nil, List.append_nil]
    exact sub v member
  | body :: rest, _, wider, ⟨here, others⟩, sub, v, member => by
    refine (others.of_delivered (here.of_delivers sub) v member).mono fun u isOne => ?_
    simp only [List.flatMap_cons, List.mem_append] at isOne ⊢
    tauto

/-! ## Relying on the expected schema -/

/-- The variables of a scan, as a schema has them: none stands for a path, and the first is the
record. -/
def Schema.Scans (schema : Schema) (vars : List Var) : Prop :=
  (∀ v ∈ vars, schema.varPath? v = none) ∧ ∀ v, vars[0]? = some v → schema.record.id = v.id

section schema

variable {steps : List Body} {e : Expr}

theorem mem_pathsRead {q : Path × Location} (isStep : body ∈ steps) (isExpr : e ∈ body.exprs)
    (isRead : q ∈ schema.reads e) : q.1 ∈ schema.pathsRead steps :=
  List.mem_flatMap.mpr ⟨body, isStep, List.mem_flatMap.mpr ⟨e, isExpr, List.mem_map_of_mem isRead⟩⟩

theorem Schema.Fits.readable (fits : schema.Fits body) (isStep : body ∈ steps) :
    body.Readable (· ∈ schema.pathsRead steps) schema := by
  cases body with
  | select cond =>
    refine (fits.registers cond (.head _)).reads fun q isRead => ?_
    exact mem_pathsRead isStep (.head _) isRead
  | assign vars exprs =>
    intro binding member
    have isExpr : binding.2 ∈ exprs := (List.of_mem_zip member).2
    refine ⟨(fits.registers binding.2 isExpr).reads fun q isRead => ?_, fits.denotes binding member, ?_⟩
    · exact mem_pathsRead isStep isExpr isRead
    · exact fits.apart id binding.1 (List.of_mem_zip member).1
  | _ => trivial

theorem Body.Readable.take {D : Path → Prop} (readable : (Body.assign vars exprs).Readable D schema)
    (count : Nat) : (Body.assign (vars.take count) (exprs.take count)).Readable D schema := by
  intro binding member
  unfold List.zip at member
  rw [← List.take_zipWith] at member
  exact readable binding (List.mem_of_mem_take member)

end schema

section pipeline

variable {root scan : OpId} {kind : OpKind} {results produced : List Var}
variable {top steps : List (OpId × Body)} {dataset : String}

theorem Scoped.isPiped (isScoped : Scoped vars (steps.map Prod.snd)) : ∀ op ∈ steps, op.2.IsPiped := by
  intro op member
  obtain ⟨reads, here⟩ := isScoped.mem op.2 (List.mem_map_of_mem member)
  exact here.isPiped

section

variable (found : expectedSchemas plan root = .ok schemas)
  (isSchema : schemas.lookup scan = some schema)

include found isSchema

theorem fits_of_walk {function : String} {outputs : List Var}
    (isScan : plan.shape scan = some (.scan dataset vars function outputs, []))
    (above : List (OpId × Body))
    (shaped : ∀ op ∈ above, ∃ inputs, plan.shape op.1 = some (op.2, inputs))
    (walked : ∀ depth state, plan.walkFrom depth root ([], []) = .ok state →
      state.2.reverse = scan :: above.map Prod.fst)
    (distinctIds : (scan :: above.map Prod.fst).Nodup) (flows : Pushdown.Flows (vars ++ []) above)
    (distinct : ((vars ++ above.flatMap (·.2.produces)).map Var.id).Nodup) :
    (∀ op ∈ above, schema.Fits op.2) ∧ schema.Scans vars := by
  have whole := found
  obtain ⟨ids, isWalk, _⟩ := Except.bind_eq_ok.mp whole
  have isIds := isWalk
  obtain ⟨state, went, last⟩ := Except.bind_eq_ok.mp isIds
  obtain rfl : state.2.reverse = ids := Except.ok.inj last
  have listed := walked _ state went
  have lists : plan.Lists state.2.reverse ((scan, .scan dataset vars function outputs) :: above) := by
    refine ⟨listed.symm, List.forall_mem_cons.mpr ⟨?_, fun op member => ?_⟩⟩
    · obtain ⟨o, isThere, isBody, _⟩ := shape_eq_some.mp isScan
      exact ⟨o, isThere, isBody⟩
    · obtain ⟨inputs, here⟩ := shaped op member
      obtain ⟨o, isThere, isBody, _⟩ := shape_eq_some.mp here
      exact ⟨o, isThere, isBody⟩
  have fit := expectedSchemas_fit found isWalk lists (listed ▸ distinctIds) ⟨nofun, flows⟩ distinct
  refine ⟨fun op member => (fit op (.tail _ member) scan schema isSchema).1,
    (fit _ (.head _) scan schema isSchema).1.denotes, fun v isFirst => ?_⟩
  obtain ⟨more, rfl⟩ : ∃ more, vars = v :: more := by
    cases vars with
    | nil => cases isFirst
    | cons first more =>
      cases isFirst
      exact ⟨more, rfl⟩
  rw [(fit _ (.head _) scan schema isSchema).2 dataset v more function outputs rfl rfl]

theorem Pipeline.fits
    (pipeline : plan.Pipeline root kind results top produced steps scan dataset vars)
    (plain : ∀ op ∈ top, op.2.nested? = none)
    (produces : top.reverse.flatMap (·.2.produces) = produced)
    (flows : ∀ wider, (∀ v ∈ delivered vars (steps.map Prod.snd), v.Of wider) →
      Pushdown.Flows wider (top.reverse ++ [(root, .boundary kind results)])) :
    (∀ op ∈ steps ++ top.reverse, schema.Fits op.2) ∧ schema.Scans vars := by
  obtain ⟨function, outputs, isScan⟩ := pipeline.isScan
  let above : List (OpId × Body) := top.reverse ++ [(root, .boundary kind results)]
  have reversed : (steps ++ above).reverse = (root, .boundary kind results) :: (top ++ steps.reverse) := by
    simp [above]
  have stacked : plan.Stacked scan (steps ++ above).reverse root := reversed ▸ pipeline.stacked
  have shaped : ∀ op ∈ steps ++ above, ∃ inputs, plan.shape op.1 = some (op.2, inputs) := by
    intro op member
    obtain ⟨below, here⟩ := stacked.mem op (List.mem_reverse.mpr member)
    exact ⟨_, here⟩
  have plain' : ∀ op ∈ (steps ++ above).reverse, op.2.nested? = none := by
    rw [reversed]
    refine List.forall_mem_cons.mpr ⟨rfl, List.forall_mem_append.mpr ⟨plain, fun op member => ?_⟩⟩
    exact (pipeline.isScoped.isPiped op (List.mem_reverse.mp member)).nested?
  have walked : ∀ depth state, plan.walkFrom depth root ([], []) = .ok state →
      state.2.reverse = scan :: (steps ++ above).map Prod.fst := by
    intro depth state walked
    rw [stacked.walkFrom isScan rfl plain' (fun _ _ => List.not_mem_nil) walked]
    simp
  have distinctIds := List.nodup_reverse.mpr (stacked.nodup isScan)
  have all : vars ++ (steps ++ above).flatMap (·.2.produces) =
      vars ++ steps.flatMap (·.2.produces) ++ produced ++ results := by
    simp [above, ← produces, Body.produces]
  obtain ⟨fits, scans⟩ := fits_of_walk found isSchema isScan _ shaped walked (by simpa using distinctIds)
    (pipeline.isScoped.flows (fun v member => ⟨v, List.mem_append_left _ member, rfl⟩) flows)
    (all ▸ pipeline.distinct)
  refine ⟨fun op member => fits op ?_, scans⟩
  rw [← List.append_assoc]
  exact List.mem_append_left _ member

end

namespace Pipeline

variable (pipeline : plan.Pipeline root kind results top produced steps scan dataset vars)

include pipeline

theorem apart : (vars.map Var.id).Nodup ∧ (produced.map Var.id).Nodup ∧
    ∀ u ∈ produced, ∀ v ∈ delivered vars (steps.map Prod.snd), v.id ≠ u.id := by
  have distinct := pipeline.distinct
  rw [List.map_append, List.map_append] at distinct
  obtain ⟨distinct, _, _⟩ := List.nodup_append.mp distinct
  obtain ⟨distinct, atTop, others⟩ := List.nodup_append.mp distinct
  rw [List.map_append] at distinct
  refine ⟨(List.nodup_append.mp distinct).1, atTop, fun u isProduced v isVar same => ?_⟩
  obtain ⟨w, isWide, sameId⟩ := pipeline.isScoped.of_delivered (fun u isOne => ⟨u, isOne, rfl⟩) v isVar
  rw [List.flatMap_map] at isWide
  exact others _ (List.mem_map_of_mem isWide) _ (List.mem_map_of_mem isProduced) (sameId.trans same)

theorem feeds {evaluated : List Body} (among : steps.map Prod.snd ⊆ evaluated)
    (apart : plan.readsApart root scan evaluated = true)
    (found : expectedSchemas plan root = .ok schemas) (isSchema : schemas.lookup scan = some schema)
    (fits : ∀ op ∈ steps, schema.Fits op.2) (scans : schema.Scans vars) :
    Fusion.Feeds (· ∈ schema.pathsRead evaluated) schema vars (steps.map Prod.snd) where
  texts p q isRead isRead' := texts_of_readsApart apart found isSchema p isRead q isRead'
  distinct := pipeline.apart.1
  noPath := scans.1
  isRecord := scans.2
  isScoped := pipeline.isScoped
  readable body isStep := by
    obtain ⟨op, isOp, rfl⟩ := List.mem_map.mp isStep
    exact (fits op isOp).readable (among isStep)

end Pipeline

end pipeline

end Plan

namespace Fusion

section feeds

variable {steps removed kept : List (OpId × Body)} {vars : List Var} {schema : Plan.Schema}
variable {D : Path → Prop} {s : Setting} {scan : OpId} {dataset : String} {f : ScanFunction}

theorem Splits.isScoped (splits : Splits steps removed kept)
    (isScoped : Plan.Scoped vars (steps.map Prod.snd)) : Plan.Scoped vars (removed.map Prod.snd) := by
  cases splits with
  | whole =>
    rw [List.map_append] at isScoped
    exact isScoped.append_left
  | bindings removed kept id more exprs count isSome isPart =>
    rw [List.map_append] at isScoped ⊢
    exact isScoped.take_assign

theorem Feeds.part (feeds : Feeds D schema vars (steps.map Prod.snd))
    (splits : Splits steps removed kept) : Feeds D schema vars (removed.map Prod.snd) := by
  refine { feeds with isScoped := splits.isScoped feeds.isScoped, readable := fun body member => ?_ }
  cases splits with
  | whole => exact feeds.readable body (List.map_append ▸ List.mem_append_left _ member)
  | bindings removed kept id more exprs count isSome isPart =>
    have readable := feeds.readable
    rw [List.map_append] at member readable
    rcases List.mem_append.mp member with below | here
    · exact readable body (List.mem_append_left _ below)
    · obtain rfl := List.mem_singleton.mp here
      exact (readable (.assign more exprs) (List.mem_append_right _ (.head _))).take count

theorem MadeOf.delivers (madeOf : MadeOf s scan dataset vars steps f)
    (feeds : ∀ schema, s.schemas.lookup scan = some schema →
      ∃ D, Feeds D schema vars (steps.map Prod.snd)) (records : List Value) :
    Delivers f.fn (steps.map Prod.snd) vars f.outputs records := by
  obtain ⟨schema, scope, isSchema, fused, last, output, frozen, _, outputs⟩ := madeOf
  obtain ⟨D, feeds⟩ := feeds schema isSchema
  have whole : ∀ {later}, writeRows scope = .ok ((), later) →
      (do fuseSteps (steps.map Prod.snd); writeRows : Emit Unit) (.opened scan dataset vars schema) =
        .ok ((), later) := fun wrote => Except.bind_eq_ok.mpr ⟨_, fused, wrote⟩
  have same : ∀ later, writeRows scope = .ok ((), later) → later.fn.body = scope.fn.body := by
    intro later wrote
    rw [(feeds.step (whole wrote) .null 0).enters.later.body, (fuseSteps_kept fused).1.body]
  obtain ⟨done, wrote, isSealed⟩ := sealed_of_writeOutput output frozen same
  have delivers := feeds.delivers (whole wrote) isSealed records
  have sameOutputs : f.outputs = done.outputs := by
    obtain ⟨arena, name, _, isFinal⟩ := isSealed
    have sameOutputs := congrArg Scope.outputs isFinal
    exact outputs.trans sameOutputs
  rw [sameOutputs]
  exact delivers

end feeds

theorem compile_pipeline {plan : Plan} {root scan : OpId} {kind : Plan.OpKind}
    {results produced vars : List Var} {top steps : List (OpId × Body)} {dataset stem : String}
    {config : Plan.Config} {catalog : Plan.Catalog} {functions : List ScanFunction} {f : ScanFunction}
    (pipeline : plan.Pipeline root kind results top produced steps scan dataset vars)
    (piped : ∀ op ∈ top, op.2.IsPiped)
    (compiled : (compile plan root config catalog none stem).result = .ok functions)
    (member : f ∈ functions) :
    ∃ s removed kept below, Plan.expectedSchemas plan root = .ok s.schemas ∧
      MadeOf s scan dataset vars removed f ∧ Splits (steps ++ top.reverse) removed kept ∧
      (compile plan root config catalog none stem).plan.Stacked scan kept.reverse below ∧
      (compile plan root config catalog none stem).plan.shape root =
        some (.boundary kind results, [below]) ∧
      (compile plan root config catalog none stem).plan.shape scan =
        some (.scan dataset vars f.fn.name f.outputs, []) := by
  obtain ⟨schemas, uses, st, expected, ended, rfl, shapes⟩ := compile_eq_ok compiled
  obtain ⟨function, outputs, isScan⟩ := pipeline.isScan
  have piped' : ∀ op ∈ top ++ steps.reverse, op.2.IsPiped :=
    List.forall_mem_append.mpr ⟨piped, fun op member =>
      pipeline.isScoped.isPiped op (List.mem_reverse.mp member)⟩
  obtain ⟨isClosed, below, isRoot, reached⟩ := compileAll_stack pipeline.stacked isScan piped' ended
  rw [List.reverse_append, List.reverse_reverse] at reached
  cases reached with
  | fusing scope fusing =>
    rw [fusing.isOpen] at isClosed
    cases isClosed
  | idle _ noFunction =>
    rw [noFunction] at member
    cases member
  | complete _ f' removed kept isFunction madeOf splits stacked marked =>
    rw [isFunction] at member
    obtain rfl := List.mem_singleton.mp member
    exact ⟨_, removed, kept, below, expected, madeOf, splits, stacked.congr fun op _ => shapes op.1,
      (shapes root).trans isRoot, (shapes scan).trans marked⟩

/-- Fusing a scalar pipeline keeps its meaning: a function that the compiler returns delivers, over any
records, what the operators and bindings that it took out make of them, and the others are left
above the scan. -/
theorem compile_scalar_pipeline_delivers {plan : Plan} {root scan : OpId} {kind : Plan.OpKind}
    {results vars : List Var} {steps : List (OpId × Body)} {dataset stem : String}
    {config : Plan.Config} {catalog : Plan.Catalog} {functions : List ScanFunction} {f : ScanFunction}
    (pipeline : plan.Pipeline root kind results [] [] steps scan dataset vars)
    (apart : plan.readsApart root scan (steps.map Prod.snd) = true)
    (compiled : (compile plan root config catalog none stem).result = .ok functions)
    (member : f ∈ functions) :
    ∃ removed kept, Splits steps removed kept ∧
      (compile plan root config catalog none stem).plan.Stacked scan
        ((root, .boundary kind results) :: kept.reverse) root ∧
      (compile plan root config catalog none stem).plan.shape scan =
        some (.scan dataset vars f.fn.name f.outputs, []) ∧
      ∀ records, Delivers f.fn (removed.map Prod.snd) vars f.outputs records := by
  obtain ⟨s, removed, kept, below, expected, madeOf, splits, stacked, isRoot, marked⟩ :=
    compile_pipeline pipeline nofun compiled member
  rw [List.reverse_nil, List.append_nil] at splits
  refine ⟨removed, kept, splits, ⟨rfl, below, isRoot, stacked⟩, marked,
    madeOf.delivers fun schema isSchema => ?_⟩
  obtain ⟨fits, scans⟩ := pipeline.fits expected isSchema nofun rfl fun _ _ => ⟨nofun, trivial⟩
  have feeds := pipeline.feeds (fun _ => id) apart expected isSchema
    (fun op isOp => fits op (List.mem_append_left _ isOp)) scans
  exact ⟨_, feeds.part splits⟩

/-- The variable of the record in `partlyScalar`. -/
def partlyScalarRecord : Var := ⟨0, "r", .record⟩

/-- A select below an assign of which only the first binding is scalar. -/
def partlyScalarSteps : List (OpId × Body) :=
  let r : Expr := .var partlyScalarRecord
  [(1, .select (.call .gt [.field r "age", .const (.int 18)] Location.none)),
    (2, .assign [⟨1, "x", .any⟩, ⟨2, "y", .any⟩]
      [.field r "name", .call .listify [.var ⟨1, "x", .any⟩] Location.none])]

/-- A plan with the operators of `partlyScalarSteps` over a scan. -/
def partlyScalar : Plan :=
  { ops := #[
      { body := .scan "d" [partlyScalarRecord] "" [], inputs := [] },
      { body := (partlyScalarSteps[0]).2, inputs := [0] },
      { body := (partlyScalarSteps[1]).2, inputs := [1] },
      { body := .boundary .distributeResult [], inputs := [2] }] }

/-- The select and the first binding of the assign become a function, the other binding stays. -/
theorem compile_partlyScalar_delivers :
    ∃ f removed kept, (compile partlyScalar 3 {} columnar none "f").result = .ok [f] ∧
      Splits partlyScalarSteps removed kept ∧
      ∀ records, Delivers f.fn (removed.map Prod.snd) [partlyScalarRecord] f.outputs records := by
  have pipeline : partlyScalar.Pipeline 3 .distributeResult [] [] [] partlyScalarSteps 0 "d"
      [partlyScalarRecord] := by
    refine ⟨⟨"", [], rfl⟩, ⟨rfl, 2, rfl, rfl, 1, rfl, rfl, 0, rfl, rfl⟩, ?_, by decide⟩
    have reads (e : Expr) (vars : List Var) (within : ∀ w ∈ e.occurrences, ∃ v ∈ vars, v.id = w.id) :
        e.ReadsOnly vars := within
    exact ⟨reads _ _ (by decide), ⟨reads _ _ (by decide), reads _ _ (by decide), trivial⟩, trivial⟩
  have apart : partlyScalar.readsApart 3 0 (partlyScalarSteps.map Prod.snd) = true := by decide +kernel
  obtain ⟨f, compiled⟩ := Except.exists_eq_ok_singleton
    (show (compile partlyScalar 3 {} columnar none "f").result.toOption.map _ = _ by decide +kernel)
  obtain ⟨removed, kept, splits, _, _, delivers⟩ := compile_scalar_pipeline_delivers pipeline
    apart compiled (List.mem_singleton_self f)
  exact ⟨f, removed, kept, compiled, splits, delivers⟩

end Fusion

end QueryFusion

import QueryFusion.Proofs.Fusion.GroupDelivery
import QueryFusion.Proofs.Fusion.ScalarPipeline

/-!
# Fusing a group-by over a scalar pipeline keeps its meaning

A local group-by with one count or sum over a scalar pipeline can only be fused by hashing: there is
no loop that would make every record a group of its own and no ordering above that would need only
the best groups. The function that the compiler makes of it delivers the groups of the tuples that
the pipeline makes of the records.
-/

namespace QueryFusion

open EStateM (bind_eq_ok bind_apply)
open Plan (OpId Operator Body Tuple Tally)

namespace Plan

/-- A local group-by with one aggregate. -/
structure LocalGroupBy where
  op : OpId
  keys : List Binding
  aggregate : OpId
  leaf : OpId
  out : Var
  call : Call

namespace LocalGroupBy

/-- What the group-by does. -/
def body (g : LocalGroupBy) : Body := .groupBy g.keys (some g.aggregate) false

/-- What the root of the nested plan does, in its local or global phase. -/
def aggregateBody (g : LocalGroupBy) (isGlobal : Bool) : Body := .aggregate [g.out] [g.call] isGlobal

/-- The group-by over a pipeline over a scan. -/
def tally (g : LocalGroupBy) (vars : List Var) (steps : List (OpId × Body)) : Tally where
  vars := vars
  steps := steps.map Prod.snd
  keys := g.keys.map Binding.expr
  call := g.call

end LocalGroupBy

/-- A boundary over a local group-by over a scalar pipeline over a scan. The group-by reads variables of
its input only. -/
structure GroupPipeline (plan : Plan) (root : OpId) (kind : OpKind) (results : List Var)
    (g : LocalGroupBy) (steps : List (OpId × Body)) (scan : OpId) (dataset : String)
    (vars : List Var) : Prop extends Pipeline plan root kind results [(g.op, g.body)]
      (g.out :: g.keys.map Binding.var) steps scan dataset vars where
  isAggregate : ∃ isGlobal, plan.shape g.aggregate = some (g.aggregateBody isGlobal, [g.leaf])
  isLeaf : ∃ owner, plan.shape g.leaf = some (.nestedSource owner, [])
  keys : ∀ key ∈ g.keys, key.expr.ReadsOnly (delivered vars (steps.map Prod.snd))
  call : g.call.expr.ReadsOnly (delivered vars (steps.map Prod.snd))

section pipeline

variable {plan : Plan} {root scan : OpId} {kind : OpKind} {results vars : List Var}
variable {g : LocalGroupBy} {steps : List (OpId × Body)} {dataset : String} {schemas : Schemas}
variable {schema : Schema}

/-- There is no order at the top of a pipeline. -/
theorem Stacked.noOrder {ops : List (OpId × Body)} {top : OpId} {function : String}
    {outputs : List Var} (stacked : plan.Stacked scan ops top)
    (isScan : plan.shape scan = some (.scan dataset vars function outputs, []))
    (piped : ∀ op ∈ ops, op.2.IsPiped) :
    ∃ inner inputs, plan.shape top = some (inner, inputs) ∧
      ∀ keys count, inner ≠ .order keys count := by
  cases ops with
  | nil =>
    obtain rfl : top = scan := stacked
    exact ⟨_, _, isScan, fun _ _ => nofun⟩
  | cons op rest =>
    obtain ⟨rfl, below, here, _⟩ := stacked
    have isPiped := piped op (.head _)
    refine ⟨_, _, here, fun keys count isOrder => ?_⟩
    rw [isOrder] at isPiped
    exact isPiped

/-- What stands above the nested plan of the group-by. -/
def outside (root : OpId) (g : LocalGroupBy) (steps : List (OpId × Body)) (scan : OpId) : List OpId :=
  root :: g.op :: (steps.reverse.map Prod.fst ++ [scan])

section

variable (pipeline : plan.GroupPipeline root kind results g steps scan dataset vars)

include pipeline

/-- The operators of the nested plan are others. -/
theorem GroupPipeline.outsiders :
    g.aggregate ∉ outside root g steps scan ∧ g.leaf ∉ outside root g steps scan ∧
      g.leaf ≠ g.aggregate := by
  obtain ⟨function, outputs, isScan⟩ := pipeline.isScan
  obtain ⟨isGlobal, isAggregate⟩ := pipeline.isAggregate
  obtain ⟨owner, isLeaf⟩ := pipeline.isLeaf
  have bodies : ∀ id ∈ outside root g steps scan, ∃ body inputs, plan.shape id = some (body, inputs) ∧
      body ≠ g.aggregateBody isGlobal ∧ body ≠ .nestedSource owner := by
    have inStack : ∀ op ∈ (root, Body.boundary kind results) :: (g.op, g.body) :: steps.reverse,
        op.2 ≠ g.aggregateBody isGlobal ∧ op.2 ≠ .nestedSource owner := by
      refine List.forall_mem_cons.mpr ⟨⟨nofun, nofun⟩, List.forall_mem_cons.mpr ⟨⟨nofun, nofun⟩, ?_⟩⟩
      intro op member
      obtain ⟨reads, isScoped⟩ := pipeline.isScoped.mem op.2
        (List.mem_map_of_mem (List.mem_reverse.mp member))
      constructor <;> intro same <;> rw [same] at isScoped <;> exact isScoped
    intro id member
    rcases List.mem_append.mp (show id ∈ ((root, Body.boundary kind results) :: (g.op, g.body) ::
      steps.reverse).map Prod.fst ++ [scan] from member) with stacked | isBottom
    · obtain ⟨op, isOp, rfl⟩ := List.mem_map.mp stacked
      obtain ⟨below, here⟩ := pipeline.stacked.mem op isOp
      exact ⟨_, _, here, inStack op isOp⟩
    · obtain rfl := List.mem_singleton.mp isBottom
      exact ⟨_, _, isScan, nofun, nofun⟩
  refine ⟨fun member => ?_, fun member => ?_, fun same => ?_⟩
  · obtain ⟨body, inputs, here, notAggregate, _⟩ := bodies _ member
    rw [isAggregate] at here
    exact notAggregate (Prod.mk.inj (Option.some.inj here)).1.symm
  · obtain ⟨body, inputs, here, _, notLeaf⟩ := bodies _ member
    rw [isLeaf] at here
    exact notLeaf (Prod.mk.inj (Option.some.inj here)).1.symm
  · rw [same, isAggregate] at isLeaf
    cases isLeaf

theorem GroupPipeline.walked {depth : Nat}
    {state : List OpId × List OpId} (walked : plan.walkFrom depth root ([], []) = .ok state) :
    state.2 = root :: g.op :: g.aggregate :: g.leaf :: (steps.reverse.map Prod.fst ++ [scan]) := by
  obtain ⟨function, outputs, isScan⟩ := pipeline.isScan
  obtain ⟨isGlobal, isAggregate⟩ := pipeline.isAggregate
  obtain ⟨owner, isLeaf⟩ := pipeline.isLeaf
  obtain ⟨notAggregate, notLeaf, leafApart⟩ := pipeline.outsiders
  obtain ⟨notRoot, notGroup⟩ := List.nodup_cons.mp (pipeline.stacked.nodup isScan)
  obtain ⟨notGroup, distinct⟩ := List.nodup_cons.mp notGroup
  obtain ⟨_, group, isRoot, rfl, top, isGroup, stacked⟩ := pipeline.stacked
  have plain : ∀ op ∈ steps.reverse, op.2.nested? = none := fun op member =>
    (pipeline.isScoped.isPiped op (List.mem_reverse.mp member)).nested?
  obtain ⟨_, _, _, belowRoot, rfl⟩ := walkFrom_unary isRoot rfl List.not_mem_nil walked
  have groupNew : g.op ∉ [root] := fun member =>
    notRoot (List.mem_singleton.mp member ▸ (.head _))
  obtain ⟨_, _, _, belowGroup, same⟩ := walkFrom_new isGroup groupNew belowRoot
  cases same
  obtain ⟨inner, belowStack, rest⟩ := Except.bind_eq_ok.mp belowGroup
  have unmet : ∀ id ∈ steps.reverse.map Prod.fst ++ [scan], id ∉ [g.op, root] := by
    intro id member isMet
    rcases List.mem_cons.mp isMet with rfl | isRoot
    · exact notGroup member
    · exact notRoot (List.mem_singleton.mp isRoot ▸ .tail _ member)
  rw [stacked.walkFrom isScan rfl plain unmet belowStack] at rest
  obtain ⟨inner, inNested, last⟩ := Except.bind_eq_ok.mp rest
  cases last
  have isMet : ∀ {id}, id ∉ outside root g steps scan →
      id ∉ (steps.reverse.map Prod.fst ++ [scan]).reverse ++ [g.op, root] := by
    intro id notOutside member
    refine notOutside ?_
    simp only [outside, List.mem_append, List.mem_cons, List.mem_reverse, List.not_mem_nil, or_false]
      at member ⊢
    tauto
  obtain ⟨_, _, _, atLeaf, same⟩ := walkFrom_unary isAggregate rfl (isMet notAggregate) inNested
  cases same
  have leafNew := List.not_mem_cons_of_ne_of_not_mem leafApart (isMet notLeaf)
  cases walkFrom_leaf isLeaf rfl leafNew atLeaf
  rw [List.append_nil]
  rfl

theorem GroupPipeline.fits
    (found : expectedSchemas plan root = .ok schemas) (isSchema : schemas.lookup scan = some schema) :
    ((∀ op ∈ steps, schema.Fits op.2) ∧ (∀ isGlobal, schema.Fits (g.aggregateBody isGlobal)) ∧
      schema.Fits g.body) ∧ schema.Scans vars := by
  obtain ⟨function, outputs, isScan⟩ := pipeline.isScan
  obtain ⟨isGlobal, isAggregate⟩ := pipeline.isAggregate
  obtain ⟨owner, isLeaf⟩ := pipeline.isLeaf
  let nested : List (OpId × Body) := [(g.leaf, .nestedSource owner),
    (g.aggregate, g.aggregateBody isGlobal),
    (g.op, g.body), (root, .boundary kind results)]
  have shaped : ∀ op ∈ steps ++ nested, ∃ inputs, plan.shape op.1 = some (op.2, inputs) := by
    have stacked : ∀ op ∈ (root, Body.boundary kind results) :: (g.op, g.body) :: steps.reverse,
        ∃ inputs, plan.shape op.1 = some (op.2, inputs) := by
      intro op member
      obtain ⟨below, here⟩ := pipeline.stacked.mem op member
      exact ⟨_, here⟩
    intro op member
    rcases List.mem_append.mp member with isStep | isAbove
    · exact stacked op (.tail _ (.tail _ (List.mem_reverse.mpr isStep)))
    · simp only [nested, List.mem_cons, List.not_mem_nil, or_false] at isAbove
      rcases isAbove with rfl | rfl | rfl | rfl
      · exact ⟨_, isLeaf⟩
      · exact ⟨_, isAggregate⟩
      · exact stacked _ (.tail _ (.head _))
      · exact stacked _ (.head _)
  have walked : ∀ depth state, plan.walkFrom depth root ([], []) = .ok state →
      state.2.reverse = scan :: (steps ++ nested).map Prod.fst := by
    intro depth state walked
    rw [pipeline.walked walked]
    simp [nested]
  have distinctIds : (scan :: (steps ++ nested).map Prod.fst).Nodup := by
    have reversed : (scan :: (steps ++ nested).map Prod.fst).reverse =
        [root, g.op] ++ [g.aggregate, g.leaf] ++ (steps.reverse.map Prod.fst ++ [scan]) := by
      simp [nested]
    obtain ⟨notAggregate, notLeaf, leafApart⟩ := pipeline.outsiders
    have whole : ([g.aggregate, g.leaf] ++ outside root g steps scan).Nodup := by
      refine List.nodup_cons.mpr ⟨List.not_mem_cons_of_ne_of_not_mem leafApart.symm notAggregate, ?_⟩
      exact List.nodup_cons.mpr ⟨notLeaf, pipeline.stacked.nodup isScan⟩
    rw [← List.nodup_reverse, reversed, List.append_assoc]
    exact (List.perm_append_comm_assoc _ _ _).nodup whole
  have flows : Pushdown.Flows (vars ++ []) (steps ++ nested) := by
    refine pipeline.isScoped.flows (fun v member => ⟨v, List.mem_append_left _ member, rfl⟩) ?_
    intro wider sub
    have wider' : ∀ v ∈ delivered vars (steps.map Prod.snd), v.Of (g.out :: wider) := fun v member =>
      (sub v member).mono fun _ => .tail _
    refine ⟨nofun, ?_, ?_, nofun, trivial⟩
    · exact List.forall_mem_singleton.mpr (pipeline.call.mono sub)
    · intro e member
      obtain ⟨key, isKey, rfl⟩ := List.mem_map.mp member
      exact (pipeline.keys key isKey).mono wider'
  have produced : vars ++ (steps ++ nested).flatMap (·.2.produces) =
      vars ++ steps.flatMap (·.2.produces) ++ g.out :: g.keys.map Binding.var ++ results := by
    simp [nested, Body.produces, LocalGroupBy.body, LocalGroupBy.aggregateBody]
  obtain ⟨fits, scanned⟩ := fits_of_walk found isSchema isScan _ shaped walked distinctIds flows
    (produced ▸ pipeline.distinct)
  refine ⟨⟨fun op member => fits op (List.mem_append_left _ member), fun other => ?_, ?_⟩, scanned⟩
  · have here := fits (g.aggregate, g.aggregateBody isGlobal) (by simp [nested])
    exact ⟨here.registers, here.denotes, here.apart⟩
  · exact fits (g.op, g.body) (by simp [nested])

end

end pipeline

end Plan

namespace Fusion

/-! ## Compiling the group-by -/

/-- The aggregate of a group-by, as the compiler finds it. -/
def nestedAggregate (g : Plan.LocalGroupBy) : NestedAggregate := ⟨[g.out], [g.call], some g.leaf⟩

/-- A function was made of the code of a group-by by hashing over operators over a scan. -/
def MadeOfGroups (s : Setting) (scan : OpId) (dataset : String) (vars : List Var)
    (steps : List (OpId × Body)) (g : Plan.LocalGroupBy) (f : ScanFunction) : Prop :=
  ∃ schema first later, s.schemas.lookup scan = some schema ∧
    fuseSteps (steps.map Prod.snd) (.opened scan dataset vars schema) = .ok ((), first) ∧
    groupByHash s.config g.keys (nestedAggregate g) first = .ok (true, later) ∧
    Completed { later with fused := later.fused + 1 } f

/-- How far the compiler is after the group-by: it is left under its consumer, or its function is
complete. -/
inductive GroupReached (s : Setting) (scan : OpId) (dataset : String) (vars : List Var)
    (steps : List (OpId × Body)) (g : Plan.LocalGroupBy) (consumer : OpId) (above : Body) (st : State) :
    Prop
  | kept (isConsumer : st.draft.plan.shape consumer = some (above, [g.op]))
  | grouped (f : ScanFunction) (isFunction : st.functions = [f])
      (madeOf : MadeOfGroups s scan dataset vars steps g f)
      (marked : st.draft.plan.shape scan = some (.scan dataset vars f.fn.name f.outputs, []))
      (isConsumer : st.draft.plan.shape consumer = some (above, [scan]))

section walk

variable {s : Setting} {scan consumer : OpId} {dataset : String} {vars : List Var}
variable {steps : List (OpId × Body)} {g : Plan.LocalGroupBy} {st st' : State} {scope : Scope}
variable {above : Body} {isGlobal : Bool}

theorem closeScope_kept {op : OpId} {reason : ClosingReason} {body : Body} {inputs : List OpId}
    (isOpen : st.scope = some scope) (here : st.draft.plan.shape op = some (body, inputs))
    (notScan : ¬ body.IsScan) (ended : closeScope s reason st = .ok () st') :
    st'.scope = none ∧ st'.draft.plan.shape op = some (body, inputs) := by
  obtain ⟨same, outcome⟩ := closeScope_some isOpen ended
  refine ⟨by rw [same], ?_⟩
  rcases outcome with ⟨_, _, draft⟩ | ⟨f, _, marks, _⟩
  · rw [draft]
    exact here
  · obtain ⟨_, _, _, _, _, isScan, marked⟩ := marks
    rw [marked op, if_neg]
    · exact here
    · rintro rfl
      cases here.symm.trans isScan
      exact notScan trivial

theorem unlooped_selectOn (cond : Expr) (sane : scope.Sane {}) (unlooped : scope.Unlooped) :
    Yields (selectOn cond) scope fun _ later => later.Unlooped := by
  have coded : CodesAt {} False (fun _ => False) (codeOf cond) scope _ :=
    codesAt_codeOf cond .any _ scope sane
  refine .bind (.mono coded.yields fun test first ⟨codes, _⟩ => ?_)
  have rooted₁ := codes.adds.later.rooted sane.rooted
  refine .bind (.get (.bind ((yields_openBlock _ .select first).mono ?_)))
  rintro yes second ⟨rfl, rfl⟩
  have opened : first.Adds { first with
      fn := { first.fn with arena := (first.fn.arena.new (some first.current) .select).2 } } :=
    adds_block (by decide) fun _ => .refl
  refine .bind ((yields_emit _ _).mono ?_)
  rintro _ third ⟨arena, appended, rfl⟩
  have adds' := adds_appendHead (fun _ => .refl) appended
  refine yields_moveTo ?_
  have unlooped₃ := (unlooped.adds sane.rooted codes.adds).adds rooted₁ (opened.trans adds')
  obtain ⟨yes, there, grows⟩ := adds'.later.arena.grown first.fn.arena.blocks.size _
    (by rw [Code.Arena.new_getElem?, if_pos rfl])
  intro b block isOpen here
  rcases (Code.Arena.within_iff there).mp isOpen with rfl | ⟨parent, isParent, within⟩
  · cases here.symm.trans there
    rw [grows.tag]
    exact nofun
  · rw [grows.parent] at isParent
    cases isParent
    exact unlooped₃ b block (by
      exact within) here

theorem unlooped_fuseSteps : ∀ (steps : List Body) (vars : List Var) (scope : Scope),
    Plan.Scoped vars steps → scope.Sane {} → scope.Unlooped →
    Yields (fuseSteps steps) scope fun _ later => later.Unlooped
  | [], _, _, _, _, unlooped => .pure unlooped
  | body :: rest, _, scope, ⟨isScoped, others⟩, sane, unlooped => by
    have step : Yields (fuseStep body) scope fun _ later => later.Sane {} ∧ later.Unlooped := by
      cases body with
      | select cond =>
        intro a later done
        have made : MakesAt {} False (fun _ => False) (selectOn cond) scope Anything :=
          makesAt_selectOn .any sane
        exact ⟨(made.yields a later done).1.sane sane, unlooped_selectOn cond sane unlooped a later done⟩
      | assign vars exprs =>
        have made : MakesAt {} False (fun _ => False) (assignVars vars exprs) scope _ :=
          makesAt_assignVars vars exprs nofun (fun _ _ => .any) scope sane
        exact .mono made.yields fun _ later ⟨makes, same⟩ =>
          ⟨makes.sane sane, unlooped.adds sane.rooted ⟨makes.enters.later, same⟩⟩
      | project vars =>
        have made : MakesAt {} False (fun _ => False) (projectOutput vars) scope _ :=
          makesAt_projectOutput vars scope
        exact .mono made.yields fun _ later ⟨makes, same⟩ =>
          ⟨makes.sane sane, unlooped.adds sane.rooted ⟨makes.enters.later, same⟩⟩
      | _ => exact isScoped.elim
    refine .bind (step.mono fun _ first held => .bind ?_)
    have counted : CodesAt {} False (fun _ => False) countFused first Anything :=
      codesAt_countFused first
    refine .mono counted.yields fun _ second ⟨codes, _⟩ => ?_
    exact unlooped_fuseSteps rest _ second others (codes.sane held.1)
      (held.2.adds held.1.rooted codes.adds)

theorem Fusing.unlooped (fusing : Fusing s scan dataset vars steps st scope)
    (isScoped : Plan.Scoped vars (steps.map Prod.snd)) : scope.Unlooped := by
  obtain ⟨schema, _, fused⟩ := fusing.fused
  refine unlooped_fuseSteps _ _ _ isScoped (opened_sane scan dataset vars schema nofun) ?_ () scope fused
  intro b block isOpen here
  rcases opened_open isOpen with rfl | rfl
  · cases here
    exact nofun
  · cases here
    exact nofun

/-- The scan of a function of a group-by. -/
theorem MadeOfGroups.scan_eq {f : ScanFunction} (madeOf : MadeOfGroups s scan dataset vars steps g f) :
    f.scan = scan := by
  obtain ⟨schema, first, later, _, fused, hashed, last, output, _, isScan, _⟩ := madeOf
  obtain ⟨opened, sane⟩ := fuseSteps_kept fused
  have grouped : MakesAt {} False (fun _ => False) (groupByHash s.config g.keys
      (nestedAggregate g)) first Anything :=
    makesAt_groupByHash ⟨nofun, fun _ _ => .any⟩ (fun _ _ => .any) id _ sane
  obtain ⟨makes, _⟩ := grouped.yields true later hashed
  have counted : CodesAt {} False (fun _ => False) countFused later Anything :=
    codesAt_countFused later
  have sane' := (counted.yields () _ rfl).1.sane (makes.sane sane)
  rw [isScan, writeOutput_scan sane' output]
  rw [makes.enters.later.scan, opened.scan]
  rfl

theorem Fusing.fuseGroupBy (fusing : Fusing s scan dataset vars steps st scope)
    (isScoped : Plan.Scoped vars (steps.map Prod.snd)) (noTopK : st.topK = none)
    (sits : Sits st.draft.plan scan g.op consumer g.body above) (notScan : ¬ above.IsScan)
    (isAggregate : st.draft.plan.shape g.aggregate = some (g.aggregateBody isGlobal, [g.leaf]))
    (ended : fuseGroupBy s g.op consumer g.keys (some g.aggregate) st = .ok () st') :
    st'.scope = none ∧ GroupReached s scan dataset vars steps g consumer above st' := by
  have stops : ∀ (later : Scope) (reason : ClosingReason),
      closeScope s reason { st with scope := some later } = .ok () st' →
      st'.scope = none ∧ GroupReached s scan dataset vars steps g consumer above st' := by
    intro later reason closed
    have isConsumer : ({ st with scope := some later } : State).draft.plan.shape consumer =
      some (above, [g.op]) := sits.isConsumer
    obtain ⟨isClosed, kept⟩ := closeScope_kept rfl isConsumer notScan closed
    exact ⟨isClosed, .kept kept⟩
  have isNested : nestedAggregate? st.draft.plan (some g.aggregate) = some (nestedAggregate g) := by
    obtain ⟨o, found, isBody, isInputs⟩ := Plan.shape_eq_some.mp isAggregate
    change (st.draft.plan.ops[g.aggregate]?).bind _ = _
    rw [found, Option.bind_some, isBody]
    unfold Plan.Operator.input?
    rw [isInputs]
    rfl
  unfold Fusion.fuseGroupBy at ended
  rw [bind_apply, EStateM.get_apply] at ended
  dsimp only at ended
  rw [isNested] at ended
  cases isLocal : (some (nestedAggregate g)).filter (isLocalGroupBy st.draft.plan g.keys) with
  | none =>
    rw [isLocal] at ended
    refine stops scope .groupBy ?_
    rw [← fusing.isOpen]
    exact ended
  | some aggregate =>
    rw [isLocal] at ended
    cases (Option.filter_eq_some_iff.mp isLocal).1
    obtain ⟨answer, _, grouped, rest⟩ := bind_eq_ok.mp ended
    obtain ⟨_, later, isOpen, isGrouped, rfl⟩ := onScope_eq_ok grouped
    cases fusing.isOpen.symm.trans isOpen
    cases answer with
    | none => exact stops later .groupBy rest
    | some grouping =>
      rw [noTopK] at isGrouped
      obtain ⟨hashed, rfl⟩ := groupLocally_eq_ok (fusing.unlooped isScoped) isGrouped
      obtain ⟨_, _, got, rest⟩ := bind_eq_ok.mp rest
      obtain ⟨_, _, isOpen', isGot, rfl⟩ := onScope_eq_ok got
      cases isOpen'
      cases isGot
      obtain ⟨_, _, noted, rest⟩ := bind_eq_ok.mp rest
      cases noted
      obtain ⟨order, _, ordered, rest⟩ := bind_eq_ok.mp rest
      obtain ⟨function, outputs, isScan⟩ := fusing.isScan
      have noOrder : ∀ keys count, Body.scan dataset vars function outputs ≠ .order keys count :=
        fun _ _ => nofun
      cases (orderBelow?_eq_ok (by exact sits.here) (by exact isScan) noOrder).symm.trans ordered
      obtain ⟨_, _, removed, closed⟩ := bind_eq_ok.mp rest
      obtain ⟨draft, counted, isRemoved, isOpen'', rfl⟩ := removeOp_eq_ok removed
      cases isOpen''
      obtain ⟨same, outcome⟩ := closeScope_some rfl closed
      refine ⟨by rw [same], ?_⟩
      obtain ⟨schema, isSchema, fused⟩ := fusing.fused
      rcases outcome with ⟨nothing, _⟩ | ⟨f, completed, marks, functions⟩
      · cases nothing
      · have madeOf : MadeOfGroups s scan dataset vars steps g f :=
          ⟨schema, scope, later, isSchema, fused, hashed, completed⟩
        obtain ⟨_, _, _, _, _, isScan', marked⟩ := marks
        rw [madeOf.scan_eq] at isScan' marked
        obtain ⟨_, input, _, wasHere, wasConsumer, others⟩ := Plan.shape_remove isRemoved
        obtain ⟨_, sameInput⟩ := Prod.mk.inj (Option.some.inj (wasHere.symm.trans sits.here))
        obtain ⟨rfl, _⟩ := List.cons.inj sameInput
        cases wasConsumer.symm.trans sits.isConsumer
        have isScan'' : draft.plan.shape input = some (.scan dataset vars function outputs, []) := by
          rw [others input, if_neg sits.beyond.symm]
          exact isScan
        obtain ⟨sameBody, sameInputs⟩ := Prod.mk.inj (Option.some.inj (isScan''.symm.trans isScan'))
        obtain ⟨rfl, rfl, _⟩ := Body.scan.inj sameBody
        refine .grouped f (functions.trans ?_) madeOf ?_ ?_
        · rw [show _ = st.functions from rfl, fusing.noFunction, List.nil_append]
        · rw [marked input, if_pos rfl, ← sameInputs]
        · rw [marked consumer, if_neg sits.beyond]
          rw [others consumer, if_pos rfl]

theorem Arrives.process_group
    (arrives : Arrives s scan dataset vars steps g.op g.body st)
    (isScoped : Plan.Scoped vars (steps.map Prod.snd)) (noTopK : st.topK = none)
    (isConsumer : st.draft.plan.shape consumer = some (above, [g.op])) (notScan : ¬ above.IsScan)
    (apart : g.op ≠ scan ∧ consumer ≠ scan ∧ g.op ≠ consumer)
    (isAggregate : st.draft.plan.shape g.aggregate = some (g.aggregateBody isGlobal, [g.leaf]))
    (ended : process s g.op (some consumer) st = .ok () st') :
    st'.scope = none ∧ GroupReached s scan dataset vars steps g consumer above st' := by
  obtain ⟨top, isOp, reached⟩ := arrives
  obtain ⟨o, found, isBody, _⟩ := Plan.shape_eq_some.mp isOp
  have notScan' : ¬ o.body.IsScan := by
    rw [isBody]
    exact id
  have idle : st.scope = none →
      st'.scope = none ∧ GroupReached s scan dataset vars steps g consumer above st' := by
    intro isClosed
    rw [process_closed found notScan' isClosed] at ended
    cases ended
    exact ⟨isClosed, .kept isConsumer⟩
  cases reached with
  | idle isClosed _ => exact idle isClosed
  | complete isClosed => exact idle isClosed
  | fusing scope fusing isTop =>
    subst isTop
    rcases process_open found notScan' fusing.isOpen ended with
      ⟨passes, _⟩ | ⟨reason, closed⟩ | ⟨_, p, same, _, _, _, _, fused⟩
    · rw [isBody] at passes
      cases passes
    · obtain ⟨isClosed, kept⟩ := closeScope_kept fusing.isOpen isConsumer notScan closed
      exact ⟨isClosed, .kept kept⟩
    · cases same
      unfold Fusion.fuseOp at fused
      rw [isBody] at fused
      exact fusing.fuseGroupBy isScoped noTopK ⟨isOp, isConsumer, apart.1, apart.2.1, apart.2.2⟩ notScan
        isAggregate fused

theorem compileAll_group {plan : Plan} {root : OpId} {kind : Plan.OpKind} {results : List Var}
    (pipeline : plan.GroupPipeline root kind results g steps scan dataset vars)
    (ended : compileAll s root { draft := { plan } } = .ok () st') :
    GroupReached s scan dataset vars steps g root (.boundary kind results) st' := by
  obtain ⟨function, outputs, isScan⟩ := pipeline.isScan
  obtain ⟨isGlobal, isAggregate⟩ := pipeline.isAggregate
  obtain ⟨notAggregate, _, _⟩ := pipeline.outsiders
  obtain ⟨notRoot, distinct⟩ := List.nodup_cons.mp (pipeline.stacked.nodup isScan)
  obtain ⟨notGroup, distinct⟩ := List.nodup_cons.mp distinct
  obtain ⟨_, group, isRoot, rfl, top, isGroup, stacked⟩ := pipeline.stacked
  have piped : ∀ op ∈ steps.reverse, op.2.IsPiped := fun op member =>
    pipeline.isScoped.isPiped op (List.mem_reverse.mp member)
  have isBottom : scan ∈ steps.reverse.map Prod.fst ++ [scan] :=
    List.mem_append_right _ (List.mem_singleton_self scan)
  have apart : g.op ≠ scan ∧ root ≠ scan ∧ g.op ≠ root := by
    refine ⟨fun same => notGroup ?_, fun same => notRoot ?_, fun same => notRoot ?_⟩
    · rw [same]
      exact isBottom
    · rw [same]
      exact .tail _ isBottom
    · rw [← same]
      exact .head _
  obtain ⟨depth, below, last, visitedGroup, processed, closed⟩ := compileAll_boundary isRoot ended
  cases depth with
  | zero => cases visitedGroup
  | succ depth => ?_
  obtain ⟨o', found', isBody', isInputs'⟩ := Plan.shape_eq_some.mp isGroup
  have groupUnmet : g.op ∉ [root] := fun isMet => apart.2.2 (List.mem_singleton.mp isMet)
  have enters : enterGroupBy g.op (some root) o' { draft := { plan }, visited := [g.op, root] } =
      .ok () { draft := { plan }, visited := [g.op, root] } := by
    obtain ⟨inner, inputs, isTop, noOrder⟩ := stacked.noOrder isScan piped
    unfold enterGroupBy
    rw [isBody']
    change (orderBelow? g.op >>= _) _ = _
    rw [bind_apply, orderBelow?_eq_ok (by exact isGroup) (by exact isTop) noOrder]
    rfl
  obtain ⟨inner, visitedStack, processedGroup⟩ :=
    visit_entered found' groupUnmet isInputs' enters visitedGroup
  have unmet : ∀ id ∈ steps.reverse.map Prod.fst ++ [scan], id ∉ [g.op, root] ∧ id ≠ g.op := by
    intro id member
    have notOp : id ≠ g.op := fun same => notGroup (same ▸ member)
    refine ⟨List.not_mem_cons_of_ne_of_not_mem notOp fun isMet => ?_, notOp⟩
    exact notRoot (List.mem_singleton.mp isMet ▸ .tail _ member)
  obtain ⟨arrives, others⟩ := visit_stack (by exact stacked) isScan piped rfl rfl unmet isGroup
    visitedStack
  rw [List.reverse_reverse] at arrives
  have isRoot' : inner.draft.plan.shape root = some (.boundary kind results, [g.op]) := by
    rw [others root (fun member => notRoot (.tail _ member)) apart.2.2.symm]
    exact isRoot
  have isAggregate' : inner.draft.plan.shape g.aggregate =
      some (g.aggregateBody isGlobal, [g.leaf]) := by
    rw [others g.aggregate
      (fun member => notAggregate (.tail _ (.tail _ member)))
      fun same => notAggregate (same ▸ .tail _ (.head _))]
    exact isAggregate
  obtain ⟨isClosed, reached⟩ := (arrives.topK none).process_group pipeline.isScoped rfl
    (by exact isRoot') id apart (by exact isAggregate') processedGroup
  cases reached with
  | kept isConsumer =>
    cases boundary_passed (by exact isConsumer) (by exact isClosed) processed closed
    exact .kept isConsumer
  | grouped f isFunction madeOf marked isConsumer =>
    cases boundary_passed (by exact isConsumer) (by exact isClosed) processed closed
    exact .grouped f isFunction madeOf marked isConsumer

end walk

/-! ## The function of the group-by -/

section feeds

variable {s : Setting} {scan : OpId} {dataset : String} {vars : List Var} {schema : Plan.Schema}
variable {steps : List (OpId × Body)} {g : Plan.LocalGroupBy} {f : ScanFunction}

/-- The operators whose expressions the code of the group-by evaluates. -/
def evaluated (g : Plan.LocalGroupBy) (steps : List (OpId × Body)) : List Body :=
  steps.map Prod.snd ++ [g.aggregateBody false, g.body]

/-- A group-by that can rely on a schema can read its paths. -/
theorem shares_of_fits {steps : List (OpId × Body)}
    (keys : ∀ key ∈ g.keys, key.expr.ReadsOnly (Plan.delivered vars (steps.map Prod.snd)))
    (call : g.call.expr.ReadsOnly (Plan.delivered vars (steps.map Prod.snd)))
    (notField : g.call.fn ≠ .fieldAccess) (fitsCall : schema.Fits (g.aggregateBody false))
    (fitsKeys : schema.Fits g.body) :
    Shares (· ∈ schema.pathsRead (evaluated g steps)) schema
      (Plan.delivered vars (steps.map Prod.snd)) (g.tally vars steps) := by
  refine ⟨⟨allWithin_of_each fun e member => ?_, readsArgs_of_each fun e member => ?_⟩,
    Plan.allWithin_of_readsOnly g.call.args call, fun q member => ?_⟩
  · obtain ⟨key, isKey, rfl⟩ := List.mem_map.mp member
    exact keys key isKey
  · refine (fitsKeys.registers e member).reads fun q isRead => ?_
    exact Plan.mem_pathsRead (List.mem_append_right _ (.tail _ (.head _))) member isRead
  · have reads : schema.reads g.call.expr = schema.readsArgs g.call.args := by
      rw [Call.expr, Plan.Schema.reads, if_neg notField]
    have isRead : q ∈ schema.reads g.call.expr := reads ▸ member
    exact ⟨Plan.mem_pathsRead (List.mem_append_right _ (.head _)) (.head _) isRead,
      fitsCall.registers _ (.head _) q isRead⟩

/-- A function of a group-by by hashing delivers the groups. -/
theorem MadeOfGroups.groups (madeOf : MadeOfGroups s scan dataset vars steps g f)
    (distinct : ((g.keys.map Plan.Binding.var ++ [g.out]).map Var.id).Nodup)
    (feeds : ∀ schema, s.schemas.lookup scan = some schema → g.call.fn ≠ .fieldAccess →
      ∃ D, Feeds D schema vars (steps.map Prod.snd) ∧
        Shares D schema (Plan.delivered vars (steps.map Prod.snd)) (g.tally vars steps)) :
    f.outputs = g.keys.map Plan.Binding.var ++ [g.out] ∧
      (g.call.fn.isCount = true ∨ g.call.fn.isSum = true) ∧
      ∀ records, Groups f.fn (g.tally vars steps) s.config.groupByMemory records := by
  obtain ⟨schema, first, later, isSchema, fused, hashed, last, output, frozen, _, outputs⟩ := madeOf
  obtain ⟨call, name, isCall, isName, grouped⟩ := groupByHash_eq_ok hashed
  obtain rfl := (List.cons.inj isCall).1
  obtain ⟨kind, isKind, computes, isAggregate⟩ := aggregatorKind?_computes isName
  have notField : g.call.fn ≠ .fieldAccess := by
    intro same
    rw [same] at isAggregate
    rcases isAggregate with isCount | isSum
    · cases isCount
    · cases isSum
  obtain ⟨D, feeds, shares⟩ := feeds schema isSchema notField
  have tallies : Tallies D scan dataset schema (g.tally vars steps) g.keys g.out
      s.config.groupByMemory name kind first { later with fused := later.fused + 1 } :=
    { feeds, shares, isKeys := rfl, distinct, isKind, computes, isSteps := fused
      isGrouped := ⟨[], [g.call], some g.leaf, Except.bind_eq_ok.mpr ⟨_, grouped, rfl⟩⟩ }
  obtain ⟨_, emitters, isOutput, _⟩ := tallies.codes .null 0
  obtain ⟨ending, kept⟩ := ending_of_writeOutput rfl (writeRows_groups emitters) output frozen
  exact ⟨outputs.trans (kept.trans isOutput), isAggregate, fun records => tallies.groups ending records⟩

end feeds

/-! ## The runs of the function -/

open Engine (groupLimit?)

/-- A run of a function over records keeps to a limit of memory, if there is one: it fails for its
budget as soon as the groups of the first records need more, and delivers the groups otherwise. -/
structure KeepsTo (limit? : Option Int) (fn : Code.Function) (tally : Tally) (budget : Int64)
    (records : List Value) : Prop where
  refuses : ∀ groups, (Engine.run fn records).result =
      .error (.failed fn.name (.overBudget groups budget)) ↔
    ∃ n shares, tally.shares? (records.take n) = some shares ∧
      (∃ limit ∈ limit?, limit < (Tally.memory shares : Int)) ∧
      (∀ k first, k < n → tally.shares? (records.take k) = some first →
        ∀ limit ∈ limit?, (Tally.memory first : Int) ≤ limit) ∧
      groups = (Tally.keyTuples shares).length
  delivers : ∀ shares, tally.shares? records = some shares →
    (∀ limit ∈ limit?, (Tally.memory shares : Int) ≤ limit) →
    (Engine.run fn records).result = .ok { rows := tally.rows shares, flushed := true }

theorem Groups.keepsTo {fn : Code.Function} {tally : Tally} {config : Plan.Config}
    {records : List Value} (groups : Groups fn tally config.groupByMemory records) :
    KeepsTo (groupLimit? config) fn tally config.groupByMemory records := by
  have exceeding (shares : List Plan.Share) : Tally.overBudget config.groupByMemory shares ↔
      ∃ limit ∈ groupLimit? config, limit < (Tally.memory shares : Int) := by
    rw [← Tally.exceeds_entries, Engine.exceeds_groupByMemory, Tally.memoryOf_entries]
  have within (shares : List Plan.Share) : ¬ Tally.overBudget config.groupByMemory shares ↔
      ∀ limit ∈ groupLimit? config, (Tally.memory shares : Int) ≤ limit := by
    rw [exceeding]
    simp only [not_exists, not_and, Int.not_lt]
  refine ⟨fun count => ?_, fun shares isSome kept => ?_⟩
  · rw [groups.overBudget]
    simp only [within]
    simp only [exceeding]
  · exact groups.rows shares isSome ((within shares).mpr kept)

section compiled

variable {plan : Plan} {root scan : OpId} {kind : Plan.OpKind} {results vars : List Var}
variable {g : Plan.LocalGroupBy} {steps : List (OpId × Body)} {dataset stem : String}
variable {config : Plan.Config} {catalog : Plan.Catalog} {functions : List ScanFunction}
variable (pipeline : plan.GroupPipeline root kind results g steps scan dataset vars)
variable (apart : plan.readsApart root scan (evaluated g steps) = true)
variable (compiled : (compile plan root config catalog none stem).result = .ok functions)
variable (fused : (compile plan root config catalog none stem).plan.shape root ≠
  some (.boundary kind results, [g.op]))

include pipeline apart compiled fused

theorem compile_groups :
    ∃ f, functions = [f] ∧ f.outputs = g.keys.map Plan.Binding.var ++ [g.out] ∧
      (compile plan root config catalog none stem).plan.shape scan =
        some (.scan dataset vars f.fn.name f.outputs, []) ∧
      (g.call.fn.isCount = true ∨ g.call.fn.isSum = true) ∧
      ∀ records, Groups f.fn (g.tally vars steps) config.groupByMemory records := by
  obtain ⟨schemas, uses, st, expected, ended, rfl, shapes⟩ := compile_eq_ok compiled
  cases compileAll_group pipeline ended with
  | kept isConsumer => exact absurd ((shapes root).trans isConsumer) fused
  | grouped f isFunction madeOf marked isConsumer =>
    have distinct : ((g.keys.map Plan.Binding.var ++ [g.out]).map Var.id).Nodup := by
      refine (List.Perm.map _ ?_).nodup pipeline.apart.2.1
      exact (List.perm_append_singleton _ _).symm
    obtain ⟨outputs, isAggregate, groups⟩ := madeOf.groups distinct fun schema isSchema notField => by
      obtain ⟨⟨fits, fitsCall, fitsKeys⟩, scans⟩ := pipeline.fits expected isSchema
      exact ⟨_, pipeline.feeds (List.subset_append_left _ _) apart expected isSchema fits scans,
        shares_of_fits pipeline.keys pipeline.call notField (fitsCall false) fitsKeys⟩
    exact ⟨f, isFunction, outputs, (shapes scan).trans marked, isAggregate, groups⟩

/-- A fused group-by keeps its meaning: where the compiler takes a local group-by with one aggregate
over a scalar pipeline out of the plan, the function at the scan delivers the groups of the tuples
that the pipeline makes of the records. -/
theorem compile_group_by_delivers :
    ∃ f, functions = [f] ∧ f.outputs = g.keys.map Plan.Binding.var ++ [g.out] ∧
      (compile plan root config catalog none stem).plan.shape scan =
        some (.scan dataset vars f.fn.name f.outputs, []) ∧
      (g.call.fn.isCount = true ∨ g.call.fn.isSum = true) ∧
      ∀ records, Groups f.fn (g.tally vars steps) config.groupByMemory records ∧
        ((∀ record ∈ records, record.IsData) → ∀ shares,
          (g.tally vars steps).shares? records = some shares → (g.tally vars steps).rows shares =
            (Tally.keyTuples shares).map fun ks => ks ++ [(g.tally vars steps).total shares ks]) := by
  obtain ⟨f, isFunction, outputs, marked, isAggregate, groups⟩ :=
    compile_groups pipeline apart compiled fused
  exact ⟨f, isFunction, outputs, marked, isAggregate, fun records =>
    ⟨groups records, fun isData shares => Tally.rows_of_data isData⟩⟩

/-- The memory of a fused group-by is enforced as a signed word: a run fails for its budget as soon as
the groups need more than the product of the two sizes wrapped around, and never if that is not
positive. So it keeps to the product itself for a usable configuration whose product is a 64-bit
number. -/
theorem compile_group_by_enforces :
    ∃ f, functions = [f] ∧
      (∀ records, KeepsTo (groupLimit? config) f.fn (g.tally vars steps) config.groupByMemory records) ∧
      (config.check = .ok config →
        config.framesForGroupBy.toInt * config.frameSize.toInt < 2 ^ 63 →
        ∀ records, KeepsTo (some (config.framesForGroupBy.toInt * config.frameSize.toInt)) f.fn
          (g.tally vars steps) config.groupByMemory records) := by
  obtain ⟨f, isFunction, _, _, _, groups⟩ := compile_groups pipeline apart compiled fused
  refine ⟨f, isFunction, fun records => (groups records).keepsTo, fun accepted small records => ?_⟩
  rw [← Engine.groupLimit?_of_check accepted small]
  exact (groups records).keepsTo

end compiled

/-- The variable of the record in `adultsByName`. -/
def adultsByNameRecord : Var := ⟨0, "r", .record⟩

/-- The select in `adultsByName`. -/
def adultsByNameSteps : List (OpId × Body) :=
  [(1, .select (.call .gt [.field (.var adultsByNameRecord) "age", .const (.int 18)] Location.none))]

/-- The group-by in `adultsByName`: how many known addresses there are for each name. -/
def adultsByNameGroups : Plan.LocalGroupBy where
  op := 4
  keys := [⟨⟨1, "n", .any⟩, .field (.var adultsByNameRecord) "name"⟩]
  aggregate := 3
  leaf := 2
  out := ⟨2, "c", .any⟩
  call := ⟨.localCount, [.field (.var adultsByNameRecord) "address"], Location.none⟩

/-- A plan that groups selected records. -/
def adultsByName : Plan :=
  { ops := #[
      { body := .scan "d" [adultsByNameRecord] "" [], inputs := [] },
      { body := (adultsByNameSteps[0]).2, inputs := [0] },
      { body := .nestedSource (some 4), inputs := [] },
      { body := adultsByNameGroups.aggregateBody false, inputs := [2] },
      { body := adultsByNameGroups.body, inputs := [1] },
      { body := .boundary .distributeResult [], inputs := [4] }] }

theorem adultsByName_pipeline : adultsByName.GroupPipeline 5 .distributeResult []
    adultsByNameGroups adultsByNameSteps 0 "d" [adultsByNameRecord] := by
  have reads (e : Expr) (vars : List Var) (within : ∀ w ∈ e.occurrences, ∃ v ∈ vars, v.id = w.id) :
      e.ReadsOnly vars := within
  exact ⟨⟨⟨"", [], rfl⟩, ⟨rfl, 4, rfl, rfl, 1, rfl, rfl, 0, rfl, rfl⟩, ⟨reads _ _ (by decide), trivial⟩,
    by decide⟩, ⟨false, rfl⟩, ⟨some 4, rfl⟩, List.forall_mem_singleton.mpr (reads _ _ (by decide)),
    reads _ _ (by decide)⟩

theorem adultsByName_readsApart :
    adultsByName.readsApart 5 0 (evaluated adultsByNameGroups adultsByNameSteps) = true := by
  decide +kernel

/-- Whether the compiler takes the group-by of `adultsByName` out of the plan. -/
def fusesAdultsByName (config : Plan.Config) : Bool :=
  let outcome := compile adultsByName 5 config columnar none "f"
  outcome.result.toOption.map List.length == some 1 &&
    (outcome.plan.shape 5).map Prod.snd == some [0]

theorem compile_adultsByName (config : Plan.Config) (fuses : fusesAdultsByName config = true) :
    (∃ f, (compile adultsByName 5 config columnar none "f").result = .ok [f]) ∧
      (compile adultsByName 5 config columnar none "f").plan.shape 5 ≠
        some (.boundary .distributeResult [], [adultsByNameGroups.op]) := by
  obtain ⟨one, isFused⟩ := Bool.and_eq_true_iff.mp fuses
  refine ⟨Except.exists_eq_ok_singleton (by simpa using one), fun kept => ?_⟩
  rw [kept] at isFused
  cases isFused

/-- The select and the group-by become one function. -/
theorem compile_adultsByName_delivers :
    ∃ f, (compile adultsByName 5 {} columnar none "f").result = .ok [f] ∧
      ∀ records, Groups f.fn (adultsByNameGroups.tally [adultsByNameRecord] adultsByNameSteps)
        (Plan.Config.groupByMemory {}) records := by
  obtain ⟨⟨_, compiled⟩, fused⟩ := compile_adultsByName {} (by decide +kernel)
  obtain ⟨f, same, _, _, _, groups⟩ := compile_group_by_delivers adultsByName_pipeline
    adultsByName_readsApart compiled fused
  exact ⟨f, same ▸ compiled, fun records => (groups records).1⟩

/-- A record that `adultsByName` selects. -/
def adult : Value := .struct [("age", .int 20), ("name", .string "a")]

/-- Three frames of 32 bytes hold two short names. -/
theorem compile_adultsByName_enforces :
    ∃ f, (compile adultsByName 5 ⟨3, 32, 0⟩ columnar none "f").result = .ok [f] ∧
      ∀ records, KeepsTo (some 96) f.fn
        (adultsByNameGroups.tally [adultsByNameRecord] adultsByNameSteps) 96 records := by
  obtain ⟨⟨_, compiled⟩, fused⟩ := compile_adultsByName ⟨3, 32, 0⟩ (by decide +kernel)
  obtain ⟨f, same, _, enforced⟩ := compile_group_by_enforces adultsByName_pipeline
    adultsByName_readsApart compiled fused
  exact ⟨f, same ▸ compiled, enforced rfl (by decide)⟩

/-- Two usable sizes whose product wraps around to one byte: the first group is refused, although the
product itself leaves room for it. -/
theorem compile_adultsByName_wraps :
    (Plan.Config.check ⟨7, 7905747460161236407, 0⟩).toOption.isSome = true ∧
    ∃ f, (compile adultsByName 5 ⟨7, 7905747460161236407, 0⟩ columnar none "f").result = .ok [f] ∧
      (Engine.run f.fn [adult]).result = .error (.failed f.fn.name (.overBudget 1 1)) ∧
      ((adultsByNameGroups.tally [adultsByNameRecord] adultsByNameSteps).shares? [adult]).any
        (fun shares => Tally.memory shares ≤ 7 * 7905747460161236407) = true := by
  obtain ⟨⟨_, compiled⟩, fused⟩ := compile_adultsByName ⟨7, 7905747460161236407, 0⟩ (by decide +kernel)
  obtain ⟨f, same, _, _, _, groups⟩ := compile_groups adultsByName_pipeline
    adultsByName_readsApart compiled fused
  refine ⟨by decide, f, same ▸ compiled, ((groups _).keepsTo.refuses 1).mpr ⟨1, _, rfl,
    ⟨1, by decide, by decide +kernel⟩, fun k first less isSome limit isLimit => ?_, ?_⟩, by decide +kernel⟩
  · obtain rfl := Nat.lt_one_iff.mp less
    cases isSome
    cases isLimit
    decide
  · decide +kernel

end Fusion

end QueryFusion

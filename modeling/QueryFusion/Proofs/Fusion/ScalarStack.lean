import QueryFusion.Proofs.Fusion.Closing
import QueryFusion.Proofs.Fusion.Delivery

/-!
# Compiling a pipeline

A pipeline is a stack of selects, assigns, projects and aggregates over a scan. The compiler takes out the
operators at the bottom of the stack, and the leading bindings of an assign that it cannot take out
as a whole. The function that it leaves at the scan delivers what the operators and bindings that it
took out make of the records.
-/

namespace QueryFusion

open EStateM (bind_eq_ok)
open Plan (OpId Operator Body Tuple)

/-- The operators that a pipeline can be made of. -/
def Plan.Body.IsPiped : Body → Prop
  | select _ | assign _ _ | project _ | aggregate .. => True
  | _ => False

theorem Plan.Body.Scoped.isPiped {body : Body} {reads : List Var} (isScoped : body.Scoped reads) :
    body.IsPiped := by
  cases body <;> trivial

namespace Plan.Body.IsPiped

variable {body : Body}

theorem not_isScan (isPiped : body.IsPiped) : ¬ body.IsScan := by
  cases body with
  | scan => exact isPiped.elim
  | _ => exact id

theorem not_groupBy (isPiped : body.IsPiped) (keys : List Plan.Binding) (nested : Option OpId)
    (isGlobal : Bool) : body ≠ .groupBy keys nested isGlobal := by
  rintro rfl
  exact isPiped

theorem nested? (isPiped : body.IsPiped) : body.nested? = none := by
  cases body with
  | groupBy => exact isPiped.elim
  | subplan => exact isPiped.elim
  | _ => rfl

theorem passesScope (isPiped : body.IsPiped) {st : Fusion.State} {op : OpId} :
    Fusion.passesScope st op body = false := by
  cases body with
  | order => exact isPiped.elim
  | exchange => exact isPiped.elim
  | _ => rfl

end Plan.Body.IsPiped

namespace Fusion

variable {removed : List (OpId × Body)} {dataset : String} {vars : List Var} {schema : Plan.Schema}
variable {scope later : Scope} {reason : ClosingReason}

/-- Operators are taken out at the bottom of a stack, and possibly the leading bindings of the assign
above them. -/
inductive Splits : List (OpId × Body) → List (OpId × Body) → List (OpId × Body) → Prop
  | whole (removed kept : List (OpId × Body)) : Splits (removed ++ kept) removed kept
  | bindings (removed kept : List (OpId × Body)) (id : OpId) (vars : List Var) (exprs : List Expr)
      (count : Nat) (isSome : 0 < count) (isPart : count < vars.length) :
      Splits (removed ++ (id, .assign vars exprs) :: kept)
        (removed ++ [(id, .assign (vars.take count) (exprs.take count))])
        ((id, .assign (vars.drop count) (exprs.drop count)) :: kept)

theorem Splits.above {steps kept : List (OpId × Body)} (splits : Splits steps removed kept)
    (op : OpId × Body) : Splits (steps ++ [op]) removed (kept ++ [op]) := by
  cases splits with
  | whole =>
    rw [List.append_assoc]
    exact .whole removed (kept ++ [op])
  | bindings removed kept id vars exprs count isSome isPart =>
    rw [List.append_assoc]
    exact .bindings removed (kept ++ [op]) id vars exprs count isSome isPart

/-! ## Code of the operators -/

theorem fuseSteps_concat (steps : List Body) (body : Body) :
    fuseSteps (steps ++ [body]) = (do
      fuseSteps steps
      fuseStep body
      countFused) := by
  induction steps with
  | nil =>
    change (do fuseStep body; countFused; pure () : Emit Unit) = _
    simp only [fuseSteps, pure_bind, bind_pure_unit]
  | cons first rest ih =>
    rw [List.cons_append, fuseSteps, fuseSteps, ih]
    simp only [bind_assoc]

/-- The code of a pipeline is made along a trace. -/
theorem buildsAt_fuseSteps : ∀ (steps : List Body) (scope : Scope), scope.Sane {} →
    BuildsAt {} False (fuseSteps steps) scope Anything
  | [], _, _ => .pure
  | body :: rest, scope, sane => by
    have step : BuildsAt {} False (fuseStep body) scope Anything := by
      cases body with
      | select cond => exact (makesAt_selectOn .any sane).builds
      | assign vars exprs =>
        exact (makesAt_assignVars vars exprs nofun (fun _ _ => .any) scope sane).anything.builds
      | project vars => exact (makesAt_projectOutput vars scope).anything.builds
      | aggregate vars calls => exact buildsAt_aggregateAll id nofun (fun _ _ => .any) sane
      | _ => exact .pure
    refine step.bind fun _ later built => ?_
    have sane' := (built.kept sane).2
    exact (codesAt_countFused later).makes.builds.bind fun _ third counted =>
      buildsAt_fuseSteps rest third (counted.kept sane').2

/-- A pipeline leads from a new scope to a later one. -/
theorem fuseSteps_kept {steps : List Body} {scan : OpId}
    (fused : fuseSteps steps (.opened scan dataset vars schema) = .ok ((), scope)) :
    (Scope.opened scan dataset vars schema).Later scope ∧ scope.Sane {} :=
  have sane := opened_sane (S := {}) scan dataset vars schema nofun
  ((buildsAt_fuseSteps steps _ sane).yields () scope fused).1.kept sane

theorem assignVars_of_assignLeading : ∀ {vars : List Var} {exprs : List Expr} {scope later : Scope}
    {count : Nat}, assignLeading vars exprs scope = .ok (count, later) →
    count ≤ vars.length ∧ assignVars (vars.take count) (exprs.take count) scope = .ok ((), later) ∧
      (count = vars.length → assignVars vars exprs scope = .ok ((), later))
  | [], _, _, _, _, done => by
    cases done
    exact ⟨Nat.zero_le _, rfl, fun _ => rfl⟩
  | _ :: _, [], _, _, _, done => by cases done
  | v :: vars, e :: exprs, scope, later, count, done => by
    unfold assignLeading at done
    split at done
    · obtain ⟨⟨_, first⟩, assigned, rest⟩ := Except.bind_eq_ok.mp done
      obtain ⟨⟨more, second⟩, others, same⟩ := Except.bind_eq_ok.mp rest
      cases same
      obtain ⟨below, leading, all⟩ := assignVars_of_assignLeading others
      refine ⟨Nat.succ_le_succ below, ?_, fun isAll => ?_⟩
      · exact Except.bind_eq_ok.mpr ⟨_, assigned, leading⟩
      · exact Except.bind_eq_ok.mpr ⟨_, assigned, all (Nat.succ.inj isAll)⟩
    · cases done
      exact ⟨Nat.zero_le _, rfl, by rintro ⟨⟩⟩

section edits

variable {s : Setting} {st st' : State} {op consumer : OpId}

theorem drop_eraseIdx {α : Type} (as : List α) (n : Nat) : (as.eraseIdx n).drop n = as.drop (n + 1) := by
  induction as generalizing n with
  | nil => simp
  | cons a rest ih =>
    cases n with
    | zero => rfl
    | succ n => simpa using ih n

theorem removeBindings_eq_ok : ∀ {count : Nat} {st st' : State} {vars : List Var}
    {exprs : List Expr} {inputs : List OpId},
    ((List.range count).reverse.forM fun i => onDraft .removal (Plan.removeBinding op i)) st =
      .ok () st' →
    st.draft.plan.shape op = some (.assign vars exprs, inputs) →
    st' = { st with draft := st'.draft } ∧ ∀ i, st'.draft.plan.shape i =
      if i = op then some (.assign (vars.drop count) (exprs.drop count), inputs)
      else st.draft.plan.shape i
  | 0, st, st', vars, exprs, inputs, ended, isAssign => by
    cases ended
    refine ⟨rfl, fun i => ?_⟩
    split
    · next same => exact same ▸ isAssign
    · rfl
  | count + 1, st, st', vars, exprs, inputs, ended, isAssign => by
    rw [List.range_succ, List.reverse_append] at ended
    obtain ⟨_, _, first, rest⟩ := bind_eq_ok.mp ended
    obtain ⟨draft, removed, rfl⟩ := onDraft_eq_ok first
    have shape := Plan.shape_removeBinding isAssign removed
    have isAssign' : draft.plan.shape op =
        some (.assign (vars.eraseIdx count) (exprs.eraseIdx count), inputs) := by
      rw [shape op, if_pos rfl]
    obtain ⟨same, others⟩ := removeBindings_eq_ok rest isAssign'
    refine ⟨?_, fun i => ?_⟩
    · rw [same]
    · rw [others i, drop_eraseIdx, drop_eraseIdx]
      split
      · rfl
      · next apart =>
        rw [shape i, if_neg apart]

end edits

/-! ## The walk up the stack -/

/-- A function was made of the code of operators over a scan. -/
def MadeOf (s : Setting) (scan : OpId) (dataset : String) (vars : List Var)
    (steps : List (OpId × Body)) (f : ScanFunction) : Prop :=
  ∃ schema scope, s.schemas.lookup scan = some schema ∧
    fuseSteps (steps.map Prod.snd) (.opened scan dataset vars schema) = .ok ((), scope) ∧
    Completed scope f

/-- The open scope holds the code of operators over a scan. -/
structure Fusing (s : Setting) (scan : OpId) (dataset : String) (vars : List Var)
    (steps : List (OpId × Body)) (st : State) (scope : Scope) : Prop where
  isOpen : st.scope = some scope
  fused : ∃ schema, s.schemas.lookup scan = some schema ∧
    fuseSteps (steps.map Prod.snd) (.opened scan dataset vars schema) = .ok ((), scope)
  noFunction : st.functions = []
  isScan : ∃ function outputs,
    st.draft.plan.shape scan = some (.scan dataset vars function outputs, [])

/-- How far the compiler is after the operators of a stack: all are fused, or nothing was, or the
function of those at the bottom is complete and the others are left on top of the scan. -/
inductive Reached (s : Setting) (scan : OpId) (dataset : String) (vars : List Var)
    (steps : List (OpId × Body)) (st : State) (top : OpId) : Prop
  | fusing (scope : Scope) (fusing : Fusing s scan dataset vars steps st scope) (isTop : top = scan)
  | idle (isClosed : st.scope = none) (noFunction : st.functions = [])
  | complete (isClosed : st.scope = none) (f : ScanFunction) (removed kept : List (OpId × Body))
      (isFunction : st.functions = [f]) (madeOf : MadeOf s scan dataset vars removed f)
      (splits : Splits steps removed kept) (stacked : st.draft.plan.Stacked scan kept.reverse top)
      (marked : st.draft.plan.shape scan = some (.scan dataset vars f.fn.name f.outputs, []))

section walk

variable {s : Setting} {scan top op consumer : OpId}
variable {steps kept : List (OpId × Body)} {st st' : State}

/-- The scan of a function of a stack. -/
theorem scan_eq {f : ScanFunction}
    (fused : fuseSteps (steps.map Prod.snd) (.opened scan dataset vars schema) = .ok ((), scope))
    (completed : Completed scope f) : f.scan = scan := by
  obtain ⟨last, output, _, isScan, _⟩ := completed
  obtain ⟨later, sane⟩ := fuseSteps_kept fused
  rw [isScan, writeOutput_scan sane output, later.scan]
  rfl

theorem Fusing.closes (fusing : Fusing s scan dataset vars removed st scope)
    (splits : Splits steps removed kept) (stacked : st.draft.plan.Stacked scan kept.reverse top)
    (apart : ∀ op ∈ kept, op.1 ≠ scan) (ended : closeScope s reason st = .ok () st') :
    Reached s scan dataset vars steps st' top ∧
      ∀ i, i ≠ scan → st'.draft.plan.shape i = st.draft.plan.shape i := by
  obtain ⟨schema, isSchema, fused⟩ := fusing.fused
  obtain ⟨same, outcome⟩ := closeScope_some fusing.isOpen ended
  have isClosed : st'.scope = none := by rw [same]
  rcases outcome with ⟨_, functions, draft⟩ | ⟨f, completed, marks, functions⟩
  · exact ⟨.idle isClosed (functions.trans fusing.noFunction), fun i _ => by rw [draft]⟩
  · obtain ⟨dataset', vars', function', old', inputs', isScan', marked⟩ := marks
    obtain ⟨function, old, isScan⟩ := fusing.isScan
    rw [scan_eq fused completed] at isScan' marked
    obtain ⟨sameBody, sameInputs⟩ := Prod.mk.inj (Option.some.inj (isScan'.symm.trans isScan))
    obtain ⟨rfl, rfl, rfl, rfl⟩ := Body.scan.inj sameBody
    subst sameInputs
    have others : ∀ i, i ≠ scan → st'.draft.plan.shape i = st.draft.plan.shape i := fun i isOther => by
      rw [marked i, if_neg isOther]
    refine ⟨.complete isClosed f removed kept ?_
      ⟨schema, scope, isSchema, fused, completed⟩ splits ?_ ?_,
      others⟩
    · rw [functions, fusing.noFunction, List.nil_append]
    · exact stacked.congr fun op member => others op.1 (apart op (List.mem_reverse.mp member))
    · rw [marked scan, if_pos rfl]

/-- One more operator was fused and taken out. -/
theorem Fusing.removes {body : Body} (fusing : Fusing s scan dataset vars steps st scope)
    (distinct : consumer ≠ scan) (isStep : fuseStep body scope = .ok ((), later))
    (ended : removeOp op consumer { st with scope := some later } = .ok () st') :
    (∃ counted, Fusing s scan dataset vars (steps ++ [(op, body)]) st' counted) ∧
      ∃ below input above, st.draft.plan.shape op = some (below, [input]) ∧
        st.draft.plan.shape consumer = some (above, [op]) ∧ ∀ i, st'.draft.plan.shape i =
          if i = consumer then some (above, [input]) else st.draft.plan.shape i := by
  obtain ⟨draft, counted, removed, isOpen, rfl⟩ := removeOp_eq_ok ended
  cases isOpen
  obtain ⟨schema, isSchema, fused⟩ := fusing.fused
  obtain ⟨below, input, above, here, isConsumer, others⟩ := Plan.shape_remove removed
  refine ⟨⟨_, rfl, ⟨schema, isSchema, ?_⟩, fusing.noFunction, ?_⟩, below, input, above, here,
    isConsumer, others⟩
  · rw [List.map_append, List.map_singleton, fuseSteps_concat]
    exact Except.bind_eq_ok.mpr ⟨_, fused, Except.bind_eq_ok.mpr ⟨_, isStep, rfl⟩⟩
  · obtain ⟨function, old, isScan⟩ := fusing.isScan
    exact ⟨function, old, by rw [others scan, if_neg distinct.symm]; exact isScan⟩

/-- What is left of a stack below its consumer. -/
def Arrives (s : Setting) (scan : OpId) (dataset : String) (vars : List Var)
    (steps : List (OpId × Body)) (consumer : OpId) (above : Body) (st : State) : Prop :=
  ∃ top, st.draft.plan.shape consumer = some (above, [top]) ∧ Reached s scan dataset vars steps st top

/-- An operator above the fused ones, under a consumer. -/
structure Sits (plan : Plan) (scan op consumer : OpId) (body above : Body) : Prop where
  here : plan.shape op = some (body, [scan])
  isConsumer : plan.shape consumer = some (above, [op])
  notScan : op ≠ scan
  beyond : consumer ≠ scan
  apart : op ≠ consumer

variable {body above : Body}

section

variable (fusing : Fusing s scan dataset vars steps st scope)

include fusing

/-- The scope closes below an operator. -/
theorem Fusing.stops (sits : Sits st.draft.plan scan op consumer body above)
    (ended : closeScope s reason st = .ok () st') :
    Arrives s scan dataset vars (steps ++ [(op, body)]) consumer above st' ∧
      ∀ i, i ≠ scan → i ≠ op → i ≠ consumer → st'.draft.plan.shape i = st.draft.plan.shape i := by
  have stacked : st.draft.plan.Stacked scan [(op, body)].reverse op := ⟨rfl, scan, sits.here, rfl⟩
  obtain ⟨reached, others⟩ := fusing.closes (.whole steps [(op, body)]) stacked
    (List.forall_mem_singleton.mpr sits.notScan) ended
  refine ⟨⟨op, ?_, reached⟩, fun i isOther _ _ => others i isOther⟩
  rw [others consumer sits.beyond]
  exact sits.isConsumer

/-- An operator is fused and taken out. -/
theorem Fusing.takes (sits : Sits st.draft.plan scan op consumer body above) (step : Body)
    (isStep : fuseStep step scope = .ok ((), later))
    (ended : removeOp op consumer { st with scope := some later } = .ok () st') :
    Arrives s scan dataset vars (steps ++ [(op, step)]) consumer above st' ∧
      ∀ i, i ≠ scan → i ≠ op → i ≠ consumer → st'.draft.plan.shape i = st.draft.plan.shape i := by
  obtain ⟨⟨counted, fusing'⟩, below, input, above', here, isConsumer, others⟩ :=
    fusing.removes sits.beyond isStep ended
  obtain ⟨_, sameInput⟩ := Prod.mk.inj (Option.some.inj (here.symm.trans sits.here))
  obtain ⟨rfl, _⟩ := List.cons.inj sameInput
  cases isConsumer.symm.trans sits.isConsumer
  refine ⟨⟨input, ?_, .fusing counted fusing' rfl⟩, fun i _ _ isOther => ?_⟩
  · rw [others consumer, if_pos rfl]
  · rw [others i, if_neg isOther]

theorem Fusing.fuseAssign {targets : List Var} {exprs : List Expr}
    (sits : Sits st.draft.plan scan op consumer (.assign targets exprs) above)
    (ended : fuseAssign s op consumer targets exprs st = .ok () st') :
    Arrives s scan dataset vars (steps ++ [(op, .assign targets exprs)]) consumer above st' ∧
      ∀ i, i ≠ scan → i ≠ op → i ≠ consumer → st'.draft.plan.shape i = st.draft.plan.shape i := by
  obtain ⟨count, _, leading, rest⟩ := bind_eq_ok.mp ended
  obtain ⟨_, later, isOpen, assigned, rfl⟩ := onScope_eq_ok leading
  cases fusing.isOpen.symm.trans isOpen
  obtain ⟨below, isPart, isAll⟩ := assignVars_of_assignLeading assigned
  obtain ⟨_, stripped, removed, finished⟩ := bind_eq_ok.mp rest
  obtain ⟨same, shapes⟩ := removeBindings_eq_ok removed sits.here
  have others : ∀ i, i ≠ op → stripped.draft.plan.shape i = st.draft.plan.shape i := fun i isOther => by
    rw [shapes i, if_neg isOther]
  let drafted : State := { st with draft := stripped.draft }
  have fusing' : Fusing s scan dataset vars steps drafted scope := by
    obtain ⟨function, old, isScan⟩ := fusing.isScan
    exact ⟨fusing.isOpen, fusing.fused, fusing.noFunction, function, old,
      (others scan sits.notScan.symm).trans isScan⟩
  have sits' : Sits drafted.draft.plan scan op consumer
      (.assign (targets.drop count) (exprs.drop count)) above :=
    { sits with
      here := by
        rw [shapes op, if_pos rfl]
      isConsumer := (others consumer sits.apart.symm).trans sits.isConsumer }
  have isDrafted : stripped = { drafted with scope := some later } := by rw [same]
  split at finished
  · next isCount =>
    rw [isDrafted] at finished
    obtain ⟨arrives, kept⟩ := fusing'.takes sits' (.assign targets exprs)
      (isAll isCount.symm) finished
    exact ⟨arrives, fun i notScan notOp isOther => (kept i notScan notOp isOther).trans (others i notOp)⟩
  · next isCount =>
    split at finished
    · next isSome =>
      obtain ⟨_, _, counted, closed⟩ := bind_eq_ok.mp finished
      obtain ⟨_, _, isOpen', isCounted, rfl⟩ := onScope_eq_ok counted
      cases isCounted
      rw [isDrafted] at isOpen' closed
      cases isOpen'
      have partly : Fusing s scan dataset vars
          (steps ++ [(op, .assign (targets.take count) (exprs.take count))])
          { drafted with scope := some { later with fused := later.fused + 1 } }
          { later with fused := later.fused + 1 } := by
        obtain ⟨schema, isSchema, fused⟩ := fusing.fused
        refine ⟨rfl, ⟨schema, isSchema, ?_⟩, fusing'.noFunction, fusing'.isScan⟩
        rw [List.map_append, List.map_singleton, fuseSteps_concat]
        exact Except.bind_eq_ok.mpr ⟨_, fused, Except.bind_eq_ok.mpr ⟨_, isPart, rfl⟩⟩
      obtain ⟨reached, kept⟩ := partly.closes
        (.bindings steps [] op targets exprs count isSome (by omega))
        (show drafted.draft.plan.Stacked scan [_] op from ⟨rfl, scan, sits'.here, rfl⟩)
        (List.forall_mem_singleton.mpr sits.notScan) closed
      refine ⟨⟨op, (kept consumer sits.beyond).trans sits'.isConsumer, reached⟩, ?_⟩
      exact fun i notScan notOp _ => (kept i notScan).trans (others i notOp)
    · next isNone =>
      obtain rfl : count = 0 := by omega
      cases isPart
      rw [isDrafted] at finished
      have untouched : Fusing s scan dataset vars steps { drafted with scope := some scope } scope :=
        ⟨rfl, fusing'.fused, fusing'.noFunction, fusing'.isScan⟩
      obtain ⟨arrives, kept⟩ := untouched.stops sits' finished
      exact ⟨arrives, fun i notScan notOp isOther =>
        (kept i notScan notOp isOther).trans (others i notOp)⟩

theorem Fusing.fuseOp {o p : Operator}
    (sits : Sits st.draft.plan scan op consumer o.body above) (isPiped : o.body.IsPiped)
    (ended : fuseOp s op o consumer p st = .ok () st') :
    Arrives s scan dataset vars (steps ++ [(op, o.body)]) consumer above st' ∧
      ∀ i, i ≠ scan → i ≠ op → i ≠ consumer → st'.draft.plan.shape i = st.draft.plan.shape i := by
  unfold Fusion.fuseOp at ended
  cases isBody : o.body <;> simp only [isBody] at ended sits isPiped
  case select cond =>
    unfold fuseSelect at ended
    split at ended
    · obtain ⟨_, _, selected, removed⟩ := bind_eq_ok.mp ended
      obtain ⟨_, later, isOpen, isStep, rfl⟩ := onScope_eq_ok selected
      cases fusing.isOpen.symm.trans isOpen
      exact fusing.takes sits (.select cond) isStep removed
    · obtain ⟨_, _, text, closed⟩ := bind_eq_ok.mp ended
      obtain ⟨_, rfl⟩ := orFault_eq_ok.mp text
      exact fusing.stops sits closed
  case assign targets exprs => exact fusing.fuseAssign sits ended
  case project kept =>
    obtain ⟨_, _, got, rest⟩ := bind_eq_ok.mp ended
    obtain ⟨_, later, isOpen, isGot, rfl⟩ := onScope_eq_ok got
    cases isGot
    rw [← isOpen] at rest
    split at rest
    · obtain ⟨_, _, projected, removed⟩ := bind_eq_ok.mp rest
      obtain ⟨_, later', isOpen', isStep, rfl⟩ := onScope_eq_ok projected
      cases fusing.isOpen.symm.trans isOpen'
      exact fusing.takes sits (.project kept) isStep removed
    · exact fusing.stops sits rest
  case aggregate outs calls isGlobal =>
    unfold fuseAggregate at ended
    cases refused : calls.find? fun call => !isAccumulable call with
    | some call =>
      rw [refused] at ended
      exact fusing.stops sits ended
    | none =>
      rw [refused] at ended
      obtain ⟨_, _, aggregated, removed⟩ := bind_eq_ok.mp ended
      obtain ⟨_, later, isOpen, isStep, rfl⟩ := onScope_eq_ok aggregated
      cases fusing.isOpen.symm.trans isOpen
      exact fusing.takes sits (.aggregate outs calls isGlobal) isStep removed
  all_goals exact isPiped.elim

theorem Fusing.process {o : Operator} (found : st.draft.plan.ops[op]? = some o)
    (sits : Sits st.draft.plan scan op consumer o.body above) (isPiped : o.body.IsPiped)
    (ended : process s op (some consumer) st = .ok () st') :
    Arrives s scan dataset vars (steps ++ [(op, o.body)]) consumer above st' ∧
      ∀ i, i ≠ scan → i ≠ op → i ≠ consumer → st'.draft.plan.shape i = st.draft.plan.shape i := by
  rcases process_open found isPiped.not_isScan fusing.isOpen ended with
    ⟨passes, _⟩ | ⟨reason, closed⟩ | ⟨_, p, same, _, _, _, _, fused⟩
  · cases isPiped.passesScope.symm.trans passes
  · exact fusing.stops sits closed
  · cases same
    exact fusing.fuseOp sits isPiped fused

end

theorem Arrives.topK (arrives : Arrives s scan dataset vars steps consumer above st)
    (bound : Option TopK) :
    Arrives s scan dataset vars steps consumer above { st with topK := bound } := by
  obtain ⟨top, here, reached⟩ := arrives
  refine ⟨top, here, ?_⟩
  cases reached with
  | fusing scope fusing isTop =>
    exact .fusing scope ⟨fusing.isOpen, fusing.fused, fusing.noFunction, fusing.isScan⟩ isTop
  | idle isClosed noFunction => exact .idle isClosed noFunction
  | complete isClosed f removed kept isFunction madeOf splits stacked marked =>
    exact .complete isClosed f removed kept isFunction madeOf splits stacked marked

variable {function : String} {outputs : List Var}

theorem visit_scan {depth : Nat}
    (isScan : st.draft.plan.shape scan = some (.scan dataset vars function outputs, []))
    (unmet : scan ∉ st.visited) (isClosed : st.scope = none) (noFunction : st.functions = [])
    (isConsumer : st.draft.plan.shape consumer = some (above, [scan]))
    (ended : visit s depth scan (some consumer) st = .ok () st') :
    Arrives s scan dataset vars [] consumer above st' ∧ st'.draft = st.draft := by
  cases depth with
  | zero => cases ended
  | succ depth =>
    obtain ⟨o, found, isBody, isInputs⟩ := Plan.shape_eq_some.mp isScan
    have enters : enterGroupBy scan (some consumer) o = pure () := by
      unfold enterGroupBy
      rw [isBody]
    rw [visit_succ found unmet, isInputs, enters, pure_bind] at ended
    obtain ⟨_, _, noInputs, rest⟩ := bind_eq_ok.mp ended
    cases noInputs
    obtain ⟨_, _, modified, processed⟩ := bind_eq_ok.mp rest
    cases modified
    obtain ⟨_, _, isOp, opened⟩ := bind_eq_ok.mp processed
    obtain ⟨found', rfl⟩ := operator_eq_ok.mp isOp
    cases found.symm.trans found'
    rw [isBody] at opened
    obtain ⟨same, outcome⟩ := openScope_eq_ok (by exact isClosed) opened
    have draft : st'.draft = st.draft := by rw [same]
    have functions : st'.functions = [] := by rw [same]; exact noFunction
    refine ⟨⟨scan, by rw [draft]; exact isConsumer, ?_⟩, draft⟩
    rcases outcome with isNone | ⟨schema, isSchema, isOpen⟩
    · exact .idle isNone functions
    · exact .fusing _ ⟨isOpen, ⟨schema, isSchema, rfl⟩, functions, function, outputs, draft ▸ isScan⟩ rfl

/-- The walk up a stack, one operator after the other. -/
theorem visit_stack : ∀ {ops : List (OpId × Body)}
    {top consumer : OpId} {above : Body} {depth : Nat} {st st' : State},
    st.draft.plan.Stacked scan ops top →
    st.draft.plan.shape scan = some (.scan dataset vars function outputs, []) →
    (∀ op ∈ ops, op.2.IsPiped) → st.scope = none → st.functions = [] →
    (∀ id ∈ ops.map Prod.fst ++ [scan], id ∉ st.visited ∧ id ≠ consumer) →
    st.draft.plan.shape consumer = some (above, [top]) →
    visit s depth top (some consumer) st = .ok () st' →
    Arrives s scan dataset vars ops.reverse consumer above st' ∧
      ∀ i, i ∉ ops.map Prod.fst ++ [scan] → i ≠ consumer →
        st'.draft.plan.shape i = st.draft.plan.shape i
  | [], top, _, _, _, _, _, isTop, isScan, _, isClosed, noFunction, unmet, isConsumer, ended => by
    subst isTop
    obtain ⟨arrives, draft⟩ := visit_scan isScan (unmet top (.head _)).1 isClosed noFunction
      isConsumer ended
    exact ⟨arrives, fun i _ _ => by rw [draft]⟩
  | _ :: _, _, _, _, 0, _, _, _, _, _, _, _, _, _, ended => by cases ended
  | (op, body) :: rest, top, consumer, above, depth + 1, st, st', stacked, isScan, piped, isClosed,
      noFunction, unmet, isConsumer, ended => by
    have distinct := stacked.nodup isScan
    obtain ⟨isTop, below, here, stacked'⟩ := stacked
    obtain rfl : op = top := isTop.symm
    obtain ⟨o, found, rfl, isInputs⟩ := Plan.shape_eq_some.mp here
    have isPiped : o.body.IsPiped := piped _ (.head _)
    obtain ⟨notMet, notConsumer⟩ := unmet op (.head _)
    obtain ⟨isNew, distinct'⟩ := List.nodup_cons.mp distinct
    obtain ⟨mid, visited, processed⟩ := visit_unary found notMet isInputs isPiped.not_groupBy ended
    have entered :
        ({ st with visited := op :: st.visited } : State).draft.plan.Stacked scan rest below :=
      stacked'
    have unmet' : ∀ id ∈ rest.map Prod.fst ++ [scan], id ∉ op :: st.visited ∧ id ≠ op := by
      intro id member
      have notOp : id ≠ op := fun same => isNew (same ▸ member)
      exact ⟨List.not_mem_cons_of_ne_of_not_mem notOp (unmet id (.tail _ member)).1, notOp⟩
    obtain ⟨arrives, others⟩ := visit_stack entered isScan
      (List.forall_mem_cons.mp piped).2 isClosed noFunction unmet' here
      visited
    have isConsumer' : mid.draft.plan.shape consumer = some (above, [op]) := by
      rw [others consumer (fun member => (unmet consumer (.tail _ member)).2 rfl) notConsumer.symm]
      exact isConsumer
    have outside : ∀ {i}, i ∉ op :: (rest.map Prod.fst ++ [scan]) →
        i ∉ rest.map Prod.fst ++ [scan] ∧ i ≠ scan ∧ i ≠ op := by
      intro i notHere
      refine ⟨fun member => notHere (.tail _ member), ?_, List.ne_of_not_mem_cons notHere⟩
      rintro rfl
      exact notHere (.tail _ (List.mem_append_right _ (.head _)))
    rw [List.reverse_cons]
    have arrives' : Arrives s scan dataset vars rest.reverse op o.body { mid with topK := st.topK } :=
      arrives.topK st.topK
    obtain ⟨top, isOp, reached⟩ := arrives'
    obtain ⟨o', found', isBody, isTop⟩ := Plan.shape_eq_some.mp isOp
    cases reached with
    | fusing scope fusing same =>
      subst same
      have sits : Sits mid.draft.plan top op consumer o'.body above := by
        refine ⟨isBody ▸ isOp, isConsumer', fun same => ?_, fun same => ?_, notConsumer⟩
        · exact isNew (same ▸ List.mem_append_right _ (.head _))
        · exact (unmet consumer (same ▸ List.mem_append_right _ (.head _))).2 rfl
      obtain ⟨arrived, others'⟩ := fusing.process found' sits (isBody ▸ isPiped) processed
      rw [isBody] at arrived
      refine ⟨arrived, fun i notHere notConsumer' => ?_⟩
      obtain ⟨notBelow, notScan, notOp⟩ := outside notHere
      exact (others' i notScan notOp notConsumer').trans (others i notBelow notOp)
    | idle isClosed noFunction =>
      rw [process_closed found' (isBody ▸ isPiped.not_isScan) isClosed] at processed
      cases processed
      refine ⟨⟨op, isConsumer', .idle isClosed noFunction⟩, fun i notHere notConsumer' => ?_⟩
      exact others i (outside notHere).1 (outside notHere).2.2
    | complete isClosed f removed kept isFunction madeOf splits stacked marked =>
      rw [process_closed found' (isBody ▸ isPiped.not_isScan) isClosed] at processed
      cases processed
      refine ⟨⟨op, isConsumer', ?_⟩, fun i notHere notConsumer' => ?_⟩
      · refine .complete isClosed f removed (kept ++ [(op, o.body)]) isFunction madeOf
          (splits.above _) ?_
          marked
        rw [List.reverse_append]
        exact ⟨rfl, top, isOp, stacked⟩
      · exact others i (outside notHere).1 (outside notHere).2.2

section boundary

variable {plan : Plan} {root below : OpId} {kind : Plan.OpKind} {outs : List Var}

theorem compileAll_boundary (isRoot : plan.shape root = some (.boundary kind outs, [below]))
    (ended : compileAll s root { draft := { plan } } = .ok () st') :
    ∃ depth mid last,
      visit s depth below (some root) { draft := { plan }, visited := [root] } = .ok () mid ∧
      process s root none { mid with topK := none } = .ok () last ∧
      closeScope s .endOfPlan last = .ok () st' := by
  unfold compileAll at ended
  rw [EStateM.bind_apply, EStateM.get_apply] at ended
  obtain ⟨_, last, visited, closed⟩ := bind_eq_ok.mp ended
  obtain ⟨o, found, isBody, isInputs⟩ := Plan.shape_eq_some.mp isRoot
  obtain ⟨mid, visited', processed⟩ := visit_unary found List.not_mem_nil isInputs
    (fun _ _ _ isGroupBy => nomatch isBody.symm.trans isGroupBy) visited
  exact ⟨_, mid, last, visited', processed, closed⟩

/-- A boundary is passed over if no scope is open. -/
theorem boundary_passed {inputs : List OpId} {last : State}
    (isRoot : st.draft.plan.shape root = some (.boundary kind outs, inputs)) (isClosed : st.scope = none)
    (processed : process s root none st = .ok () last)
    (closed : closeScope s .endOfPlan last = .ok () st') : st' = st := by
  obtain ⟨o, found, isBody, _⟩ := Plan.shape_eq_some.mp isRoot
  have notScan : ¬ o.body.IsScan := by
    rw [isBody]
    exact id
  cases (process_closed found notScan isClosed).symm.trans processed
  cases (closeScope_none isClosed).symm.trans closed
  rfl

theorem compileAll_stack {ops : List (OpId × Body)}
    (stacked : plan.Stacked scan ((root, .boundary kind outs) :: ops) root)
    (isScan : plan.shape scan = some (.scan dataset vars function outputs, []))
    (piped : ∀ op ∈ ops, op.2.IsPiped)
    (ended : compileAll s root { draft := { plan } } = .ok () st') :
    st'.scope = none ∧ Arrives s scan dataset vars ops.reverse root (.boundary kind outs) st' := by
  obtain ⟨isNew, _⟩ := List.nodup_cons.mp (stacked.nodup isScan)
  obtain ⟨_, top, here, stacked'⟩ := stacked
  obtain ⟨depth, mid, last, visited, processed, closed⟩ := compileAll_boundary here ended
  have unmet : ∀ id ∈ ops.map Prod.fst ++ [scan], id ∉ [root] ∧ id ≠ root := by
    intro id member
    have notRoot : id ≠ root := fun same => isNew (same ▸ member)
    exact ⟨fun isMet => notRoot (List.mem_singleton.mp isMet), notRoot⟩
  obtain ⟨arrives, _⟩ := visit_stack (by exact stacked') isScan piped rfl rfl unmet here visited
  obtain ⟨top', isRoot, reached⟩ := arrives.topK none
  cases reached with
  | fusing scope fusing isTop =>
    subst isTop
    obtain ⟨o, found, isBody, _⟩ := Plan.shape_eq_some.mp isRoot
    have notScan : ¬ o.body.IsScan := by
      rw [isBody]
      exact id
    rcases process_open found notScan fusing.isOpen processed with
      ⟨passes, _⟩ | ⟨reason, closed'⟩ | ⟨_, _, noParent, _⟩
    · rw [isBody] at passes
      cases passes
    · have notRoot : root ≠ top' := fun same =>
        isNew (same ▸ List.mem_append_right _ (.head _))
      have splits := Splits.whole ops.reverse []
      rw [List.append_nil] at splits
      obtain ⟨reached, others⟩ := fusing.closes splits rfl nofun closed'
      have isClosed : last.scope = none := by
        rw [(closeScope_some fusing.isOpen closed').1]
      rw [closeScope_none isClosed] at closed
      cases closed
      exact ⟨isClosed, top', (others root notRoot).trans isRoot, reached⟩
    · cases noParent
  | idle isClosed noFunction =>
    cases boundary_passed isRoot isClosed processed closed
    exact ⟨isClosed, top', isRoot, .idle isClosed noFunction⟩
  | complete isClosed f removed kept isFunction madeOf splits stacked marked =>
    cases boundary_passed isRoot isClosed processed closed
    exact ⟨isClosed, top', isRoot,
      .complete isClosed f removed kept isFunction madeOf splits stacked marked⟩

end boundary

end walk

end Fusion

end QueryFusion

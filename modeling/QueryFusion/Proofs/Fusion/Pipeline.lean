import QueryFusion.Proofs.Fusion.Rows

/-!
# Scalar pipelines

The code of fused selects, assigns and projects, followed by the writing of a row, writes the rows
that the operators make of the current tuple. It fails only if they make nothing of it.
-/

namespace QueryFusion

open Code
open Plan (Tuple Body Among)

/-- Nothing moved but columns that read fields, and rows were written. -/
def Engine.Machine.Wrote (m : Machine) (rows : List (List Value)) (m' : Machine) : Prop :=
  ∃ mid, m.Still mid ∧ m' = { mid with written := rows.reverse ++ mid.written }

theorem Engine.Machine.Wrote.after {m mid m' : Machine} {rows : List (List Value)} (still : m.Still mid)
    (wrote : mid.Wrote rows m') : m.Wrote rows m' := by
  obtain ⟨last, still', isLast⟩ := wrote
  exact ⟨last, still.trans still', isLast⟩

namespace Plan

theorem among_cons (v : Var) (vars : List Var) : Among (v :: vars) = Expr.SeenWith v (Among vars) := by
  funext e
  refine propext ⟨?_, ?_⟩
  · rintro ⟨w, rfl, u, member, same⟩
    rcases List.mem_cons.mp member with rfl | member
    · exact .inr ⟨w, rfl, same.symm⟩
    · exact .inl ⟨w, rfl, u, member, same⟩
  · rintro (⟨w, rfl, u, member, same⟩ | ⟨w, rfl, same⟩)
    · exact ⟨w, rfl, u, .tail _ member, same⟩
    · exact ⟨w, rfl, v, .head _, same.symm⟩

theorem Tuple.known_bind (t : Tuple) (v : Var) (x : Value) :
    (t.bind v x).known = Expr.withValue v x t.known := by
  funext e
  cases e with
  | var w =>
    change ((v.id, x) :: t).lookup w.id = if w.id = v.id then some x else t.lookup w.id
    rw [List.lookup_cons]
    by_cases same : w.id = v.id
    · simp [same]
    · rw [beq_false_of_ne same, if_neg same]
  | absent => rfl
  | const c => rfl
  | call fn args loc => rfl

mutual

theorem within_of_readsOnly {vars : List Var} : ∀ e : Expr, e.ReadsOnly vars → e.Within (Among vars)
  | .absent, _ => trivial
  | .var v, reads => ⟨v, rfl, reads v (List.mem_singleton_self v)⟩
  | .const _, _ => trivial
  | .call _ args _, reads => allWithin_of_readsOnly args reads

theorem allWithin_of_readsOnly {vars : List Var} : ∀ es : List Expr,
    (∀ w ∈ Expr.occurrencesArgs es, ∃ v ∈ vars, v.id = w.id) → Expr.AllWithin (Among vars) es
  | [], _ => trivial
  | e :: rest, reads =>
    ⟨within_of_readsOnly e fun w member => reads w (List.mem_append_left _ member),
      allWithin_of_readsOnly rest fun w member => reads w (List.mem_append_right _ member)⟩

end

theorem Tuple.exists_covers (vars : List Var) : ∃ t : Tuple, t.Covers vars := by
  induction vars with
  | nil => exact ⟨[], fun _ => ⟨nofun, nofun⟩⟩
  | cons v rest ih =>
    obtain ⟨t, covers⟩ := ih
    exact ⟨t.bind v .null, covers.bind v .null⟩

/-- The paths that an operator of a scalar pipeline reads can be read, and a variable that it assigns
stands for the path of what it is assigned, if for any. -/
def Body.Readable (D : Path → Prop) (schema : Schema) : Body → Prop
  | select cond => schema.Reads D cond
  | assign vars exprs => ∀ binding ∈ vars.zip exprs, schema.Reads D binding.2 ∧
      (∀ p, schema.varPath? binding.1 = some p → schema.pathOf? binding.2 = some p) ∧
      binding.1.id ≠ schema.record.id
  | _ => True

end Plan

namespace Fusion

open Engine

variable {fewer : Expr → Prop} {vars : List Var} {rest steps : List Body} {body : Body}
variable {exprs : List Expr} {accepted : RunError → Prop}

/-! ## Assigns -/

/-- What giving some variables values leaves behind. -/
structure Scope.BindsAll (scope later : Scope) (vars : List Var) : Prop where
  same : later = { scope with
    fn := later.fn, outputs := later.outputs, touched := later.touched, consumed := later.consumed,
    live := { scope.live with values := later.live.values, memos := later.live.memos } }
  outputs : ∀ v ∈ later.outputs, v ∈ scope.outputs ∨ v ∈ vars

/-- A scope that is not nested, in which no aggregator writes rows. -/
structure Scope.Plainly (scope : Scope) : Prop where
  outermost : scope.isNested = false
  emitters : scope.emitters = []

section assigns

variable {D : Path → Prop} {final scope later third : Scope} {may : Nat → Prop} {spot : Spot}
variable {m m' : Machine} {hidden : Nat → Prop} {v : Var} {more : List Var}

theorem Scope.BindsAll.refl (scope : Scope) : scope.BindsAll scope [] :=
  ⟨rfl, fun _ => .inl⟩

theorem Scope.Binds.then (binds : scope.Binds later v) (others : later.BindsAll third more) :
    scope.BindsAll third (v :: more) where
  same := by
    rw [others.same, binds.same]
  outputs := by
    intro w member
    rcases others.outputs w member with old | isNew
    · refine (binds.outputs.subset w old).imp_right fun isNew => ?_
      exact List.mem_cons.mpr (.inl (List.mem_singleton.mp isNew))
    · exact .inr (.tail _ isNew)

theorem Scope.BindsAll.schema (binds : scope.BindsAll later vars) : later.schema = scope.schema := by
  rw [binds.same]

theorem Scope.BindsAll.plainly (binds : scope.BindsAll later vars) (plainly : scope.Plainly) :
    later.Plainly := by
  rw [binds.same]
  exact ⟨plainly.outermost, plainly.emitters⟩

theorem Scope.Binds.schema (binds : scope.Binds later v) : later.schema = scope.schema := by
  rw [binds.same]

theorem Scope.Binds.plainly (binds : scope.Binds later v) (plainly : scope.Plainly) :
    later.Plainly := by
  rw [binds.same]
  exact ⟨plainly.outermost, plainly.emitters⟩

/-- The code of the bindings of an assign. -/
theorem sim_assignVars : ∀ (more : List Var) (exprs : List Expr) (vars : List Var) (scope : Scope)
    (m : Machine) (t : Tuple) (accepted : RunError → Prop), Sound D scope →
    InScope D scope hidden (Among vars) → scope.Plainly → t.Covers vars →
    Plan.AssignScoped vars more exprs → (Body.assign more exprs).Readable D scope.schema →
    Tolerates (t.assign? more exprs) accepted →
    Sim D final scope.New spot (assignVars more exprs) scope m
      (Live scope spot hidden (Among vars) t.known m)
      (fun _ later => later.current = scope.current ∧ more.length ≤ exprs.length ∧
        scope.BindsAll later more ∧ InScope D later hidden (Among (more.reverse ++ vars)))
      (fun _ later => Onward fun m' => m.Still m' ∧ ∃ t', t.assign? more exprs = some t' ∧
        Live later spot hidden (Among (more.reverse ++ vars)) t'.known m') accepted
  | [], _, vars, scope, m, t, accepted, sound, inScope, plainly, covers, _, _, _ => by
    refine .pure ⟨rfl, Nat.zero_le _, .refl scope, inScope⟩ fun live => ?_
    exact ⟨rfl, .refl m, t, by unfold Tuple.assign?; rfl, live⟩
  | _ :: _, [], _, _, _, _, _, _, _, _, _, _, _, _ => .throw
  | v :: more, e :: exprs, vars, scope, m, t, accepted, sound, inScope, plainly, covers, isScoped,
      readable, tolerant => by
    obtain ⟨readsOnly, isScoped'⟩ := isScoped
    obtain ⟨reads, denotes, notRecord⟩ := readable (v, e) (.head _)
    have assignable : Assignable D scope (Among vars) v e :=
      ⟨Plan.within_of_readsOnly e readsOnly, reads, denotes, notRecord⟩
    have isFirst : ∀ x, e.value? t.known = some x →
        t.assign? (v :: more) (e :: exprs) = (t.bind v x).assign? more exprs := by
      intro x isValue
      rw [Tuple.assign?, isValue]
      rfl
    have shape : (v :: more).reverse ++ vars = more.reverse ++ v :: vars := by simp
    rw [shape]
    refine .bind (fun _ later => scope.Binds later v ∧ InScope D later hidden (Among (v :: vars)))
      (fun _ later m' => m.Still m' ∧ ∃ x, e.value? t.known = some x ∧
        Live later spot hidden (Among (v :: vars)) (t.bind v x).known m') sound ?_ ?_
    · have sim : Sim D final scope.New spot (assignVar v e) scope m _ _ _ accepted :=
        sim_assignVar covers.domain sound inScope assignable fun isNone =>
          tolerant (by rw [Tuple.assign?, isNone]; rfl)
      refine sim.mono id ?_ ?_ fun _ => id
      · rintro _ later ⟨current, binds, inScope'⟩
        exact ⟨current, binds, Plan.among_cons v vars ▸ inScope'⟩
      · rintro _ later flow m' _ _ ⟨rfl, still, x, isValue, live⟩
        refine ⟨rfl, still, x, isValue, ?_⟩
        rw [Tuple.known_bind, Plan.among_cons]
        exact live
    · rintro _ later m' sound' current adds ⟨binds, inScope'⟩
      have names : ∀ n, later.New n → scope.New n := fun n => Nat.le_trans adds.later.arena.names
      let x := (e.value? t.known).getD .null
      have isOnly : ∀ y, e.value? t.known = some y → y = x := fun y isValue => by
        change y = Option.getD _ _
        rw [isValue, Option.getD_some]
      refine ((((sim_assignVars more exprs (v :: vars) later m' (t.bind v x)
        (fun cause => e.value? t.known = some x → accepted cause) sound' inScope'
        (binds.plainly plainly) (covers.bind v x) isScoped' ?_ ?_).weaken names).mono ?_ ?_ ?_
        fun _ => id).when (e.value? t.known = some x) ?_)
      · rw [binds.schema]
        exact (List.forall_mem_cons.mp readable).2
      · exact fun isNone cause ofCall isValue =>
          tolerant ((isFirst x isValue).trans isNone) cause ofCall
      · rintro ⟨_, _, _, y, isValue, live⟩
        exact isOnly y isValue ▸ live
      · rintro _ third ⟨current', even, bindsAll, inScope''⟩
        exact ⟨current'.trans current, Nat.succ_le_succ even, binds.then bindsAll, inScope''⟩
      · rintro _ third flow m'' ⟨_, _, still, y, isValue, _⟩ _ ⟨rfl, still', t', isTuple, live⟩
        obtain rfl := isOnly y isValue
        exact ⟨rfl, still.trans still', t', (isFirst x isValue).trans isTuple, live⟩
      · rintro ⟨_, _, _, y, isValue, _⟩
        exact isOnly y isValue ▸ isValue

end assigns

/-! ## Pipelines -/

/-- Aggregates over all records. -/
def emitAggregates (vars : List Var) (calls : List Call) : Emit Unit := do
  clearOutput
  accumulateAll vars calls
  moveTo (← get).fn.body

/-- The code of an operator of a pipeline. -/
def fuseStep : Body → Emit Unit
  | .select cond => selectOn cond
  | .assign vars exprs => assignVars vars exprs
  | .project vars => projectOutput vars
  | .aggregate vars calls _ => emitAggregates vars calls
  | _ => pure ()

/-- The code of the operators of a pipeline. -/
def fuseSteps : List Body → Emit Unit
  | [] => pure ()
  | body :: rest => do
    fuseStep body
    countFused
    fuseSteps rest

/-- Writes the rows of a function: its outputs where the code stands, or what aggregators hold. -/
def writeRows : Emit Unit := do
  let scope ← get
  let sink := Code.Node.ident Function.sink
  if scope.emitters.isEmpty then
    let values ← scope.outputs.mapM inlineValueOf
    emit (.member sink Code.Member.append values)
  else
    scope.emitters.forM fun aggregator =>
      changeArena (·.appendHead scope.fn.body (.member (.ident aggregator) Code.Member.emit [sink]))

section pipelines

variable {D : Path → Prop} {final scope later third : Scope} {may : Nat → Prop} {spot : Spot}
variable {m m' : Machine} {hidden : Nat → Prop} {v : Var} {more : List Var}
variable {seen : Expr → Prop} {known : Expr → Option Value}

theorem InScope.narrow (inScope : InScope D scope hidden seen) (sub : ∀ e, fewer e → seen e) :
    InScope D scope hidden fewer where
  hides := inScope.hides
  vars := fun e isSeen => inScope.vars e (sub e isSeen)
  value := fun v isSeen => inScope.value v (sub _ isSeen)
  path := fun v p isSeen => inScope.path v p (sub _ isSeen)
  flags := inScope.flags
  items := inScope.items
  memos := inScope.memos
  plain := fun v node readers isSeen => inScope.plain v node readers (sub _ isSeen)

theorem Live.narrow {less : Expr → Option Value} (live : Live scope spot hidden seen known m)
    (domain : ∀ e, (less e).isSome ↔ fewer e) (sub : ∀ e x, less e = some x → known e = some x) :
    Live scope spot hidden fewer less m where
  domain := domain
  code := fun v x node readers isKnown => live.code v x node readers (sub _ _ isKnown)
  path := fun v x p isKnown => live.path v x p (sub _ _ isKnown)
  memo := fun v x p memo isKnown => live.memo v x p memo (sub _ _ isKnown)
  denoted := fun v x p isKnown => live.denoted v x p (sub _ _ isKnown)
  record := fun v x isKnown => live.record v x (sub _ _ isKnown)

theorem mem_of_mem_distinctVars {w : Var} (member : w ∈ distinctVars vars) : w ∈ vars := by
  have each : ∀ (vars seen : List Var),
      w ∈ vars.foldl (fun seen v => if seen.any (·.id == v.id) then seen else seen ++ [v]) seen →
      w ∈ seen ∨ w ∈ vars := by
    intro vars
    induction vars with
    | nil => exact fun seen member => .inl member
    | cons v rest ih =>
      intro seen member
      rw [List.foldl_cons] at member
      rcases ih _ member with old | later
      · split at old
        · exact .inl old
        · rcases List.mem_append.mp old with old | same
          · exact .inl old
          · exact .inr (List.mem_singleton.mp same ▸ (.head _))
      · exact .inr (.tail _ later)
  exact (each vars [] member).resolve_left nofun

/-- Restricting the outputs. -/
theorem quiet_projectOutput (scope : Scope) (outermost : scope.isNested = false) (vars : List Var) :
    Yields (projectOutput vars) scope fun _ later => scope.Quiet D later ∧
      later = { scope with outputs := distinctVars vars } := by
  refine .modifying ?_
  rw [if_neg (by rw [outermost]; exact Bool.false_ne_true)]
  exact ⟨.of_notes, rfl⟩

/-- Counting a fused operator. -/
theorem quiet_countFused (scope : Scope) :
    Yields countFused scope fun _ later => scope.Quiet D later ∧
      later = { scope with fused := scope.fused + 1 } :=
  quiet_modify .of_notes

/-- What holds of a scope before the code of a scalar pipeline. -/
structure Pipes (D : Path → Prop) (scope : Scope) (hidden : Nat → Prop) (vars : List Var)
    (steps : List Body) : Prop where
  sound : Sound D scope
  inScope : InScope D scope hidden (Among vars)
  plainly : scope.Plainly
  isScoped : Plan.Scoped vars steps
  readable : ∀ body ∈ steps, body.Readable D scope.schema
  outputs : ∀ v ∈ scope.outputs, Among vars (.var v)

theorem Pipes.outputs_only (pipes : Pipes D scope hidden vars (body :: rest))
    (sound : Sound D later) (live : later.live = scope.live) (fn : later.fn = scope.fn)
    (schema : later.schema = scope.schema) (saved : later.saved = scope.saved)
    (emitters : later.emitters = scope.emitters)
    (sub : ∀ e, Among (body.delivers vars) e → Among vars e)
    (outputs : ∀ v ∈ later.outputs, Among (body.delivers vars) (.var v)) :
    Pipes D later hidden (body.delivers vars) rest where
  sound := sound
  inScope := (pipes.inScope.congr live fn schema).narrow sub
  plainly := by
    refine ⟨?_, emitters.trans pipes.plainly.emitters⟩
    unfold Scope.isNested
    rw [saved]
    exact pipes.plainly.outermost
  isScoped := pipes.isScoped.2
  readable := fun other member => schema ▸ pipes.readable other (.tail _ member)
  outputs := outputs

theorem Pipes.remembers (pipes : Pipes D scope hidden vars steps)
    (remembers : scope.Remembers later) (sound : Sound D later) :
    Pipes D later hidden vars steps where
  sound := sound
  inScope := pipes.inScope.remembers remembers
  plainly := by
    rw [remembers.same]
    exact ⟨pipes.plainly.outermost, pipes.plainly.emitters⟩
  isScoped := pipes.isScoped
  readable := by
    rw [remembers.same]
    exact pipes.readable
  outputs := by
    rw [remembers.same]
    exact pipes.outputs

theorem Pipes.binds (pipes : Pipes D scope hidden vars (.assign more exprs :: rest))
    (binds : scope.BindsAll later more) (sound : Sound D later)
    (inScope : InScope D later hidden (Among (more.reverse ++ vars))) :
    Pipes D later hidden (more.reverse ++ vars) rest where
  sound := sound
  inScope := inScope
  plainly := binds.plainly pipes.plainly
  isScoped := pipes.isScoped.2
  readable := by
    rw [binds.schema]
    exact (List.forall_mem_cons.mp pipes.readable).2
  outputs := by
    intro v member
    rcases binds.outputs v member with old | isNew
    · obtain ⟨w, same, u, isVar, isSame⟩ := pipes.outputs v old
      exact ⟨w, same, u, List.mem_append_right _ isVar, isSame⟩
    · exact ⟨v, rfl, v, List.mem_append_left _ (List.mem_reverse.mpr isNew), rfl⟩

/-- Counting an operator before further code. -/
theorem sim_counted {α : Type} {next : Emit α} {pre : Prop} {fact : α → Scope → Prop}
    {post : α → Scope → Flow → Machine → Prop} (sound : Sound D scope)
    (second : ∀ later, later = { scope with fused := scope.fused + 1 } → Sound D later →
      Sim D final may spot next later m pre fact post accepted) :
    Sim D final may spot (do countFused; next) scope m pre fact post accepted :=
  .quietly sound (quiet_countFused scope) fun _ later _ sound' same => second later same sound'

theorem Pipes.counted (pipes : Pipes D scope hidden vars steps)
    (same : later = { scope with fused := scope.fused + 1 }) (sound : Sound D later) :
    Pipes D later hidden vars steps := by
  subst same
  exact { pipes with
    sound, inScope := pipes.inScope.congr rfl rfl rfl, plainly := { pipes.plainly with } }

/-- Between two places in the code of a pipeline nothing moved but columns that read fields, and only
variables were written that are there at the second one. -/
structure Scope.Passes (later : Scope) (m m' : Machine) : Prop where
  still : m.Still m'
  frame : m.Frame (fun n => n < later.fn.arena.names) m'

theorem Scope.Passes.trans {m'' : Machine} (first : later.Passes m m')
    (second : third.Passes m' m'') (names : later.fn.arena.names ≤ third.fn.arena.names) :
    third.Passes m m'' where
  still := first.still.trans second.still
  frame := (first.frame.mono fun _ below => below.trans_le names).trans second.frame

/-- The code after a pipeline, which begins at a later scope, yields something. -/
def Scope.Reaches (scope : Scope) (fact : Scope → Scope → Prop) (later : Scope) : Prop :=
  ∃ reached : Scope, scope.fn.arena.names ≤ reached.fn.arena.names ∧ fact reached later

theorem Scope.Reaches.before {fact : Scope → Scope → Prop} (reaches : later.Reaches fact third)
    (names : scope.fn.arena.names ≤ later.fn.arena.names) : scope.Reaches fact third := by
  obtain ⟨reached, above, held⟩ := reaches
  exact ⟨reached, names.trans above, held⟩

section runs

variable (D final spot hidden)
variable (last : Emit Unit) (fact : Scope → Scope → Prop) (post : Scope → Machine → Prop)
variable (fails : Tuple → RunError → Prop)

/-- What holds of the code after the operators of a pipeline, which is run for the tuple that they
make of one tuple, if any. `fact` says what that code yields from where it begins, `skip` what holds
if they make no tuple. -/
structure Leads (steps : List Body) (vars : List Var) (scope : Scope) (m : Machine) (t : Tuple)
    (pre : Prop) (accepted : RunError → Prop) : Prop where
  failing : Tolerates (Plan.tuples? steps [t]) accepted
  tolerant : ∀ t' cause, Plan.tuples? steps [t] = some [t'] → fails t' cause → accepted cause
  skip : ∀ reached later m', scope.fn.arena.names ≤ reached.fn.arena.names → fact reached later →
    pre → reached.Passes m m' → Plan.tuples? steps [t] = some [] → post later m'
  reach : ∀ scope' m' t', scope.Enters scope' → Pipes D scope' hidden (Plan.delivered vars steps) [] →
    t'.Covers (Plan.delivered vars steps) →
    Sim D final scope'.New spot last scope' m' (pre ∧ Plan.tuples? steps [t] = some [t'] ∧
        scope'.Passes m m' ∧
        Live scope' spot hidden (Among (Plan.delivered vars steps)) t'.known m')
      (fun _ => fact scope') (fun _ later => Onward (post later)) (fails t')

/-- The code of operators runs the code after them for the tuple that they make of one tuple. -/
def Piped (steps : List Body) : Prop :=
  ∀ (vars : List Var) (scope : Scope) (m : Machine) (t : Tuple) (pre : Prop)
    (accepted : RunError → Prop), Pipes D scope hidden vars steps → t.Covers vars →
    Leads D final spot hidden last fact post fails steps vars scope m t pre accepted →
    Sim D final scope.New spot (do fuseSteps steps; last) scope m
      (pre ∧ Live scope spot hidden (Among vars) t.known m) (fun _ => scope.Reaches fact)
      (fun _ later => Onward (post later)) accepted

variable {D final spot hidden last fact post fails}
variable {first : Scope} {t t' : Tuple} {pre begun cond : Prop}

theorem Leads.step
    (leads : Leads D final spot hidden last fact post fails (body :: rest) vars scope m t pre accepted)
    (enters : scope.Enters first) (passed : begun → pre ∧ first.Passes m m' ∧ cond)
    (whole : cond → Plan.tuples? (body :: rest) [t] = Plan.tuples? rest [t']) :
    Leads D final spot hidden last fact post fails rest (body.delivers vars) first m' t' begun
      fun cause => cond → accepted cause where
  failing := fun isNone cause ofCall held => leads.failing ((whole held).trans isNone) cause ofCall
  tolerant := fun t'' cause isOne failed held =>
    leads.tolerant t'' cause ((whole held).trans isOne) failed
  skip := by
    intro reached later m'' names yields begins passes' isNone
    obtain ⟨before, passes, held⟩ := passed begins
    exact leads.skip reached later m'' (enters.later.arena.names.trans names) yields before
      (passes.trans passes' names) ((whole held).trans isNone)
  reach := by
    intro scope' m'' t'' enters' pipes covers
    refine (leads.reach scope' m'' t'' (enters.trans enters') pipes covers).mono ?_ (fun _ _ => id)
      (fun _ _ _ _ _ _ => id) fun _ => id
    rintro ⟨begins, isOne, passes', live⟩
    obtain ⟨before, passes, held⟩ := passed begins
    exact ⟨before, (whole held).trans isOne, passes.trans passes' enters'.later.arena.names, live⟩

/-- The code after one operator. -/
theorem Piped.after (piped : Piped D final spot hidden last fact post fails rest) (t' : Tuple)
    (begun cond : Prop)
    (leads : Leads D final spot hidden last fact post fails (body :: rest) vars scope m t pre accepted)
    (enters : scope.Enters first) (pipes : Pipes D first hidden (body.delivers vars) rest)
    (covers : t'.Covers (body.delivers vars)) (passed : begun → pre ∧ first.Passes m m' ∧ cond)
    (whole : cond → Plan.tuples? (body :: rest) [t] = Plan.tuples? rest [t']) :
    Sim D final scope.New spot (do countFused; fuseSteps rest; last) first m'
      (begun ∧ Live first spot hidden (Among (body.delivers vars)) t'.known m')
      (fun _ => first.Reaches fact) (fun _ later => Onward (post later))
      fun cause => cond → accepted cause := by
  refine sim_counted pipes.sound fun counted same sound => ?_
  have pipes' := pipes.counted same sound
  subst same
  have counts : first.Adds { first with fused := first.fused + 1 } :=
    ⟨.of_notes, rfl⟩
  refine ((piped _ _ m' t' begun _ pipes' covers (leads.step (enters.trans counts.enters) ?_
    whole)).weaken fun n => Nat.le_trans enters.later.arena.names).mono ?_ ?_ (fun _ _ _ _ _ _ => id)
    fun _ => id
  · exact fun begins => (passed begins).imp_right (And.imp_left fun passes => ⟨passes.still, passes.frame⟩)
  · exact fun ⟨begins, live⟩ => ⟨begins, live.congr rfl rfl rfl rfl⟩
  · exact fun _ _ held => held.before le_rfl

theorem fuseSteps_cons (body : Body) (rest : List Body) (last : Emit Unit) :
    (do fuseSteps (body :: rest); last : Emit Unit) = (do
      fuseStep body
      countFused
      fuseSteps rest
      last) := by
  rw [fuseSteps]
  simp only [bind_assoc]

section

variable (piped : Piped D final spot hidden last fact post fails rest)

include piped

theorem Piped.select {cond : Expr} :
    Piped D final spot hidden last fact post fails (.select cond :: rest) := by
  intro vars scope m t pre accepted pipes covers leads
  have value := Plan.tuples?_cons (.select cond) rest [t]
  rw [Plan.gather_singleton, Body.onTuple?] at value
  have passes : ∀ c, cond.value? t.known = some c →
      Plan.tuples? (.select cond :: rest) [t] = Plan.tuples? rest (if c.truth then [t] else []) := by
    intro c isValue
    rw [value, isValue]
    rfl
  let entered (inner : Scope) (_ : Unit) (later : Scope) : Prop :=
    scope.fn.arena.names ≤ inner.fn.arena.names ∧ inner.Reaches fact later
  have reaches : ∀ a later, (∃ inner, entered inner a later) → scope.Reaches fact later :=
    fun _ _ ⟨_, names, held⟩ => held.before names
  rw [fuseSteps_cons]
  refine (sim_selectOn pre covers.domain pipes.sound pipes.inScope
    (Plan.within_of_readsOnly cond pipes.isScoped.1) (pipes.readable _ (.head _)) (fun _ => id)
    ?_ ?_ ?_).mono id reaches (fun _ _ _ _ _ _ => id) fun _ => id
  · intro isNone
    refine leads.failing ?_
    rw [value, isNone]
    rfl
  · rintro inner _ later c m' ⟨more, reached, names, held⟩ begins isValue isFalse still frame
    refine ⟨rfl, leads.skip reached later m' (more.trans names) held begins
      ⟨still, frame.mono fun n below => below.trans_le names⟩ ?_⟩
    rw [passes c isValue, isFalse]
    exact Plan.tuples?_nil rest
  · intro inner m' sound _ steps remembers _
    have pipes' := pipes.remembers remembers sound
    refine (piped.after t (pre ∧ inner.Passes m m' ∧ Passing cond t.known) _ leads steps.enters
      (pipes'.outputs_only sound rfl rfl rfl rfl rfl (fun _ => id) pipes'.outputs) covers
      id ?_).mono ?_ (fun _ _ held => ⟨steps.enters.later.arena.names, held⟩) (fun _ _ _ _ _ _ => id)
      fun _ => id
    · rintro ⟨c, isValue, isTrue⟩
      rw [passes c isValue, isTrue]
      rfl
    · exact fun ⟨begins, still, frame, live, held⟩ => ⟨⟨begins, ⟨still, frame⟩, held⟩, live⟩

theorem Piped.assign :
    Piped D final spot hidden last fact post fails (.assign more exprs :: rest) := by
  intro vars scope m t pre accepted pipes covers leads
  have value := Plan.tuples?_cons (.assign more exprs) rest [t]
  rw [Plan.gather_singleton, Body.onTuple?] at value
  rw [fuseSteps_cons]
  refine .bind (fun _ later => more.length ≤ exprs.length ∧ scope.BindsAll later more ∧
      InScope D later hidden (Among (more.reverse ++ vars)))
    (fun _ later m' => m.Still m' ∧ ∃ t', t.assign? more exprs = some t' ∧
      Live later spot hidden (Among (more.reverse ++ vars)) t'.known m') pipes.sound
    ((sim_assignVars more exprs vars scope m t accepted pipes.sound pipes.inScope pipes.plainly
      covers pipes.isScoped.1 (pipes.readable _ (.head _)) ?_).mono And.right
      (fun _ _ => id) (fun _ _ _ _ _ _ => id) fun _ => id) ?_
  · intro isNone
    refine leads.failing ?_
    rw [value, isNone]
    rfl
  · rintro _ first m' sound _ adds ⟨even, binds, inScope⟩
    obtain ⟨t', covers', isOnly⟩ : ∃ t' : Tuple, t'.Covers (more.reverse ++ vars) ∧
        ∀ t'', t.assign? more exprs = some t'' → t'' = t' := by
      cases isTuple : t.assign? more exprs with
      | none => exact (Tuple.exists_covers _).imp fun _ covers => ⟨covers, nofun⟩
      | some t' => exact ⟨t', covers.assign even isTuple, fun _ same => (Option.some.inj same).symm⟩
    refine ((piped.after t' (pre ∧ first.Passes m m' ∧ t.assign? more exprs = some t') _ leads
      adds.enters (pipes.binds binds sound inScope) covers' id ?_).mono ?_
      (fun _ _ held => held.before adds.later.arena.names) (fun _ _ _ _ _ _ => id) fun _ => id).when
      (t.assign? more exprs = some t') ?_
    · intro isTuple
      rw [value, isTuple]
      rfl
    · rintro ⟨⟨begins, _⟩, frame, still, t'', isTuple, live⟩
      obtain rfl := isOnly t'' isTuple
      exact ⟨⟨begins, ⟨still, frame.mono fun n written => written.2.1⟩, isTuple⟩, live⟩
    · rintro ⟨_, _, _, t'', isTuple, _⟩
      exact isOnly t'' isTuple ▸ isTuple

theorem Piped.project {kept : List Var} :
    Piped D final spot hidden last fact post fails (.project kept :: rest) := by
  intro vars scope m t pre accepted pipes covers leads
  have sub : ∀ v ∈ kept, ∃ w ∈ vars, w.id = v.id := fun v member =>
    pipes.isScoped.1 v member v (List.mem_singleton_self v)
  have fewer : ∀ e, Among kept e → Among vars e := by
    rintro e ⟨w, rfl, v, member, same⟩
    obtain ⟨u, isVar, isSame⟩ := sub v member
    exact ⟨w, rfl, u, isVar, isSame.trans same⟩
  have covers' := covers.restrict sub
  rw [fuseSteps_cons]
  refine .quietly pipes.sound (quiet_projectOutput scope pipes.plainly.outermost kept) ?_
  rintro _ first quiet sound rfl
  refine ((piped.after (t.restrict kept) pre True leads quiet.adds.enters
    (pipes.outputs_only sound rfl rfl rfl rfl rfl fewer fun v member =>
      ⟨v, rfl, v, mem_of_mem_distinctVars member, rfl⟩) covers'
    (fun begins => ⟨begins, ⟨.refl m, .refl _ m⟩, trivial⟩) fun _ => ?_).mono ?_ (fun _ _ => id)
    (fun _ _ _ _ _ _ => id) fun _ => id).when True fun _ => trivial
  · rfl
  · rintro ⟨begins, live⟩
    exact ⟨begins, (live.narrow covers'.domain fun e x => Tuple.known_restrict).congr rfl rfl rfl rfl⟩

end

variable (fact post fails) in
/-- The code of the operators of a scalar pipeline. -/
theorem sim_steps : ∀ steps : List Body, Piped D final spot hidden last fact post fails steps
  | [] => by
    intro vars scope m t pre accepted pipes covers leads
    refine (leads.reach scope m t (Scope.Adds.enters (.refl scope)) pipes covers).mono ?_
      (fun _ _ held => ⟨scope, le_rfl, held⟩) (fun _ _ _ _ _ _ => id)
      fun cause failed => leads.tolerant t cause rfl failed
    exact fun ⟨begins, live⟩ => ⟨begins, rfl, ⟨.refl m, .refl _ m⟩, live⟩
  | body :: rest => by
    have piped : Piped D final spot hidden last fact post fails rest := sim_steps rest
    cases body with
    | select cond => exact piped.select
    | assign more exprs => exact piped.assign
    | project kept => exact piped.project
    | _ => exact fun _ _ _ _ _ _ pipes _ _ => pipes.isScoped.1.elim

end runs

theorem sim_pipeline (steps : List Body) (vars : List Var) (scope : Scope) (m : Machine)
    (t : Tuple) (accepted : RunError → Prop) (pipes : Pipes D scope hidden vars steps)
    (covers : t.Covers vars)
    (tolerant : Tolerates (Plan.tuples? steps [t]) accepted) :
    Sim D final scope.New spot (do fuseSteps steps; writeRows) scope m
      (Live scope spot hidden (Among vars) t.known m) (fun _ _ => True)
      (fun _ later => Onward fun m' => ∃ ts rows, Plan.tuples? steps [t] = some ts ∧
        ts.mapM (·.row? later.outputs) = some rows ∧ m.Wrote rows m') accepted := by
  refine (sim_steps (fun _ _ => True) _ (fun _ _ => False) steps vars scope m t True
    accepted pipes covers ⟨tolerant, fun _ _ _ => False.elim, ?_, ?_⟩).mono
    (fun live => ⟨trivial, live⟩) (fun _ _ _ => trivial) (fun _ _ _ _ _ _ => id) fun _ => id
  · exact fun _ later m' _ _ _ passed isNone => ⟨[], [], isNone, rfl, m', passed.still, rfl⟩
  · intro scope' m' t' _ pipes' covers'
    refine .get ?_
    rw [pipes'.plainly.emitters, if_pos (by rfl)]
    refine (sim_writeRow pipes'.sound pipes'.inScope pipes'.outputs).mono (fun held => held.2.2.2)
      (fun _ _ _ => trivial) ?_ fun _ => id
    rintro _ later flow m'' ⟨_, isTuple, passed, _⟩ remembers ⟨rfl, row, mid, isRow, still, isLast⟩
    have outputs : later.outputs = scope'.outputs := by rw [remembers.same]
    refine ⟨rfl, [t'], [row], isTuple, ?_, .after passed.still ⟨mid, still, isLast⟩⟩
    have isRow' : t'.row? later.outputs = some row := by
      rw [outputs]
      exact isRow
    rw [List.mapM_cons, isRow']
    rfl

end pipelines

end Fusion

end QueryFusion

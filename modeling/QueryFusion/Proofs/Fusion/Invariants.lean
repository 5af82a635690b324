import QueryFusion.Proofs.Fusion.Functions
import QueryFusion.Proofs.Fusion.StepTraces

/-!
# Invariants of the compiler

The compiler changes its state in few ways: it emits code for an operator into the open scope, takes
operators and bindings out of the plan, opens a scope over a scan, and completes the function of a
scope. What each of these ways keeps is kept by a whole compilation, however it ends.
-/

namespace QueryFusion.Fusion

open EStateM (Keeps EndsIn)
open Code (Node Function)
open Plan (OpId Operator Body)

/-! ## New scopes -/

theorem isQuiet_scanMeaning {i : Nat} {node : Node} {readers : List String}
    (same : scanMeaning i = .code node readers) : node.isQuiet = true ∧ node.accesses = [] := by
  have others : Code.Member.record ≠ Code.Member.hasNext ∧
      Code.Member.describe ≠ Code.Member.hasNext := by decide
  unfold scanMeaning at same
  split at same
  · injection same with isNode
    rw [← isNode]
    exact ⟨by simp [Node.isQuiet, Node.areQuiet, others.1], rfl⟩
  · injection same with isNode
    rw [← isNode]
    exact ⟨by simp [Node.isQuiet, Node.areQuiet, Node.long, others.2], rfl⟩

/-- A variable of a new scope is a variable of its scan. -/
theorem opened_values (scan : OpId) (dataset : String) (vars : List Var) (schema : Plan.Schema)
    {v : Var} {meaning : Meaning}
    (found : (Scope.opened scan dataset vars schema).live.values.find? v = some meaning) :
    ∃ i w, vars[i]? = some w ∧ w.id = v.id ∧ meaning = scanMeaning i := by
  have kept : ∀ (entries : List (Var × Nat)) (m : VarMap Meaning),
      (∀ entry ∈ entries, vars[entry.2]? = some entry.1) →
      (∀ v meaning, m.find? v = some meaning →
        ∃ i w, vars[i]? = some w ∧ w.id = v.id ∧ meaning = scanMeaning i) →
      ∀ v meaning, (entries.foldl (fun m entry => m.insert entry.1 (scanMeaning entry.2)) m).find?
        v = some meaning → ∃ i w, vars[i]? = some w ∧ w.id = v.id ∧ meaning = scanMeaning i := by
    intro entries
    induction entries with
    | nil => exact fun _ _ isMeaning => isMeaning
    | cons entry rest ih =>
      refine fun m placed isMeaning => ih _ (List.forall_mem_cons.mp placed).2 fun v meaning found => ?_
      rw [VarMap.find?_insert] at found
      split at found
      · next same => exact ⟨entry.2, entry.1, placed entry (.head _), same.symm, (Option.some.inj found).symm⟩
      · exact isMeaning v meaning found
  exact kept vars.zipIdx {} (fun _ => List.mem_zipIdx_iff_getElem?.mp) nofun v meaning found

theorem opened_sane {S : Terms} (scan : OpId) (dataset : String) (vars : List Var)
    (schema : Plan.Schema) (hidden : S.strict → ∀ v ∈ vars.tail, S.hides v.id) :
    (Scope.opened scan dataset vars schema).Sane S where
  rooted := opened_rooted
  memo := nofun
  quiet := by
    intro v node readers found
    obtain ⟨i, w, isVar, sameId, same⟩ := opened_values scan dataset vars schema found
    obtain ⟨quiet, silent⟩ := isQuiet_scanMeaning same.symm
    refine ⟨quiet, silent, fun strict shown => ?_⟩
    cases i with
    | zero =>
      injection same with isNode
      rw [isNode]
      decide
    | succ i =>
      rw [← List.getElem?_tail] at isVar
      exact absurd (sameId ▸ hidden strict w (List.mem_of_getElem? isVar)) shown

/-! ## Emitted operators -/

/-- A nested plan can be compiled if something holds. -/
structure Nests (S : Terms) (ok : Prop) (plan : Plan) (rank : OpId → Nat) (top : Option OpId) :
    Prop where
  sturdy : ok → plan.Sturdy rank
  fits : plan.Fits S ok
  inside : ok → ∀ id ∈ top, id < plan.ops.size

/-- Whether a nested plan has a tuple, as the meaning of a variable. -/
def emitExists (plan : Plan) (op : OpId) (top : Option OpId) (out : Var) : Emit Bool := do
  match ← nestedChain? plan op top with
  | none => pure false
  | some chain =>
    let flag ← existsFlag chain true
    bindMeaning out (.code (.ident flag) [])
    putOutput out
    pure true

/-- Whether a nested plan has a tuple, as a flag that replaces a count. -/
def emitCount (plan : Plan) (op : OpId) (top : Option OpId) (out : Var) : Emit Bool := do
  match ← nestedChain? plan op top with
  | none => pure false
  | some chain =>
    let flag ← existsFlag chain false
    modify fun scope =>
      { scope with live := { scope.live with flags := scope.live.flags.insert out flag } }
    pure true

/-- The steps that the compiler runs on the open scope. Their expressions fit the terms, and an
aggregator over all records is made only if the terms are not strict. -/
inductive Emits (S : Terms) (ok : Prop) : {α : Type} → Emit α → Prop
  | look : Emits S ok (get : Emit Scope)
  | count : Emits S ok countFused
  | select {cond : Expr} (fits : cond.Fits S ok) : Emits S ok (selectOn cond)
  | project (vars : List Var) : Emits S ok (projectOutput vars)
  | assign {vars : List Var} {exprs : List Expr} (lengths : ok → vars.length = exprs.length)
      (fits : ∀ e ∈ exprs, e.Fits S ok) : Emits S ok (assignLeading vars exprs)
  | unnest (v : Var) (pos : Option Var) (e : Expr) : Emits S ok (fuseUnnest v pos e)
  | aggregates {vars : List Var} {calls : List Call} (lax : ¬ S.strict)
      (lengths : ok → vars.length = calls.length) (fits : ∀ call ∈ calls, call.expr.Fits S ok) :
      Emits S ok (emitAggregates vars calls)
  | groups {keys : List Plan.Binding} {aggregate : NestedAggregate} (lax : ¬ S.strict)
      (config : Plan.Config) (topK : Option TopK) (fits : aggregate.Fits S ok)
      (fitsKeys : ∀ key ∈ keys, key.expr.Fits S ok) :
      Emits S ok (groupLocally config topK keys aggregate)
  | exists' {plan : Plan} {rank : OpId → Nat} {top : Option OpId} (nests : Nests S ok plan rank top)
      (op : OpId) (out : Var) : Emits S ok (emitExists plan op top out)
  | counted {plan : Plan} {rank : OpId → Nat} {top : Option OpId} (nests : Nests S ok plan rank top)
      (op : OpId) (out : Var) : Emits S ok (emitCount plan op top out)
  | list {plan : Plan} {rank : OpId → Nat} {top : Option OpId} {item : Expr}
      (nests : Nests S ok plan rank top) (fits : item.Fits S ok) (op : OpId) (out : Var) :
      Emits S ok (fuseList plan op top item out)

section emitted

variable {α : Type} {S : Terms} {ok : Prop} {scope : Scope}

/-- The flag of a nested plan, and what is done with it. -/
theorem makesAt_onFlag {may : Nat → Prop} {plan : Plan} {rank : OpId → Nat} {top : Option OpId}
    {last : String → Emit Bool} (nests : Nests S ok plan rank top) (op : OpId) (leaves : Bool)
    (sane : scope.Sane S) (apart : S.strict → scope.Apart)
    (each : ∀ flag later, later.Knows flag → MakesAt S ok may (last flag) later Anything) :
    MakesAt S ok may (do
      match ← nestedChain? plan op top with
      | none => pure false
      | some chain => existsFlag chain leaves >>= last) scope Anything := by
  refine .asked (works_nestedChain? nests.sturdy nests.fits op nests.inside) fun found fits => ?_
  cases found with
  | none => exact MakesAt.pure trivial
  | some chain => exact MakesAt.naming (makesAt_existsFlag (fits chain rfl) leaves sane apart) each

/-- Code is made in the ways of a trace. -/
theorem Emits.builds {step : Emit α} (emits : Emits S ok step) (sane : scope.Sane S)
    (apart : S.strict → scope.Apart) : BuildsAt S ok step scope Anything := by
  have made {holds : α → Scope → Prop} (makes : MakesAt S ok (fun _ => False) step scope holds) :
      BuildsAt S ok step scope Anything := makes.anything.builds
  cases emits with
  | look => exact .get BuildsAt.pure
  | count => exact made (codesAt_countFused scope).makes
  | select fits => exact made (makesAt_selectOn fits sane)
  | project vars => exact made (makesAt_projectOutput vars scope)
  | assign lengths fits => exact made (makesAt_assignLeading _ _ lengths fits scope sane)
  | unnest v pos e => exact made (makesAt_fuseUnnest v pos e sane)
  | aggregates lax lengths fits => exact buildsAt_aggregateAll lax lengths fits sane
  | groups lax config topK fits fitsKeys => exact buildsAt_groupLocally fits fitsKeys lax config topK sane
  | exists' nests op out =>
    exact made (makesAt_onFlag nests op true sane apart fun _ _ known =>
      (makesAt_bindMeaning out (.ident known)).then fun _ later => (makesAt_putOutput out later).returns)
  | counted nests op out =>
    exact made (makesAt_onFlag nests op false sane apart fun _ _ known =>
      (makesAt_keepFlag out known).returns)
  | list nests fits op out =>
    exact made (makesAt_fuseList nests.sturdy nests.fits op nests.inside fits out sane apart)

theorem Emits.trace {step : Emit α} {a : α} {later : Scope} (emits : Emits S ok step)
    (sane : scope.Sane S) (apart : S.strict → scope.Apart) (done : step scope = .ok (a, later)) :
    Builds S scope later := ((emits.builds sane apart).yields a later done).1

/-- In a strict function the rows are written where the code stands, and have no hidden variables. -/
def Scope.OwnRows (S : Terms) (scope : Scope) : Prop :=
  S.strict → (∀ v ∈ scope.outputs, ¬ S.hides v.id) ∧ scope.emitters = []

theorem buildsAt_writeRows (sane : scope.Sane S) (rows : scope.OwnRows S) :
    BuildsAt S ok writeRows scope fun _ done => done.outputs = scope.outputs := by
  refine .get ?_
  split
  · have values : ∀ (vars : List Var), (S.strict → ∀ v ∈ vars, ¬ S.hides v.id) → ∀ scope : Scope,
        scope.Sane S → CodesAt S ok (fun _ => False) (vars.mapM inlineValueOf) scope fun ns later =>
          later.ReadsAll S ns := by
      intro vars
      induction vars with
      | nil => exact fun _ _ _ => .pure readsAll_nil
      | cons v rest ih =>
        intro clear scope sane
        rw [List.mapM_cons]
        refine .bind (codesAt_inlineValueOf v (clear · v (.head _)) sane)
          fun first later codes reads => ?_
        refine .bind (ih (fun strict => (List.forall_mem_cons.mp (clear strict)).2) later
          (codes.sane sane)) fun others last more readsAll => ?_
        exact .pure (.cons (more.reads reads) readsAll)
    have writes : CodesAt S ok (fun _ => False) (do
        let values ← scope.outputs.mapM inlineValueOf
        emit (.member (.ident Function.sink) Code.Member.append values)) scope Anything :=
      .bind (values _ (fun strict => (rows strict).1) scope sane) fun _ _ _ reads =>
        codesAt_emit (.expr (Scope.ReadsAll.member (reads_ident (.param .sink)) (by decide) (by decide)
          (by decide) (by decide) reads))
    exact .mono writes fun _ _ ⟨codes, _⟩ => ⟨.make (.code codes), codes.outputs⟩
  · next some =>
    have lax (strict : S.strict) : False := some (by rw [(rows strict).2]; rfl)
    have emits : ∀ (aggregators : List String) (later : Scope), later.fn.body = scope.fn.body →
        BuildsAt S ok (aggregators.forM fun aggregator => changeArena (·.appendHead scope.fn.body
          (.member (.ident aggregator) Code.Member.emit [.ident Function.sink]))) later
            fun _ done => done.outputs = later.outputs := by
      intro aggregators
      induction aggregators with
      | nil => exact fun later _ => Works.pure ⟨.make (.code (.refl later)), rfl⟩
      | cons aggregator rest ih =>
        intro later same
        refine Works.bind (Works.changeArena (fun given => ?_) fun arena done => ?_)
        · rw [← same]
          exact Code.Arena.update_ok _ _ given.2.body.1 given.2.body.2
        rw [← same] at done
        have emitted : Builds S later (later.withArena arena) := .atBody lax (by
          simp [Node.isQuiet, Node.areQuiet]
          decide) rfl done
        exact .mono (.given (ih (later.withArena arena) same)
          (And.imp_right emitted.intact)) fun _ _ ⟨more, held⟩ => ⟨emitted.trans more, held⟩
    exact emits _ scope rfl

theorem builds_writeRows {done : Scope} (sane : scope.Sane S) (rows : scope.OwnRows S)
    (wrote : writeRows scope = .ok ((), done)) : Builds S scope done :=
  ((buildsAt_writeRows sane rows : BuildsAt S True _ _ _).yields () done wrote).1

theorem later_appendTail {n : Node} {arena : Code.Arena}
    (done : scope.fn.arena.appendTail scope.fn.body n = .ok arena) : scope.Later (scope.withArena arena) :=
  have updates := Code.Arena.appendTail_updates done
  .of_arena updates.extends' (fun _ same rooted => same ▸ rooted.body) updates.nothing_added
    (Code.Arena.update_named le_rfl done fun _ => rfl)

theorem works_writeOutput (sane : scope.Sane S) (rows : scope.OwnRows S) :
    Works S (scope.Intact S) writeOutput scope
      fun _ last => last.scan = scope.scan ∧ last.outputs = scope.outputs ∧ last.Sane S ∧
        (scope.Intact S → last.Intact S) := by
  have works : Works S (scope.Intact S) (do
      writeRows
      changeArena (·.appendTail scope.fn.body flushSink)) scope fun _ last =>
        last.scan = scope.scan ∧ last.outputs = scope.outputs ∧ last.Sane S ∧
          (scope.Intact S → last.Intact S) := by
    refine .bind (.mono (.given (buildsAt_writeRows sane rows) fun intact =>
      ⟨True.intro, intact⟩) ?_)
    rintro _ done ⟨builds, outputs⟩
    obtain ⟨later, sane'⟩ := builds.kept sane
    rw [← later.body]
    refine .changeArena (fun intact => ?_) fun arena isArena =>
      ⟨later.scan, outputs, sane'.kept (later_appendTail isArena) rfl rfl, fun intact => ?_⟩
    · have body := (builds.intact intact).body
      exact Code.Arena.update_ok _ _ body.1 body.2
    · have intact := builds.intact intact
      exact intact.withArena (fits_appendTail intact.fits rfl rfl isArena)
        (Code.Arena.update_eq_ok isArena).2.2.1.ge
  refine ⟨fun answer last wrote => works.yields answer last ?_, fun intact abort failed =>
    works.ends intact abort ?_⟩ <;> rwa [← writeOutput_eq]

theorem writeOutput_scan {last : Scope} (sane : scope.Sane {})
    (output : writeOutput scope = .ok ((), last)) : last.scan = scope.scan :=
  ((works_writeOutput sane nofun).yields () last output).1

theorem writeOutput_outputs {last : Scope} (sane : scope.Sane {})
    (output : writeOutput scope = .ok ((), last)) : last.outputs = scope.outputs :=
  ((works_writeOutput sane nofun).yields () last output).2.1

end emitted

/-! ## Invariants -/

/-- What is asked of an invariant beside that it is kept: that aggregators over all records are made
only together with what tells of them, or that no step faults. -/
inductive Mode where
  | plain
  | strict
  | sure

/-- What an invariant can rely on: the operators that may be edited, what is known of an operator of the
draft, and where no step faults, the plan at the start and how deep its operators are. -/
structure Rules where
  mode : Mode := .plain
  editable : OpId → Prop := fun _ => True
  known : OpId → Body → Prop := fun _ _ => True
  plan : Plan := {}
  rank : OpId → Nat := fun _ => 0

/-- A step on the open scope that the compiler runs over a plan, under all terms that it fits. -/
def Rules.Emits {α : Type} (R : Rules) (plan : Plan) (step : Emit α) : Prop :=
  ∀ {S : Terms} {ok : Prop}, (S.strict → R.mode = .strict) → (ok → R.mode = .sure) →
    plan.Fits S ok → Fusion.Emits S ok step

/-- Over any plan, code is made in the ways of a trace. -/
theorem Rules.Emits.traces {α : Type} {R : Rules} {plan : Plan} {step : Emit α} {scope later : Scope}
    {a : α} (emits : R.Emits plan step) (sane : scope.Sane {}) (done : step scope = .ok (a, later)) :
    Builds {} scope later :=
  have emits : Fusion.Emits {} False step := emits nofun nofun fun _ _ _ => .any
  emits.trace sane nofun done

/-- What rules faults out: the draft is a sturdy edit of the plan, and no scope is nested. -/
structure Rules.Sure (R : Rules) (holds : State → Prop) : Prop where
  inside : ∀ id, R.editable id → id < R.plan.ops.size
  edited : ∀ st, holds st → R.plan.Edited st.draft.plan
  sturdy : ∀ st, holds st → st.draft.plan.Sturdy R.rank
  saved : ∀ st scope, holds st → st.scope = some scope → scope.saved = []

/-- A property holds after a group-by was tried in the open scope, and noted if it was fused. -/
structure Grouped (holds : State → Prop) (st : State) (keys : Nat) (answer : Option Grouping)
    (later : Scope) : Prop where
  refused : answer = none → holds { st with scope := some later }
  noted : ∀ grouping, answer = some grouping →
    holds { st with scope := some later, notes := st.notes ++ [.grouped later.dataset grouping keys] }

/-- A property of the state that every way of changing it keeps, under rules. In strict mode, what
makes an aggregator is taken together with the edit or the note that tells of it. -/
structure Invariant (s : Setting) (R : Rules) (holds : State → Prop)
    (lost : Abort → State → Prop := fun _ => holds) : Prop where
  sure : R.mode = .sure → R.Sure holds
  loses : ∀ st abort, holds st → (R.mode = .sure → abort.Reported (some ())) → lost abort st
  knows : ∀ st id o, holds st → st.draft.plan.ops[id]? = some o → R.known id o.body
  same : ∀ st st', st'.draft = st.draft → st'.scope = st.scope → st'.functions = st.functions →
    st.notes ⊆ st'.notes → holds st → holds st'
  emits : ∀ {α : Type} {step : Emit α} {st scope a later}, R.Emits st.draft.plan step → holds st →
    st.scope = some scope → step scope = .ok (a, later) → holds { st with scope := some later }
  fails : ∀ {α : Type} {step : Emit α} {st scope abort}, R.Emits st.draft.plan step → holds st →
    st.scope = some scope → step scope = .error abort → lost abort st
  aggregates : R.mode = .strict → ∀ {op consumer vars calls isGlobal st scope later},
    R.known op (.aggregate vars calls isGlobal) → holds st → st.scope = some scope →
    emitAggregates vars calls scope = .ok ((), later) →
    EndsIn holds (onDraft .removal (Plan.remove op (some consumer)))
      { st with scope := some later } lost
  groups : R.mode = .strict → ∀ {config topK} {keys : List Plan.Binding} {aggregate st scope answer later},
    (∀ S, st.draft.plan.Fits S False →
      (∀ key ∈ keys, key.expr.Fits S False) ∧ aggregate.Fits S False) → holds st →
    st.scope = some scope → groupLocally config topK keys aggregate scope = .ok (answer, later) →
    Grouped holds st keys.length answer later
  removes : ∀ op consumer, R.editable op → R.editable consumer →
    Keeps holds (onDraft .removal (Plan.remove op (some consumer))) lost
  unbinds : ∀ op i st, holds st → (R.mode = .sure → st.draft.plan.Bindings op (i + 1)) →
    EndsIn (fun later => holds later ∧ (R.mode = .sure → later.draft.plan.Bindings op i))
      (onDraft .removal (Plan.removeBinding op i)) st lost
  drops : ∀ st, holds st → holds { st with scope := none }
  completes : ∀ st scope, holds st → st.scope = some scope →
    EndsIn holds (finalize s scope) { st with scope := none } lost
  opens : ∀ scan dataset vars function outputs schema st, R.editable scan →
    R.known scan (.scan dataset vars function outputs) → s.schemas.lookup scan = some schema →
    holds st → holds { st with scope := some (.opened scan dataset vars schema) }
  below : ∀ st op o, holds st → R.editable op → st.draft.plan.ops[op]? = some o →
    ∀ input ∈ o.inputs, R.editable input

/-- The aggregate of a nested plan fits as the plan does. -/
theorem fits_nestedAggregate? {S : Terms} {ok : Prop} {plan : Plan} (fits : plan.Fits S ok)
    {nested : Option OpId} {aggregate : NestedAggregate}
    (found : nestedAggregate? plan nested = some aggregate) : aggregate.Fits S ok := by
  obtain ⟨top, _, found⟩ := Option.bind_eq_some_iff.mp found
  obtain ⟨op, foundTop, found⟩ := Option.bind_eq_some_iff.mp found
  have fits := fits top op foundTop
  split at found
  · next isAggregate =>
    cases found
    rw [isAggregate] at fits
    exact ⟨fun isOk => (fits.taken isOk).proper.aligned.1, fun call member =>
      fits.exprs call.expr (List.mem_map_of_mem member)⟩
  · cases found

theorem nestedAggregate?_inside {plan : Plan} (made : plan.WellMade) {nested : Option OpId}
    {aggregate : NestedAggregate} (found : nestedAggregate? plan nested = some aggregate) :
    ∀ id ∈ aggregate.input, id < plan.ops.size := by
  obtain ⟨top, _, found⟩ := Option.bind_eq_some_iff.mp found
  obtain ⟨op, foundTop, found⟩ := Option.bind_eq_some_iff.mp found
  split at found
  · cases found
    exact fun input isInput => made.found top input (Plan.below_of_input? foundTop isInput)
  · cases found

/-- What the operators below one evaluate can be collected. -/
theorem exists_ok_below {α : Type} {plan : Plan} {rank : OpId → Nat} {id : OpId}
    (sturdy : plan.Sturdy rank) (inside : id < plan.ops.size) (collect : List Operator → α) :
    ∃ a, (do
      let ids ← plan.walk id
      let ops ← ids.mapM plan.get
      pure (collect ops) : Except Fault α) = .ok a := by
  obtain ⟨ids, walked, each⟩ := sturdy.walk inside
  refine Except.exists_ok_bind ⟨ids, walked⟩ fun ids' walked' => ?_
  cases walked.symm.trans walked'
  exact Except.exists_ok_bind (sturdy.mapM_get each) fun _ _ => ⟨_, rfl⟩

theorem exists_ok_nestedExprs {plan : Plan} {rank : OpId → Nat} {id : OpId}
    (sturdy : plan.Sturdy rank) {op : Operator} (found : plan.ops[id]? = some op) :
    ∃ exprs, nestedExprs plan op.body = .ok exprs := by
  refine Except.exists_ok_bind (Except.exists_ok_mapM _ fun root member => ?_) fun _ _ => ⟨_, rfl⟩
  exact exists_ok_below sturdy
    (sturdy.made.found id root ⟨op, found, List.mem_append_right _ member⟩) _

theorem exists_ok_input? {plan : Plan} {rank : OpId → Nat} {id : OpId} (sturdy : plan.Sturdy rank)
    (inside : id < plan.ops.size) : ∃ answer, plan.input? id = .ok answer := by
  obtain ⟨o, fetched, found, _⟩ := sturdy.get inside
  refine Except.exists_ok_bind ⟨o, fetched⟩ fun o' fetched' => ?_
  cases fetched.symm.trans fetched'
  split
  · next input isInput =>
    obtain ⟨i, fetchedInput, _⟩ := sturdy.get (sturdy.made.found id input
      (Plan.below_of_input? found isInput))
    exact Except.exists_ok_bind ⟨i, fetchedInput⟩ fun _ _ => ⟨_, rfl⟩
  · exact ⟨_, rfl⟩

theorem of_input? {plan : Plan} {id input : OpId} {i : Operator}
    (asked : plan.input? id = .ok (some (input, i))) :
    ∃ o, plan.ops[id]? = some o ∧ input ∈ o.inputs := by
  obtain ⟨o, fetched, asked⟩ := Except.bind_eq_ok.mp asked
  split at asked
  · next input' isInput =>
    obtain ⟨_, _, same⟩ := Except.bind_eq_ok.mp asked
    cases same
    refine ⟨o, Plan.get_eq_ok.mp fetched, ?_⟩
    unfold Operator.input? at isInput
    split at isInput
    · next inputs => exact inputs ▸ Option.some.inj isInput ▸ .head _
    · cases isInput
  · cases asked

/-- No more bindings are fused than there are. -/
theorem assignLeading_few : ∀ {vars : List Var} {exprs : List Expr} {scope later : Scope} {count : Nat},
    assignLeading vars exprs scope = .ok (count, later) → count ≤ vars.length := by
  intro vars
  induction vars with
  | nil =>
    rintro exprs scope later count ⟨⟩
    exact le_rfl
  | cons v vars ih =>
    intro exprs scope later count done
    cases exprs with
    | nil => cases done
    | cons e exprs =>
      unfold assignLeading at done
      split at done
      · obtain ⟨⟨_, first⟩, _, done⟩ := Except.bind_eq_ok.mp done
        obtain ⟨⟨n, second⟩, rest, done⟩ := Except.bind_eq_ok.mp done
        cases done
        exact Nat.succ_le_succ (ih rest)
      · cases done
        exact Nat.zero_le _

/-- A property of a state with an open scope. -/
def Opened (holds : State → Prop) (st : State) : Prop := holds st ∧ ∃ scope, st.scope = some scope

/-- The scope stays as it is while the draft is edited. -/
theorem Opened.drafting {α : Type} {holds : State → Prop} {lost : Abort → State → Prop} {st : State}
    {wrap : Plan.PlanError → FuseError} {step : Plan.Drafting α}
    (ends : EndsIn holds (onDraft wrap step) st lost) (isOpen : ∃ scope, st.scope = some scope) :
    EndsIn (Opened holds) (onDraft wrap step) st lost := by
  unfold EndsIn onDraft at *
  cases ran : step st.draft with
  | ok a draft =>
    rw [ran] at ends
    exact ⟨ends, isOpen⟩
  | error failure draft =>
    rw [ran] at ends
    cases failure <;> exact ends

namespace Invariant

variable {α β : Type} {s : Setting} {R : Rules} {holds post : State → Prop}
variable {lost : Abort → State → Prop} {op parent : OpId} {st : State}
variable {next : α → Fuse β} {step : Emit α} {change : State → State} {id : OpId} {vars : List Var}
variable {o : Operator} {isGlobal : Bool}

theorem get {next : State → Fuse β} (keeps : ∀ st, Keeps holds (next st) lost) :
    Keeps holds (MonadState.get >>= next) lost := fun st held => keeps st st held

/-- Looking at the state. -/
theorem endsIn_get {next : State → Fuse β} (ends : EndsIn post (next st) st lost) :
    EndsIn post (MonadState.get >>= next) st lost := ends

theorem endsIn_orFault {step : Except Fault α}
    (fails : ∀ fault, step = .error fault → lost (.fault fault) st)
    (each : ∀ a, step = .ok a → EndsIn post (next a) st lost) :
    EndsIn post (orFault step >>= next) st lost := by
  cases step with
  | ok a => exact each a rfl
  | error fault => exact fails fault rfl

theorem endsIn_modify {next : PUnit → Fuse β} (ends : EndsIn post (next ⟨⟩) (change st) lost) :
    EndsIn post (modify change >>= next) st lost := ends

theorem endsIn_step {scope : Scope} (isOpen : st.scope = some scope)
    (fails : ∀ abort, step scope = .error abort → lost abort st)
    (each : ∀ a later, step scope = .ok (a, later) →
      EndsIn post (next a) { st with scope := some later } lost) :
    EndsIn post (Fusion.onScope step >>= next) st lost := by
  unfold Fusion.onScope
  rw [bind_assoc]
  apply endsIn_get
  rw [isOpen]
  dsimp only
  cases done : step scope with
  | error abort => exact fails abort done
  | ok answer => exact each answer.1 answer.2 done

section

variable (invariant : Invariant s R holds lost)

include invariant

theorem note (n : Note) : Keeps holds (Fusion.note n) lost := fun st held =>
  invariant.same st _ rfl rfl rfl (List.subset_append_left _ _) held

/-- What cannot fault where faults are ruled out. -/
theorem endsIn_sure {step : Except Fault α} (held : holds st)
    (succeeds : R.mode = .sure → ∃ a, step = .ok a)
    (each : ∀ a, step = .ok a → EndsIn post (next a) st lost) :
    EndsIn post (orFault step >>= next) st lost := by
  refine endsIn_orFault (fun fault failed => invariant.loses st _ held fun sure => ?_) each
  obtain ⟨a, done⟩ := succeeds sure
  cases failed.symm.trans done

theorem inside (sure : R.mode = .sure) (held : holds st) (isEditable : R.editable id) :
    id < st.draft.plan.ops.size :=
  ((invariant.sure sure).edited st held).size ▸ (invariant.sure sure).inside id isEditable

theorem endsIn_operator {next : Operator → Fuse β} (held : holds st) (isEditable : R.editable id)
    (each : ∀ op, st.draft.plan.ops[id]? = some op → EndsIn post (next op) st lost) :
    EndsIn post (Fusion.operator id >>= next) st lost := by
  unfold Fusion.operator
  rw [bind_assoc]
  refine endsIn_get (invariant.endsIn_sure held (fun sure => ?_) fun op found =>
    each op (Plan.get_eq_ok.mp found))
  exact ⟨_, Plan.get_eq_ok.mpr (Array.getElem?_eq_getElem (invariant.inside sure held isEditable))⟩

theorem endsIn_onScope (opened : Opened holds st) (emits : R.Emits st.draft.plan step)
    (each : ∀ scope a later, step scope = .ok (a, later) →
      Opened holds { st with scope := some later } →
      EndsIn post (next a) { st with scope := some later } lost) :
    EndsIn post (Fusion.onScope step >>= next) st lost := by
  obtain ⟨held, scope, isOpen⟩ := opened
  exact endsIn_step isOpen (fun _ => invariant.fails emits held isOpen) fun a later done =>
    each scope a later done ⟨invariant.emits emits held isOpen done, later, rfl⟩

/-- A step on the open scope that ends there. -/
theorem onScope (emits : R.Emits st.draft.plan step) (opened : Opened holds st) :
    EndsIn (Opened holds) (Fusion.onScope step) st lost := by
  rw [← bind_pure (Fusion.onScope step)]
  exact invariant.endsIn_onScope opened emits fun _ _ _ _ opened => opened

theorem closeScope (reason : ClosingReason) : Keeps holds (Fusion.closeScope s reason) lost := by
  intro st held
  apply endsIn_get
  cases isOpen : st.scope with
  | none => exact held
  | some scope =>
    have dropped := invariant.drops st held
    apply endsIn_modify
    split
    · next isNested =>
      refine invariant.loses _ _ dropped fun sure => ?_
      rw [Scope.isNested, (invariant.sure sure).saved st scope held isOpen] at isNested
      cases isNested
    · split
      · next cause escapes =>
        refine invariant.loses _ _ dropped fun _ => ?_
        unfold checkEscapes at escapes
        split at escapes <;> cases escapes
        exact nofun
      · split
        · exact invariant.note _ _ dropped
        · exact .bind (invariant.completes st scope held isOpen) fun _ => invariant.note _

theorem openScope {scan : OpId} {dataset : String} {outputs : List Var} {function : String}
    (isEditable : R.editable scan) (known : R.known scan (.scan dataset vars function outputs)) :
    Keeps holds (Fusion.openScope s scan dataset vars function) lost := by
  refine .bind (invariant.closeScope _) fun _ => ?_
  split
  · exact .pure _
  · split
    · exact invariant.note _
    · split
      · exact invariant.note _
      · split
        · exact invariant.note _
        · next schema isSchema =>
          intro st held
          exact invariant.note _ _ (invariant.opens scan dataset vars function outputs schema st
            isEditable known isSchema held)

theorem removeOp (isEditable : R.editable op) (isEditable' : R.editable parent) :
    Keeps (Opened holds) (Fusion.removeOp op parent) lost := fun st opened =>
  .bind (Opened.drafting (invariant.removes op parent isEditable isEditable' st opened.1) opened.2)
    fun _ _ => invariant.onScope fun _ _ _ => .count

/-- The order below an operator may be edited. -/
theorem endsIn_orderBelow? {next : Option OpId → Fuse β} (held : holds st)
    (isEditable : R.editable op) (each : ∀ order?, (∀ id ∈ order?, R.editable id) →
      EndsIn post (next order?) st lost) :
    EndsIn post (Fusion.orderBelow? op >>= next) st lost := by
  unfold Fusion.orderBelow?
  simp only [bind_assoc]
  refine endsIn_get (invariant.endsIn_sure held (fun sure => exists_ok_input?
    ((invariant.sure sure).sturdy st held) (invariant.inside sure held isEditable)) fun answer asked => ?_)
  split
  · refine each (some _) fun id isInput => Option.some.inj isInput ▸ ?_
    obtain ⟨o, found, member⟩ := of_input? asked
    exact invariant.below st op o held isEditable found _ member
  · exact each none nofun

theorem fuseAggregate (opened : Opened holds st) (isEditable : R.editable op)
    (isEditable' : R.editable parent) (found : st.draft.plan.ops[op]? = some o) {calls : List Call}
    (isBody : o.body = .aggregate vars calls isGlobal) :
    EndsIn holds (Fusion.fuseAggregate s op parent vars calls) st lost := by
  unfold Fusion.fuseAggregate
  split
  · exact invariant.closeScope _ st opened.1
  · by_cases strict : R.mode = .strict
    · obtain ⟨held, scope, isOpen⟩ := opened
      have known := isBody ▸ invariant.knows st op o held found
      refine endsIn_step isOpen (fun _ _ => invariant.loses st _ held (by rw [strict]; nofun))
        fun _ later done => ?_
      refine .bind (Opened.drafting (invariant.aggregates strict known held isOpen done) ⟨later, rfl⟩)
        fun _ _ opened => (invariant.onScope (fun _ _ _ => .count) opened).mono fun _ => And.left
    · refine invariant.endsIn_onScope opened (fun lax _ fits => ?_) fun _ _ _ _ opened =>
        (invariant.removeOp isEditable isEditable' _ opened).mono fun _ => And.left
      have fits := isBody ▸ fits op o found
      exact .aggregates (fun isStrict => strict (lax isStrict))
        (fun isOk => (fits.taken isOk).proper.aligned.1) fun call member =>
          fits.exprs call.expr (List.mem_map_of_mem member)

theorem fuseGroupBy (opened : Opened holds st) (isEditable : R.editable op)
    (isEditable' : R.editable parent) (found : st.draft.plan.ops[op]? = some o)
    {keys : List Plan.Binding} {nested : Option OpId}
    (isBody : o.body = .groupBy keys nested isGlobal) :
    EndsIn holds (Fusion.fuseGroupBy s op parent keys nested) st lost := by
  apply endsIn_get
  split
  · exact invariant.closeScope _ st opened.1
  · next aggregate isAggregate =>
    obtain ⟨held, scope, isOpen⟩ := opened
    have fits {ok : Prop} (S : Terms) (fits : st.draft.plan.Fits S ok) :
        (∀ key ∈ keys, key.expr.Fits S ok) ∧ aggregate.Fits S ok :=
      ⟨fun key member => (isBody ▸ fits op o found).exprs key.expr (List.mem_map_of_mem member),
        fits_nestedAggregate? fits (Option.filter_eq_some_iff.mp isAggregate).1⟩
    have emits (notStrict : R.mode ≠ .strict) :
        R.Emits st.draft.plan (groupLocally s.config st.topK keys aggregate) := fun lax _ planFits =>
      .groups (fun isStrict => notStrict (lax isStrict)) _ _ (fits _ planFits).2 (fits _ planFits).1
    refine endsIn_step isOpen (fun abort failed => ?_) fun answer later done => ?_
    · by_cases strict : R.mode = .strict
      · exact invariant.loses st _ held (by rw [strict]; nofun)
      · exact invariant.fails (emits strict) held isOpen failed
    have grouped : Grouped holds st keys.length answer later := by
      by_cases strict : R.mode = .strict
      · exact invariant.groups strict fits held isOpen done
      · have held := invariant.emits (emits strict) held isOpen done
        exact ⟨fun _ => held, fun _ _ => invariant.note _ _ held⟩
    cases answer with
    | none => exact invariant.closeScope _ _ (grouped.refused rfl)
    | some grouping =>
      have ends {now : State} (opened : Opened holds now) : EndsIn holds (do
          Fusion.removeOp op parent
          Fusion.closeScope s .groupByOutput : Fuse Unit) now lost :=
        .bind (invariant.removeOp isEditable isEditable' _ opened) fun _ st opened =>
          invariant.closeScope _ st opened.1
      have held := grouped.noted grouping rfl
      refine invariant.endsIn_orderBelow? held isEditable fun order? below => ?_
      split
      · split
        · exact .bind (invariant.removeOp (below _ rfl) isEditable _ ⟨held, later, rfl⟩) fun _ _ => ends
        · exact ends ⟨held, later, rfl⟩
      · exact ends ⟨held, later, rfl⟩

theorem fuseSubplan (opened : Opened holds st) (body : Body) (nested : Option OpId) :
    EndsIn (Opened holds) (Fusion.fuseSubplan s op body nested) st lost := by
  apply endsIn_get
  dsimp only
  split
  · next out call top isAggregate =>
    have nests {S : Terms} {ok : Prop} (sure : ok → R.mode = .sure) (fits : st.draft.plan.Fits S ok) :
        Nests S ok st.draft.plan R.rank top := by
      have sturdy (isOk : ok) := (invariant.sure (sure isOk)).sturdy st opened.1
      exact ⟨sturdy, fits, fun isOk => nestedAggregate?_inside (sturdy isOk).made isAggregate⟩
    split
    · exact invariant.onScope (fun _ sure fits => .exists' (nests sure fits) ..) opened
    · split
      · exact invariant.onScope (fun _ sure fits => .counted (nests sure fits) ..) opened
      · split
        · next isList isArgs =>
          split
          · exact opened
          · refine invariant.onScope (fun _ sure fits => .list (nests sure fits) ?_ ..) opened
            exact ((fits_nestedAggregate? fits isAggregate).calls call (.head _)).args
              (fun _ same => by cases isList.symm.trans same) _ (by simp [isArgs])
        · exact opened
  · exact opened

theorem removeBindings : ∀ (count : Nat) {st : State}, Opened holds st →
    (R.mode = .sure → st.draft.plan.Bindings op count) → EndsIn (Opened holds)
      ((List.range count).reverse.forM fun i => onDraft .removal (Plan.removeBinding op i)) st lost
  | 0, _, opened, _ => opened
  | count + 1, st, opened, bindings => by
    rw [List.range_succ, List.reverse_append]
    exact .bind (Opened.drafting (invariant.unbinds op count st opened.1 bindings) opened.2)
      fun _ _ ⟨⟨held, bindings⟩, isOpen⟩ => removeBindings count ⟨held, isOpen⟩ bindings

theorem fuseAssign (opened : Opened holds st) (isEditable : R.editable op)
    (isEditable' : R.editable parent) (found : st.draft.plan.ops[op]? = some o) {exprs : List Expr}
    (isBody : o.body = .assign vars exprs) :
    EndsIn holds (Fusion.fuseAssign s op parent vars exprs) st lost := by
  refine invariant.endsIn_onScope opened (fun _ _ fits => ?_) fun _ count later done opened => ?_
  · have fits := isBody ▸ fits op o found
    exact .assign (fun isOk => (fits.taken isOk).proper.aligned) fits.exprs
  refine .bind (invariant.removeBindings count opened fun _ =>
    ⟨o, vars, exprs, found, isBody, assignLeading_few done⟩) fun _ st opened => ?_
  split
  · exact (invariant.removeOp isEditable isEditable' st opened).mono fun _ => And.left
  · split
    · exact invariant.endsIn_onScope opened (fun _ _ _ => .count) fun _ _ _ _ opened =>
        invariant.closeScope _ _ opened.1
    · exact invariant.closeScope _ st opened.1

theorem fuseOp (opened : Opened holds st) (isEditable : R.editable op)
    (isEditable' : R.editable parent) (found : st.draft.plan.ops[op]? = some o) (p : Operator) :
    EndsIn holds (Fusion.fuseOp s op o parent p) st lost := by
  have taken {st : State} (opened : Opened holds st) : EndsIn holds (Fusion.removeOp op parent) st lost :=
    (invariant.removeOp isEditable isEditable' st opened).mono fun _ => And.left
  have text {e : Expr} (member : e ∈ o.body.exprs) (sure : R.mode = .sure) : ∃ t, e.text = .ok t :=
    ((((invariant.sure sure).sturdy st opened.1).proper op o found).whole e member).text
  unfold Fusion.fuseOp
  split
  · next isBody =>
    unfold fuseSelect
    split
    · exact invariant.endsIn_onScope opened (fun _ _ fits =>
        .select ((isBody ▸ fits op o found).exprs _ (.head _))) fun _ _ _ _ => taken
    · exact invariant.endsIn_sure opened.1 (text (isBody ▸ .head _)) fun _ _ =>
        invariant.closeScope _ st opened.1
  · refine invariant.endsIn_onScope opened (fun _ _ _ => .look) fun _ scope _ _ opened => ?_
    split
    · exact invariant.endsIn_onScope opened (fun _ _ _ => .project _) fun _ _ _ _ => taken
    · exact invariant.closeScope _ _ opened.1
  · next isBody => exact invariant.fuseAssign opened isEditable isEditable' found isBody
  · next isBody =>
    refine invariant.endsIn_onScope opened (fun _ _ _ => .unnest ..) fun _ fused _ _ opened => ?_
    split
    · exact taken opened
    · exact invariant.endsIn_sure opened.1 (text (isBody ▸ .head _)) fun _ _ =>
        invariant.closeScope _ _ opened.1
  · next isBody => exact invariant.fuseAggregate opened isEditable isEditable' found isBody
  · next isBody => exact invariant.fuseGroupBy opened isEditable isEditable' found isBody
  · refine .bind (invariant.fuseSubplan opened _ _) fun fused st opened => ?_
    split
    · exact taken opened
    · exact invariant.closeScope _ st opened.1
  · exact opened.1

theorem process {parent : Option OpId} (isEditable : R.editable op)
    (consumers : ∀ consumer ∈ parent, R.editable consumer) :
    Keeps holds (Fusion.process s op parent) lost := by
  refine fun st held => invariant.endsIn_operator held isEditable fun o found => ?_
  split
  · next isBody =>
    exact invariant.openScope isEditable (isBody ▸ invariant.knows st op o held found) st held
  · apply endsIn_get
    split
    · exact held
    · next scope isOpen =>
      split
      · exact held
      · split
        · exact invariant.closeScope _ st held
        · cases parent with
          | none => exact invariant.closeScope _ st held
          | some consumer =>
            simp only [Option.mapM_some, map_bind, map_pure, bind_assoc, pure_bind]
            have isEditable' := consumers consumer rfl
            refine invariant.endsIn_operator held isEditable' fun p _ => ?_
            split
            · exact invariant.closeScope _ st held
            · refine invariant.endsIn_sure held (fun sure => exists_ok_nestedExprs
                ((invariant.sure sure).sturdy st held) found) fun exprs _ => ?_
              split
              · exact invariant.closeScope _ st held
              · exact invariant.fuseOp ⟨held, scope, isOpen⟩ isEditable isEditable' found p

/-- A change of what is remembered about the walk. -/
theorem remember (same : ∀ st, change st = { st with
      visited := (change st).visited, topK := (change st).topK
      groupOrders := (change st).groupOrders }) : Keeps holds (modify change : Fuse Unit) lost := by
  intro st held
  refine invariant.same st (change st) ?_ ?_ ?_ ?_ held <;> rw [same st]
  exact List.Subset.refl _

theorem enterGroupBy (isEditable : R.editable op) (parent : Option OpId)
    (o : Operator) : Keeps holds (Fusion.enterGroupBy op parent o) lost := by
  unfold Fusion.enterGroupBy
  split
  · refine get fun st => .bind (invariant.remember fun _ => rfl) fun _ => ?_
    split
    · exact invariant.note _
    · exact .pure _
  · refine fun st held => invariant.endsIn_orderBelow? held isEditable fun order? _ => ?_
    split
    · exact invariant.remember (fun _ => rfl) st held
    · exact held
  · exact .pure _

/-- As many inputs as at the start. -/
theorem inputs_length (sure : R.mode = .sure) (held : holds st)
    (found : st.draft.plan.ops[op]? = some o) :
    o.inputs.length = (R.plan.ops[op]?.elim 0 fun first => first.inputs.length) := by
  have edited := (invariant.sure sure).edited st held
  have inside := Array.inside found
  rw [edited.size] at inside
  obtain ⟨_, found', _, length, _⟩ := edited.find op _ (Array.getElem?_eq_getElem inside)
  cases found.symm.trans found'
  rw [length, Array.getElem?_eq_getElem inside]
  rfl

theorem visit (depth : Nat) : ∀ (op : OpId) (parent : Option OpId), R.editable op →
      (∀ consumer ∈ parent, R.editable consumer) → (R.mode = .sure → R.rank op < depth) →
      Keeps holds (Fusion.visit s depth op parent) lost := by
  induction depth with
  | zero => exact fun _ _ _ _ low st held => invariant.loses st _ held fun sure =>
      absurd (low sure) (Nat.not_lt_zero _)
  | succ depth ih =>
    intro op parent isEditable consumers low st held
    refine invariant.endsIn_operator held isEditable fun o found => endsIn_get ?_
    have arity (sure : R.mode = .sure) (later : State) (current : Operator) (held' : holds later)
        (found' : later.draft.plan.ops[op]? = some current) : current.inputs.length = o.inputs.length :=
      (invariant.inputs_length sure held' found').trans (invariant.inputs_length sure held found).symm
    split
    · exact invariant.closeScope _ st held
    · refine .bind (invariant.remember (fun _ => rfl) st held) fun _ st held => endsIn_get ?_
      refine .bind (invariant.enterGroupBy isEditable parent o st held) fun _ st held => ?_
      refine .bind (Keeps.forM _ (fun i member st held => ?_) st held) fun _ => ?_
      · refine invariant.endsIn_operator held isEditable fun current found' => ?_
        split
        · next input isInput =>
          have member := List.mem_of_getElem? isInput
          refine .bind (ih input (some op) (invariant.below st op current held isEditable found' input member)
            (fun consumer same => Option.some.inj same ▸ isEditable) (fun sure => ?_) st held) fun _ => ?_
          · have := (((invariant.sure sure).sturdy st held).inputs found' input member).2
            have := low sure
            omega
          · split
            · exact invariant.closeScope _
            · exact fun _ held => held
        · next isNone =>
          refine invariant.loses st _ held fun sure => ?_
          rw [List.getElem?_eq_none_iff, arity sure st current held found'] at isNone
          exact absurd (List.mem_range.mp member) (Nat.not_lt.mpr isNone)
      · exact Keeps.bind (invariant.remember fun _ => rfl) fun _ => invariant.process isEditable consumers

/-- A whole compilation keeps an invariant. -/
theorem compileAll {root : OpId} (isEditable : R.editable root) :
    Keeps holds (Fusion.compileAll s root) lost := fun st held => by
  refine endsIn_get (.bind (invariant.visit _ root none isEditable nofun (fun sure => ?_) st held)
    fun _ => invariant.closeScope _)
  have low := ((invariant.sure sure).sturdy st held).low root (invariant.inside sure held isEditable)
  exact Nat.lt_succ_of_lt (Nat.lt_succ_of_lt low)

end

end Invariant

end QueryFusion.Fusion

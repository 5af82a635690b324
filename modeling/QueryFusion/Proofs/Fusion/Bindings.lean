import QueryFusion.Proofs.Fusion.Scalars

/-!
# Binding variables

An assign gives a variable a value. A value at a path is not evaluated: the variable stands for the
path from then on. Any other value is evaluated at once and kept in a variable of the function.
Variables that a project drops are not read again.
-/

namespace QueryFusion

/-- The expressions with a value when a variable has got one. -/
def Expr.SeenWith (v : Var) (seen : Expr → Prop) (e : Expr) : Prop :=
  seen e ∨ ∃ w : Var, e = .var w ∧ w.id = v.id

/-- The values of expressions when a variable has got one. -/
def Expr.withValue (v : Var) (x : Value) (known : Expr → Option Value) (e : Expr) : Option Value :=
  match e with
  | .var w => if w.id = v.id then some x else known (.var w)
  | e => known e

theorem Expr.domain_withValue {v : Var} {x : Value} {seen : Expr → Prop}
    {known : Expr → Option Value} (domain : ∀ e, (known e).isSome ↔ seen e) (e : Expr) :
    (withValue v x known e).isSome ↔ SeenWith v seen e := by
  have other : (∀ w : Var, e ≠ .var w) → (SeenWith v seen e ↔ seen e) := by
    intro noVar
    exact ⟨fun held => held.resolve_right fun ⟨w, same, _⟩ => noVar w same, .inl⟩
  cases e with
  | var w =>
    unfold withValue SeenWith
    dsimp only
    split
    · next same => exact ⟨fun _ => .inr ⟨w, rfl, same⟩, fun _ => rfl⟩
    · next apart =>
      rw [domain]
      refine ⟨.inl, fun held => held.resolve_right ?_⟩
      rintro ⟨w', same, sameId⟩
      cases same
      exact apart sameId
  | absent => rw [other nofun]; exact domain _
  | const c => rw [other nofun]; exact domain _
  | call fn args loc => rw [other nofun]; exact domain _

namespace Fusion

open Code
open Engine

variable {α : Type} {pre : Prop} {post : α → Scope → Flow → Machine → Prop} {value : Option Value}
variable {e : Expr}

section bindings

variable {D : Path → Prop} {final scope later : Scope} {may : Nat → Prop} {spot : Spot}
variable {m m' : Machine} {hidden : Nat → Prop} {seen : Expr → Prop} {known : Expr → Option Value}
variable {accepted : RunError → Prop} {v : Var} {meaning : Meaning}

/-- The scope in which a variable has got a meaning. -/
def Scope.binding (scope : Scope) (v : Var) (meaning : Meaning) : Scope :=
  { scope with live := { scope.live with
      values := scope.live.values.insert v meaning, memos := scope.live.memos.erase v } }

theorem InScope.bind (inScope : InScope D scope hidden seen)
    (isPath : ∀ p, meaning = .path p → D p ∧ p.arrayPrefix? = none)
    (isPlain : ∀ node readers, meaning = .code node readers → scope.Plain hidden node)
    (isFlat : ∀ p, scope.schema.varPath? v = some p → p.arrayPrefix? = none) :
    InScope D (scope.binding v meaning) hidden (Expr.SeenWith v seen) := by
  have values : ∀ w : Var, (scope.binding v meaning).live.values.find? w =
      if w.id = v.id then some meaning else scope.live.values.find? w :=
    fun w => scope.live.values.find?_insert v w meaning
  refine ⟨inScope.hides, ?_, inScope.flags, inScope.items, ?_, ?_, ?_, ?_⟩
  · rintro e (isSeen | ⟨w, isVar, _⟩)
    · exact inScope.vars e isSeen
    · exact ⟨w, isVar⟩
  · intro w isSeen
    rw [values]
    split
    · exact ⟨meaning, rfl, isPath⟩
    · next apart =>
      rcases isSeen with isSeen | ⟨w', same, sameId⟩
      · exact inScope.value w isSeen
      · cases same
        exact absurd sameId apart
  · rintro w p (isSeen | ⟨w', same, sameId⟩) found
    · exact inScope.path w p isSeen found
    · cases same
      refine isFlat p ?_
      unfold Plan.Schema.varPath? at found ⊢
      rw [← sameId]
      exact found
  · intro w memo found
    change (scope.live.memos.erase v).find? w = some memo at found
    rw [VarMap.find?_erase] at found
    split at found
    · cases found
    · exact inScope.memos w memo found
  · intro w node readers isSeen found
    rw [values] at found
    split at found
    · exact isPlain node readers (Option.some.inj found)
    · next apart =>
      rcases isSeen with isSeen | ⟨w', same, sameId⟩
      · exact inScope.plain w node readers isSeen found
      · cases same
        exact absurd sameId apart

/-- A variable has the value of what it is bound to. -/
theorem Live.bind {x : Value} (live : Live scope spot hidden seen known m)
    (isCode : ∀ node readers, meaning = .code node readers → Fixed (scope.Shows hidden) spot m node x)
    (isPath : ∀ p, meaning = .path p → x = spot.valueAt p)
    (denoted : ∀ p, scope.schema.varPath? v = some p → x = spot.valueAt p)
    (isRecord : v.id = scope.schema.record.id → x = spot.record) :
    Live (scope.binding v meaning) spot hidden (Expr.SeenWith v seen) (Expr.withValue v x known)
      m := by
  have values : ∀ w : Var, (scope.binding v meaning).live.values.find? w =
      if w.id = v.id then some meaning else scope.live.values.find? w :=
    fun w => scope.live.values.find?_insert v w meaning
  have value : ∀ w : Var, Expr.withValue v x known (.var w) =
      if w.id = v.id then some x else known (.var w) := fun _ => rfl
  refine ⟨Expr.domain_withValue live.domain, ?_, ?_, ?_, ?_, ?_⟩
  · intro w y node readers isKnown found
    rw [value] at isKnown
    rw [values] at found
    split at found
    · next same =>
      rw [if_pos same] at isKnown
      cases isKnown
      exact isCode node readers (Option.some.inj found)
    · next apart =>
      rw [if_neg apart] at isKnown
      exact live.code w y node readers isKnown found
  · intro w y p isKnown found
    rw [value] at isKnown
    rw [values] at found
    split at found
    · next same =>
      rw [if_pos same] at isKnown
      cases isKnown
      exact isPath p (Option.some.inj found)
    · next apart =>
      rw [if_neg apart] at isKnown
      exact live.path w y p isKnown found
  · intro w y p memo isKnown found isMemo isOpen
    change (scope.live.memos.erase v).find? w = some memo at isMemo
    rw [VarMap.find?_erase] at isMemo
    split at isMemo
    · cases isMemo
    · next apart =>
      rw [value, if_neg apart] at isKnown
      rw [values, if_neg apart] at found
      exact live.memo w y p memo isKnown found isMemo isOpen
  · intro w y p isKnown found
    rw [value] at isKnown
    split at isKnown
    · next same =>
      cases isKnown
      refine denoted p ?_
      unfold Plan.Schema.varPath?
      rw [← same]
      exact found
    · exact live.denoted w y p isKnown found
  · intro w y isKnown isRecord'
    rw [value] at isKnown
    split at isKnown
    · next same =>
      cases isKnown
      exact isRecord (same ▸ isRecord')
    · exact live.record w y isKnown isRecord'

/-! ## Evaluation at once -/

theorem Sim.done {a : α} {fact : α → Scope → Prop} (held : fact a scope)
    (after : scope.Completes final → Ready final scope spot m → pre → post a scope .proceed m) :
    Sim D final may spot (Pure.pure a) scope m pre fact post accepted := by
  refine Yields.pure ⟨.refl D scope, held, fun completes ready begins => ?_⟩
  rw [Scope.emitted_self]
  exact .nil ⟨ready, .refl _ m, after completes ready begins⟩

theorem Answers.of_name {answer : Except RunError Value} {name : String}
    (answers : Answers value answer) (isValue : eval (.ident name) m = ofAnswer answer m) :
    ∃ x, value = some x ∧ m.env.lookup name = some x := by
  cases found : m.env.lookup name with
  | some x =>
    rw [eval_ident found] at isValue
    cases answer with
    | ok y =>
      cases Option.some.inj isValue
      exact ⟨x, answers.same.symm, rfl⟩
    | error cause => cases isValue
  | none =>
    have undefined : eval (.ident name) m = some (.error (.error (.undefined name))) := by
      rw [eval, lookupName, get_bind_apply, found]
      rfl
    rw [undefined] at isValue
    cases answer with
    | ok y => cases isValue
    | error cause =>
      have same := Stop.error.inj (Except.error.inj (Option.some.inj isValue))
      exact absurd (answers.ofCall _ (congrArg _ same.symm)) id

theorem sim_temp {step : Emit Node} (sound : Sound D scope) (inScope : InScope D scope hidden seen)
    (computes : Computes D final spot hidden seen known step scope m value accepted)
    (tolerant : Tolerates value accepted) :
    Sim D final scope.New spot (do temp (← step)) scope m (Live scope spot hidden seen known m)
      (fun name later => Made scope later ∧ later.Plain hidden (.ident name))
      (fun name later => Onward fun m' => m.Still m' ∧ Live later spot hidden seen known m' ∧
        ∃ x, value = some x ∧ Fixed (later.Shows hidden) spot m' (.ident name) x) accepted := by
  refine .then computes sound (fun _ => id) id fun node later m' sound' _ adds made plain => ?_
  by_cases isName : ∃ name, node = .ident name
  · obtain ⟨name, rfl⟩ := isName
    refine .done ⟨made, plain⟩ ?_
    rintro completes ready ⟨_, _, _, still, carries⟩
    obtain ⟨answer, isAnswer, stable⟩ := carries.stable
    obtain ⟨x, isValue, found⟩ := isAnswer.of_name (stable.apply completes ready)
    obtain ⟨n, shown, rfl⟩ := plain name rfl
    exact ⟨rfl, still, carries.live, x, isValue, .name n x shown found⟩
  · have isDeclared : temp node = declareHere node := by
      cases node <;> first | rfl | exact absurd ⟨_, rfl⟩ isName
    rw [isDeclared]
    refine ((Sim.declareHere (fun m'' => ∃ x, value = some x ∧
      m'' = m'.put (variableName later.fn.arena.names) x) sound'
      (fun n => Nat.le_trans made.remembers.names) ?_).steps).mono id ?_ ?_ fun _ => id
    · rintro completes ready ⟨_, _, _, _, carries⟩
      obtain ⟨answer, isAnswer, stable⟩ := carries.stable
      unfold Ends
      rw [stable.apply completes ready]
      cases answer with
      | ok x => exact ⟨rfl, x, isAnswer.same.symm, rfl⟩
      | error cause =>
        obtain ⟨ofCall, isNone⟩ := isAnswer.error rfl
        exact tolerant isNone cause ofCall
    · rintro name third ⟨steps, current', rebuilt, rfl⟩
      refine ⟨made.trans ⟨current', rebuilt.sameVars.remembers steps.enters.later⟩, ?_⟩
      intro name isName
      cases isName
      refine ⟨_, ⟨?_, fun isHidden => ?_⟩, rfl⟩
      · rw [rebuilt.names]
        exact Nat.lt_succ_self _
      · exact Nat.lt_irrefl _ ((inScope.remembers made.remembers).hides _ isHidden)
    · rintro name third flow m'' ⟨_, _, _, still, carries⟩ ⟨steps, current', rebuilt, rfl⟩
        ⟨rfl, x, isValue, rfl⟩
      have adds' : later.Adds third := ⟨steps.enters.later, current'⟩
      have frame := m'.frame_put later.fn.arena.names x
      refine ⟨rfl, still.trans (m'.still_put _ x), ?_, x, isValue, .name _ x ⟨?_, fun isHidden => ?_⟩ ?_⟩
      · refine carries.live.same rebuilt.sameVars adds'.later frame ?_ ?_
        · rintro n shown rfl
          exact Nat.lt_irrefl _ shown.1
        · exact fun _ memo _ => (adds'.open_iff sound'.rooted memo.block).mp
      · rw [rebuilt.names]
        exact Nat.lt_succ_self _
      · exact Nat.lt_irrefl _ ((inScope.remembers made.remembers).hides _ isHidden)
      · rw [Machine.lookup_put, if_pos rfl]

/-- Noting readers changes nothing else. -/
theorem Sim.tracking {step : Emit α} (fact : α → Scope → Prop) (mid : α → Scope → Machine → Prop)
    (sound : Sound D scope)
    (first : ∀ start, scope.Quiet D start → scope.SameVars start → start.fn = scope.fn →
      Sound D start → Sim D final may spot step start m pre
        (fun a later => later.current = start.current ∧ fact a later)
        (fun a later => Onward (mid a later)) accepted) :
    Sim D final may spot (Fusion.tracking step) scope m pre
      (fun a later => later.current = scope.current ∧ ∃ inside, fact a.1 inside ∧
        inside.SameVars later ∧ inside.Adds later)
      (fun a later => Onward fun m' => ∃ inside, mid a.1 inside m' ∧ inside.SameVars later ∧
        inside.Adds later ∧ Sound D inside) accepted := by
  refine .get (.quietly sound (quiet_modify .of_notes) fun _ start quiet sound₁ isStart => ?_)
  have same : scope.SameVars start := by rw [isStart]; rfl
  have fn : start.fn = scope.fn := by rw [isStart]
  refine .bind (fun a later => fact a later) mid sound₁ (first start quiet same fn sound₁) ?_
  rintro a inside m' sound₂ current adds held
  refine .get (.quietly sound₂ (quiet_modify .of_notes) fun _ second quiet₂ sound₃ isSecond => ?_)
  have same₂ : inside.SameVars second := by rw [isSecond]; rfl
  have touched : Yields ((inside.touched.getD []).forM touch) second fun _ later =>
      second.Quiet D later ∧ second.SameVars later ∧ later.fn = second.fn :=
    quiet_touches _ second
  refine .quietly sound₃ touched fun _ third quiet₃ sound₄ held' => ?_
  obtain ⟨same₃, _⟩ := held'
  have whole : inside.SameVars third := same₂.trans same₃
  have adds' : inside.Adds third := quiet₂.adds.trans quiet₃.adds
  refine .pure ⟨?_, inside, held, whole, adds'⟩ ?_
  · exact adds'.current.trans (current.trans quiet.current)
  · rintro ⟨_, _, middle⟩
    exact ⟨rfl, inside, middle, whole, adds', sound₂⟩

/-! ## Assigns -/

/-- What adding some outputs leaves; nested scopes have none to add. -/
structure Scope.Puts (scope : Scope) (vars outputs : List Var) : Prop where
  subset : ∀ w ∈ outputs, w ∈ scope.outputs ∨ w ∈ vars
  nested : scope.isNested = true → outputs = scope.outputs

theorem Scope.Puts.congr {vars outputs : List Var} (puts : scope.Puts vars outputs)
    (same : later.outputs = scope.outputs) (saved : later.saved = scope.saved) :
    later.Puts vars outputs where
  subset := by
    rw [same]
    exact puts.subset
  nested := by
    unfold Scope.isNested
    rw [same, saved]
    exact puts.nested

/-- What giving a variable a value leaves behind. -/
structure Scope.Binds (scope later : Scope) (v : Var) : Prop where
  same : later = { scope with
    fn := later.fn, outputs := later.outputs, touched := later.touched, consumed := later.consumed,
    live := { scope.live with values := later.live.values, memos := later.live.memos } }
  outputs : scope.Puts [v] later.outputs
  values : ∀ w : Var, w.id ≠ v.id → later.live.values.find? w = scope.live.values.find? w
  denotes : ∀ p, scope.schema.varPath? v = some p → later.live.values.find? v = some (.path p)
  memos : ∀ w memo, later.live.memos.find? w = some memo → w.id ≠ v.id ∧
    (scope.live.memos.find? w = some memo ∨ memo.block = scope.current ∨
      scope.fn.arena.blocks.size ≤ memo.block)

theorem Made.binds {third : Scope} (made : Made scope later) (binds : later.Binds third v) :
    scope.Binds third v where
  same := by
    rw [binds.same, made.remembers.same, made.current]
  outputs := by
    have outputs := binds.outputs
    rw [made.remembers.same] at outputs
    exact outputs.congr rfl rfl
  values := by
    intro w apart
    rw [binds.values w apart, made.remembers.live.1]
  denotes := by
    rw [← made.remembers.live.2.2.2]
    exact binds.denotes
  memos := by
    intro w memo isMemo
    obtain ⟨apart, old | isHere | isNew⟩ := binds.memos w memo isMemo
    · exact ⟨apart, (made.remembers.memos w memo old).imp_right fun fresh => fresh.1⟩
    · exact ⟨apart, .inr (.inl (isHere.trans made.current))⟩
    · exact ⟨apart, .inr (.inr (made.remembers.size.trans isNew))⟩

/-- A variable can be bound to an expression. -/
structure Assignable (D : Path → Prop) (scope : Scope) (seen : Expr → Prop) (v : Var) (e : Expr) :
    Prop where
  within : e.Within seen
  reads : scope.schema.Reads D e
  denotes : ∀ p, scope.schema.varPath? v = some p → scope.schema.pathOf? e = some p
  notRecord : v.id ≠ scope.schema.record.id

/-- An expression reads the path it denotes. -/
theorem reads_of_pathOf? {schema : Plan.Schema} {p : Path} (isPath : schema.pathOf? e = some p) :
    ∃ loc, (p, loc) ∈ schema.reads e := by
  cases e with
  | var v =>
    refine ⟨Location.none, ?_⟩
    rw [Plan.Schema.reads]
    change schema.varPath? v = some p at isPath
    rw [isPath]
    exact List.mem_singleton_self _
  | absent => cases isPath
  | const c => cases isPath
  | call fn args loc =>
    have isAccess : fn = .fieldAccess := by
      refine Classical.byContradiction fun noAccess => ?_
      have noChain : (Expr.call fn args loc).fieldChain? = none := by
        unfold Expr.fieldChain?
        rw [Expr.chainFrom.eq_def]
        split
        · next found =>
          split at found
          · next isVar => cases isVar
          · next isCall => exact absurd (Expr.call.inj isCall).1 noAccess
          · cases found
        · rfl
      unfold Plan.Schema.pathOf? at isPath
      dsimp only at isPath
      rw [noChain] at isPath
      cases isPath
    refine ⟨loc, ?_⟩
    rw [Plan.Schema.reads, if_pos isAccess, isPath]
    exact List.mem_singleton_self _

/-- Adding an output. -/
theorem quiet_putOutput (v : Var) (scope : Scope) :
    Yields (putOutput v) scope fun _ later => scope.Quiet D later ∧
      ∃ outputs, later = { scope with outputs } ∧ scope.Puts [v] outputs := by
  refine .modifying ?_
  split
  · exact ⟨.of_notes, scope.outputs, rfl, fun _ => .inl, fun _ => rfl⟩
  · next isTop =>
    refine ⟨.of_notes, scope.outputs ++ [v], rfl,
      fun _ => List.mem_append.mp, fun isNested => absurd ?_ isTop⟩
    rw [isNested, Bool.true_or]

theorem InScope.congr (inScope : InScope D scope hidden seen) (live : later.live = scope.live)
    (fn : later.fn = scope.fn) (schema : later.schema = scope.schema) :
    InScope D later hidden seen := by
  cases scope
  cases later
  cases live
  cases fn
  cases schema
  exact { inScope with }

theorem Live.congr (held : Live scope spot hidden seen known m) (live : later.live = scope.live)
    (fn : later.fn = scope.fn) (schema : later.schema = scope.schema)
    (current : later.current = scope.current) : Live later spot hidden seen known m := by
  cases scope
  cases later
  cases live
  cases fn
  cases schema
  cases current
  exact { held with }

theorem sim_bindOutput (known : Expr → Option Value) (value : Option Value) (sound : Sound D scope)
    (denotes : ∀ p, scope.schema.varPath? v = some p → meaning = .path p)
    (inScope : InScope D (scope.binding v meaning) hidden (Expr.SeenWith v seen))
    (live : pre → ∃ x, value = some x ∧
      Live (scope.binding v meaning) spot hidden (Expr.SeenWith v seen) (Expr.withValue v x known)
        m) :
    Sim D final may spot (do bindMeaning v meaning; putOutput v) scope m pre
      (fun _ later => later.current = scope.current ∧ scope.Binds later v ∧
        InScope D later hidden (Expr.SeenWith v seen))
      (fun _ later => Onward fun m' => m' = m ∧ ∃ x, value = some x ∧
        Live later spot hidden (Expr.SeenWith v seen) (Expr.withValue v x known) m') accepted := by
  refine .quietly sound (quiet_modify .of_notes) fun _ first quiet sound₁ isFirst => ?_
  rw [← bind_pure (putOutput v)]
  refine .quietly sound₁ (quiet_putOutput v first) fun _ second quiet₂ sound₂ held => ?_
  obtain ⟨outputs, isSecond, isOutput⟩ := held
  have isBinding : first = scope.binding v meaning := isFirst
  refine .pure ⟨?_, ⟨?_, ?_, ?_, ?_, ?_⟩, ?_⟩ fun begins => ⟨rfl, rfl, ?_⟩
  · rw [isSecond, isFirst]
  · rw [isSecond, isFirst]
  · rw [isSecond, isFirst]
    rw [isFirst] at isOutput
    exact isOutput.congr rfl rfl
  · intro w apart
    rw [isSecond, isFirst]
    exact (VarMap.find?_insert _ v w meaning).trans (if_neg apart)
  · intro p isPath
    rw [isSecond, isFirst, ← denotes p isPath]
    exact (VarMap.find?_insert _ v v meaning).trans (if_pos rfl)
  · intro w memo isMemo
    rw [isSecond, isFirst] at isMemo
    have isMemo' : (scope.live.memos.erase v).find? w = some memo := isMemo
    rw [VarMap.find?_erase] at isMemo'
    split at isMemo'
    · cases isMemo'
    · next apart => exact ⟨apart, .inl isMemo'⟩
  · rw [isSecond, isBinding]
    exact inScope.congr rfl rfl rfl
  · obtain ⟨x, isValue, held⟩ := live begins
    rw [isSecond, isBinding]
    exact ⟨x, isValue, held.congr rfl rfl rfl rfl⟩

/-- The code of one binding of an assign. -/
theorem sim_assignVar (domain : ∀ e, (known e).isSome ↔ seen e) (sound : Sound D scope)
    (inScope : InScope D scope hidden seen) (assignable : Assignable D scope seen v e)
    (tolerant : e.value? known = none → ∀ cause : RunError, cause.OfCall → accepted cause) :
    Sim D final scope.New spot (assignVar v e) scope m (Live scope spot hidden seen known m)
      (fun _ later => later.current = scope.current ∧ scope.Binds later v ∧
        InScope D later hidden (Expr.SeenWith v seen))
      (fun _ later => Onward fun m' => m.Still m' ∧ ∃ x, e.value? known = some x ∧
        Live later spot hidden (Expr.SeenWith v seen) (Expr.withValue v x known) m') accepted := by
  refine .get ?_
  dsimp only
  cases isPath : scope.schema.pathOf? e with
  | some p =>
    obtain ⟨loc, member⟩ := reads_of_pathOf? isPath
    obtain ⟨isD, has⟩ := assignable.reads _ member
    obtain ⟨isFlat, isValue⟩ := inScope.pathOf? assignable.within isPath
    have denoted : ∀ q, scope.schema.varPath? v = some q → q = p := fun q found =>
      Option.some.inj ((assignable.denotes q found).symm.trans isPath)
    rw [Option.filter_some, if_pos has]
    refine (sim_bindOutput known (e.value? known) sound (fun q found => by rw [denoted q found]) ?_
      fun live => ?_).mono id (fun _ _ => id) ?_ fun _ => id
    · refine inScope.bind ?_ nofun ?_
      · intro q same
        cases same
        exact ⟨isD, isFlat⟩
      · intro q found
        exact denoted q found ▸ isFlat
    · refine ⟨spot.valueAt p, isValue known m live, live.bind nofun ?_ ?_ ?_⟩
      · intro q same
        rw [Meaning.path.inj same]
      · exact fun q found => denoted q found ▸ rfl
      · exact fun isRecord => absurd isRecord assignable.notRecord
    · rintro _ later flow m' _ _ ⟨rfl, rfl, held⟩
      exact ⟨rfl, .refl _, held⟩
  | none =>
    have noPath : ∀ q, scope.schema.varPath? v ≠ some q := fun q found =>
      absurd ((assignable.denotes q found).symm.trans isPath) nofun
    let holds : String → Scope → Machine → Prop := fun name later m' => m.Still m' ∧
      Live later spot hidden seen known m' ∧
      ∃ x, e.value? known = some x ∧ Fixed (later.Shows hidden) spot m' (.ident name) x
    refine .bind (fun a later => Made scope later ∧ later.Plain hidden (.ident a.1))
      (fun a later m' => holds a.1 later m') sound ?_ ?_
    · refine (Sim.tracking (fun name later => Made scope later ∧ later.Plain hidden (.ident name))
        holds sound ?_).mono id ?_ ?_ fun _ => id
      · intro start quiet same fn sound'
        have remembers := same.remembers quiet.adds.later
        have inScope' := inScope.remembers remembers
        have computes : ComputesAnywhere D final spot seen known scope.schema (codeOf e)
            (e.value? known) :=
          sim_codeOf (inScope.unknown_call domain) e assignable.within assignable.reads
        have sim := sim_temp sound' inScope'
          (computes accepted hidden start m tolerant sound' inScope' remembers.live.2.2.2) tolerant
        refine (sim.weaken fun n => Nat.le_trans remembers.names).mono (fun live => ?_) ?_
          (fun _ _ _ _ _ _ => id) fun _ => id
        · exact live.same same quiet.adds.later (.refl (fun _ => False) m) (fun _ _ => id)
            fun _ memo _ => (quiet.adds.open_iff sound.rooted memo.block).mp
        · have made : Made scope start := ⟨quiet.current, remembers⟩
          exact fun name later held => ⟨held.1.current, made.trans held.1, held.2⟩
      · rintro a later ⟨current, inside, ⟨made, plain⟩, same, adds⟩
        refine ⟨current, made.trans ⟨adds.current, same.remembers adds.later⟩, ?_⟩
        exact plain.kept adds.later.arena.names
      · rintro a later flow m' _ _ ⟨rfl, inside, ⟨still, live, x, isValue, fixed⟩, same, adds, sound'⟩
        refine ⟨rfl, still, ?_, x, isValue, fixed.mono (same.remembers adds.later).shows⟩
        exact live.same same adds.later (.refl (fun _ => False) m') (fun _ _ => id)
          fun _ memo _ => (adds.open_iff sound'.rooted memo.block).mp
    · rintro ⟨name, readers⟩ later m' sound' current adds ⟨made, plain⟩
      obtain ⟨_, _, _, schema⟩ := made.remembers.live
      have noPath' : ∀ q, later.schema.varPath? v ≠ some q := schema ▸ noPath
      have inScope' : InScope D (later.binding v (.code (.ident name) readers)) hidden
          (Expr.SeenWith v seen) := by
        refine (inScope.remembers made.remembers).bind nofun ?_ fun q found =>
          absurd found (noPath' q)
        intro node readers' same
        obtain ⟨rfl, _⟩ := Meaning.code.inj same
        exact plain
      refine (sim_bindOutput known (e.value? known) sound' (fun q found => absurd found (noPath' q))
        inScope' ?_).mono id ?_ ?_ fun _ => id
      · rintro ⟨_, _, _, live, x, isValue, fixed⟩
        refine ⟨x, isValue, live.bind ?_ nofun (fun q found => absurd found (noPath' q)) ?_⟩
        · intro node readers' same
          obtain ⟨rfl, _⟩ := Meaning.code.inj same
          exact fixed
        · exact fun isRecord => absurd isRecord (schema ▸ assignable.notRecord)
      · rintro _ third ⟨current', binds, inScope'⟩
        exact ⟨current'.trans made.current, made.binds binds, inScope'⟩
      · rintro _ third flow m'' ⟨_, _, still, _⟩ _ ⟨rfl, rfl, held⟩
        exact ⟨rfl, still, held⟩

end bindings

/-!
## Loops over lists

A loop by reader steps a column, and a loop by position counts a variable up to the length of a copy
of the list. A search outwards from a block finds the closest block that was opened for a purpose.
-/

/-- The statement that advances a reader. -/
def nextOf (j : Nat) : Node := .member (.ident (Function.readerName j)) Code.Member.next []

/-- The test for a further element. -/
def hasElement (j : Nat) : Node :=
  .not (.member (.ident (Function.readerName j)) Code.Member.isEndOfArray [])

/-- The test that a position is before the end of a copy. -/
def hasPosition (n : Nat) : Node :=
  .binary .lt (.ident (variableName (n + 1))) (.call Code.Builtin.length [.ident (variableName n)])

/-- The statement that goes on to the next position. -/
def countOf (n : Nat) : Node :=
  .set (variableName (n + 1)) (.binary .add (.ident (variableName (n + 1))) (.long 1))

/-! ## Enclosing blocks -/

/-- A block around the code that was opened for an accepted purpose. -/
def Scope.Marked (scope : Scope) (accept : Code.Tag → Bool) (b : BlockId) : Prop :=
  scope.Open b ∧ ∃ block, scope.fn.arena.blocks[b]? = some block ∧ accept block.tag = true

section enclosing

variable {scope : Scope}

variable {accept : Tag → Bool}

theorem closest_of_enclosing {here b : BlockId}
    (found : scope.fn.arena.enclosing (some here) accept = .ok (some b)) :
    (scope.goto here).Marked accept b ∧
      ∀ c, (scope.goto here).Marked accept c → scope.fn.arena.Within b c := by
  obtain ⟨block, there, within, isBlock, answers, closest⟩ := Arena.findUp_closest found
  split at answers
  · next accepted =>
    cases answers
    refine ⟨⟨within, there, isBlock, accepted⟩, ?_⟩
    rintro c ⟨isOpen, block', isBlock', accepted'⟩
    exact closest c block' isOpen isBlock' (by rw [if_pos accepted']; nofun)
  · cases answers

theorem not_marked_of_enclosing {here : BlockId}
    (found : scope.fn.arena.enclosing (some here) accept = .ok none) (b : BlockId) :
    ¬ (scope.goto here).Marked accept b := by
  rintro ⟨isOpen, block, isBlock, accepted⟩
  have nothing := Arena.findUp_none found b block isOpen isBlock
  rw [if_pos accepted] at nothing
  cases nothing

/-- Blocks in the same loops have the same closest one. -/
theorem enclosing_eq {outer : BlockId} {found found' : Option BlockId}
    (rooted : scope.Rooted) (isOpen : scope.Open outer)
    (marks : ∀ b, scope.Marked accept b → (scope.goto outer).Marked accept b)
    (isFound : scope.fn.arena.enclosing (some scope.current) accept = .ok found)
    (isFound' : scope.fn.arena.enclosing (some outer) accept = .ok found') : found = found' := by
  have wider : ∀ b, (scope.goto outer).Marked accept b → scope.Marked accept b :=
    fun b isMarked => ⟨isOpen.trans isMarked.1, isMarked.2⟩
  cases found with
  | none =>
    cases found' with
    | none => rfl
    | some c =>
      exact absurd (wider c (closest_of_enclosing isFound').1) (not_marked_of_enclosing isFound c)
  | some b =>
    obtain ⟨isMarked, closest⟩ := closest_of_enclosing isFound
    cases found' with
    | none => exact absurd (marks b isMarked) (not_marked_of_enclosing isFound' b)
    | some c =>
      obtain ⟨isMarked', closest'⟩ := closest_of_enclosing isFound'
      exact congrArg some (rooted.eq_of_within (closest c (wider c isMarked'))
        (closest' b (marks b isMarked)))

end enclosing

end Fusion

end QueryFusion

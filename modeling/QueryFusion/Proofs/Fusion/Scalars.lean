import QueryFusion.Proofs.Fusion.Values

/-!
# Code of expressions

The code of an expression has the value of the expression, at the place where it was made and from
there on. Where the expression has no value, its code fails as a call of a function fails: at once if
a case distinction had to test it, and otherwise when it is evaluated.
-/

namespace QueryFusion

/-! ## Operations -/

variable {fn : Func}

/-- An operator has the meaning of its function. -/
theorem Func.onValues?_operator {op : Code.BinaryOp}
    (isOperator : Fusion.operatorOf? fn = some op) (a b : Value) :
    fn.onValues? [a, b] = some (Value.binary op a b) := by
  cases fn <;> cases isOperator <;> rfl

theorem Func.onValues?_callable (callable : Engine.isCallable fn = true)
    (vs : List Value) : fn.onValues? vs = (Engine.callScalar fn.name vs).toOption := by
  cases fn <;> first | exact absurd callable (by decide) | rfl

theorem Func.callable_of_plain (isScalar : fn.kind = .scalar)
    (noOperator : Fusion.operatorOf? fn = none) (noNot : fn ≠ .not) (noAnd : fn ≠ .and)
    (noOr : fn ≠ .or) (noCase : fn ≠ .switchCase) (noItem : fn ≠ .getItem) :
    Engine.isCallable fn = true := by
  cases fn <;> first
    | rfl
    | exact absurd rfl noNot
    | exact absurd rfl noAnd
    | exact absurd rfl noOr
    | exact absurd rfl noCase
    | exact absurd rfl noItem
    | exact absurd isScalar (by decide)
    | exact absurd noOperator (by decide)

namespace Fusion

open Code
open Engine

variable {node : Node}
variable {α : Type} {post' : α → Scope → Flow → Machine → Prop} {loc : Location}
variable {schema : Plan.Schema}

section parts

variable {D : Path → Prop} {final scope later : Scope} {may : Nat → Prop} {spot : Spot}
variable {m m' : Machine} {hidden : Nat → Prop} {seen : Expr → Prop} {known : Expr → Option Value}
variable {accepted : RunError → Prop} {pre : Prop} {r : Nat}

/-- A variable that is declared by a statement, not in front of a block. -/
structure Scope.Stores (scope : Scope) (r : Nat) : Prop where
  there : r < scope.fn.arena.names
  apart : ∀ b init, scope.Open b → ¬ scope.Declares b r init

theorem Scope.Stores.kept (stores : scope.Stores r) (later' : scope.Later later)
    (rooted : scope.Rooted)
    (fresh : ∀ b init, later.Open b → ¬ scope.Open b → ¬ later.Declares b r init) :
    later.Stores r where
  there := stores.there.trans_le later'.arena.names
  apart := by
    rintro b init isOpen ⟨block', here', member⟩
    by_cases isOld : scope.Open b
    · have here := Array.getElem?_eq_getElem (rooted.lt_of_open isOld)
      obtain ⟨block'', here'', grows⟩ := later'.arena.grown b _ here
      cases here'.symm.trans here''
      exact stores.apart b init isOld ⟨_, here, Arena.declared_of_grows grows stores.there member⟩
    · exact fresh b init isOpen isOld ⟨block', here', member⟩

theorem Scope.Stores.adds (stores : scope.Stores r) (adds : scope.Adds later)
    (rooted : scope.Rooted) : later.Stores r :=
  stores.kept adds.later rooted fun b _ isOpen isNew =>
    absurd ((adds.open_iff rooted b).mp isOpen) isNew

theorem Scope.Stores.enter (stores : scope.Stores r) (later' : scope.Later later)
    (rooted : scope.Rooted) (fresh : later.Fresh scope.current) : later.Stores r := by
  refine stores.kept later' rooted fun b init isOpen isNew => ?_
  rcases (fresh.open_iff b).mp isOpen with rfl | isAround
  · rintro ⟨block, here, member⟩
    rw [(fresh.empty block here).1] at member
    cases member
  · exact absurd (later'.arena.within_of_lt rooted.tree isAround rooted.current) isNew

theorem stores_declareHere {init : Node} (named : scope.fn.arena.Named) :
    Yields (declareHere init) scope fun _ later => later.Stores scope.fn.arena.names := by
  refine .bind (.get (.drawArena fun name arena drawn => ?_))
  obtain ⟨_, updates⟩ := Arena.declareHere_updates drawn
  refine ⟨by rw [updates.names]; exact Nat.lt_succ_self _, ?_⟩
  rintro b init' _ ⟨block', here', member⟩
  obtain ⟨block, here, rfl⟩ := updates.before here'
  refine named.not_declared here (?_ : Arena.declaration _ init' ∈ _)
  split at member <;> exact member

theorem Sim.set (agrees : Except RunError Value → Prop) (sound : Sound D scope)
    (there : r < scope.fn.arena.names) (isMay : may r)
    (fronts : scope.Completes final → ∀ b init, scope.Open b → final.Declares b r init →
      ∃ l, init = .lit l)
    (evaluates : scope.Completes final → Ready final scope spot m → pre →
      (m.env.lookup (variableName r)).isSome ∧
        ∃ answer, agrees answer ∧ eval node m = ofAnswer answer m)
    (failed : ∀ cause, pre → agrees (.error cause) → accepted cause) :
    Sim D final may spot (Fusion.emit (.set (variableName r) node)) scope m pre
      (fun _ later => later.current = scope.current ∧ scope.Rebuilt later 0)
      (fun _ _ => Onward fun m' => ∃ v, agrees (.ok v) ∧ m' = m.put (variableName r) v)
      accepted := by
  refine .emit _ sound fun completes ready begins => ?_
  obtain ⟨isDeclared, answer, agreed, isValue⟩ := evaluates completes ready begins
  refine .assign ?_
  unfold Ends
  rw [isValue]
  cases answer with
  | error cause => exact failed cause begins agreed
  | ok v =>
    refine Ends.of_eq (store_apply v (.inr isDeclared)) ?_
    have frame := m.frame_put r v
    refine ⟨ready.still (m.still_put _ v) frame ?_ ready.reads, frame.mono ?_, rfl, v, agreed, rfl⟩
    · rintro _ b init rfl isOpen declares
      obtain ⟨l, rfl⟩ := fronts completes b init isOpen declares
      exact ⟨l, v, rfl, by rw [Machine.lookup_put, if_pos rfl]⟩
    · rintro _ rfl
      refine ⟨isMay, there, ?_⟩
      rintro ⟨b, init, isOpen, declares, notLit⟩
      obtain ⟨l, isLit⟩ := fronts completes b init isOpen declares
      exact notLit l isLit

theorem Scope.Stores.fronts (stores : scope.Stores r) (sound : Sound D scope)
    (completes : scope.Completes final) (b : BlockId) (init : Node) (isOpen : scope.Open b)
    (declares : final.Declares b r init) : ∃ l, init = .lit l :=
  absurd (declares.of_completes completes isOpen sound.rooted stores.there) (stores.apart b init isOpen)

section sim

variable {step : Emit α} {fact : α → Scope → Prop} {post : α → Scope → Flow → Machine → Prop}

/-- Code that is never run needs no more than to be made. -/
theorem Sim.unreached {pre' : Prop} {allowed : RunError → Prop}
    (sim : Sim D final may spot step scope m pre fact post allowed) (never : ¬ pre') :
    Sim D final may spot step scope m pre' fact post' accepted := by
  intro a later done
  obtain ⟨steps, held, _⟩ := sim a later done
  exact ⟨steps, held, fun _ _ begins => absurd begins never⟩

theorem Sim.when (cond : Prop)
    (sim : Sim D final may spot step scope m pre fact post fun cause => cond → accepted cause)
    (needed : pre → cond) : Sim D final may spot step scope m pre fact post accepted := by
  by_cases held : cond
  · exact sim.mono id (fun _ _ => id) (fun _ _ _ _ _ _ => id) fun _ allowed => allowed held
  · exact sim.unreached fun begins => held (needed begins)

/-- What a step does to the scope can be used after it. -/
theorem Sim.steps (sim : Sim D final may spot step scope m pre fact post accepted) :
    Sim D final may spot step scope m pre (fun a later => scope.Step D later ∧ fact a later)
      post accepted := by
  intro a later done
  obtain ⟨steps, held, runs⟩ := sim a later done
  exact ⟨steps, ⟨steps, held⟩, runs⟩

theorem Sim.yielding {holds : α → Scope → Prop}
    (sim : Sim D final may spot step scope m pre fact post accepted)
    (yields : Yields step scope holds) :
    Sim D final may spot step scope m pre (fun a later => fact a later ∧ holds a later) post
      accepted := by
  intro a later done
  obtain ⟨steps, held, runs⟩ := sim a later done
  exact ⟨steps, ⟨held, yields a later done⟩, runs⟩

theorem Sim.back (sim : Sim D final may spot step scope m pre fact post accepted) :
    Sim D final may spot (do
      let a ← step
      moveTo scope.current
      Pure.pure a) scope m pre
      (fun a later => later.current = scope.current ∧
        ∃ inside, fact a inside ∧ scope.Later inside ∧ later = inside.goto scope.current)
      (fun a later flow m' => ∃ inside, post a inside flow m' ∧ later = inside.goto scope.current)
      accepted := by
  refine Yields.bind fun a inside done => ?_
  obtain ⟨steps, held, runs⟩ := sim a inside done
  refine .bind (yields_moveTo (.pure ?_))
  refine ⟨steps.back, ⟨rfl, inside, held, steps.enters.later, rfl⟩, fun completes ready begins => ?_⟩
  refine (runs completes ready begins).mono ?_ fun _ => id
  rintro flow m' ⟨ready', frame, after⟩
  exact ⟨ready', frame, inside, after, rfl⟩

end sim

/-- A step makes code whose parts have values. -/
abbrev Evaluates (D : Path → Prop) (final : Scope) (spot : Spot) (hidden : Nat → Prop)
    (seen : Expr → Prop) (known : Expr → Option Value) {α β : Type} (step : Emit α)
    (run : α → Run β) (fact : α → Scope → Prop) (scope : Scope) (m : Machine) (value : Option β)
    (accepted : RunError → Prop) : Prop :=
  Sim D final scope.New spot step scope m (Live scope spot hidden seen known m)
    (fun a later => Made scope later ∧ fact a later)
    (fun a => Evaluated final spot hidden seen known m value (run a)) accepted

theorem Made.refl (scope : Scope) : Made scope scope := ⟨rfl, .refl scope⟩

theorem Made.trans {third : Scope} (first : Made scope later) (second : Made later third) :
    Made scope third :=
  ⟨second.current.trans first.current, first.remembers.trans second.remembers (.inl first.current)⟩

/-- Further code after code whose parts have values. -/
theorem Sim.then {β γ : Type} {step : Emit α} {next : α → Emit γ} {run : α → Run β}
    {value : Option β} {fact : α → Scope → Prop} {fact' : γ → Scope → Prop}
    {post : γ → Scope → Flow → Machine → Prop}
    (first : Evaluates D final spot hidden seen known step run fact scope m value accepted)
    (sound : Sound D scope) (isNew : ∀ n, scope.New n → may n)
    (live : pre → Live scope spot hidden seen known m)
    (second : ∀ a later m', Sound D later → scope.Step D later → scope.Adds later →
      Made scope later → fact a later → Sim D final may spot (next a) later m'
        (pre ∧ m.Frame (scope.Writes final later may) m' ∧ m.Frame scope.New m' ∧ m.Still m' ∧
          Carries final later spot hidden seen known m' value (run a)) fact' post accepted) :
    Sim D final may spot (step >>= next) scope m pre fact' post accepted := by
  refine .bind (fun a later => scope.Step D later ∧ Made scope later ∧ fact a later)
    (fun a later m' => m.Frame scope.New m' ∧ m.Still m' ∧
      Carries final later spot hidden seen known m' value (run a)) sound
    ((first.framed.weaken isNew).steps.mono live (fun _ _ held => ⟨held.2.1.current, held⟩) ?_
      fun _ => id) ?_
  · rintro a later flow m' _ _ ⟨frame, isOnward, still, carries⟩
    exact ⟨isOnward, frame, still, carries⟩
  · rintro a later m' sound' _ adds ⟨step, made, held⟩
    exact second a later m' sound' step adds made held

theorem Evaluates.both {β γ δ ε ζ : Type} {step : Emit α} {next : α → Emit β} {make : α → β → γ}
    {run : α → Run δ} {run' : β → Run ε} {whole : γ → Run ζ} {result : δ → ε → Option ζ}
    {value : Option δ} {value' : Option ε} {fact : α → Scope → Prop} {fact' : β → Scope → Prop}
    {fact'' : γ → Scope → Prop} (combine : δ → ε → Except RunError ζ) (sound : Sound D scope)
    (inScope : InScope D scope hidden seen)
    (first : Evaluates D final spot hidden seen known step run fact scope m value accepted)
    (second : ∀ a later m', Sound D later → InScope D later hidden seen →
      later.schema = scope.schema →
      Evaluates D final spot hidden seen known (next a) run' fact' later m' value' accepted)
    (runs : ∀ a b, whole (make a b) = run a >>= fun x => run' b >>= fun y => ofAnswer (combine x y))
    (answers : ∀ x y, Answers (result x y) (combine x y))
    (facts : ∀ a b later, fact'' (make a b) later) :
    Evaluates D final spot hidden seen known (do
      let a ← step
      let b ← next a
      pure (make a b)) whole fact'' scope m
      (value.bind fun x => value'.bind fun y => result x y) accepted := by
  refine .then first sound (fun _ => id) id fun a later m' sound' _ _ made _ => ?_
  have names : ∀ n, later.New n → scope.New n := fun n => Nat.le_trans made.remembers.names
  refine .then (second a later m' sound' (inScope.remembers made.remembers)
    made.remembers.live.2.2.2) sound' names ?_ fun b third m'' _ _ adds' made' _ => ?_
  · rintro ⟨_, _, _, _, carries⟩
    exact carries.live
  · refine .pure ⟨made.trans made', facts a b third⟩ ?_
    rintro ⟨⟨_, _, _, still, carries⟩, _, frame, still', carries'⟩
    obtain ⟨answer, isAnswer, stable⟩ := carries.stable
    obtain ⟨answer', isAnswer', stable'⟩ := carries'.stable
    refine ⟨rfl, still.trans still', carries'.live, answer >>= fun x => answer' >>= fun y =>
      combine x y, isAnswer.bind fun x => isAnswer'.bind fun y => answers x y, ?_⟩
    rw [runs]
    refine (stable.kept adds' frame).bind fun x => stable'.bind fun y => ?_
    exact fun _ _ _ _ _ _ => rfl

/-- The failure of a call is accepted where there is no value. -/
abbrev Tolerates {α : Type} (value : Option α) (accepted : RunError → Prop) : Prop :=
  value = none → ∀ cause : RunError, cause.OfCall → accepted cause

theorem Tolerates.first {β : Type} {value : Option α} {more : α → Option β}
    (tolerant : Tolerates (value.bind more) accepted) : Tolerates value accepted :=
  fun isNone => tolerant (by rw [isNone]; rfl)

theorem Tolerates.second {β γ : Type} {value : Option α} {value' : Option β}
    {more : α → β → Option γ}
    (tolerant : Tolerates (value.bind fun x => value'.bind (more x)) accepted) :
    Tolerates value' accepted :=
  fun isNone => tolerant (by rw [isNone]; cases value <;> rfl)

/-- Code has a value wherever it is made over a schema, and fails only if there is none. -/
def EvaluatesAnywhere (D : Path → Prop) (final : Scope) (spot : Spot) (seen : Expr → Prop)
    (known : Expr → Option Value) (schema : Plan.Schema) {α β : Type} (step : Emit α)
    (run : α → Run β) (fact : (Nat → Prop) → α → Scope → Prop) (value : Option β) : Prop :=
  ∀ (accepted : RunError → Prop) (hidden : Nat → Prop) (scope : Scope) (m : Machine),
    Tolerates value accepted → Sound D scope → InScope D scope hidden seen → scope.schema = schema →
    Evaluates D final spot hidden seen known step run (fact hidden) scope m value accepted

/-- The code of an expression has the given value wherever it is made. -/
abbrev ComputesAnywhere (D : Path → Prop) (final : Scope) (spot : Spot) (seen : Expr → Prop)
    (known : Expr → Option Value) (schema : Plan.Schema) (step : Emit Node)
    (value : Option Value) : Prop :=
  EvaluatesAnywhere D final spot seen known schema step Engine.eval
    (fun hidden node later => later.Plain hidden node) value

/-- The code of a list of expressions has the given values wherever it is made. -/
abbrev ListsAnywhere (D : Path → Prop) (final : Scope) (spot : Spot) (seen : Expr → Prop)
    (known : Expr → Option Value) (schema : Plan.Schema) (step : Emit (List Node))
    (values : Option (List Value)) : Prop :=
  EvaluatesAnywhere D final spot seen known schema step Engine.evalAll (fun _ _ _ => True) values

section anywhere

variable {β γ δ ε ζ : Type} {fact : (Nat → Prop) → α → Scope → Prop}
variable {fact' : (Nat → Prop) → β → Scope → Prop} {fact'' : (Nat → Prop) → γ → Scope → Prop}
variable {step : Emit α} {run : α → Run δ} {value : Option δ} {whole : γ → Run ζ}

theorem EvaluatesAnywhere.fail {cause : FuseError} :
    EvaluatesAnywhere D final spot seen known schema (failWith cause) run fact value :=
  fun _ _ _ _ _ _ _ _ => .failWith

theorem EvaluatesAnywhere.pure {a : α} {d : δ} (runs : run a = Pure.pure d)
    (facts : ∀ hidden later, fact hidden a later) :
    EvaluatesAnywhere D final spot seen known schema (Pure.pure a) run fact (some d) := by
  intro accepted hidden scope m _ _ _ _
  refine .pure ⟨.refl scope, facts hidden scope⟩ fun live => ⟨rfl, .refl m, live, .ok d, .ok d, ?_⟩
  rw [runs]
  exact .pure d

theorem EvaluatesAnywhere.both {next : Emit β} {make : α → β → γ} {run' : β → Run ε}
    {result : δ → ε → Option ζ} {value' : Option ε}
    (first : EvaluatesAnywhere D final spot seen known schema step run fact value)
    (second : EvaluatesAnywhere D final spot seen known schema next run' fact' value')
    (combine : δ → ε → Except RunError ζ)
    (runs : ∀ a b, whole (make a b) = run a >>= fun x => run' b >>= fun y => ofAnswer (combine x y))
    (answers : ∀ x y, Answers (result x y) (combine x y))
    (facts : ∀ hidden a b later, fact'' hidden (make a b) later) :
    EvaluatesAnywhere D final spot seen known schema (do
      let a ← step
      let b ← next
      Pure.pure (make a b)) whole fact'' (value.bind fun x => value'.bind fun y => result x y) := by
  intro accepted hidden scope m tolerant sound inScope isSchema
  exact .both combine sound inScope
    (first accepted hidden scope m tolerant.first sound inScope isSchema)
    (fun _ later m' sound' inScope' same => second accepted hidden later m' tolerant.second sound'
      inScope' (same.trans isSchema)) runs answers (facts hidden)

theorem EvaluatesAnywhere.map {make : α → γ} {result : δ → Option ζ}
    (first : EvaluatesAnywhere D final spot seen known schema step run fact value)
    (apply : δ → Except RunError ζ)
    (runs : ∀ a, whole (make a) = run a >>= fun x => ofAnswer (apply x))
    (answers : ∀ x, Answers (result x) (apply x))
    (facts : ∀ hidden a later, fact'' hidden (make a) later) :
    EvaluatesAnywhere D final spot seen known schema (do
      let a ← step
      Pure.pure (make a)) whole fact'' (value.bind result) := by
  have nothing : EvaluatesAnywhere D final spot seen known schema (Pure.pure ()) (Pure.pure : Unit → _)
      (fun _ _ _ => True) (some ()) := .pure rfl fun _ _ => trivial
  have sim : EvaluatesAnywhere D final spot seen known schema (do
      let a ← step
      let _ ← Pure.pure ()
      Pure.pure (make a)) whole fact'' (value.bind fun x => (some ()).bind fun _ => result x) := by
    refine first.both nothing (fun x _ => apply x) (fun a _ => ?_) (fun x _ => answers x)
      fun hidden a _ => facts hidden a
    rw [runs]
    simp only [pure_bind]
  simpa only [pure_bind, Option.bind_some] using sim

end anywhere

/-! ## Flags and first items -/

/-- No comparison is a flag. -/
theorem InScope.flagOf? (inScope : InScope D scope hidden seen) (left right : Expr) :
    Yields (flagOf? left right) scope fun found later => later = scope ∧ found = none := by
  have side : ∀ tested other : Expr, Yields (flagTested? tested other) scope
      fun found later => later = scope ∧ found = none := by
    intro tested other
    cases tested with
    | var v =>
      refine .bind (.get ?_)
      rw [inScope.flags v]
      exact .pure ⟨rfl, rfl⟩
    | absent => exact .pure ⟨rfl, rfl⟩
    | const c => exact .pure ⟨rfl, rfl⟩
    | call fn args loc => exact .pure ⟨rfl, rfl⟩
  refine .bind ((side left right).mono ?_)
  rintro _ _ ⟨rfl, rfl⟩
  exact side right left

variable {args : List Expr}

/-- An index is into a first item, of which there are none. -/
theorem sim_itemAt {value : Option Value} (inScope : InScope D scope hidden seen) :
    Computes D final spot hidden seen known (itemAt ⟨.getItem, args, loc⟩) scope m value
      accepted := by
  match args with
  | [] => exact .failWith
  | [_] => exact .failWith
  | _ :: _ :: _ :: _ => exact .failWith
  | [.absent, _] => exact Yields.bind fun _ _ _ => Yields.failWith
  | [.const _, _] => exact Yields.bind fun _ _ _ => Yields.failWith
  | [.call .., _] => exact Yields.bind fun _ _ _ => Yields.failWith
  | [.var v, index] =>
    refine .get ?_
    rw [inScope.items v]
    exact .failWith

/-! ## Case distinctions -/

/-- Values of variables under another choice of hidden ones. -/
theorem Live.shows {hidden' : Nat → Prop} (live : Live scope spot hidden seen known m)
    (shows : ∀ n, scope.Shows hidden n → scope.Shows hidden' n) :
    Live scope spot hidden' seen known m :=
  { live with
    code := fun v x node readers isKnown found => (live.code v x node readers isKnown found).mono shows
    memo := fun v x p memo isKnown found isMemo isOpen =>
      (live.memo v x p memo isKnown found isMemo isOpen).mono shows }

/-- A variable that has just been declared can be hidden. -/
theorem InScope.hide (inScope : InScope D scope hidden seen)
    (same : scope.SameVars later) (later' : scope.Later later) (isNew : scope.New r)
    (there : r < later.fn.arena.names) :
    InScope D later (fun n => hidden n ∨ n = r) seen := by
  have before := inScope.remembers (same.remembers later')
  have live : later.live = scope.live := by rw [same]
  have shows : ∀ n, scope.Shows hidden n → later.Shows (fun n => hidden n ∨ n = r) n := by
    rintro n ⟨below, notHidden⟩
    refine ⟨below.trans_le later'.arena.names, ?_⟩
    rintro (isHidden | rfl)
    · exact notHidden isHidden
    · exact absurd below isNew.not_gt
  refine { before with hides := ?_, memos := ?_, plain := ?_ }
  · rintro n (isHidden | rfl)
    · exact before.hides n isHidden
    · exact there
  · intro v memo found
    rw [live] at found
    obtain ⟨below, n, shown, isName⟩ := inScope.memos v memo found
    exact ⟨below.trans_le later'.arena.size, n, shows n shown, isName⟩
  · intro v node readers isSeen found name isName
    rw [live] at found
    obtain ⟨n, shown, isVariable⟩ := inScope.plain v node readers isSeen found name isName
    exact ⟨n, shows n shown, isVariable⟩

/-- Code that stores the value of an expression into a hidden variable, in the current block or in
blocks inside it. -/
abbrev Sets (D : Path → Prop) (final : Scope) (spot : Spot) (hidden : Nat → Prop)
    (seen : Expr → Prop) (known : Expr → Option Value) (r : Nat) (step : Emit Unit) (scope : Scope)
    (m : Machine) (value : Option Value) (accepted : RunError → Prop) : Prop :=
  Sim D final (fun n => scope.New n ∨ n = r) spot step scope m
    (Live scope spot hidden seen known m ∧ (m.env.lookup (variableName r)).isSome)
    (fun _ later => scope.Remembers later)
    (fun _ later => Onward fun m' => m.Still m' ∧
      Live (later.goto scope.current) spot hidden seen known m' ∧
      ∃ x, value = some x ∧ m'.env.lookup (variableName r) = some x) accepted

/-- Code sets a variable wherever it is made, and fails only if there is no value. -/
def SetsAnywhere (D : Path → Prop) (final : Scope) (spot : Spot) (hidden : Nat → Prop)
    (seen : Expr → Prop) (known : Expr → Option Value) (r : Nat) (schema : Plan.Schema)
    (step : Emit Unit) (value : Option Value) : Prop :=
  ∀ (accepted : RunError → Prop), Tolerates value accepted → ∀ scope m, Sound D scope →
    InScope D scope hidden seen → scope.Stores r → scope.schema = schema →
      Sets D final spot hidden seen known r step scope m value accepted

theorem setsAnywhere_value {step : Emit Node} {value : Option Value} (isHidden : hidden r)
    (computes : ComputesAnywhere D final spot seen known schema step value) :
    SetsAnywhere D final spot hidden seen known r schema (do
      let node ← step
      emit (.set (variableName r) node)) value := by
  intro accepted tolerant scope m sound inScope stores isSchema
  refine .then (computes accepted hidden scope m tolerant sound inScope isSchema) sound
    (fun _ => .inl) And.left fun node later m' sound' _ adds made _ => ?_
  have stores' := stores.adds adds sound.rooted
  refine (Sim.set (Answers value) sound' stores'.there (.inr rfl) (stores'.fronts sound')
    ?_ ?_).steps.mono id ?_ ?_ fun _ => id
  · rintro completes ready ⟨⟨_, isDeclared⟩, frame, _, _, carries⟩
    obtain ⟨answer, isAnswer, stable⟩ := carries.stable
    exact ⟨frame.defined _ isDeclared, answer, isAnswer, stable.apply completes ready⟩
  · rintro cause _ isAnswer
    obtain ⟨ofCall, isNone⟩ := isAnswer.error rfl
    exact tolerant isNone cause ofCall
  · rintro _ third ⟨steps, current', rebuilt⟩
    exact (made.trans ⟨current', rebuilt.sameVars.remembers steps.enters.later⟩).remembers
  · rintro _ third flow m'' ⟨_, _, _, still, carries⟩ ⟨steps, current', rebuilt⟩ ⟨rfl, x, isAnswer, rfl⟩
    have adds' : later.Adds third := ⟨steps.enters.later, current'⟩
    have isHome : third.current = scope.current := current'.trans made.current
    refine ⟨rfl, still.trans (m'.still_put _ x), isHome ▸ ?_, x, isAnswer.same.symm, ?_⟩
    · refine carries.live.same rebuilt.sameVars adds'.later (m'.frame_put r x) ?_ ?_
      · rintro n shown rfl
        exact shown.2 isHidden
      · exact fun _ memo _ => (adds'.open_iff sound'.rooted memo.block).mp
    · rw [Machine.lookup_put, if_pos rfl]

theorem Live.enter (live : Live scope spot hidden seen known m)
    (inScope : InScope D scope hidden seen) (remembers : scope.Remembers later)
    (later' : scope.Later later) (rooted : scope.Rooted) (fresh : later.Fresh scope.current)
    (isNew : scope.fn.arena.blocks.size ≤ later.current)
    (added : ∀ v memo, later.live.memos.find? v = some memo → scope.live.memos.find? v ≠ some memo →
      scope.fn.arena.blocks.size ≤ memo.block ∧ memo.block ≠ later.current) :
    Live later spot hidden seen known m := by
  have around : ∀ b, later.Open b → b = later.current ∨ scope.Open b := by
    intro b isOpen
    rcases (fresh.open_iff b).mp isOpen with same | isAround
    · exact .inl same
    · exact .inr (later'.arena.within_of_lt rooted.tree isAround rooted.current)
  refine live.remembers remembers (.refl scope.New m) (fun _ => Scope.Shows.not_new) ?_ ?_
  · intro v memo found isOpen
    rcases around _ isOpen with same | isOpen'
    · have below := (inScope.memos v memo found).1
      rw [same] at below
      exact absurd below isNew.not_gt
    · exact isOpen'
  · intro v x p memo _ _ found isAdded isOpen
    obtain ⟨beyond, apart⟩ := added v memo found isAdded
    rcases around _ isOpen with same | isOpen'
    · exact absurd same apart
    · exact absurd (rooted.lt_of_open isOpen') beyond.not_gt

theorem SetsAnywhere.taken {inner : Scope} {step : Emit Unit} {value part : Option Value}
    (cond : Prop) (sets : SetsAnywhere D final spot hidden seen known r scope.schema step part)
    (sound : Sound D inner) (inScope : InScope D scope hidden seen)
    (remembers : scope.Remembers inner) (stores : inner.Stores r) (tolerant : Tolerates value accepted)
    (isPart : cond → value = part) (needed : pre → cond)
    (live : pre → Live inner spot hidden seen known m)
    (declared : pre → (m.env.lookup (variableName r)).isSome) :
    Sim D final (fun n => scope.New n ∨ n = r) spot step inner m pre
      (fun _ later => inner.Remembers later)
      (fun _ _ => Onward fun m' => m.Still m' ∧ ∃ x, value = some x ∧
        m'.env.lookup (variableName r) = some x) accepted := by
  refine .when cond (((sets _ ?_ inner m sound (inScope.remembers remembers) stores
    remembers.live.2.2.2).weaken fun n => Or.imp_left (Nat.le_trans remembers.names)).mono
    (fun begins => ⟨live begins, declared begins⟩) (fun _ _ => id) ?_ fun _ => id) needed
  · exact fun isNone cause ofCall held => tolerant ((isPart held).trans isNone) cause ofCall
  · rintro _ later flow m' begins _ ⟨rfl, still, _, x, isValue, found⟩
    exact ⟨rfl, still, x, (isPart (needed begins)).trans isValue, found⟩

theorem Scope.Remembers.beside {start after inner : Scope} (same : scope.SameVars start)
    (isNew : scope.fn.arena.blocks.size ≤ start.current)
    (names : scope.fn.arena.names ≤ start.fn.arena.names) (remembers : start.Remembers after)
    (isAfter : inner = after.goto inner.current) (apart : inner.current ≠ start.current)
    (below : inner.current < start.fn.arena.blocks.size)
    (isNew' : scope.fn.arena.blocks.size ≤ inner.current) {v : Var} {memo : Memo}
    (found : inner.live.memos.find? v = some memo) :
    scope.live.memos.find? v = some memo ∨ (scope.fn.arena.blocks.size ≤ memo.block ∧
      memo.block ≠ inner.current ∧ memo.block < inner.fn.arena.blocks.size ∧
      ∃ n, scope.New n ∧ n < inner.fn.arena.names ∧ memo.name = variableName n) := by
  rw [isAfter] at found
  rcases remembers.memos v memo found with old | ⟨place, isThere, n, isNewName, isLess, isName⟩
  · rw [same] at old
    exact .inl old
  · refine .inr ⟨?_, ?_, ?_, n, names.trans isNewName, ?_, isName⟩
    · rcases place with isHere | isBeyond
      · exact isHere ▸ isNew
      · exact isNew'.trans (Nat.le_of_lt (below.trans_le isBeyond))
    · rcases place with isHere | isBeyond
      · exact isHere ▸ apart.symm
      · exact Nat.ne_of_gt (below.trans_le isBeyond)
    · rw [isAfter]
      exact isThere
    · rw [isAfter]
      exact isLess

section arms

variable {first second : Emit Unit} {c yes no : Option Value}
variable (test : Node) (sound : Sound D scope) (inScope : InScope D scope hidden seen)
  (stores : scope.Stores r)
  (tolerant : Tolerates (c.bind fun v => if v.truth then yes else no) accepted)
  (whenTrue : SetsAnywhere D final spot hidden seen known r scope.schema first yes)
  (whenFalse : SetsAnywhere D final spot hidden seen known r scope.schema second no)

include sound inScope stores tolerant whenTrue whenFalse

theorem sim_branchArms :
    Sim D final (fun n => scope.New n ∨ n = r) spot
      (branching scope.current .case test first second) scope m
      (Carries final scope spot hidden seen known m c (eval test) ∧
        (m.env.lookup (variableName r)).isSome)
      (fun _ later => scope.Remembers later ∧ ∀ v memo, later.live.memos.find? v = some memo →
        scope.live.memos.find? v = some memo ∨ scope.fn.arena.blocks.size ≤ memo.block)
      (fun _ _ => Onward fun m' => m.Still m' ∧
        ∃ x, (c.bind fun v => if v.truth then yes else no) = some x ∧
          m'.env.lookup (variableName r) = some x) accepted := by
  refine .branches (by decide) (Answers c) (fun start after =>
    scope.fn.arena.names ≤ start.fn.arena.names ∧ start.Remembers after) sound ?_ ?_ ?_ ?_
  · rintro completes ready ⟨carries, _⟩
    obtain ⟨answer, isAnswer, stable⟩ := carries.stable
    exact ⟨answer, isAnswer, stable.apply completes ready⟩
  · rintro cause _ isAnswer
    obtain ⟨ofCall, isNone⟩ := isAnswer.error rfl
    exact tolerant (by rw [isNone]; rfl) cause ofCall
  · intro inner sound' steps same isNew fresh
    have remembers := same.remembers steps.enters.later
    refine (whenTrue.taken (∃ v, c = some v ∧ v.truth = true) sound' inScope remembers
      (stores.enter steps.enters.later sound.rooted fresh) tolerant ?_ ?_ ?_ fun held => held.1.2).mono
      id (fun _ _ held => ⟨remembers.names, held⟩) (fun _ _ _ _ _ _ => id) fun _ => id
    · rintro ⟨v, rfl, isTrue⟩
      rw [Option.bind_some, if_pos isTrue]
    · rintro ⟨_, v, isAnswer, isTrue⟩
      exact ⟨v, isAnswer.same.symm, isTrue⟩
    · rintro ⟨⟨carries, _⟩, _⟩
      refine carries.live.enter inScope remembers steps.enters.later sound.rooted fresh isNew ?_
      intro w memo found isAdded
      rw [same] at found
      exact absurd found isAdded
  · intro start after inner same isNew held isAfter apart below isNew' sound' steps fresh
    obtain ⟨names, remembers'⟩ := held
    have memos : ∀ v memo, inner.live.memos.find? v = some memo → _ := fun v memo =>
      Scope.Remembers.beside same isNew names remembers' isAfter apart below isNew'
    have remembers : scope.Remembers inner := by
      refine ⟨?_, steps.enters.later.arena.names, steps.enters.later.arena.size, ?_⟩
      · rw [isAfter, remembers'.same, same]
        rfl
      · intro v memo found
        rcases memos v memo found with old | ⟨isBeyond, _, isThere, isName⟩
        · exact .inl old
        · exact .inr ⟨.inr isBeyond, isThere, isName⟩
    refine (whenFalse.taken (∃ v, c = some v ∧ v.truth = false) sound' inScope remembers
      (stores.enter steps.enters.later sound.rooted fresh) tolerant ?_ ?_ ?_ fun held => held.1.2).mono
      id ?_ (fun _ _ _ _ _ _ => id) fun _ => id
    · rintro ⟨v, rfl, isFalse⟩
      rw [Option.bind_some, isFalse, if_neg Bool.false_ne_true]
    · rintro ⟨_, v, isAnswer, isFalse⟩
      exact ⟨v, isAnswer.same.symm, isFalse⟩
    · rintro ⟨⟨carries, _⟩, _⟩
      refine carries.live.enter inScope remembers steps.enters.later sound.rooted fresh isNew' ?_
      intro w memo found isAdded
      rcases memos w memo found with old | ⟨isBeyond, isApart, _⟩
      · exact absurd old isAdded
      · exact ⟨isBeyond, isApart⟩
    · intro _ later held
      refine ⟨remembers.trans held (.inr isNew'), fun v memo found => ?_⟩
      rcases held.memos v memo found with old | ⟨isHere | isBeyond, _⟩
      · exact (memos v memo old).imp_right And.left
      · exact .inr (isHere ▸ isNew')
      · exact .inr (remembers.size.trans isBeyond)

theorem sim_arms (isHidden : hidden r) :
    Sim D final (fun n => scope.New n ∨ n = r) spot
      (branching scope.current .case test first second) scope m
      (Carries final scope spot hidden seen known m c (eval test) ∧
        (m.env.lookup (variableName r)).isSome)
      (fun _ later => scope.Remembers later)
      (fun _ later => Onward fun m' => m.Still m' ∧
        Live (later.goto scope.current) spot hidden seen known m' ∧
        ∃ x, (c.bind fun v => if v.truth then yes else no) = some x ∧
          m'.env.lookup (variableName r) = some x) accepted := by
  intro u later done
  obtain ⟨steps, ⟨remembers, beyond⟩, runs⟩ :=
    sim_branchArms test sound inScope stores tolerant whenTrue whenFalse u later done
  refine ⟨steps, remembers, fun completes ready begins => ?_⟩
  refine (runs completes ready begins).mono ?_ fun _ => id
  rintro flow m' ⟨ready', frame, rfl, still, isValue⟩
  refine ⟨ready', frame, rfl, still, ?_, isValue⟩
  have adds := steps.enters.adds
  have remembers' : scope.Remembers (later.goto scope.current) :=
    { remembers with same := by rw [remembers.same]; rfl }
  refine begins.1.live.remembers remembers' frame ?_ ?_ ?_
  · rintro n shown ⟨isNew | rfl, _⟩
    · exact shown.not_new isNew
    · exact shown.2 isHidden
  · exact fun _ memo _ => (adds.open_iff sound.rooted memo.block).mp
  · intro v x p memo _ _ found isAdded isOpen
    rcases beyond v memo found with old | isBeyond
    · exact absurd old isAdded
    · have isOpen' := (adds.open_iff sound.rooted memo.block).mp isOpen
      exact absurd (sound.rooted.lt_of_open isOpen') isBeyond.not_gt

end arms

/-! ## Expressions -/

theorem Constant.literal {c : Constant} (isLiteral : literalOf c = .ok node) :
    ∃ l, node = .lit l ∧ c.value? = some (literalValue l) := by
  cases c <;> cases isLiteral <;> exact ⟨_, rfl, rfl⟩

/-- The code of a constant. -/
theorem sim_constant {c : Constant} :
    Computes D final spot hidden seen known (liftM ((literalOf c).mapError Abort.error)) scope m
      c.value? accepted := by
  refine .lift fun node isNode => ?_
  have isLiteral : literalOf c = .ok node := by
    cases found : literalOf c with
    | error cause => rw [found] at isNode; cases isNode
    | ok node' => rw [found] at isNode; exact congrArg _ (Except.ok.inj isNode)
  obtain ⟨l, rfl, isValue⟩ := Constant.literal isLiteral
  rw [isValue]
  have fixed : Fixed (scope.Shows hidden) spot m (.lit l) (literalValue l) := .lit l
  refine Sim.pure (α := Node) ⟨.refl scope, fun _ => nofun⟩ (fun live => ?_) _ _ rfl
  exact ⟨rfl, .refl m, live, .ok _, .ok _, fixed.denotes⟩

/-- Calls have no value of their own. -/
theorem InScope.unknown_call (inScope : InScope D scope hidden seen)
    (domain : ∀ e, (known e).isSome ↔ seen e) (fn : Func) (args : List Expr) (loc : Location) :
    known (.call fn args loc) = none := by
  rw [← Option.not_isSome_iff_eq_none, domain]
  exact inScope.not_seen_call fn args loc

theorem value?_call (unknown : ∀ fn args loc, known (.call fn args loc) = none)
    (noCase : fn ≠ .switchCase) :
    Expr.value? known (.call fn args loc) = (Expr.values? known args).bind fn.onValues? := by
  rw [Expr.value?, unknown]
  rw [if_neg noCase]
  rfl

theorem sim_switchCase {value : Option Value} (sound : Sound D scope)
    (inScope : InScope D scope hidden seen) (within : Expr.AllWithin seen args)
    (reads : scope.schema.ReadsArgs D args)
    (tolerant : Tolerates value accepted)
    (arms : ∀ (r : Nat) (hidden' : Nat → Prop), hidden' r →
      SetsAnywhere D final spot hidden' seen known r scope.schema (armsCode (variableName r) args)
        value) :
    Computes D final spot hidden seen known (do
      let result ← declareHere .null
      advanceArgs args
      let home := (← get).current
      armsCode result args
      moveTo home
      pure (.ident result)) scope m value accepted := by
  let r := scope.fn.arena.names
  refine .bind (fun name later => scope.Rebuilt later 1 ∧ name = variableName r ∧ later.Stores r)
    (fun _ _ m' => m' = m.put (variableName r) .null) sound ?_ ?_
  · refine ((Sim.declareHere (· = m.put (variableName r) .null) sound (fun _ => id) ?_).yielding
      (stores_declareHere sound.named)).mono id ?_ (fun _ _ _ _ _ _ => id) fun _ => id
    · intro _ _ _
      exact .of_eq (by rw [Node.null, eval]; rfl) ⟨rfl, rfl⟩
    · rintro name later ⟨⟨current, rebuilt, isName⟩, stores⟩
      exact ⟨current, rebuilt, isName, stores⟩
  rintro _ first m₁ sound₁ current₁ adds₁ ⟨rebuilt, rfl, stores₁⟩
  have same₁ := rebuilt.sameVars
  let hidden' := fun n => hidden n ∨ n = r
  have inScope₁ : InScope D first hidden' seen :=
    inScope.hide same₁ adds₁.later le_rfl stores₁.there
  refine .bind (fun _ later => first.SameVars later)
    (fun _ _ m₂ => m₁.Still m₂ ∧ m₂.env = m₁.env) sound₁
    (sim_advanceArgs args first m₁ sound₁ inScope₁ within
      ((adds₁.later.schema : first.schema = _) ▸ reads)) ?_
  rintro _ second m₂ sound₂ current₂ adds₂ same₂
  have adds := adds₁.trans adds₂
  have made₂ : Made scope second :=
    ⟨adds.current, (same₁.remembers adds₁.later).trans (same₂.remembers adds₂.later) (.inl current₁)⟩
  have sets := (arms r hidden' (.inr rfl)) accepted tolerant second m₂ sound₂
    (inScope₁.remembers (same₂.remembers adds₂.later)) (stores₁.adds adds₂ sound₁.rooted)
    adds.later.schema
  have allowed : ∀ n, second.New n ∨ n = r → scope.New n := by
    rintro n (isNew | rfl)
    · exact adds.later.arena.names.trans isNew
    · exact le_rfl
  have shape : (do
      armsCode (variableName r) args
      moveTo second.current
      pure (.ident (variableName r)) : Emit Node) = (do
        let u ← armsCode (variableName r) args
        moveTo second.current
        pure u) >>= fun _ => pure (.ident (variableName r)) := by
    simp only [bind_assoc, pure_bind]
  refine .get ?_
  rw [shape]
  refine .bind (fun _ later => second.Remembers later) (fun _ later m₃ => m₂.Still m₃ ∧
    Live later spot hidden' seen known m₃ ∧
    ∃ x, value = some x ∧ m₃.env.lookup (variableName r) = some x) sound₂
    ((sets.back.weaken allowed).mono ?_ ?_ ?_ fun _ => id) ?_
  · rintro ⟨⟨live, _, rfl⟩, frame, still, env⟩
    refine ⟨?_, ?_⟩
    · have shown : Live scope spot hidden' seen known m := live.shows fun n shown =>
        ⟨shown.1, fun isHidden => isHidden.elim shown.2 fun same =>
          absurd shown.1 (same ▸ Nat.lt_irrefl _)⟩
      have frame' : m.Frame scope.New m₂ :=
        ((m.frame_put r .null).mono fun n same => same ▸ le_rfl).trans
          (frame.mono fun _ written => written.1)
      exact shown.same (same₁.trans same₂) adds.later frame' (fun _ => Scope.Shows.not_new)
        fun _ memo _ => (adds.open_iff sound.rooted memo.block).mp
    · rw [env, Machine.lookup_put, if_pos rfl]
      rfl
  · rintro _ later ⟨current, inside, remembers, _, rfl⟩
    exact ⟨current, { remembers with same := by rw [remembers.same]; rfl }⟩
  · rintro _ later flow m₃ _ _ ⟨inside, ⟨rfl, still, live, isValue⟩, rfl⟩
    exact ⟨rfl, still, live, isValue⟩
  · rintro _ third m₃ sound₃ current₃ adds₃ remembers₃
    have made : Made scope third := made₂.trans ⟨current₃, remembers₃⟩
    have shown : third.Shows hidden r :=
      ⟨stores₁.there.trans_le (adds₂.trans adds₃).later.arena.names,
        fun isHidden => Nat.lt_irrefl _ (inScope.hides r isHidden)⟩
    refine .pure ⟨made, ?_⟩ ?_
    · intro name isName
      cases isName
      exact ⟨r, shown, rfl⟩
    · rintro ⟨⟨⟨_, _, rfl⟩, _, still₂, _⟩, _, still₃, live, x, isValue, found⟩
      have fixed : Fixed (third.Shows hidden) spot m₃ (.ident (variableName r)) x :=
        .name r x shown found
      rw [isValue]
      refine ⟨rfl, (m.still_put _ .null).trans (still₂.trans still₃), ?_, .ok x, .ok x, fixed.denotes⟩
      exact live.shows fun n shown' => ⟨shown'.1, fun isHidden => shown'.2 (.inl isHidden)⟩

section codes

variable {step next : Emit Node} {value value' : Option Value}

/-- The code of an operator on two values. -/
theorem EvaluatesAnywhere.binary (op : Code.BinaryOp)
    (first : ComputesAnywhere D final spot seen known schema step value)
    (second : ComputesAnywhere D final spot seen known schema next value') :
    ComputesAnywhere D final spot seen known schema (do
      let l ← step
      let r ← next
      Pure.pure (.binary op l r))
      (value.bind fun a => value'.bind fun b => some (Value.binary op a b)) := by
  refine first.both second (fun a b => .ok (Value.binary op a b)) (fun l r => ?_) (fun _ _ => .ok _)
    fun _ _ _ _ _ => nofun
  rfl

/-- The code of an expression has its value. -/
abbrev Coded (D : Path → Prop) (final : Scope) (spot : Spot) (seen : Expr → Prop)
    (known : Expr → Option Value) (schema : Plan.Schema) (e : Expr) : Prop :=
  ComputesAnywhere D final spot seen known schema (codeOf e) (e.value? known)

/-- The code of a list of expressions has their values. -/
theorem sim_codesOf : ∀ {es : List Expr}, (∀ e ∈ es, Coded D final spot seen known schema e) →
    ListsAnywhere D final spot seen known schema (codesOf es) (Expr.values? known es)
  | [], _ => .pure rfl fun _ _ => trivial
  | e :: rest, each => by
    have coded := List.forall_mem_cons.mp each
    refine coded.1.both (sim_codesOf coded.2) (fun x xs => .ok (x :: xs)) (fun node nodes => ?_)
      (fun x xs => .ok (x :: xs)) fun _ _ _ _ => trivial
    rfl

/-- A call by name. -/
theorem sim_callByName (callable : Engine.isCallable fn = true)
    (each : ∀ e ∈ args, Coded D final spot seen known schema e) :
    ComputesAnywhere D final spot seen known schema (return .call fn.name (← codesOf args))
      ((Expr.values? known args).bind fn.onValues?) := by
  refine (sim_codesOf each).map (Engine.callScalar fn.name) (fun nodes => ?_) (fun vs => ?_)
    fun _ _ _ _ => nofun
  · rw [eval]
    congr 1
    funext vs m
    exact callBuiltin_name fn vs m
  · refine ⟨(Func.onValues?_callable callable vs).symm, fun cause failed => ?_⟩
    exact callScalar_ofCall fn callable vs cause failed

theorem Expr.values?_cons_bind (e : Expr) (rest : List Expr) (f : List Value → Option α) :
    (Expr.values? known (e :: rest)).bind f =
      (e.value? known).bind fun a => (Expr.values? known rest).bind fun vs => f (a :: vs) := by
  rw [Expr.values?]
  cases e.value? known with
  | none => rfl
  | some a => cases Expr.values? known rest <;> rfl

/-- The code of a negation. -/
theorem sim_notCode (call : Call) : ∀ {es : List Expr},
    (∀ e ∈ es, Coded D final spot seen known schema e) →
    ComputesAnywhere D final spot seen known schema (notCode call es)
      ((Expr.values? known es).bind Func.not.onValues?)
  | [], _ => .fail
  | _ :: _ :: _, _ => .fail
  | [e], each => by
    rw [Expr.values?_cons_bind]
    refine (each e (.head _)).map (fun v => .ok v.negation) (fun node => ?_) (fun _ => .ok _)
      fun _ _ _ _ => nofun
    rfl

theorem sim_foldCodeFrom (op : Code.BinaryOp) : ∀ {es : List Expr} {step : Emit Node}
    {value : Option Value}, ComputesAnywhere D final spot seen known schema step value →
    (∀ e ∈ es, Coded D final spot seen known schema e) →
    ComputesAnywhere D final spot seen known schema (do foldCodeFrom op (← step) es)
      (value.bind fun a => (Expr.values? known es).bind fun vs =>
        some (vs.foldl (Value.binary op) a))
  | [], step, value, computes, _ => by
    have isSame : (value.bind fun a => (Expr.values? known []).bind fun vs =>
        some (vs.foldl (Value.binary op) a)) = value := by
      cases value <;> rfl
    rw [isSame]
    simpa only [foldCodeFrom, bind_pure] using computes
  | e :: rest, step, value, computes, each => by
    have coded := List.forall_mem_cons.mp each
    have joined := sim_foldCodeFrom op (computes.binary op coded.1) coded.2
    simpa only [Expr.values?_cons_bind, foldCodeFrom, bind_assoc, pure_bind, Option.bind_assoc,
      Option.bind_some, List.foldl_cons] using joined

/-- The code of a connective. -/
theorem sim_foldCode (call : Call) (fn : Func) (op : Code.BinaryOp)
    (folds : ∀ a vs, fn.onValues? (a :: vs) = some (vs.foldl (Value.binary op) a)) :
    ∀ {es : List Expr}, (∀ e ∈ es, Coded D final spot seen known schema e) →
      ComputesAnywhere D final spot seen known schema (foldCode call op es)
        ((Expr.values? known es).bind fn.onValues?)
  | [], _ => .fail
  | e :: rest, each => by
    have coded := List.forall_mem_cons.mp each
    simp only [Expr.values?_cons_bind, folds]
    exact sim_foldCodeFrom op coded.1 coded.2

/-- The code of an operator. -/
theorem sim_pairCode (loc : Location) (op : Code.BinaryOp) (isOperator : operatorOf? fn = some op) :
    ∀ {es : List Expr}, (∀ e ∈ es, Coded D final spot seen known schema e) →
      ComputesAnywhere D final spot seen known schema (pairCode ⟨fn, es, loc⟩ op es)
        ((Expr.values? known es).bind fn.onValues?)
  | [], _ => .fail
  | [_], _ => .fail
  | _ :: _ :: _ :: _, _ => .fail
  | [left, right], each => by
    have nothing : Expr.values? known [] = some [] := rfl
    simp only [Expr.values?_cons_bind, nothing, Option.bind_some, Func.onValues?_operator isOperator]
    have evaluated := (each left (.head _)).binary op (each right (.tail _ (.head _)))
    intro accepted hidden scope m tolerant sound inScope isSchema
    have here := evaluated accepted hidden scope m tolerant sound inScope isSchema
    unfold pairCode
    dsimp only
    split
    · refine .ask (inScope.flagOf? left right) ?_
      rintro _ rfl
      exact here
    · exact here

/-- The code of a case distinction. -/
theorem sim_armsCode (r : Nat) (hidden : Nat → Prop) (isHidden : hidden r) : ∀ {es : List Expr},
    (∀ e ∈ es, Coded D final spot seen known schema e) → es.length % 2 = 1 →
    SetsAnywhere D final spot hidden seen known r schema (armsCode (variableName r) es)
      (Expr.caseValue? known es)
  | [], _, isOdd => nomatch isOdd
  | [default], each, _ => setsAnywhere_value isHidden (each default (.head _))
  | cond :: value :: rest, each, isOdd => by
    obtain ⟨coded, each⟩ := List.forall_mem_cons.mp each
    obtain ⟨codedValue, each⟩ := List.forall_mem_cons.mp each
    have whenTrue := setsAnywhere_value isHidden codedValue
    have whenFalse := sim_armsCode r hidden isHidden each
      (by simp only [List.length_cons] at isOdd; omega)
    intro accepted tolerant scope m sound inScope stores isSchema
    refine .then (coded accepted hidden scope m (.first tolerant) sound inScope isSchema)
      sound (fun _ => .inl) And.left fun node later m' sound' _ adds made _ => ?_
    have schema' : later.schema = schema := made.remembers.live.2.2.2.trans isSchema
    have sub : ∀ n, later.New n ∨ n = r → scope.New n ∨ n = r :=
      fun n => Or.imp_left (Nat.le_trans made.remembers.names)
    have sim := sim_arms (m := m') node sound' (inScope.remembers made.remembers)
      (stores.adds adds sound.rooted) tolerant (schema' ▸ whenTrue) (schema' ▸ whenFalse) isHidden
    simp only [branching, bind_assoc] at sim
    refine .get ((sim.weaken sub).mono ?_ ?_ ?_ fun _ => id)
    · rintro ⟨⟨_, isDeclared⟩, frame, _, _, carries⟩
      exact ⟨carries, frame.defined _ isDeclared⟩
    · exact fun _ third held => made.remembers.trans held (.inl made.current)
    · rintro _ third flow m'' ⟨_, _, _, still, _⟩ _ ⟨rfl, still', live, isValue⟩
      exact ⟨rfl, still.trans still', made.current ▸ live, isValue⟩

mutual

theorem sim_codeOf (unknown : ∀ fn args loc, known (.call fn args loc) = none) :
    ∀ e : Expr, e.Within seen → schema.Reads D e → Coded D final spot seen known schema e
  | .absent, _, _ => .fail
  | .var _, within, _ => fun _ _ _ _ _ sound inScope _ => sim_valueOf sound inScope within
  | .const _, _, _ => fun _ _ _ _ _ _ _ _ => sim_constant
  | .call fn args loc, within, reads => by
    have each : schema.ReadsArgs D args → ∀ e ∈ args, Coded D final spot seen known schema e :=
      sim_each unknown args within
    unfold Coded codeOf
    split
    · exact .fail
    · next notScalar =>
      have isScalar : fn.kind = .scalar := Classical.not_not.mp notScalar
      have readsArgs : fn ≠ .fieldAccess → schema.ReadsArgs D args := by
        intro noAccess
        rcases Plan.Schema.reads_call reads with ⟨_, isAccess, _⟩ | ⟨_, reads⟩
        · exact absurd isAccess noAccess
        · exact reads
      split
      · next op isOperator =>
        rw [value?_call unknown (by rintro rfl; cases isOperator)]
        refine sim_pairCode loc op isOperator (each (readsArgs ?_))
        rintro rfl
        cases isOperator
      · next noOperator =>
        split
        · rw [value?_call unknown (by decide : Func.not ≠ .switchCase)]
          exact sim_notCode _ (each (readsArgs nofun))
        · rw [value?_call unknown (by decide : Func.and ≠ .switchCase)]
          exact sim_foldCode _ .and .and (fun _ _ => rfl) (each (readsArgs nofun))
        · rw [value?_call unknown (by decide : Func.or ≠ .switchCase)]
          exact sim_foldCode _ .or .or (fun _ _ => rfl) (each (readsArgs nofun))
        · split
          · exact .fail
          · next isOdd =>
            intro accepted hidden scope m tolerant sound inScope isSchema
            have isValue : Expr.value? known (.call .switchCase args loc) =
                Expr.caseValue? known args := by
              rw [Expr.value?, unknown]
              rfl
            rw [isValue] at tolerant ⊢
            refine sim_switchCase sound inScope within (isSchema ▸ readsArgs nofun) tolerant ?_
            intro r hidden' isHidden
            rw [isSchema]
            exact sim_armsCode r hidden' isHidden (each (readsArgs nofun)) (by omega)
        · exact fun _ _ _ _ _ _ inScope _ => sim_itemAt inScope
        · intro accepted hidden scope m tolerant sound inScope isSchema
          refine .get ?_
          change Sim D final scope.New spot (match scope.schema.pathOf? (.call .fieldAccess args loc)
            with
            | some p => if scope.schema.has p then readPath p else failWith _
            | none => _) scope m _ _ _ accepted
          rcases Plan.Schema.reads_call reads with ⟨p, _, isPath, isD, has⟩ | ⟨noPath, reads⟩
          · rw [← isSchema] at isPath has
            have located : Located scope spot hidden seen _ p := inScope.pathOf? within isPath
            rw [isPath]
            dsimp only
            rw [if_pos has]
            exact sim_pathValue sound isD located.1 fun live => located.2 known m live
          · rw [isSchema, noPath rfl]
            rw [value?_call unknown (by decide : Func.fieldAccess ≠ .switchCase)] at tolerant ⊢
            exact sim_callByName rfl (each reads) accepted hidden scope m tolerant sound inScope isSchema
        · next noNot noAnd noOr noCase noItem noAccess =>
          rw [value?_call unknown noCase]
          exact sim_callByName
            (Func.callable_of_plain isScalar noOperator noNot noAnd noOr noCase noItem)
            (each (readsArgs noAccess))

theorem sim_each (unknown : ∀ fn args loc, known (.call fn args loc) = none) :
    ∀ es : List Expr, Expr.AllWithin seen es → schema.ReadsArgs D es →
      ∀ e ∈ es, Coded D final spot seen known schema e
  | [], _, _ => nofun
  | e :: rest, within, reads => by
    have reads := Plan.Schema.readsArgs_cons.mp reads
    exact List.forall_mem_cons.mpr
      ⟨sim_codeOf unknown e within.1 reads.1, sim_each unknown rest within.2 reads.2⟩

end

end codes

end parts

end Fusion

end QueryFusion

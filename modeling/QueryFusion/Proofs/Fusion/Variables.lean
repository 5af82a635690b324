import QueryFusion.Proofs.Expr.Evaluate
import QueryFusion.Proofs.Fusion.Entry

/-!
# What variables stand for

While code is made, every variable that expressions may use stands for a code expression that is
fixed once and for all, or for a path of fields. At run time the code expressions, the
declared copies of paths and the paths themselves have the values of the variables.
-/

namespace QueryFusion.Fusion

open Code
open Engine

namespace VarMap

variable {α : Type}

theorem find?_erase (vars : VarMap α) (v w : Var) :
    (vars.erase v).find? w = if w.id = v.id then none else vars.find? w := by
  unfold find? erase
  rw [List.find?_filter]
  split
  · next same =>
    rw [Option.map_eq_none_iff, List.find?_eq_none]
    intro entry _
    simp [same]
  · next apart =>
    congr 2
    funext entry
    by_cases isW : entry.1.id = w.id
    · simp [isW, apart]
    · simp [isW]

theorem find?_insert (vars : VarMap α) (v w : Var) (a : α) :
    (vars.insert v a).find? w = if w.id = v.id then some a else vars.find? w := by
  have erased := vars.find?_erase v w
  unfold find? at erased ⊢
  unfold insert
  rw [List.find?_append]
  split
  · next same =>
    rw [if_pos same, Option.map_eq_none_iff] at erased
    rw [erased]
    simp [same]
  · next apart =>
    rw [if_neg apart] at erased
    rw [← erased]
    cases List.find? _ (vars.erase v).entries with
    | some entry => rfl
    | none => simp [Ne.symm apart]

theorem find?_congr (vars : VarMap α) {v w : Var} (same : v.id = w.id) :
    vars.find? v = vars.find? w := by
  unfold find?
  rw [same]

theorem has_eq_false {vars : VarMap α} {v : Var} : vars.has v = false ↔ vars.find? v = none := by
  unfold has
  cases vars.find? v <;> simp

end VarMap

/-! ## Fixed expressions -/

/-- The variables that are there and not hidden. -/
def Scope.Shows (scope : Scope) (hidden : Nat → Prop) (n : Nat) : Prop :=
  n < scope.fn.arena.names ∧ ¬ hidden n

/-- An expression whose value does not change while a machine stands at a spot and the free variables
keep their values. -/
inductive Fixed (free : Nat → Prop) (spot : Spot) (m : Machine) : Node → Value → Prop
  | lit (l : Code.Literal) : Fixed free spot m (.lit l) (Engine.literalValue l)
  | name (n : Nat) (v : Value) (isFree : free n)
      (found : m.env.lookup (variableName n) = some v) :
      Fixed free spot m (.ident (variableName n)) v
  | not (node : Node) (v : Value) (fixed : Fixed free spot m node v) :
      Fixed free spot m (.not node) v.negation
  | record (there : spot.ordinal ≠ 0) :
      Fixed free spot m (.member (.ident Function.cursor) Code.Member.record []) spot.record
  | describe (there : spot.ordinal ≠ 0) (i : Int64) :
      Fixed free spot m (.member (.ident Function.cursor) Code.Member.describe [.long i])
        (.int (Int64.ofNat (spot.ordinal - 1)))

section fixed

variable {D : Path → Prop} {final scope later : Scope} {spot : Spot} {m m' : Machine}
variable {hidden free more written : Nat → Prop} {node : Node} {v : Value}

theorem Fixed.kept (fixed : Fixed free spot m node v) (frame : m.Frame written m')
    (apart : ∀ n, free n → ¬ written n) (sub : ∀ n, free n → more n) :
    Fixed more spot m' node v := by
  induction fixed with
  | lit l => exact .lit l
  | name n v isFree found =>
    refine .name n v (sub n isFree) ?_
    rw [frame.lookup_kept (apart n isFree)]
    exact found
  | not node v _ ih => exact .not node v ih
  | record there => exact .record there
  | describe there i => exact .describe there i

theorem Fixed.mono (fixed : Fixed free spot m node v) (sub : ∀ n, free n → more n) :
    Fixed more spot m node v :=
  fixed.kept (.refl (fun _ => False) m) (fun _ _ => id) sub

theorem Fixed.eval (fixed : Fixed free spot m node v) (stands : m.Stands final.fn.paths spot) :
    Engine.eval node m = some (.ok (v, m)) := by
  induction fixed with
  | lit l => rw [Engine.eval]; rfl
  | name n v _ found => exact eval_ident found
  | not node v _ ih =>
    rw [Engine.eval, bind_apply, ih]
    rfl
  | record there =>
    rw [eval_member (eval_ident stands.wired.cursor)]
    change (if m.ordinal = 0 then fail .noRecord else pure m.record : Run Value) m = _
    rw [stands.ordinal, if_neg there, stands.record]
    rfl
  | describe there i =>
    rw [Engine.eval, bind_apply, eval_ident stands.wired.cursor]
    change (evalAll [.lit (.long i)] >>= fun vs =>
      callMember (.handle .cursor) Member.describe vs) m = _
    change (if m.ordinal = 0 then fail .noRecord
      else pure (.int (Int64.ofNat (m.ordinal - 1))) : Run Value) m = _
    rw [stands.ordinal, if_neg there]
    rfl

theorem Fixed.denotes (fixed : Fixed (scope.Shows hidden) spot m node v) :
    Denotes final scope spot m node (.ok v) := by
  intro later m' _ _ ready frame
  exact (fixed.kept frame (fun _ shown => shown.1.not_ge) fun _ => id).eval ready.stands

end fixed

/-! ## Expressions in scope -/

end QueryFusion.Fusion

namespace QueryFusion.Expr

mutual

/-- Every variable of an expression can be used. -/
def Within (seen : Expr → Prop) : Expr → Prop
  | absent => True
  | var v => seen (var v)
  | const _ => True
  | call _ args _ => AllWithin seen args

/-- Every variable of some expressions can be used. -/
def AllWithin (seen : Expr → Prop) : List Expr → Prop
  | [] => True
  | e :: rest => Within seen e ∧ AllWithin seen rest

end

end QueryFusion.Expr

namespace QueryFusion.Fusion

open Code
open Engine

/-- A node that is a name is that of a variable that is not hidden. -/
def Scope.Plain (scope : Scope) (hidden : Nat → Prop) (node : Node) : Prop :=
  ∀ name, node = .ident name → ∃ n, scope.Shows hidden n ∧ name = variableName n

/-- The flag that stands for a variable that is compared with zero. -/
def flagTested? (tested other : Expr) : Emit (Option String) := do
  match tested with
  | .var v =>
    match (← get).live.flags.find? v with
    | some flag =>
      if isZero other then
        modify fun scope => { scope with consumed := scope.consumed.increment v }
        pure (some flag)
      else pure none
    | none => pure none
  | _ => pure none

/-- Only variables may be used. They stand for something: for code, or for a path of fields, but
neither for a flag nor for a first item. They do not depend on hidden variables. -/
structure InScope (D : Path → Prop) (scope : Scope) (hidden : Nat → Prop)
    (seen : Expr → Prop) : Prop where
  hides : ∀ n, hidden n → n < scope.fn.arena.names
  vars : ∀ e, seen e → ∃ v, e = .var v
  flags : ∀ v, scope.live.flags.find? v = none
  items : ∀ v, scope.live.items.find? v = none
  value : ∀ v, seen (.var v) → ∃ meaning, scope.live.values.find? v = some meaning ∧
    ∀ p, meaning = .path p → D p ∧ p.arrayPrefix? = none
  path : ∀ v p, seen (.var v) → scope.schema.varPath? v = some p → p.arrayPrefix? = none
  memos : ∀ v memo, scope.live.memos.find? v = some memo →
    memo.block < scope.fn.arena.blocks.size ∧ ∃ n, scope.Shows hidden n ∧ memo.name = variableName n
  plain : ∀ v node readers, seen (.var v) →
    scope.live.values.find? v = some (.code node readers) → scope.Plain hidden node

/-- The values of variables are those of what they stand for. -/
structure Live (scope : Scope) (spot : Spot) (hidden : Nat → Prop) (seen : Expr → Prop)
    (known : Expr → Option Value) (m : Machine) : Prop where
  domain : ∀ e, (known e).isSome ↔ seen e
  code : ∀ v x node readers, known (.var v) = some x →
    scope.live.values.find? v = some (.code node readers) →
    Fixed (scope.Shows hidden) spot m node x
  path : ∀ v x p, known (.var v) = some x → scope.live.values.find? v = some (.path p) →
    x = spot.valueAt p
  memo : ∀ v x p memo, known (.var v) = some x → scope.live.values.find? v = some (.path p) →
    scope.live.memos.find? v = some memo → scope.Open memo.block →
    Fixed (scope.Shows hidden) spot m (.ident memo.name) x
  denoted : ∀ v x p, known (.var v) = some x → scope.schema.varPath? v = some p → x = spot.valueAt p
  record : ∀ v x, known (.var v) = some x → v.id = scope.schema.record.id → x = spot.record

/-- What a step that makes code of an expression does to the state of variables: it may declare copies
of paths, in the current block or in new ones, and count uses. -/
structure Scope.Remembers (scope later : Scope) : Prop where
  same : later = { scope with
    fn := later.fn, current := later.current, touched := later.touched, consumed := later.consumed,
    live := { scope.live with memos := later.live.memos } }
  names : scope.fn.arena.names ≤ later.fn.arena.names
  size : scope.fn.arena.blocks.size ≤ later.fn.arena.blocks.size
  memos : ∀ v memo, later.live.memos.find? v = some memo →
    scope.live.memos.find? v = some memo ∨
    ((memo.block = scope.current ∨ scope.fn.arena.blocks.size ≤ memo.block) ∧
      memo.block < later.fn.arena.blocks.size ∧
      ∃ n, scope.New n ∧ n < later.fn.arena.names ∧ memo.name = variableName n)

section live

variable {D : Path → Prop} {final scope later third : Scope} {spot : Spot} {m m' : Machine}
variable {hidden written : Nat → Prop} {seen : Expr → Prop} {known : Expr → Option Value}

theorem Scope.SameVars.remembers (same : scope.SameVars later) (later' : scope.Later later) :
    scope.Remembers later where
  same := by
    rw [same]
  names := later'.arena.names
  size := later'.arena.size
  memos := by
    intro v memo found
    rw [same] at found
    exact .inl found

theorem Scope.Remembers.live (remembers : scope.Remembers later) :
    later.live.values = scope.live.values ∧ later.live.flags = scope.live.flags ∧
      later.live.items = scope.live.items ∧ later.schema = scope.schema := by
  rw [remembers.same]
  exact ⟨rfl, rfl, rfl, rfl⟩

theorem Scope.Remembers.shows (remembers : scope.Remembers later) (n : Nat)
    (shown : scope.Shows hidden n) : later.Shows hidden n :=
  ⟨shown.1.trans_le remembers.names, shown.2⟩

theorem Scope.Plain.kept {node : Node} (plain : scope.Plain hidden node)
    (names : scope.fn.arena.names ≤ later.fn.arena.names) : later.Plain hidden node := by
  intro name isName
  obtain ⟨n, shown, rfl⟩ := plain name isName
  exact ⟨n, ⟨shown.1.trans_le names, shown.2⟩, rfl⟩

theorem InScope.not_seen_call (inScope : InScope D scope hidden seen) (fn : Func)
    (args : List Expr) (loc : Location) : ¬ seen (.call fn args loc) := by
  intro isSeen
  obtain ⟨v, same⟩ := inScope.vars _ isSeen
  cases same

/-- Variables stay in scope while code is made. -/
theorem InScope.remembers (inScope : InScope D scope hidden seen)
    (remembers : scope.Remembers later) : InScope D later hidden seen := by
  obtain ⟨values, flags, items, schema⟩ := remembers.live
  refine ⟨?_, inScope.vars, flags ▸ inScope.flags, items ▸ inScope.items, ?_, ?_, ?_, ?_⟩
  · exact fun n isHidden => Nat.lt_of_lt_of_le (inScope.hides n isHidden) remembers.names
  · intro v isSeen
    rw [values]
    exact inScope.value v isSeen
  · intro v p isSeen isPath
    exact inScope.path v p isSeen (schema ▸ isPath)
  · intro v memo found
    rcases remembers.memos v memo found with old | ⟨_, below, n, isNew, isLess, isName⟩
    · obtain ⟨below, n, shown, isName⟩ := inScope.memos v memo old
      exact ⟨below.trans_le remembers.size, n, remembers.shows n shown, isName⟩
    · refine ⟨below, n, ⟨isLess, fun isHidden => ?_⟩, isName⟩
      exact Nat.not_lt.mpr isNew (inScope.hides n isHidden)
  · intro v node readers isSeen found
    exact (inScope.plain v node readers isSeen (values ▸ found)).kept remembers.names

theorem Live.remembers (live : Live scope spot hidden seen known m)
    (remembers : scope.Remembers later) (frame : m.Frame written m')
    (apart : ∀ n, scope.Shows hidden n → ¬ written n)
    (opens : ∀ v memo, scope.live.memos.find? v = some memo → later.Open memo.block →
      scope.Open memo.block)
    (added : ∀ v x p memo, known (.var v) = some x → later.live.values.find? v = some (.path p) →
      later.live.memos.find? v = some memo → scope.live.memos.find? v ≠ some memo →
      later.Open memo.block → Fixed (later.Shows hidden) spot m' (.ident memo.name) x) :
    Live later spot hidden seen known m' := by
  obtain ⟨values, flags, items, schema⟩ := remembers.live
  have kept : ∀ {node : Node} {x : Value}, Fixed (scope.Shows hidden) spot m node x →
      Fixed (later.Shows hidden) spot m' node x := fun fixed =>
    fixed.kept frame apart remembers.shows
  refine ⟨live.domain, ?_, ?_, ?_, ?_, ?_⟩
  · intro v x node readers isKnown found
    exact kept (live.code v x node readers isKnown (values ▸ found))
  · intro v x p isKnown found
    exact live.path v x p isKnown (values ▸ found)
  · intro v x p memo isKnown found isMemo isOpen
    by_cases old : scope.live.memos.find? v = some memo
    · exact kept (live.memo v x p memo isKnown (values ▸ found) old (opens v memo old isOpen))
    · exact added v x p memo isKnown found isMemo old isOpen
  · intro v x p isKnown isPath
    exact live.denoted v x p isKnown (schema ▸ isPath)
  · intro v x isKnown isRecord
    exact live.record v x isKnown (schema ▸ isRecord)

theorem Live.same (live : Live scope spot hidden seen known m) (same : scope.SameVars later)
    (later' : scope.Later later) (frame : m.Frame written m')
    (apart : ∀ n, scope.Shows hidden n → ¬ written n)
    (opens : ∀ v memo, scope.live.memos.find? v = some memo → later.Open memo.block →
      scope.Open memo.block) : Live later spot hidden seen known m' := by
  refine live.remembers (same.remembers later') frame apart opens ?_
  intro v x p memo _ _ isMemo isNew _
  rw [same] at isMemo
  exact absurd isMemo isNew

theorem Scope.Shows.not_new {n : Nat} (shown : scope.Shows hidden n) : ¬ scope.New n :=
  shown.1.not_ge

theorem Scope.Remembers.refl (scope : Scope) : scope.Remembers scope where
  same := rfl
  names := le_rfl
  size := le_rfl
  memos := fun _ _ found => .inl found

theorem Scope.Remembers.trans (first : scope.Remembers later) (second : later.Remembers third)
    (moves : later.current = scope.current ∨ scope.fn.arena.blocks.size ≤ later.current) :
    scope.Remembers third where
  same := by
    rw [second.same, first.same]
  names := first.names.trans second.names
  size := first.size.trans second.size
  memos := by
    intro v memo found
    rcases second.memos v memo found with old | ⟨place, below, n, isNew, isLess, isName⟩
    · rcases first.memos v memo old with older | ⟨place, below, n, isNew, isLess, isName⟩
      · exact .inl older
      · exact .inr ⟨place, below.trans_le second.size, n, isNew,
          isLess.trans_le second.names, isName⟩
    · refine .inr ⟨?_, below, n, first.names.trans isNew, isLess, isName⟩
      rcases place with here | beyond
      · rcases moves with same | isNew
        · exact .inl (here.trans same)
        · exact .inr (here ▸ isNew)
      · exact .inr (first.size.trans beyond)

end live

end QueryFusion.Fusion

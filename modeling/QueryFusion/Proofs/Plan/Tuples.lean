import QueryFusion.Plan.Operator
import QueryFusion.Proofs.Expr.Evaluate
import QueryFusion.Proofs.Outcome

/-!
# Tuples

What the operators of a scalar pipeline do to tuples. A select keeps a tuple if its condition is
true, an assign extends it binding by binding, and a project restricts it. There is no result if an
expression has no value for one of the tuples.

Operators that read only the variables of their input have a result that depends on nothing else.
-/

namespace QueryFusion

/-- Every variable of an expression is one of some variables. -/
def Expr.ReadsOnly (e : Expr) (vars : List Var) : Prop :=
  ∀ w ∈ e.occurrences, ∃ v ∈ vars, v.id = w.id

namespace Plan

/-! ## Meaning -/

/-- The values of variables, by the number of the variable. -/
abbrev Tuple := List (Nat × Value)

namespace Tuple

/-- The values that a tuple gives to expressions: those of its variables. -/
def known (t : Tuple) : Expr → Option Value
  | .var v => t.lookup v.id
  | _ => none

/-- Gives a variable a value. -/
def bind (t : Tuple) (v : Var) (x : Value) : Tuple := (v.id, x) :: t

/-- Forgets all but some variables. -/
def restrict (t : Tuple) (vars : List Var) : Tuple :=
  t.filter fun entry => vars.any fun v => v.id == entry.1

/-- The values of some variables in order. -/
def row? (t : Tuple) (vars : List Var) : Option (List Value) := vars.mapM fun v => t.known (.var v)

/-- Extends a tuple binding by binding. -/
def assign? : List Var → List Expr → Tuple → Option Tuple
  | v :: vars, e :: exprs, t => do
    let x ← e.value? t.known
    assign? vars exprs (t.bind v x)
  | _, _, t => some t

/-- The tuple of a scanned record: the record itself, and its position for the other variables. -/
def ofRecord (vars : List Var) (record : Value) (position : Nat) : Tuple :=
  vars.zipIdx.map fun entry =>
    (entry.1.id, if entry.2 = 0 then record else .int (Int64.ofNat position))

/-- The tuples of a scan. -/
def ofRecords (vars : List Var) (records : List Value) : List Tuple :=
  records.mapIdx fun position record => ofRecord vars record position

end Tuple

/-- What an operator of a scalar pipeline makes of a tuple. -/
def Body.onTuple? : Body → Tuple → Option (List Tuple)
  | select cond, t => do
    let c ← cond.value? t.known
    some (if c.truth then [t] else [])
  | assign vars exprs, t => do
    let extended ← t.assign? vars exprs
    some [extended]
  | project vars, t => some [t.restrict vars]
  | _, _ => none

/-- Collects what comes of each element. -/
def gather {α β : Type} (f : α → Option (List β)) (xs : List α) : Option (List β) := do
  let parts ← xs.mapM f
  some parts.flatten

/-- What operators make of tuples, one operator after the other. -/
def tuples? (steps : List Body) (ts : List Tuple) : Option (List Tuple) :=
  steps.foldlM (fun ts body => gather body.onTuple? ts) ts

/-! ## Scoping -/

/-- The bindings of an assign read the variables of its input and of earlier bindings. -/
def AssignScoped (vars : List Var) : List Var → List Expr → Prop
  | v :: more, e :: exprs => e.ReadsOnly vars ∧ AssignScoped (v :: vars) more exprs
  | _, _ => True

/-- An operator of a scalar pipeline reads the variables of its input only. -/
def Body.Scoped (vars : List Var) : Body → Prop
  | select cond => cond.ReadsOnly vars
  | assign more exprs => AssignScoped vars more exprs
  | project kept => ∀ v ∈ kept, (Expr.var v).ReadsOnly vars
  | _ => False

/-- The variables after an operator of a scalar pipeline. -/
def Body.delivers (vars : List Var) : Body → List Var
  | assign more _ => more.reverse ++ vars
  | project kept => kept
  | _ => vars

/-- The variables after the operators of a scalar pipeline. -/
def delivered (vars : List Var) : List Body → List Var
  | [] => vars
  | body :: rest => delivered (body.delivers vars) rest

/-- Every operator of a scalar pipeline reads the variables of its input only. -/
def Scoped (vars : List Var) : List Body → Prop
  | [] => True
  | body :: rest => body.Scoped vars ∧ Scoped (body.delivers vars) rest

/-! ## One tuple at a time -/

section gather

variable {α β γ : Type}

theorem gather_cons (f : α → Option (List β)) (x : α) (xs : List α) :
    gather f (x :: xs) = (f x).bind fun ys => (gather f xs).map (ys ++ ·) := by
  unfold gather
  rw [List.mapM_cons]
  cases f x with
  | none => rfl
  | some ys => cases xs.mapM f <;> rfl

theorem gather_append (f : α → Option (List β)) (xs ys : List α) :
    gather f (xs ++ ys) = (gather f xs).bind fun left => (gather f ys).map (left ++ ·) := by
  induction xs with
  | nil => cases h : gather f ys <;> exact h
  | cons x rest ih =>
    rw [List.cons_append, gather_cons, gather_cons, ih]
    cases f x with
    | none => rfl
    | some first =>
      cases gather f rest with
      | none => rfl
      | some left => cases gather f ys <;> simp

theorem gather_singleton (f : α → Option (List β)) (x : α) : gather f [x] = f x := by
  rw [gather_cons]
  cases f x with
  | none => rfl
  | some ys => exact congrArg some (List.append_nil ys)

theorem gather_bind (f : α → Option (List β)) (g : β → Option (List γ)) (xs : List α) :
    (gather f xs).bind (gather g) = gather (fun x => (f x).bind (gather g)) xs := by
  induction xs with
  | nil => rfl
  | cons x rest ih =>
    rw [gather_cons, gather_cons, ← ih]
    cases f x with
    | none => rfl
    | some first =>
      cases gather f rest with
      | none =>
        change none = (gather g first).bind fun _ => none
        cases gather g first <;> rfl
      | some left => exact gather_append g first left

end gather

theorem tuples?_cons (body : Body) (rest : List Body) (ts : List Tuple) :
    tuples? (body :: rest) ts = (gather body.onTuple? ts).bind (tuples? rest) := by
  rfl

theorem tuples?_eq_gather (steps : List Body) (ts : List Tuple) :
    tuples? steps ts = gather (fun t => tuples? steps [t]) ts := by
  induction steps generalizing ts with
  | nil =>
    induction ts with
    | nil => rfl
    | cons t rest ih =>
      rw [gather_cons, ← ih]
      rfl
  | cons body rest ih =>
    have each : tuples? rest = gather fun t => tuples? rest [t] := funext ih
    have single : ∀ t, tuples? (body :: rest) [t] =
        (body.onTuple? t).bind (gather fun t => tuples? rest [t]) := by
      intro t
      rw [tuples?_cons, gather_singleton, ← each]
    rw [tuples?_cons, each, gather_bind, funext single]

theorem tuples?_nil (steps : List Body) : tuples? steps [] = some [] := by
  rw [tuples?_eq_gather]
  rfl

/-! ## Tuples over variables -/

/-- An expression is one of some variables. -/
def Among (vars : List Var) (e : Expr) : Prop := ∃ w : Var, e = .var w ∧ ∃ v ∈ vars, v.id = w.id

/-- A tuple has values for some variables and for no others. -/
def Tuple.Covers (t : Tuple) (vars : List Var) : Prop :=
  ∀ id, (t.lookup id).isSome ↔ ∃ v ∈ vars, v.id = id

namespace Tuple

variable {t : Tuple} {vars : List Var}

theorem Covers.domain (covers : t.Covers vars) (e : Expr) : (t.known e).isSome ↔ Among vars e := by
  cases e with
  | var w =>
    rw [known, covers]
    constructor
    · exact fun held => ⟨w, rfl, held⟩
    · rintro ⟨w', same, held⟩
      cases same
      exact held
  | absent => exact ⟨nofun, fun ⟨_, same, _⟩ => nomatch same⟩
  | const c => exact ⟨nofun, fun ⟨_, same, _⟩ => nomatch same⟩
  | call fn args loc => exact ⟨nofun, fun ⟨_, same, _⟩ => nomatch same⟩

theorem lookup_restrict (t : Tuple) (vars : List Var) (id : Nat) :
    (t.restrict vars).lookup id =
      if vars.any fun v => v.id == id then t.lookup id else none := by
  induction t with
  | nil => simp [restrict]
  | cons entry rest ih =>
    obtain ⟨key, x⟩ := entry
    unfold restrict at ih ⊢
    rw [List.filter_cons]
    by_cases same : id = key
    · subst same
      by_cases kept : (vars.any fun v => v.id == id) = true
      · simp [kept]
      · rw [if_neg kept, ih, if_neg kept, if_neg kept]
    · split
      · rw [List.lookup_cons, beq_false_of_ne same, ih, List.lookup_cons, beq_false_of_ne same]
      · rw [ih, List.lookup_cons, beq_false_of_ne same]

theorem known_restrict {e : Expr} {x : Value} (isKnown : (t.restrict vars).known e = some x) :
    t.known e = some x := by
  cases e with
  | var w =>
    rw [known, lookup_restrict] at isKnown
    split at isKnown
    · exact isKnown
    · cases isKnown
  | absent => cases isKnown
  | const c => cases isKnown
  | call fn args loc => cases isKnown

theorem Covers.restrict (covers : t.Covers vars) {kept : List Var}
    (sub : ∀ v ∈ kept, ∃ w ∈ vars, w.id = v.id) : (t.restrict kept).Covers kept := by
  intro id
  rw [lookup_restrict]
  split
  · next isKept =>
    obtain ⟨v, member, same⟩ := List.any_eq_true.mp isKept
    have sameId : v.id = id := eq_of_beq same
    refine ⟨fun _ => ⟨v, member, sameId⟩, fun _ => (covers id).mpr ?_⟩
    obtain ⟨w, isVar, isSame⟩ := sub v member
    exact ⟨w, isVar, isSame.trans sameId⟩
  · next notKept =>
    refine ⟨nofun, fun ⟨v, member, same⟩ => absurd ?_ notKept⟩
    exact List.any_eq_true.mpr ⟨v, member, beq_iff_eq.mpr same⟩

theorem Covers.bind (covers : t.Covers vars) (v : Var) (x : Value) :
    (t.bind v x).Covers (v :: vars) := by
  intro id
  unfold Tuple.bind
  rw [List.lookup_cons]
  by_cases same : id = v.id
  · simp [same]
  · rw [beq_false_of_ne same]
    refine (covers id).trans ⟨fun ⟨w, member, isId⟩ => ⟨w, .tail _ member, isId⟩, ?_⟩
    rintro ⟨w, member, isId⟩
    rcases List.mem_cons.mp member with rfl | member
    · exact absurd isId.symm same
    · exact ⟨w, member, isId⟩

theorem lookup_ofRecord {record x : Value} {position id : Nat}
    (found : (ofRecord vars record position).lookup id = some x) :
    ∃ i v, vars[i]? = some v ∧ v.id = id ∧
      x = if i = 0 then record else .int (Int64.ofNat position) := by
  obtain ⟨⟨v, i⟩, member, isEntry⟩ := List.mem_map.mp (mem_of_lookup found)
  obtain ⟨same, isValue⟩ := Prod.mk.inj isEntry
  exact ⟨i, v, List.mem_zipIdx_iff_getElem?.mp member, same, isValue.symm⟩

theorem covers_ofRecord (vars : List Var) (record : Value) (position : Nat) :
    (ofRecord vars record position).Covers vars := by
  intro id
  constructor
  · intro isSome
    obtain ⟨x, found⟩ := Option.isSome_iff_exists.mp isSome
    obtain ⟨i, v, here, same, _⟩ := lookup_ofRecord found
    exact ⟨v, List.mem_of_getElem? here, same⟩
  · rintro ⟨v, member, rfl⟩
    obtain ⟨i, here⟩ := List.mem_iff_getElem?.mp member
    exact lookup_isSome_of_mem (List.mem_map.mpr ⟨(v, i), List.mem_zipIdx_iff_getElem?.mpr here, rfl⟩)

theorem Covers.assign : ∀ {more : List Var} {exprs : List Expr} {vars : List Var} {t t' : Tuple},
    t.Covers vars → more.length ≤ exprs.length → t.assign? more exprs = some t' →
    t'.Covers (more.reverse ++ vars)
  | [], _, _, _, _, covers, _, isTuple => by
    cases isTuple
    exact covers
  | v :: more, e :: exprs, vars, t, t', covers, even, isTuple => by
    obtain ⟨x, _, rest⟩ := Option.bind_eq_some_iff.mp isTuple
    rw [List.reverse_cons, List.append_assoc]
    exact (covers.bind v x).assign (Nat.le_of_succ_le_succ even) rest

end Tuple

end Plan

end QueryFusion

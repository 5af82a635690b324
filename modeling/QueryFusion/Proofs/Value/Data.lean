import QueryFusion.Engine.Machine
import QueryFusion.Proofs.Expr.Evaluate
import QueryFusion.Proofs.Outcome

/-!
# Plain data

Records are plain data: no composite key and no handle occurs in them. What expressions make of plain
data is plain data again.
-/

namespace QueryFusion

namespace Value

/-- A value that a record can hold. -/
inductive IsData : Value → Prop
  | null : IsData null
  | missing : IsData missing
  | bool (b : Bool) : IsData (bool b)
  | int (n : Int64) : IsData (int n)
  | double (x : Float) : IsData (double x)
  | string (s : String) : IsData (string s)
  | list (vs : List Value) (each : ∀ v ∈ vs, IsData v) : IsData (list vs)
  | struct (fields : List (String × Value)) (each : ∀ field ∈ fields, IsData field.2) :
      IsData (struct fields)
  | raw (n : Raw) : IsData (raw n)

variable {v w : Value}

theorem IsData.field? {name : String} (isData : v.IsData) (found : v.field? name = some w) :
    w.IsData := by
  cases isData with
  | struct fields each =>
    obtain ⟨before, after, same, _⟩ := List.lookup_eq_some_iff.mp found
    exact each (name, w) (by rw [same]; simp)
  | _ => cases found

theorem IsData.navigate : ∀ {v : Value} (p : Path), v.IsData → (v.navigate p).IsData
  | v, [], isData => by
    exact isData
  | v, .field name :: rest, isData => by
    rw [Value.navigate]
    cases found : v.field? name with
    | some inner => exact (isData.field? found).navigate rest
    | none => exact .missing
  | v, .element :: _, _ => by
    exact .missing

theorem isData_getD {vs : List Value} (each : ∀ v ∈ vs, v.IsData) {other : Value}
    (isOther : other.IsData) (i : Nat) : (vs.getD i other).IsData := by
  rw [List.getD_eq_getElem?_getD]
  cases here : vs[i]? with
  | some v => exact each v (List.mem_of_getElem? here)
  | none => exact isOther

/-! ## Operators -/

theorem isData_arithmetic (op : Arithmetic) (a b : Value) : (op.apply a b).IsData := by
  have ints : ∀ x y, (op.onInts x y).IsData := by
    intro x y
    cases op <;> unfold Arithmetic.onInts <;> dsimp only <;> first
      | exact .int _
      | (split <;> constructor)
  have doubles : ∀ x y, (op.onDoubles x y).IsData := by
    intro x y
    cases op <;> unfold Arithmetic.onDoubles <;> dsimp only <;> first
      | exact .double _
      | (split <;> constructor)
  unfold Arithmetic.apply
  split
  · exact ints _ _
  · split
    · exact doubles _ _
    · exact .missing

theorem isData_combinator (op : Combinator) {a b : Value} (first : a.IsData) (second : b.IsData) :
    (op.apply a b).IsData := by
  unfold Combinator.apply
  split
  · exact first
  · split
    · exact second
    · cases op with
      | add => exact isData_arithmetic .add a b
      | least => dsimp only; split <;> assumption
      | greatest => dsimp only; split <;> assumption

theorem isData_comparison {test : Value → Value → Value} (tests : ∀ a b, (test a b).IsData)
    (a b : Value) : (comparison test a b).IsData := by
  unfold comparison
  split
  · exact .null
  · exact tests a b

theorem isData_ordered (test : Ordering → Bool) (a b : Value) : (ordered test a b).IsData := by
  unfold ordered
  split
  · exact .bool _
  · exact .null

theorem isData_conj (a b : Value) : (conj a b).IsData := by
  unfold conj
  split <;> constructor

theorem isData_disj (a b : Value) : (disj a b).IsData := by
  unfold disj
  split <;> constructor

theorem isData_binary (op : Code.BinaryOp) {a b : Value} (first : a.IsData) (second : b.IsData) :
    (binary op a b).IsData := by
  cases op with
  | add | sub | mul | div | mod => exact isData_arithmetic _ a b
  | and => exact isData_conj a b
  | or => exact isData_disj a b
  | eq | ne => exact isData_comparison (fun _ _ => .bool _) a b
  | lt | le | gt | ge | unnamed => exact isData_comparison (isData_ordered _) a b
  | aggAdd => exact isData_combinator .add first second
  | aggMax => exact isData_combinator .greatest first second
  | aggMin => exact isData_combinator .least first second

theorem isData_negation (v : Value) : v.negation.IsData := by
  unfold negation
  split <;> constructor

end Value

variable {fn : Func} {x : Value}

namespace Engine

open Value

/-! ## Scalar functions -/

theorem isData_applyKnown {v w : Value} (applied : applyKnown fn v w = .ok x) : x.IsData := by
  have texts : ∀ (f : String → Value) (v : Value), (∀ s, (f s).IsData) → (onText f v).IsData := by
    intro f v each
    cases v with
    | string s => exact each s
    | _ => exact .missing
  have tests : ∀ (f : String → String → Bool) (v w : Value), (onTexts f v w).IsData := by
    intro f v w
    unfold onTexts
    split <;> constructor
  unfold applyKnown at applied
  split at applied <;> first
    | (obtain rfl := Except.ok.inj applied; exact texts _ _ fun _ => by constructor)
    | (obtain rfl := Except.ok.inj applied; exact tests _ _ _)
    | (obtain rfl := Except.ok.inj applied; exact isData_arithmetic _ _ _)
    | (cases applied
       unfold absolute
       split
       · split <;> constructor
       · split <;> constructor
       · exact .missing)
    | cases applied

theorem isData_applyScalar {v w : Value} (isData : v.IsData)
    (applied : applyScalar fn v w = .ok x) : x.IsData := by
  unfold applyScalar at applied
  split at applied
  case h_7 =>
    cases applied
    unfold fieldAccess
    split
    · exact isData.navigate _
    · exact .missing
  case h_8 =>
    cases applied
    unfold listLength
    split <;> constructor
  case h_10 => exact isData_applyKnown applied
  all_goals
    cases applied
    constructor

theorem isData_callScalar {name : String} {args : List Value}
    (each : ∀ v ∈ args, v.IsData) (called : callScalar name args = .ok x) : x.IsData := by
  unfold callScalar at called
  split at called
  · split at called
    · obtain ⟨_, _, applied⟩ := Except.bind_eq_ok.mp called
      exact isData_applyScalar (isData_getD each .missing 0) applied
    · cases called
  · cases called

end Engine

open Value

theorem Constant.isData_value? {c : Constant} (isValue : c.value? = some x) : x.IsData := by
  cases c with
  | foreign => cases isValue
  | _ => cases isValue; constructor

theorem Func.isData_onValues? {vs : List Value} (each : ∀ v ∈ vs, v.IsData)
    (isValue : fn.onValues? vs = some x) : x.IsData := by
  have folds : ∀ (op : Code.BinaryOp) (rest : List Value) (a : Value), a.IsData →
      (∀ v ∈ rest, v.IsData) → (rest.foldl (binary op) a).IsData := by
    intro op rest
    induction rest with
    | nil => exact fun a isData _ => isData
    | cons b rest ih =>
      intro a isData others
      obtain ⟨second, others⟩ := List.forall_mem_cons.mp others
      exact ih _ (isData_binary op isData second) others
  unfold Func.onValues? at isValue
  split at isValue
  case h_1 =>
    cases isValue
    exact isData_negation _
  case h_2 | h_3 =>
    cases isValue
    obtain ⟨first, others⟩ := List.forall_mem_cons.mp each
    exact folds _ _ _ first others
  case h_15 =>
    cases called : Engine.callScalar fn.name vs with
    | error cause => rw [called] at isValue; cases isValue
    | ok y =>
      rw [called] at isValue
      cases isValue
      exact Engine.isData_callScalar each called
  all_goals
    cases isValue
    obtain ⟨first, others⟩ := List.forall_mem_cons.mp each
    exact isData_binary _ first (others _ (.head _))

namespace Expr

variable {known : Expr → Option Value}

mutual

theorem isData_value? (each : ∀ e x, known e = some x → x.IsData) :
    ∀ (e : Expr) {x : Value}, e.value? known = some x → x.IsData
  | absent, _, isValue => by
    cases isValue
  | var v, _, isValue => by
    exact each _ _ isValue
  | const c, _, isValue => by
    exact Constant.isData_value? isValue
  | call fn args loc, x, isValue => by
    rw [value?] at isValue
    split at isValue
    · next found =>
      cases isValue
      exact each _ _ found
    · split at isValue
      · exact isData_caseValue? each args isValue
      · obtain ⟨vs, isValues, applied⟩ := Option.bind_eq_some_iff.mp isValue
        exact Func.isData_onValues? (isData_values? each args isValues) applied

theorem isData_values? (each : ∀ e x, known e = some x → x.IsData) :
    ∀ (es : List Expr) {vs : List Value}, values? known es = some vs → ∀ v ∈ vs, v.IsData
  | [], _, isValues => by
    cases isValues
    exact nofun
  | e :: rest, _, isValues => by
    obtain ⟨v, isValue, isValues⟩ := Option.bind_eq_some_iff.mp isValues
    obtain ⟨vs, isRest, isValues⟩ := Option.bind_eq_some_iff.mp isValues
    cases isValues
    exact List.forall_mem_cons.mpr ⟨isData_value? each e isValue, isData_values? each rest isRest⟩

theorem isData_caseValue? (each : ∀ e x, known e = some x → x.IsData) :
    ∀ (es : List Expr) {x : Value}, caseValue? known es = some x → x.IsData
  | [], _, isValue => by
    cases isValue
    exact .null
  | [e], _, isValue => by
    exact isData_value? each e isValue
  | cond :: value :: rest, _, isValue => by
    obtain ⟨c, _, isValue⟩ := Option.bind_eq_some_iff.mp isValue
    split at isValue
    · exact isData_value? each value isValue
    · exact isData_caseValue? each rest isValue

end

end Expr

end QueryFusion

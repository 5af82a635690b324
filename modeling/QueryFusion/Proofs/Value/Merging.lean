import Mathlib.Data.List.Perm.Basic
import QueryFusion.Value.Operation

/-!
# Partial aggregates merge

An accumulator of integers that passes over unknown values is an optional integer: it has a value once
it has met a known one. On optional integers the combinators are associative and commutative, and
nothing is neutral. So what is accumulated does not depend on the order of the values, and partial
results combine to the result of one pass.
-/

namespace QueryFusion.Value

/-- Whether a value is an integer or unknown. -/
def IsIntOrUnknown (v : Value) : Prop := v.isUnknown = true ∨ ∃ n, v = int n

/-- The integer of a value. -/
def int? : Value → Option Int64
  | int n => some n
  | _ => none

/-- An optional integer as a value. -/
def ofInt? : Option Int64 → Value
  | some n => int n
  | none => null

theorem int?_ofInt? (n : Option Int64) : (ofInt? n).int? = n := by cases n <;> rfl

theorem ofInt?_isIntOrUnknown : ∀ n : Option Int64, (ofInt? n).IsIntOrUnknown
  | some n => .inr ⟨n, rfl⟩
  | none => .inl rfl

theorem IsIntOrUnknown.int?_eq_none_iff {v : Value} (kind : v.IsIntOrUnknown) :
    v.int? = none ↔ v.isUnknown = true := by
  rcases kind with unknown | ⟨n, rfl⟩
  · cases v <;> first | exact ⟨fun _ => rfl, fun _ => rfl⟩ | cases unknown
  · exact ⟨nofun, nofun⟩

namespace Combinator

variable {op : Combinator} {seed : Option Int64}

/-- What a combinator makes of two integers. -/
def onInts : Combinator → Int64 → Int64 → Int64
  | add, x, y => x + y
  | least, x, y => if y < x then y else x
  | greatest, x, y => if x < y then y else x

instance : Std.Associative op.onInts where
  assoc x y z := by
    cases op with
    | add => exact Int64.add_assoc x y z
    | least | greatest => grind [onInts]

instance : Std.Commutative op.onInts where
  comm x y := by
    cases op with
    | add => exact Int64.add_comm x y
    | least | greatest => grind [onInts]

/-- What a combinator makes of two optional integers. -/
abbrev merge (op : Combinator) : Option Int64 → Option Int64 → Option Int64 := Option.merge op.onInts

theorem apply_ofInt? (op : Combinator) (total : Option Int64) {v : Value} (kind : v.IsIntOrUnknown) :
    op.apply (ofInt? total) v = ofInt? (op.merge total v.int?) := by
  by_cases unknown : v.isUnknown = true
  · rw [kind.int?_eq_none_iff.mpr unknown]
    unfold Combinator.apply
    rw [if_pos unknown]
    cases total <;> rfl
  · obtain ⟨n, rfl⟩ := kind.resolve_left unknown
    cases total with
    | none => rfl
    | some m =>
      cases op with
      | add => rfl
      | least | greatest => grind [apply, isUnknown, compare?, ofInt?, int?, onInts, Option.merge]

/-- The optional integer that is accumulated from some values. -/
def merged (op : Combinator) (seed : Option Int64) (vs : List Value) : Option Int64 :=
  (vs.map int?).foldl op.merge seed

theorem foldl_ofInt? (op : Combinator) : ∀ {vs : List Value} (total : Option Int64),
    (∀ v ∈ vs, v.IsIntOrUnknown) → vs.foldl op.apply (ofInt? total) = ofInt? (op.merged total vs)
  | [], _, _ => rfl
  | v :: vs, total, kinds => by
    rw [List.foldl_cons, op.apply_ofInt? total (kinds v (.head _))]
    exact op.foldl_ofInt? _ fun w member => kinds w (List.mem_cons_of_mem v member)

theorem merged_append (neutral : op.merge seed seed = seed) (vs ws : List Value) :
    op.merged seed (vs ++ ws) = op.merge (op.merged seed vs) (op.merged seed ws) := by
  have absorbed : op.merge (op.merged seed vs) seed = op.merged seed vs := calc
    _ = op.merge seed (op.merged seed vs) := Std.Commutative.comm _ _
    _ = op.merged (op.merge seed seed) vs := List.foldl_assoc.symm
    _ = op.merged seed vs := by rw [neutral]
  calc
    _ = op.merged (op.merged seed vs) ws := by rw [merged, List.map_append, List.foldl_append]; rfl
    _ = op.merged (op.merge (op.merged seed vs) seed) ws := by rw [absorbed]
    _ = op.merge (op.merged seed vs) (op.merged seed ws) := List.foldl_assoc

theorem merged_flatten (neutral : op.merge seed seed = seed) :
    ∀ (parts : List (List Value)) (vs : List Value),
      (parts.map (op.merged seed)).foldl op.merge (op.merged seed vs) =
        op.merged seed (vs ++ parts.flatten)
  | [], vs => by rw [List.flatten_nil, List.append_nil]; rfl
  | part :: parts, vs => by
    rw [List.map_cons, List.foldl_cons, ← merged_append neutral, merged_flatten neutral parts,
      List.flatten_cons, List.append_assoc]

theorem merged_eq_none_iff : ∀ {vs : List Value} {total : Option Int64},
    op.merged total vs = none ↔ total = none ∧ ∀ v ∈ vs, v.int? = none
  | [], total => by simp [merged]
  | v :: vs, total => by
    have step : op.merged total (v :: vs) = op.merged (op.merge total v.int?) vs := rfl
    rw [step, merged_eq_none_iff, List.forall_mem_cons, ← and_assoc]
    cases total <;> cases v.int? <;> simp [merge, Option.merge]

/-- Integers and unknown values are accumulated from null, or to a sum from zero, in parts as in one
pass. The results of two lists combine to that of both, the order of the values does not matter, and
from null the result is null exactly if no value is known. The results for the parts of any partition,
accumulated from the same seed or, if there are parts, from null, give the result of one pass. -/
theorem foldl_apply_merges (op : Combinator) (seed : Value) (vs ws : List Value)
    (isSeed : seed = null ∨ op = add ∧ seed = int 0) (kinds : ∀ v ∈ vs ++ ws, v.IsIntOrUnknown) :
    let total := List.foldl op.apply seed
    total (vs ++ ws) = op.apply (total vs) (total ws) ∧
    (∀ vs', vs'.Perm vs → total vs' = total vs) ∧
    (seed = null → (total vs = null ↔ ∀ v ∈ vs, v.isUnknown = true)) ∧
    ∀ parts : List (List Value), parts.flatten.Perm vs →
      total (parts.map total) = total vs ∧
      (parts ≠ [] → (parts.map total).foldl op.apply null = total vs) := by
  obtain ⟨s, rfl, neutral⟩ : ∃ s, seed = ofInt? s ∧ op.merge s s = s := by
    rcases isSeed with rfl | ⟨rfl, rfl⟩
    · exact ⟨none, rfl, rfl⟩
    · exact ⟨some 0, rfl, rfl⟩
  have first : ∀ v ∈ vs, v.IsIntOrUnknown := fun v member => kinds v (List.mem_append_left ws member)
  have second : ∀ v ∈ ws, v.IsIntOrUnknown := fun v member => kinds v (List.mem_append_right vs member)
  have reordered : ∀ vs', vs'.Perm vs → op.merged s vs' = op.merged s vs := fun vs' perm =>
    (perm.map int?).foldl_eq s
  dsimp only
  rw [foldl_ofInt? op s kinds, foldl_ofInt? op s first, foldl_ofInt? op s second,
    apply_ofInt? op _ (ofInt?_isIntOrUnknown _), int?_ofInt?, merged_append neutral]
  refine ⟨rfl, fun vs' perm => ?_, fun isNull => ?_, fun parts perm => ?_⟩
  · rw [foldl_ofInt? op s fun v member => first v (perm.mem_iff.mp member), reordered vs' perm]
  · have null_iff : ∀ n : Option Int64, ofInt? n = null ↔ n = none := fun n => by
      cases n <;> simp [ofInt?]
    rw [null_iff, merged_eq_none_iff, ← null_iff s, and_iff_right isNull]
    exact forall₂_congr fun v member => (first v member).int?_eq_none_iff
  · have locals : parts.map (List.foldl op.apply (ofInt? s)) =
        (parts.map (op.merged s)).map ofInt? := by
      rw [List.map_map]
      exact List.map_congr_left fun part isPart => foldl_ofInt? op s fun v member =>
        first v (perm.mem_iff.mp (List.mem_flatten.mpr ⟨part, isPart, member⟩))
    have globals : ∀ g, (parts.map (List.foldl op.apply (ofInt? s))).foldl op.apply (ofInt? g) =
        ofInt? ((parts.map (op.merged s)).foldl op.merge g) := by
      intro g
      rw [locals, foldl_ofInt? op g, merged, List.map_map,
        show int? ∘ ofInt? = id from funext int?_ofInt?, List.map_id]
      · rintro _ member
        obtain ⟨n, -, rfl⟩ := List.mem_map.mp member
        exact ofInt?_isIntOrUnknown n
    rw [← reordered _ perm]
    refine ⟨(globals s).trans (congrArg ofInt? (merged_flatten neutral parts [])), fun some => ?_⟩
    rw [show null = ofInt? none from rfl, globals]
    cases parts with
    | nil => exact absurd rfl some
    | cons part parts =>
      rw [List.map_cons, List.foldl_cons, List.flatten_cons, ← merged_flatten neutral]
      congr 2
      cases op.merged s part <;> rfl

/-- A sum from zero over two parts, one of them without a known value. -/
theorem foldl_add_merges :
    ([[int 1, null], [missing]].map (List.foldl add.apply (int 0))).foldl add.apply null =
      List.foldl add.apply (int 0) [missing, int 1, null] := by
  refine ((foldl_apply_merges add (int 0) [missing, int 1, null] [] (.inr ⟨rfl, rfl⟩) ?_).2.2.2
    [[int 1, null], [missing]] ?_).2 nofun
  · intro v member
    simp only [List.append_nil, List.mem_cons, List.not_mem_nil, or_false] at member
    rcases member with rfl | rfl | rfl
    · exact .inl rfl
    · exact .inr ⟨1, rfl⟩
    · exact .inl rfl
  · exact .trans (.cons _ (.swap missing null [])) (.swap missing (int 1) [null])

end Combinator

end QueryFusion.Value

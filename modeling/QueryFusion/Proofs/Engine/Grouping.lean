import Mathlib.Algebra.Group.Int.Defs
import Mathlib.Algebra.GroupWithZero.Nat
import Mathlib.Data.List.Induction
import Mathlib.Tactic.ByContra
import QueryFusion.Engine.Aggregator
import QueryFusion.Plan.Dataset
import QueryFusion.Proofs.Outcome

/-!
# What a hash aggregator holds

A hash aggregator that was given some entries holds one group for each encoding of their keys, in the
order in which the encodings first appeared. The key of a group is the first one that was given, and
its value accumulates the values that were given under the encoding. An entry is refused exactly if
the encodings seen so far take more memory than the budget has. The budget of a configuration is the
product of its two sizes as a signed word, so it is the product itself only if that is a 64-bit number.

Groups are found through hashes, but which hash is used does not matter: every group is in the bucket
of its hash.
-/

namespace QueryFusion

/-! ## First appearances -/

/-- The elements whose code did not appear before, in order. -/
def distinctBy {α β : Type} [DecidableEq β] (code : α → β) : List α → List α
  | [] => []
  | a :: rest => a :: (distinctBy code rest).filter fun b => code b ≠ code a

section distinct

variable {α β γ : Type} [DecidableEq β] {code : α → β} {a : α} {as bs : List α}

theorem mem_distinctBy_of_new : ∀ {as : List α}, a ∈ distinctBy code as → a ∈ as
  | _ :: _, member => by
    rcases List.mem_cons.mp member with rfl | later
    · exact .head _
    · exact .tail _ (mem_distinctBy_of_new (List.mem_filter.mp later).1)

/-- Every code is that of a first appearance. -/
theorem exists_distinctBy : ∀ {as : List α}, a ∈ as → ∃ b ∈ distinctBy code as, code b = code a
  | b :: rest, member => by
    by_cases same : code b = code a
    · exact ⟨b, .head _, same⟩
    · rcases List.mem_cons.mp member with rfl | later
      · exact absurd rfl same
      · obtain ⟨c, isFirst, isCode⟩ := exists_distinctBy later
        refine ⟨c, .tail _ (List.mem_filter.mpr ⟨isFirst, ?_⟩), isCode⟩
        exact decide_eq_true fun isSame => same (isSame.symm.trans isCode)

theorem distinctBy_pairwise (code : α → β) :
    ∀ as : List α, (distinctBy code as).Pairwise fun a b => code a ≠ code b
  | [] => .nil
  | a :: rest => by
    refine .cons (fun b member => ?_) ((distinctBy_pairwise code rest).filter _)
    exact (of_decide_eq_true (List.mem_filter.mp member).2).symm

/-- One more element counts if its code is new. -/
theorem distinctBy_concat (code : α → β) (a : α) : ∀ as : List α,
    distinctBy code (as ++ [a]) =
      if ∃ b ∈ as, code b = code a then distinctBy code as else distinctBy code as ++ [a]
  | [] => by simp [distinctBy]
  | b :: rest => by
    rw [List.cons_append, distinctBy, distinctBy_concat code a rest, distinctBy]
    by_cases later : ∃ c ∈ rest, code c = code a
    · rw [if_pos later, if_pos]
      obtain ⟨c, member, same⟩ := later
      exact ⟨c, .tail _ member, same⟩
    · rw [if_neg later, List.filter_append]
      by_cases same : code b = code a
      · simp [same]
      · rw [if_neg]
        · simp [Ne.symm same]
        · rintro ⟨c, member, isCode⟩
          rcases List.mem_cons.mp member with rfl | isLater
          · exact same isCode
          · exact later ⟨c, isLater, isCode⟩

theorem distinctBy_map (code : α → β) (f : γ → α) : ∀ cs : List γ,
    distinctBy code (cs.map f) = (distinctBy (code ∘ f) cs).map f
  | [] => rfl
  | c :: rest => by
    rw [List.map_cons, distinctBy, distinctBy_map code f rest, distinctBy, List.map_cons,
      List.filter_map]
    rfl

theorem distinctBy_prefix (code : α → β) (as bs : List α) :
    distinctBy code as <+: distinctBy code (as ++ bs) := by
  induction bs using List.reverseRecOn with
  | nil => simp only [List.append_nil, List.prefix_refl]
  | append_singleton bs b ih =>
    refine ih.trans ?_
    rw [← List.append_assoc, distinctBy_concat]
    split
    · exact List.prefix_rfl
    · exact List.prefix_append _ _

end distinct

namespace Engine

variable {i : Nat} {kind : HashKind} {budget : Int64}

/-! ## Entries -/

/-- A value that is given to an aggregator under a key. -/
abbrev Entry := Value × Value

/-- The keys of some entries, each encoding once. -/
def keysOf (entries : List Entry) : List Value := distinctBy Value.encode (entries.map Prod.fst)

/-- What a step makes of the values of the entries with the encoding of a key, from a seed on. -/
def totalBy (step : Value → Value → Value) (seed : Value) (entries : List Entry) (k : Value) : Value :=
  (entries.filter fun entry => entry.1.encode = k.encode).foldl (fun sum entry => step sum entry.2) seed

/-- The groups of some entries under a step. -/
def groupsBy (step : Value → Value → Value) (seed : Value) (entries : List Entry) : List Group :=
  (keysOf entries).map fun k => { key := k, code := k.encode, value := totalBy step seed entries k }

/-- The memory that the groups of some entries are charged with. -/
def memoryOf (entries : List Entry) : Nat :=
  ((keysOf entries).map fun k => groupCost k.encode).sum

section entries

variable {entries more : List Entry} {entry : Entry}

theorem keysOf_concat (entries : List Entry) (entry : Entry) : keysOf (entries ++ [entry]) =
    if ∃ other ∈ entries, other.1.encode = entry.1.encode then keysOf entries
    else keysOf entries ++ [entry.1] := by
  unfold keysOf
  rw [List.map_append, List.map_singleton, distinctBy_concat]
  simp only [List.mem_map, exists_exists_and_eq_and]

theorem totalBy_concat (step : Value → Value → Value) (seed : Value) (entries : List Entry)
    (entry : Entry) (k : Value) : totalBy step seed (entries ++ [entry]) k =
      if entry.1.encode = k.encode then step (totalBy step seed entries k) entry.2
      else totalBy step seed entries k := by
  unfold totalBy
  by_cases same : entry.1.encode = k.encode <;> simp [same]

theorem totalBy_of_new {k : Value} (isNew : ∀ entry ∈ entries, entry.1.encode ≠ k.encode)
    (step : Value → Value → Value) (seed : Value) : totalBy step seed entries k = seed := by
  unfold totalBy
  rw [List.filter_eq_nil_iff.mpr fun entry member => by simpa using isNew entry member]
  rfl

theorem memoryOf_append_le (entries more : List Entry) :
    memoryOf entries ≤ memoryOf (entries ++ more) := by
  unfold memoryOf keysOf
  rw [List.map_append]
  obtain ⟨rest, same⟩ := distinctBy_prefix Value.encode (entries.map Prod.fst) (more.map Prod.fst)
  rw [← same, List.map_append, List.sum_append]
  exact Nat.le_add_right _ _

/-- Once a budget is exceeded, it stays so. -/
theorem exceeds_append (exceeded : exceeds (memoryOf entries) budget = true) :
    exceeds (memoryOf (entries ++ more)) budget = true := by
  unfold exceeds at exceeded ⊢
  have grows := memoryOf_append_le entries more
  rw [Bool.and_eq_true, decide_eq_true_eq, decide_eq_true_eq] at exceeded ⊢
  exact ⟨exceeded.1, by omega⟩

end entries

/-! ## Tables -/

namespace GroupTable

variable {hash : List UInt8 → UInt64} {table : GroupTable} {code : List UInt8} {group : Group}

/-- Every group is in the bucket of its hash. -/
def Indexed (hash : List UInt8 → UInt64) (table : GroupTable) : Prop :=
  ∀ (i : Nat) (group : Group), table.groups[i]? = some group →
    i ∈ table.buckets.getD (hash group.code) []

theorem indexed_empty (hash : List UInt8 → UInt64) : Indexed hash {} := by
  intro i group found
  cases found

theorem code_of_find? (found : table.find? hash code = some i) :
    ∃ group, table.groups[i]? = some group ∧ group.code = code := by
  have holds := List.find?_some found
  split at holds
  · next group here => exact ⟨group, here, eq_of_beq holds⟩
  · cases holds

/-- A group is found if there is one. -/
theorem Indexed.code_ne (indexed : table.Indexed hash) (missed : table.find? hash code = none) :
    ∀ group ∈ table.groups, group.code ≠ code := by
  rintro group member rfl
  obtain ⟨i, here⟩ := Array.getElem?_of_mem member
  have isNone := List.find?_eq_none.mp missed i (indexed i group here)
  simp only [here, BEq.rfl, not_true_eq_false] at isNone

theorem Indexed.insert (indexed : table.Indexed hash) (group : Group) :
    (table.insert hash group).Indexed hash := by
  intro i other here
  change (table.groups.push group)[i]? = some other at here
  change i ∈ (table.buckets.insert (hash group.code) _).getD (hash other.code) []
  rw [Array.getElem?_push] at here
  rw [Std.HashMap.getD_insert]
  split at here
  · next last =>
    cases here
    simp [last]
  · have isThere := indexed i other here
    split
    · next same =>
      rw [← eq_of_beq same] at isThere
      exact List.mem_append_left _ isThere
    · exact isThere

theorem Indexed.update (indexed : table.Indexed hash) (i : Nat) (change : Value → Value) :
    (table.update i change).Indexed hash := by
  intro j group here
  change (table.groups.modify i _)[j]? = some group at here
  rw [Array.getElem?_modify] at here
  split at here
  · obtain ⟨before, isBefore, rfl⟩ := Option.map_eq_some_iff.mp here
    exact indexed j before isBefore
  · exact indexed j group here

/-- Every group is in the bucket of its hash once, and in no other. -/
def Filed (hash : List UInt8 → UInt64) (table : GroupTable) : Prop :=
  ∀ (w : UInt64) (i : Nat), (table.buckets.getD w []).count i =
    (table.groups[i]?.any fun group => hash group.code == w).toNat

theorem Filed.insert (filed : table.Filed hash) (group : Group) :
    (table.insert hash group).Filed hash := by
  intro w i
  have before := filed w i
  change ((table.buckets.insert (hash group.code) _).getD w []).count i =
    ((table.groups.push group)[i]?.any fun group => hash group.code == w).toNat
  rw [Std.HashMap.getD_insert, Array.getElem?_push]
  by_cases isLast : i = table.groups.size
  · rw [isLast, Array.getElem?_eq_none (Nat.le_refl _)] at before
    rw [if_pos isLast, isLast]
    by_cases same : hash group.code = w
    · subst same
      simpa using before
    · have apart : (hash group.code == w) = false := beq_false_of_ne same
      simpa [apart] using before
  · rw [if_neg isLast]
    by_cases same : hash group.code = w
    · subst same
      simpa [Ne.symm isLast] using before
    · simpa [same] using before

theorem Filed.update (filed : table.Filed hash) (i : Nat) (change : Value → Value) :
    (table.update i change).Filed hash := by
  intro w j
  refine (filed w j).trans ?_
  change _ = ((table.groups.modify i _)[j]?.any fun group => hash group.code == w).toNat
  rw [Array.getElem?_modify]
  split
  · cases table.groups[j]? <;> rfl
  · rfl

section groups

variable {step : Value → Value → Value} {seed k v : Value} {entries : List Entry}

/-- A key that was seen before: its group gets the value. -/
theorem update_groupsBy (groups : table.groups.toList = groupsBy step seed entries)
    (found : table.find? hash k.encode = some i) : keysOf (entries ++ [(k, v)]) = keysOf entries ∧
      (table.update i (step · v)).groups.toList = groupsBy step seed (entries ++ [(k, v)]) := by
  obtain ⟨group, here, isCode⟩ := code_of_find? found
  have listed : ∀ j : Nat, table.groups[j]? = (keysOf entries)[j]?.map fun k =>
      { key := k, code := k.encode, value := totalBy step seed entries k : Group } := by
    intro j
    rw [← Array.getElem?_toList, groups, groupsBy, List.getElem?_map]
  rw [listed i] at here
  obtain ⟨first, isFirst, rfl⟩ := Option.map_eq_some_iff.mp here
  have isFirst' : first ∈ keysOf entries := List.mem_of_getElem? isFirst
  obtain ⟨entry, isEntry, sameKey⟩ := List.mem_map.mp (mem_distinctBy_of_new isFirst')
  have keys : keysOf (entries ++ [(k, v)]) = keysOf entries := by
    rw [keysOf_concat, if_pos ⟨entry, isEntry, (congrArg Value.encode sameKey).trans isCode⟩]
  refine ⟨keys, List.ext_getElem? fun j => ?_⟩
  change (table.groups.modify i _).toList[j]? = _
  rw [Array.getElem?_toList, Array.getElem?_modify, groupsBy, keys, List.getElem?_map, listed j]
  cases isKey : (keysOf entries)[j]? with
  | none => split <;> rfl
  | some other =>
    have unique : i = j ↔ k.encode = other.encode := by
      constructor
      · rintro rfl
        cases isFirst.symm.trans isKey
        exact isCode.symm
      · intro same
        by_contra apart
        have distinct := distinctBy_pairwise Value.encode (entries.map Prod.fst)
        have differ := List.pairwise_iff_getElem.mp distinct
        obtain ⟨below, atFirst⟩ := List.getElem?_eq_some_iff.mp isFirst
        obtain ⟨below', atOther⟩ := List.getElem?_eq_some_iff.mp isKey
        have sameCode : first.encode = other.encode := isCode.trans same
        rcases Nat.lt_or_gt_of_ne apart with less | less
        · exact differ i j below below' less (by rw [← atFirst, ← atOther] at sameCode; exact sameCode)
        · exact differ j i below' below less
            (by rw [← atFirst, ← atOther] at sameCode; exact sameCode.symm)
    simp only [Option.map_some, totalBy_concat, unique]
    split <;> rfl

/-- A key that is new: it gets a group of its own. -/
theorem Indexed.insert_groupsBy (indexed : table.Indexed hash)
    (groups : table.groups.toList = groupsBy step seed entries)
    (missed : table.find? hash k.encode = none) : keysOf (entries ++ [(k, v)]) = keysOf entries ++ [k] ∧
      (table.insert hash { key := k, code := k.encode, value := step seed v }).groups.toList =
        groupsBy step seed (entries ++ [(k, v)]) := by
  have isNew : ∀ entry ∈ entries, entry.1.encode ≠ k.encode := by
    intro entry member same
    obtain ⟨first, isFirst, isCode⟩ : ∃ first ∈ keysOf entries, first.encode = entry.1.encode :=
      exists_distinctBy (List.mem_map_of_mem member)
    refine indexed.code_ne missed
      { key := first, code := first.encode, value := totalBy step seed entries first } ?_
      (isCode.trans same)
    rw [← Array.mem_toList_iff, groups]
    exact List.mem_map.mpr ⟨first, isFirst, rfl⟩
  have keys : keysOf (entries ++ [(k, v)]) = keysOf entries ++ [k] := by
    rw [keysOf_concat, if_neg]
    rintro ⟨entry, member, same⟩
    exact isNew entry member same
  refine ⟨keys, ?_⟩
  change (table.groups.push _).toList = _
  rw [Array.toList_push, groups, groupsBy, groupsBy, keys, List.map_append]
  congr 1
  · refine List.map_congr_left fun other member => ?_
    obtain ⟨entry, isEntry, rfl⟩ := List.mem_map.mp (mem_distinctBy_of_new member)
    rw [totalBy_concat, if_neg (isNew entry isEntry).symm]
  · rw [List.map_singleton, totalBy_concat, if_pos rfl, totalBy_of_new isNew]

end groups

end GroupTable

/-! ## Aggregators -/

namespace HashAggregator

variable {hash : List UInt8 → UInt64} {agg agg' : HashAggregator} {entries : List Entry}

/-- A hash aggregator holds the groups of the entries it was given. -/
structure Holds (hash : List UInt8 → UInt64) (agg : HashAggregator) (entries : List Entry) : Prop where
  groups : agg.table.groups.toList = groupsBy agg.kind.step agg.kind.seed entries
  indexed : agg.table.Indexed hash
  used : agg.used = memoryOf entries
  within : exceeds (memoryOf entries) agg.budget = false

theorem holds_new (hash : List UInt8 → UInt64) (kind : HashKind) (budget : Int64) :
    Holds hash { kind, budget } [] where
  groups := rfl
  indexed := GroupTable.indexed_empty hash
  used := rfl
  within := by
    unfold exceeds
    rw [Bool.and_eq_false_iff, decide_eq_false_iff_not, decide_eq_false_iff_not]
    change ¬ 0 < budget.toInt ∨ ¬ budget.toInt < ((0 : Nat) : Int)
    omega

/-- A key that was seen before changes no memory. -/
theorem Holds.update (holds : agg.Holds hash entries) {k v : Value}
    (found : agg.table.find? hash k.encode = some i) :
    Holds hash { agg with table := agg.table.update i (agg.kind.step · v) } (entries ++ [(k, v)]) := by
  obtain ⟨keys, groups⟩ := GroupTable.update_groupsBy (v := v) holds.groups found
  have memory : memoryOf (entries ++ [(k, v)]) = memoryOf entries := by
    unfold memoryOf
    rw [keys]
  exact ⟨groups, holds.indexed.update i _, holds.used.trans memory.symm, memory ▸ holds.within⟩

theorem Holds.insert (holds : agg.Holds hash entries) {k v : Value}
    (missed : agg.table.find? hash k.encode = none) :
    memoryOf (entries ++ [(k, v)]) = agg.used + groupCost k.encode ∧
    (keysOf (entries ++ [(k, v)])).length = agg.table.groups.size + 1 ∧
    (exceeds (memoryOf (entries ++ [(k, v)])) agg.budget = false →
      Holds hash { agg with
        used := agg.used + groupCost k.encode
        table := agg.table.insert hash
          { key := k, code := k.encode, value := agg.kind.step agg.kind.seed v } }
        (entries ++ [(k, v)])) := by
  obtain ⟨keys, groups⟩ := holds.indexed.insert_groupsBy (v := v) holds.groups missed
  have memory : memoryOf (entries ++ [(k, v)]) = agg.used + groupCost k.encode := by
    unfold memoryOf
    rw [keys, List.map_append, List.sum_append, holds.used, List.map_singleton, List.sum_singleton]
    rfl
  refine ⟨memory, ?_, fun within => ⟨groups, holds.indexed.insert _, memory.symm, within⟩⟩
  rw [keys, List.length_append, ← Array.length_toList, holds.groups, groupsBy, List.length_map]
  rfl

theorem Holds.add (holds : agg.Holds hash entries) (k v : Value) :
    match agg.addWith hash k v with
    | .ok agg' => agg'.kind = agg.kind ∧ agg'.budget = agg.budget ∧
        agg'.Holds hash (entries ++ [(k, v)])
    | .error cause => exceeds (memoryOf (entries ++ [(k, v)])) agg.budget = true ∧
        cause = .overBudget (keysOf (entries ++ [(k, v)])).length agg.budget := by
  unfold addWith
  dsimp only
  cases found : agg.table.find? hash k.encode with
  | some i => exact ⟨rfl, rfl, holds.update found⟩
  | none =>
    obtain ⟨memory, count, inserted⟩ := holds.insert (v := v) found
    rw [← memory]
    by_cases exceeded : exceeds (memoryOf (entries ++ [(k, v)])) agg.budget = true
    · rw [if_pos exceeded]
      exact ⟨exceeded, by rw [count]⟩
    · rw [if_neg exceeded]
      rw [memory]
      exact ⟨rfl, rfl, inserted (Bool.eq_false_iff.mpr exceeded)⟩

theorem Holds.rows (holds : agg.Holds hash entries) :
    agg.rows = (groupsBy agg.kind.step agg.kind.seed entries).map Group.row := by
  unfold HashAggregator.rows
  rw [holds.groups]

/-- Adds entries one after the other. -/
def addAll (hash : List UInt8 → UInt64) (agg : HashAggregator) (entries : List Entry) :
    Except RunError HashAggregator :=
  entries.foldlM (fun agg entry => agg.addWith hash entry.1 entry.2) agg

theorem Holds.addAll : ∀ {agg : HashAggregator} {before : List Entry}, agg.Holds hash before →
    ∀ entries, match agg.addAll hash entries with
    | .ok agg' => agg'.kind = agg.kind ∧ agg'.budget = agg.budget ∧ agg'.Holds hash (before ++ entries)
    | .error cause => ∃ n < entries.length,
        exceeds (memoryOf (before ++ entries.take (n + 1))) agg.budget = true ∧
        exceeds (memoryOf (before ++ entries.take n)) agg.budget = false ∧
        cause = .overBudget (keysOf (before ++ entries.take (n + 1))).length agg.budget
  | _, _, holds, [] => ⟨rfl, rfl, by rw [List.append_nil]; exact holds⟩
  | agg, before, holds, (k, v) :: rest => by
    unfold HashAggregator.addAll
    rw [List.foldlM_cons]
    have added := holds.add k v
    cases first : agg.addWith hash k v with
    | error cause =>
      rw [first] at added
      refine ⟨0, Nat.zero_lt_succ _, added.1, ?_, added.2⟩
      rw [List.take_zero, List.append_nil]
      exact holds.within
    | ok middle =>
      rw [first] at added
      obtain ⟨kind, budget, holds'⟩ := added
      have others := holds'.addAll rest
      unfold HashAggregator.addAll at others
      change match rest.foldlM (fun agg entry => agg.addWith hash entry.1 entry.2) middle with
        | .ok agg' => _
        | .error cause => _
      split at others
      · next done =>
        rw [List.append_assoc] at others
        exact ⟨others.1.trans kind, others.2.1.trans budget, others.2.2⟩
      · next cause =>
        obtain ⟨n, below, exceeded, within, isCause⟩ := others
        rw [List.append_assoc, budget] at exceeded within isCause
        exact ⟨n + 1, Nat.succ_lt_succ below, exceeded, within, isCause⟩

theorem holds_addAll (added : addAll hash { kind, budget } entries = .ok agg) :
    agg.kind = kind ∧ agg.budget = budget ∧ agg.Holds hash entries := by
  have kept := (holds_new hash kind budget).addAll entries
  rw [added, List.nil_append] at kept
  exact kept

theorem exists_addAll_iff (hash : List UInt8 → UInt64) (kind : HashKind) (budget : Int64)
    (entries : List Entry) : (∃ agg, addAll hash { kind, budget } entries = .ok agg) ↔
      exceeds (memoryOf entries) budget = false := by
  cases result : addAll hash { kind, budget } entries with
  | ok agg =>
    obtain ⟨-, rfl, holds⟩ := holds_addAll result
    exact ⟨fun _ => holds.within, fun _ => ⟨agg, rfl⟩⟩
  | error cause =>
    have stopped := (holds_new hash kind budget).addAll entries
    rw [result] at stopped
    obtain ⟨n, -, exceeded, -⟩ := stopped
    have all : exceeds (memoryOf (_ ++ entries.drop (n + 1))) budget = true := exceeds_append exceeded
    rw [List.nil_append, List.take_append_drop] at all
    exact ⟨nofun, fun within => by rw [all] at within; cases within⟩

theorem addAll_filed : ∀ {entries : List Entry} {agg agg' : HashAggregator},
    agg.addAll hash entries = .ok agg' → agg.table.Filed hash → agg'.table.Filed hash
  | [], _, _, rfl, filed => filed
  | (k, v) :: rest, agg, agg', added, filed => by
    unfold addAll at added
    rw [List.foldlM_cons] at added
    obtain ⟨middle, first, others⟩ := Except.bind_eq_ok.mp added
    refine addAll_filed others ?_
    unfold addWith at first
    dsimp only at first
    split at first
    · cases first
      exact filed.update _ _
    · split at first
      · cases first
      · cases first
        exact filed.insert _

/-- Groups do not depend on the hash that finds them. If entries are added under any hash, the groups
are the distinct encodings of the keys in the order of their first appearance, each in the bucket of
its hash once and in no other. They are charged with their encodings and 32 bytes each, which a
positive budget covers, and under every other hash the same rows come out. -/
theorem addAll_hash_irrelevant (hash : List UInt8 → UInt64) (kind : HashKind) (budget : Int64)
    (entries : List Entry) {agg : HashAggregator}
    (added : addAll hash { kind, budget } entries = .ok agg) :
    agg.table.groups.toList.map Group.code = distinctBy id (entries.map fun entry => entry.1.encode) ∧
    (∀ (i : Nat) (group : Group), agg.table.groups[i]? = some group → ∀ w,
      (agg.table.buckets.getD w []).count i = if hash group.code = w then 1 else 0) ∧
    agg.used = (agg.table.groups.toList.map fun group => group.code.length + 32).sum ∧
    (0 < budget.toInt → agg.used ≤ budget.toInt) ∧
    ∀ hash', ∃ agg', addAll hash' { kind, budget } entries = .ok agg' ∧ agg'.rows = agg.rows := by
  obtain ⟨isKind, isBudget, holds⟩ := holds_addAll added
  refine ⟨?_, fun i group found w => ?_, ?_, fun positive => ?_, fun hash' => ?_⟩
  · have codes := distinctBy_map id Value.encode (entries.map Prod.fst)
    rw [List.map_map] at codes
    rw [holds.groups, groupsBy, List.map_map]
    exact codes.symm
  · have filed := addAll_filed added (fun w i => by simp) w i
    rw [found] at filed
    rw [filed]
    by_cases same : hash group.code = w <;> simp [same]
  · rw [holds.used, memoryOf, holds.groups, groupsBy, List.map_map]
    rfl
  · have within := holds.within
    rw [isBudget, ← holds.used] at within
    simpa [exceeds, positive] using within
  · have within := (exists_addAll_iff hash kind budget entries).mp ⟨agg, added⟩
    obtain ⟨agg', added'⟩ := (exists_addAll_iff hash' kind budget entries).mpr within
    obtain ⟨isKind', -, holds'⟩ := holds_addAll added'
    exact ⟨agg', added', by rw [holds.rows, holds'.rows, isKind, isKind']⟩

/-- All groups in one bucket. -/
theorem addAll_colliding : ∃ agg, addAll (fun _ => 0) { kind := .sum, budget := 100 }
      [(.int 1, .int 2), (.bool true, .int 3), (.int 1, .int 4)] = .ok agg ∧
    ∀ hash, ∃ agg', addAll hash { kind := .sum, budget := 100 }
      [(.int 1, .int 2), (.bool true, .int 3), (.int 1, .int 4)] = .ok agg' ∧
      agg'.rows = agg.rows := by
  obtain ⟨agg, added⟩ := (exists_addAll_iff (fun _ => 0) .sum 100
    [(.int 1, .int 2), (.bool true, .int 3), (.int 1, .int 4)]).mpr (by decide)
  exact ⟨agg, added, (addAll_hash_irrelevant _ _ _ _ added).2.2.2.2⟩

end HashAggregator

/-! ## The memory of a group-by -/

/-- The bytes that the groups of a group-by may use, if they are limited: the product of the two sizes
as a signed word, unless it is not positive. -/
def groupLimit? (config : Plan.Config) : Option Int :=
  let product := (config.framesForGroupBy.toInt * config.frameSize.toInt).bmod (2 ^ 64)
  if 0 < product then some product else none

theorem exceeds_groupByMemory (config : Plan.Config) (used : Nat) :
    exceeds used config.groupByMemory = true ↔ ∃ limit ∈ groupLimit? config, limit < used := by
  have product : config.groupByMemory.toInt =
      (config.framesForGroupBy.toInt * config.frameSize.toInt).bmod (2 ^ 64) := Int64.toInt_mul _ _
  unfold exceeds groupLimit?
  rw [product, Bool.and_eq_true, decide_eq_true_eq, decide_eq_true_eq]
  dsimp only
  split
  · next positive =>
    constructor
    · rintro ⟨_, more⟩
      exact ⟨_, rfl, more⟩
    · rintro ⟨limit, isLimit, more⟩
      cases isLimit
      exact ⟨positive, more⟩
  · next negative =>
    constructor
    · rintro ⟨positive, _⟩
      exact absurd positive negative
    · rintro ⟨_, isLimit, _⟩
      cases isLimit

theorem groupLimit?_of_check {config : Plan.Config} (accepted : config.check = .ok config)
    (small : config.framesForGroupBy.toInt * config.frameSize.toInt < 2 ^ 63) :
    groupLimit? config = some (config.framesForGroupBy.toInt * config.frameSize.toInt) := by
  have positive : 0 < config.framesForGroupBy.toInt ∧ 0 < config.frameSize.toInt := by
    unfold Plan.Config.check at accepted
    split at accepted
    · cases accepted
    · next frames =>
      split at accepted
      · cases accepted
      · next size =>
        rw [Int64.le_iff_toInt_le, Int64.toInt_zero] at frames size
        omega
  have product := Int.mul_pos positive.1 positive.2
  unfold groupLimit?
  rw [Int.bmod_eq_of_le (by omega) (by omega), if_pos product]

end Engine

end QueryFusion

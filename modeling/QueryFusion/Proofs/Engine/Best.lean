import QueryFusion.Proofs.Engine.Grouping
import QueryFusion.Proofs.Heap.Greatest
import QueryFusion.Proofs.Value.Merging

/-!
# The best groups

An aggregator for the best groups combines the values given under each key and pushes its groups into
a bounded heap. The groups that come out are the best ones if the ranking is a strict weak order of the
groups. On columns of mixed types it is none: a text ties with every integer.
-/

namespace QueryFusion.Engine.TopKAggregator

variable {hash : List UInt8 → UInt64} {limit : Int} {least : Bool}

/-- Adds entries one after the other. -/
def addAll (hash : List UInt8 → UInt64) (agg : TopKAggregator) (entries : List Entry) : TopKAggregator :=
  entries.foldl (fun agg entry => agg.addWith hash entry.1 entry.2) agg

/-- The groups of some entries, with the least or greatest of their values. -/
def groupsOf (least : Bool) (entries : List Entry) : List Group :=
  groupsBy (if least then .least else .greatest : Value.Combinator).apply .null entries

theorem addAll_groups : ∀ {table : GroupTable} {before : List Entry} (entries : List Entry),
    table.Indexed hash → table.groups.toList = groupsOf least before →
    ∃ table', addAll hash { limit, least, table } entries = { limit, least, table := table' } ∧
      table'.groups.toList = groupsOf least (before ++ entries)
  | table, _, [], _, groups => ⟨table, rfl, by rw [List.append_nil]; exact groups⟩
  | table, before, (k, v) :: rest, indexed, groups => by
    rw [List.append_cons]
    cases found : table.find? hash k.encode with
    | some i =>
      obtain ⟨table', added, held⟩ := addAll_groups rest (indexed.update i _)
        (GroupTable.update_groupsBy (v := v) groups found).2
      refine ⟨table', ?_, held⟩
      rw [← added, addAll, List.foldl_cons, addWith, found]
      rfl
    | none =>
      obtain ⟨table', added, held⟩ := addAll_groups rest (indexed.insert _)
        (indexed.insert_groupsBy (v := v) groups found).2
      refine ⟨table', ?_, held⟩
      rw [← added, addAll, List.foldl_cons, addWith, found]
      rfl

theorem worse_eq {a b : Group} (isA : a.value.IsIntOrUnknown) (isB : b.value.IsIntOrUnknown) :
    worse least a b = match a.value.int?, b.value.int? with
      | some m, some n => if least then n < m else m < n
      | none, some _ => true
      | _, none => false := by
  obtain ⟨_, _, v⟩ := a
  obtain ⟨_, _, w⟩ := b
  rcases isA with unknown | ⟨m, rfl⟩ <;> rcases isB with unknown' | ⟨n, rfl⟩
  · cases v <;> cases unknown <;> cases w <;> cases unknown' <;> rfl
  · cases v <;> cases unknown <;> rfl
  · cases w <;> cases unknown' <;> rfl
  · grind [worse, Value.compare?, Value.int?]

theorem ranks_worse {S : Group → Prop} (kinds : ∀ g, S g → g.value.IsIntOrUnknown) :
    Heap.Ranks (worse least) S where
  asymm := by
    intro a b isA isB
    rw [worse_eq (kinds a isA) (kinds b isB), worse_eq (kinds b isB) (kinds a isA)]
    grind
  trans := by
    intro a b c isA isB isC
    rw [worse_eq (kinds b isB) (kinds a isA), worse_eq (kinds c isC) (kinds b isB),
      worse_eq (kinds c isC) (kinds a isA)]
    grind

/-- Whatever entries are given under any hash: if their groups are ranked by a strict weak order, an
aggregator for the best groups delivers as many as it may, none that is left out ranks better, and the
best come first. -/
theorem addAll_best (hash : List UInt8 → UInt64) (limit : Int) (least : Bool) (entries : List Entry)
    (ranks : Heap.Ranks (worse least) (· ∈ groupsOf least entries)) :
    let best := (addAll hash { limit, least } entries).best
    (best.length : Int) = min (max limit 0) (keysOf entries).length ∧
    (∃ out, (best ++ out).Perm (groupsOf least entries) ∧
      ∀ g ∈ out, ∀ b ∈ best, worse least b g = false) ∧
    best.Pairwise fun a b => worse least a b = false := by
  have empty : ({} : GroupTable).groups.toList = groupsOf least [] := rfl
  obtain ⟨table, added, groups⟩ := addAll_groups entries (GroupTable.indexed_empty hash) empty
  obtain ⟨items, out, pushed, keeps⟩ := Heap.keeps_new ranks limit _ fun _ => id
  obtain ⟨drained, isDrained, perm, sorted⟩ :=
    keeps.isHeap.popInto ranks limit [] keeps.known_kept nofun .nil
  have isBest : (addAll hash { limit, least } entries).best = drained := by
    rw [added, best, ← Array.foldl_toList, groups]
    change ((Heap.Bounded.new limit (worse least)).pushAll _).drain.1 = _
    rw [List.nil_append, pushed, Heap.Bounded.drain, isDrained]
  rw [List.append_nil] at perm
  dsimp only
  rw [isBest]
  refine ⟨?_, ⟨out, (perm.append_right out).trans keeps.perm, fun g member b isBest => ?_⟩, sorted⟩
  · have size := keeps.size
    rw [groupsOf, groupsBy, List.length_map] at size
    rw [perm.length_eq, Array.length_toList]
    omega
  · exact keeps.greatest g member b (Array.mem_toList_iff.mp (perm.mem_iff.mp isBest))

/-- Two groups, one of them without a known value. -/
theorem addAll_greater : ((addAll hashCode { limit := 1, least := false }
    [(.int 1, .int 5), (.int 2, .null), (.int 1, .int 7)]).best.length : Int) = 1 := by
  refine (addAll_best hashCode 1 false _ (ranks_worse fun g member => ?_)).1
  have listed : g ∈ [⟨.int 1, _, .int 7⟩, ⟨.int 2, _, .null⟩] := member
  rcases List.mem_cons.mp listed with rfl | later
  · exact .inr ⟨7, rfl⟩
  · rw [List.mem_singleton.mp later]
    exact .inl rfl

end QueryFusion.Engine.TopKAggregator

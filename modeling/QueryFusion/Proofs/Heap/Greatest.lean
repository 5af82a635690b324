import Mathlib
import QueryFusion.Heap.Bounded

/-!
# Bounded heaps keep the greatest items

Whatever is pushed into a bounded heap, its items stay in heap order, and none of those that it let go
is greater than one that it kept. Sifting moves one item along a path: before each step the order holds
at all edges but those of the item, and the neighbours of its position fit each other.

The order has to be a strict weak one only on the items that occur.
-/

namespace QueryFusion.Heap

variable {α : Type} {less : α → α → Bool} {S : α → Prop} {items : Array α} {i : Nat}

/-- A strict weak order of some items. -/
structure Ranks (less : α → α → Bool) (S : α → Prop) : Prop where
  asymm : ∀ {x y}, S x → S y → less x y = true → less y x = false
  trans : ∀ {x y z}, S x → S y → S z → less y x = false → less z y = false → less z x = false

theorem Ranks.irrefl (order : Ranks less S) {x : α} (isItem : S x) : less x x = false :=
  Bool.eq_false_iff.mpr fun smaller => by
    rw [order.asymm isItem isItem smaller] at smaller
    cases smaller

theorem ranks_of_isStrictWeakOrder (order : IsStrictWeakOrder α fun x y => less x y = true) :
    Ranks less fun _ => True where
  asymm := fun _ _ smaller => Bool.eq_false_iff.mpr fun greater =>
    order.irrefl _ (order.trans _ _ _ smaller greater)
  trans := by
    intro x y z _ _ _ yx zy
    rw [Bool.eq_false_iff] at yx zy ⊢
    intro zx
    by_cases xy : less x y = true
    · exact zy (order.trans _ _ _ zx xy)
    · by_cases yz : less y z = true
      · exact yx (order.trans _ _ _ yz zx)
      · exact (order.incomp_trans _ _ _ ⟨xy, yx⟩ ⟨yz, zy⟩).2 zx

/-! ## Positions -/

/-- The item at one position is not greater than that at another. -/
def Above (less : α → α → Bool) (items : Array α) (p c : Nat) : Prop :=
  ∀ x y, items[p]? = some x → items[c]? = some y → less y x = false

/-- No item is smaller than its parent. -/
def IsHeap (less : α → α → Bool) (items : Array α) : Prop :=
  ∀ i, 0 < i → Above less items ((i - 1) / 2) i

theorem Above.refl (order : Ranks less S) (known : ∀ x ∈ items, S x) (p : Nat) :
    Above less items p p := by
  intro x y isFirst isSecond
  cases isFirst.symm.trans isSecond
  exact order.irrefl (known x (Array.mem_of_getElem? isFirst))

theorem Above.trans (order : Ranks less S) (known : ∀ x ∈ items, S x) {p m c : Nat}
    (inside : m < items.size) (upper : Above less items p m) (lower : Above less items m c) :
    Above less items p c := by
  intro x z isFirst isLast
  have isMiddle := Array.getElem?_eq_getElem inside
  exact order.trans (known x (Array.mem_of_getElem? isFirst)) (known _ (Array.mem_of_getElem? isMiddle))
    (known z (Array.mem_of_getElem? isLast)) (upper x _ isFirst isMiddle) (lower _ z isMiddle isLast)

/-- The root is a smallest item. -/
theorem IsHeap.root (order : Ranks less S) (known : ∀ x ∈ items, S x) (heap : IsHeap less items) :
    ∀ i, Above less items 0 i := by
  intro i
  induction i using Nat.strongRecOn with
  | ind i ih =>
    by_cases isRoot : i = 0
    · subst isRoot
      exact .refl order known 0
    · have upper := ih ((i - 1) / 2) (by omega)
      have edge := heap i (by omega)
      intro x y isLeast isItem
      have inside := (Array.getElem?_eq_some_iff.mp isItem).1
      exact upper.trans order known (by omega) edge x y isLeast isItem

/-- Where the item that comes to a position was before two items change places. -/
def exchange (i k j : Nat) : Nat := if k = j then i else if i = j then k else j

theorem above_swap {k : Nat} (hi : i < items.size) (hk : k < items.size) (p c : Nat) :
    Above less (items.swap i k hi hk) p c ↔ Above less items (exchange i k p) (exchange i k c) := by
  have moved : ∀ j, (items.swap i k hi hk)[j]? = items[exchange i k j]? := by
    grind [exchange]
  unfold Above
  rw [moved, moved]

theorem mem_swap {k : Nat} (hi : i < items.size) (hk : k < items.size)
    (known : ∀ x ∈ items, S x) : ∀ x ∈ items.swap i k hi hk, S x :=
  fun x member => known x ((Array.swap_perm hi hk).mem_iff.mp member)

/-! ## Sifting -/

/-- The order holds at some edges, and the parent and the children of a position fit each other. -/
structure Sifting (less : α → α → Bool) (items : Array α) (i : Nat) (kept : Nat → Prop) : Prop where
  edge : ∀ j, 0 < j → kept j → Above less items ((j - 1) / 2) j
  bridge : 0 < i → ∀ j, 0 < j → (j - 1) / 2 = i → Above less items ((i - 1) / 2) j

theorem Sifting.up (order : Ranks less S) (known : ∀ x ∈ items, S x)
    (sifting : Sifting less items i (· ≠ i)) (low : 0 < i) (hi : i < items.size)
    (hp : (i - 1) / 2 < items.size) (smaller : Above less items i ((i - 1) / 2)) :
    Sifting less (items.swap i ((i - 1) / 2) hi hp) ((i - 1) / 2) (· ≠ (i - 1) / 2) := by
  have trans : ∀ {a b}, Above less items a ((i - 1) / 2) → Above less items ((i - 1) / 2) b →
      Above less items a b := .trans order known hp
  refine ⟨fun j positive apart => ?_, fun positive j _ child => ?_⟩
  · have edge := sifting.edge j positive
    have bridge := sifting.bridge low j positive
    rw [above_swap]
    grind [exchange]
  · have edge := sifting.edge j
    have upper := sifting.edge _ positive (by omega)
    rw [above_swap]
    grind [exchange]

theorem isHeap_siftUp (order : Ranks less S) : ∀ (items : Array α) (i : Nat),
    (∀ x ∈ items, S x) → i < items.size → Sifting less items i (· ≠ i) →
    IsHeap less (siftUp less items i) := by
  intro items i
  fun_induction siftUp less items i with
  | case1 items i inside hp smaller ih =>
    intro known hi sifting
    refine ih (mem_swap hi hp known) (by rw [Array.size_swap]; exact hp) ?_
    refine sifting.up order known inside.1 hi hp ?_
    have greater := order.asymm (known _ (Array.getElem_mem hi)) (known _ (Array.getElem_mem hp)) smaller
    grind [Above]
  | case2 items i inside hp notSmaller =>
    intro known hi sifting j positive
    have edge := sifting.edge j positive
    grind [Above]
  | case3 items i outside =>
    intro known hi sifting j positive
    exact sifting.edge j positive (by omega)

theorem lesser_above (order : Ranks less S) (known : ∀ x ∈ items, S x) (m c : Nat) :
    (lesser less items m c = m ∨ lesser less items m c = c ∧ c < items.size) ∧
      Above less items (lesser less items m c) m ∧ Above less items (lesser less items m c) c := by
  have asymm : ∀ {x y}, x ∈ items → y ∈ items → less x y = true → less y x = false :=
    fun isX isY => order.asymm (known _ isX) (known _ isY)
  have irrefl : ∀ {x}, x ∈ items → less x x = false := fun isX => order.irrefl (known _ isX)
  grind [lesser, Above]

/-- An item changes places with its smallest child. -/
theorem Sifting.down (sifting : Sifting less items i fun j => (j - 1) / 2 ≠ i) {c : Nat}
    (hi : i < items.size) (hc : c < items.size) (below : i < c) (child : (c - 1) / 2 = i)
    (smallest : ∀ j, 0 < j → (j - 1) / 2 = i → Above less items c j) (smaller : Above less items c i) :
    Sifting less (items.swap i c hi hc) c fun j => (j - 1) / 2 ≠ c := by
  refine ⟨fun j positive apart => ?_, fun _ j positive isChild => ?_⟩
  · have edge := sifting.edge j positive
    have bridge := sifting.bridge
    have least := smallest j positive
    rw [above_swap]
    grind [exchange]
  · have edge := sifting.edge j positive (by omega)
    rw [above_swap]
    grind [exchange]

theorem isHeap_siftDown (order : Ranks less S) : ∀ (items : Array α) (i : Nat),
    (∀ x ∈ items, S x) → Sifting less items i (fun j => (j - 1) / 2 ≠ i) →
    IsHeap less (siftDown less items i) := by
  intro items i
  fun_induction siftDown less items i with
  | case1 items i least inside ih =>
    intro known sifting
    obtain ⟨isFirst, firstItem, firstChild⟩ := lesser_above order known i (2 * i + 1)
    obtain ⟨isLeast, leastFirst, secondChild⟩ :=
      lesser_above order known (lesser less items i (2 * i + 1)) (2 * i + 2)
    have trans : ∀ {b}, Above less items (lesser less items i (2 * i + 1)) b →
        Above less items least b := leastFirst.trans order known (by omega)
    refine ih (mem_swap (by omega) inside.2 known) (sifting.down (by omega) inside.2 inside.1 (by omega)
      (fun j positive child => ?_) (trans firstItem))
    have isChild : j = 2 * i + 1 ∨ j = 2 * i + 2 := by omega
    grind
  | case2 items i least outside =>
    intro known sifting j positive
    obtain ⟨isFirst, -, firstChild⟩ := lesser_above order known i (2 * i + 1)
    obtain ⟨isLeast, -, secondChild⟩ :=
      lesser_above order known (lesser less items i (2 * i + 1)) (2 * i + 2)
    have edge := sifting.edge j positive
    have isChild : (j - 1) / 2 = i → j = 2 * i + 1 ∨ j = 2 * i + 2 := by omega
    grind

/-- A new item sinks in from the root of a heap. -/
theorem IsHeap.siftDown_root (order : Ranks less S) (heap : IsHeap less items) {changed : Array α}
    (known : ∀ x ∈ changed, S x)
    (same : ∀ j, 0 < j → ∀ y, changed[j]? = some y → items[j]? = some y) :
    IsHeap less (siftDown less changed 0) := by
  refine isHeap_siftDown order changed 0 known ⟨fun j positive apart x y isUpper isLower => ?_,
    fun positive => absurd positive (Nat.lt_irrefl 0)⟩
  exact heap j positive x y (same _ (Nat.pos_of_ne_zero apart) x isUpper) (same j positive y isLower)

theorem siftUp_perm (less : α → α → Bool) (items : Array α) (i : Nat) :
    (siftUp less items i).toList.Perm items.toList := by
  fun_induction siftUp less items i with
  | case1 items i inside hp smaller ih => exact ih.trans (Array.swap_perm inside.2 hp).toList
  | case2 | case3 => exact .rfl

theorem siftDown_perm (less : α → α → Bool) (items : Array α) (i : Nat) :
    (siftDown less items i).toList.Perm items.toList := by
  fun_induction siftDown less items i with
  | case1 items i least inside ih =>
    exact ih.trans (Array.swap_perm (inside.1.trans inside.2) inside.2).toList
  | case2 => exact .rfl

/-! ## Pushing -/

section pushing

variable {k : Int} {given gone : List α} {x least : α}

/-- Of some items that were given, some were kept, at most `k`, and none of the others is greater than
one of them. -/
structure Keeps (less : α → α → Bool) (S : α → Prop) (k : Int) (given : List α) (items : Array α)
    (gone : List α) : Prop where
  isHeap : IsHeap less items
  size : items.size = min k.toNat given.length
  perm : (items.toList ++ gone).Perm given
  greatest : ∀ z ∈ gone, ∀ y ∈ items, less y z = false
  known : ∀ y ∈ given, S y

theorem Keeps.known_kept (keeps : Keeps less S k given items gone) : ∀ y ∈ items, S y :=
  fun y member => keeps.known y
    (keeps.perm.mem_iff.mp (List.mem_append_left _ (Array.mem_toList_iff.mpr member)))

/-- The root is a smallest of the kept items. -/
theorem IsHeap.min (order : Ranks less S) (known : ∀ y ∈ items, S y) (heap : IsHeap less items)
    (isLeast : items[0]? = some least) : ∀ y ∈ items, less y least = false := by
  intro y member
  obtain ⟨i, isItem⟩ := Array.getElem?_of_mem member
  exact heap.root order known i least y isLeast isItem

/-- An item is taken while there is room. -/
theorem Keeps.insert (order : Ranks less S) (keeps : Keeps less S k given items gone)
    (known : ∀ y ∈ given ++ [x], S y) (room : (items.size : Int) < k) :
    Keeps less S k (given ++ [x]) (siftUp less (items.push x) items.size) [] := by
  have size := keeps.size
  have nothing : gone = [] := by
    have total := keeps.perm.length_eq
    exact List.eq_nil_of_length_eq_zero (by grind)
  subst nothing
  have pushed : (items.push x).toList.Perm (given ++ [x]) := by
    simpa using keeps.perm.append_right [x]
  have whole := (siftUp_perm less (items.push x) items.size).trans pushed
  refine ⟨isHeap_siftUp order _ _ ?_ ?_ ⟨?_, ?_⟩, ?_, ?_, nofun, known⟩
  · exact fun y member => known y (pushed.mem_iff.mp (Array.mem_toList_iff.mpr member))
  · grind
  · intro j positive apart y z isUpper isLower
    have edge := keeps.isHeap j positive y z
    grind
  · intro _ j _ child y z _ isLower
    grind
  · have total := whole.length_eq
    grind
  · rw [List.append_nil]
    exact whole

theorem exists_toList_eq_cons (isLeast : items[0]? = some least) :
    ∃ others, items.toList = least :: others := by
  rw [← Array.getElem?_toList, ← List.head?_eq_getElem?] at isLeast
  exact List.head?_eq_some_iff.mp isLeast

theorem Keeps.replace (order : Ranks less S) (keeps : Keeps less S k given items gone)
    (known : ∀ y ∈ given ++ [x], S y) (full : ¬ (items.size : Int) < k)
    (isLeast : items[0]? = some least) (smaller : less least x = true) :
    Keeps less S k (given ++ [x]) (siftDown less (items.setIfInBounds 0 x) 0) (least :: gone) := by
  obtain ⟨others, isList⟩ := exists_toList_eq_cons isLeast
  have isSet : (items.setIfInBounds 0 x).toList = x :: others := by
    rw [Array.toList_setIfInBounds, isList, List.set_cons_zero]
  have perm := siftDown_perm less (items.setIfInBounds 0 x) 0
  rw [isSet] at perm
  have isNew : S x := known x (by simp)
  have isKept : least ∈ items := Array.mem_of_getElem? isLeast
  have isItem := keeps.known_kept least isKept
  have low : ∀ z ∈ least :: gone, S z ∧ less least z = false :=
    List.forall_mem_cons.mpr ⟨⟨isItem, order.irrefl isItem⟩, fun z member =>
      ⟨keeps.known z (keeps.perm.mem_iff.mp (List.mem_append_right _ member)),
        keeps.greatest z member least isKept⟩⟩
  have high : ∀ y ∈ x :: others, S y ∧ less y least = false := by
    refine List.forall_mem_cons.mpr ⟨⟨isNew, order.asymm isItem isNew smaller⟩, fun y member => ?_⟩
    have isOld : y ∈ items := by grind
    exact ⟨keeps.known_kept y isOld, keeps.isHeap.min order keeps.known_kept isLeast y isOld⟩
  refine ⟨keeps.isHeap.siftDown_root order ?_ ?_, ?_, ?_, ?_, known⟩
  · intro y member
    rw [← Array.mem_toList_iff, isSet] at member
    exact (high y member).1
  · grind
  · have size := keeps.size
    have total := perm.length_eq
    grind
  · have whole := keeps.perm
    rw [isList] at whole
    have moved : (x :: others ++ least :: gone).Perm (least :: (x :: others ++ gone)) :=
      List.perm_middle
    exact ((perm.append_right (least :: gone)).trans moved).trans
      (((List.Perm.swap x least _).trans (whole.cons x)).trans (List.perm_append_singleton x given).symm)
  · intro z gone y member
    have isHigh := high y (perm.mem_iff.mp (Array.mem_toList_iff.mpr member))
    exact order.trans (low z gone).1 isItem isHigh.1 (low z gone).2 isHigh.2

/-- An item that has no place goes. -/
theorem Keeps.refuse (keeps : Keeps less S k given items gone) (known : ∀ y ∈ given ++ [x], S y)
    (full : ¬ (items.size : Int) < k) (low : ∀ y ∈ items, less y x = false) :
    Keeps less S k (given ++ [x]) items (x :: gone) where
  isHeap := keeps.isHeap
  size := by
    have size := keeps.size
    rw [List.length_append, List.length_singleton]
    omega
  perm := List.perm_middle.trans
    ((keeps.perm.cons x).trans (List.perm_append_singleton x given).symm)
  greatest := List.forall_mem_cons.mpr ⟨low, keeps.greatest⟩
  known := known

theorem Keeps.push (order : Ranks less S) (keeps : Keeps less S k given items gone)
    (known : ∀ y ∈ given ++ [x], S y) :
    ∃ accepted items' gone', Bounded.push ⟨k, less, items⟩ x = (accepted, ⟨k, less, items'⟩) ∧
      Keeps less S k (given ++ [x]) items' gone' ∧
      (accepted = false ↔ k ≤ 0 ∨ items.size = k ∧ ∃ least, items[0]? = some least ∧
        less least x = false) ∧
      (accepted = false → items' = items) := by
  have size := keeps.size
  unfold Bounded.push
  dsimp only
  split
  · next negative =>
    refine ⟨_, _, _, rfl, keeps.refuse known (by omega) fun y member => ?_, by simp [negative],
      fun _ => rfl⟩
    obtain ⟨i, inside, -⟩ := Array.mem_iff_getElem.mp member
    omega
  · next positive =>
    split
    · next room =>
      exact ⟨_, _, _, rfl, keeps.insert order known room, by simp [positive, Int.ne_of_lt room], nofun⟩
    · next full =>
      obtain ⟨least, isLeast⟩ : ∃ least, items[0]? = some least :=
        ⟨_, Array.getElem?_eq_getElem (by omega)⟩
      have filled : items.size = k := by omega
      rw [isLeast]
      dsimp only
      split
      · next smaller =>
        exact ⟨_, _, _, rfl, keeps.replace order known full isLeast smaller,
          by simp [positive, smaller], nofun⟩
      · next notSmaller =>
        refine ⟨_, _, _, rfl, keeps.refuse known full fun y member => ?_, by simp [notSmaller, filled],
          fun _ => rfl⟩
        exact order.trans (known x (List.mem_append_right _ (List.mem_singleton_self x)))
          (keeps.known_kept _ (Array.mem_of_getElem? isLeast)) (keeps.known_kept y member)
          (Bool.eq_false_iff.mpr notSmaller) (keeps.isHeap.min order keeps.known_kept isLeast y member)

/-- Pushes items one after the other. -/
def Bounded.pushAll (heap : Bounded α) (xs : List α) : Bounded α :=
  xs.foldl (fun heap x => (heap.push x).2) heap

theorem Keeps.pushAll (order : Ranks less S) : ∀ {xs given gone : List α} {items : Array α},
    Keeps less S k given items gone → (∀ y ∈ given ++ xs, S y) →
    ∃ items' gone', Bounded.pushAll ⟨k, less, items⟩ xs = ⟨k, less, items'⟩ ∧
      Keeps less S k (given ++ xs) items' gone'
  | [], _, gone, items, keeps, _ => ⟨items, gone, rfl, by rw [List.append_nil]; exact keeps⟩
  | x :: xs, given, _, _, keeps, known => by
    rw [List.append_cons] at known ⊢
    obtain ⟨_, _, _, pushed, keeps', -⟩ := keeps.push order fun y member =>
      known y (List.mem_append_left xs member)
    obtain ⟨items', gone', all, keeps''⟩ := keeps'.pushAll order known
    refine ⟨items', gone', ?_, keeps''⟩
    rw [← all, Bounded.pushAll, List.foldl_cons, pushed]
    rfl

theorem keeps_new (order : Ranks less S) (k : Int) (xs : List α) (known : ∀ y ∈ xs, S y) :
    ∃ items gone, (Bounded.new k less).pushAll xs = ⟨k, less, items⟩ ∧ Keeps less S k xs items gone :=
  have empty : Keeps less S k [] #[] [] :=
    ⟨fun _ _ _ _ _ none => (by cases none), (Nat.min_zero _).symm, .nil, nofun, nofun⟩
  empty.pushAll order known

end pushing

/-! ## Draining -/

theorem IsHeap.pop (order : Ranks less S) (known : ∀ x ∈ items, S x) (heap : IsHeap less items)
    (k : Int) (positive : 0 < items.size) :
    ∃ least items', Bounded.pop ⟨k, less, items⟩ = (some least, ⟨k, less, items'⟩) ∧
      IsHeap less items' ∧ items.toList.Perm (least :: items'.toList) ∧
      ∀ y ∈ items, less y least = false := by
  obtain ⟨least, isLeast⟩ : ∃ least, items[0]? = some least :=
    ⟨_, Array.getElem?_eq_getElem positive⟩
  obtain ⟨last, isLast⟩ : ∃ last, items.back? = some last :=
    ⟨_, Array.back?_eq_getElem?.trans (Array.getElem?_eq_getElem (by omega))⟩
  have rest : items.toList.Perm (least :: (items.pop.setIfInBounds 0 last).toList) := by
    obtain ⟨others, isList⟩ := exists_toList_eq_cons isLeast
    rw [Array.toList_setIfInBounds, Array.toList_pop, isList]
    rw [← Array.getLast?_toList, isList] at isLast
    rcases List.eq_nil_or_concat others with rfl | ⟨between, final, rfl⟩
    · exact .rfl
    · rw [List.concat_eq_append, ← List.cons_append, List.getLast?_concat] at isLast
      cases isLast
      rw [List.concat_eq_append, ← List.cons_append, List.dropLast_concat]
      exact (List.perm_append_singleton last between).cons least
  unfold Bounded.pop
  simp only [isLeast, isLast]
  refine ⟨_, _, rfl, heap.siftDown_root order ?_ ?_, rest.trans ((siftDown_perm _ _ _).symm.cons _),
    heap.min order known isLeast⟩
  · intro y member
    have kept := rest.mem_iff (a := y)
    exact known y (by grind)
  · grind

theorem IsHeap.popInto (order : Ranks less S) (k : Int) : ∀ {items : Array α} (taken : List α),
    IsHeap less items → (∀ x ∈ items, S x) → (∀ z ∈ taken, ∀ y ∈ items, less y z = false) →
    taken.Pairwise (fun x y => less x y = false) →
    ∃ out, Bounded.popInto items.size ⟨k, less, items⟩ taken = (out, ⟨k, less, #[]⟩) ∧
      out.Perm (items.toList ++ taken) ∧ out.Pairwise fun x y => less x y = false := by
  intro items
  induction isSize : items.size generalizing items with
  | zero =>
    intro taken _ _ _ sorted
    cases Array.eq_empty_of_size_eq_zero isSize
    exact ⟨taken, rfl, .rfl, sorted⟩
  | succ n ih =>
    intro taken heap known low sorted
    obtain ⟨least, items', popped, heap', perm, isMin⟩ := heap.pop order known k (by omega)
    have kept : ∀ y, y = least ∨ y ∈ items' → y ∈ items := by
      intro y member
      have same := perm.mem_iff (a := y)
      grind
    have size : items'.size = n := by
      have total := perm.length_eq
      grind
    have later : ∀ y ∈ items', y ∈ items := fun y member => kept y (.inr member)
    obtain ⟨out, drained, outPerm, outSorted⟩ := ih size (least :: taken) heap'
      (fun y member => known y (later y member))
      (List.forall_mem_cons.mpr ⟨fun y member => isMin y (later y member),
        fun z isTaken y member => low z isTaken y (later y member)⟩)
      (List.pairwise_cons.mpr ⟨fun z isTaken => low z isTaken least (kept least (.inl rfl)), sorted⟩)
    refine ⟨out, ?_, outPerm.trans (List.perm_middle.trans (perm.symm.append_right taken)), outSorted⟩
    rw [Bounded.popInto, popped]
    exact drained

/-- Whatever is pushed into a heap for `k` items, it keeps as many as it may, in heap order and with a
smallest one at the root, and none that it let go is greater. It refuses an item, and stays as it is,
exactly if it may keep none or is full of items that are not smaller. Draining lists the kept items,
greatest first. -/
theorem pushAll_greatest (order : IsStrictWeakOrder α fun x y => less x y = true) (k : Int)
    (xs : List α) :
    let heap := (Bounded.new k less).pushAll xs
    IsHeap less heap.items ∧ (heap.size : Int) = min (max k 0) xs.length ∧
    (∃ gone, (heap.items.toList ++ gone).Perm xs ∧ ∀ z ∈ gone, ∀ y ∈ heap.items, less y z = false) ∧
    (∀ least, heap.min? = some least →
      least ∈ heap.items ∧ ∀ y ∈ heap.items, less y least = false) ∧
    (heap.min? = none → heap.size = 0) ∧
    (∀ x, ((heap.push x).1 = false ↔
        k ≤ 0 ∨ heap.size = k ∧ ∃ least, heap.min? = some least ∧ less least x = false) ∧
      ((heap.push x).1 = false → (heap.push x).2 = heap)) ∧
    heap.drain.1.Perm heap.items.toList ∧ heap.drain.1.Pairwise (fun x y => less x y = false) ∧
    heap.drain.2.size = 0 := by
  have ranks := ranks_of_isStrictWeakOrder order
  obtain ⟨items, gone, pushed, keeps⟩ := keeps_new ranks k xs fun _ _ => trivial
  obtain ⟨out, drained, outPerm, outSorted⟩ :=
    keeps.isHeap.popInto ranks k [] (fun _ _ => trivial) nofun .nil
  have size := keeps.size
  rw [List.append_nil] at outPerm
  dsimp only
  rw [pushed, Bounded.drain, drained]
  refine ⟨keeps.isHeap, ?_, ⟨gone, keeps.perm, keeps.greatest⟩, fun least isLeast => ?_, ?_, fun x => ?_,
    outPerm, outSorted, rfl⟩
  · change (items.size : Int) = _
    omega
  · exact ⟨Array.mem_of_getElem? isLeast, keeps.isHeap.min ranks keeps.known_kept isLeast⟩
  · intro none
    exact Nat.le_zero.mp (Array.getElem?_eq_none_iff.mp none)
  · obtain ⟨accepted, items', -, result, -, refused, unchanged⟩ := keeps.push ranks (x := x)
      fun _ _ => trivial
    rw [result]
    exact ⟨refused, fun isRefused => by rw [unchanged isRefused]⟩

/-- Texts by their length: texts of one length tie. -/
theorem pushAll_longest :
    let heap := (Bounded.new 2 fun x y : String => decide (x.length < y.length)).pushAll
      ["a", "bc", "d", "ef", "ghi"]
    IsHeap (fun x y => decide (x.length < y.length)) heap.items ∧ heap.size = 2 := by
  have order : IsStrictWeakOrder String fun x y => decide (x.length < y.length) = true := by
    refine { irrefl := ?_, trans := ?_, incomp_trans := ?_ } <;>
    · simp only [decide_eq_true_eq]
      omega
  have kept := pushAll_greatest order 2 ["a", "bc", "d", "ef", "ghi"]
  exact ⟨kept.1, Int.ofNat.inj kept.2.1⟩

end QueryFusion.Heap

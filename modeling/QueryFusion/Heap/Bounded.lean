/-!
# Bounded heaps

A bounded heap keeps the `capacity` greatest of the items pushed into it. The items form a binary
heap with a smallest one at the root, so that the next item to give way is always at hand.
-/

namespace QueryFusion.Heap

/-- The greatest items pushed so far, at most `capacity` of them, as a binary min-heap. -/
structure Bounded (α : Type) where
  /-- How many items are kept; nothing is kept when it is not positive. -/
  capacity : Int
  less : α → α → Bool
  /-- The kept items; the children of position `i` are at `2 * i + 1` and `2 * i + 2`. -/
  items : Array α := #[]

variable {α : Type}

/-- Moves the item at `i` toward the root until its parent is not greater. -/
def siftUp (less : α → α → Bool) (items : Array α) (i : Nat) : Array α :=
  if h : 0 < i ∧ i < items.size then
    have : (i - 1) / 2 < items.size := by omega
    if less items[i] items[(i - 1) / 2] then
      siftUp less (items.swap i ((i - 1) / 2)) ((i - 1) / 2)
    else items
  else items
termination_by i

/-- The position `c` if it exists and holds a smaller item than `m`, else `m`. -/
def lesser (less : α → α → Bool) (items : Array α) (m c : Nat) : Nat :=
  match items[c]?, items[m]? with
  | some x, some y => if less x y then c else m
  | _, _ => m

/-- Moves the item at `i` toward the leaves until neither child is smaller. -/
def siftDown (less : α → α → Bool) (items : Array α) (i : Nat) : Array α :=
  let least := lesser less items (lesser less items i (2 * i + 1)) (2 * i + 2)
  if h : i < least ∧ least < items.size then
    siftDown less (items.swap i least) least
  else items
termination_by items.size - i
decreasing_by
  rw [Array.size_swap]
  omega

namespace Bounded

def new (capacity : Int) (less : α → α → Bool) : Bounded α := { capacity, less }

def size (heap : Bounded α) : Nat := heap.items.size

def min? (heap : Bounded α) : Option α := heap.items[0]?

/-- Offers an item. The answer is `false`, and the heap unchanged, when the heap is full and the
item is not greater than the smallest kept one. -/
def push (heap : Bounded α) (item : α) : Bool × Bounded α :=
  if heap.capacity ≤ 0 then (false, heap)
  else if (heap.items.size : Int) < heap.capacity then
    (true, { heap with items := siftUp heap.less (heap.items.push item) heap.items.size })
  else
    match heap.items[0]? with
    | none => (false, heap)
    | some least =>
      if heap.less least item then
        (true, { heap with items := siftDown heap.less (heap.items.setIfInBounds 0 item) 0 })
      else (false, heap)

/-- Takes a smallest item out: the last item moves to the root and sinks. -/
def pop (heap : Bounded α) : Option α × Bounded α :=
  match heap.items[0]?, heap.items.back? with
  | some least, some last =>
    (some least, { heap with items := siftDown heap.less (heap.items.pop.setIfInBounds 0 last) 0 })
  | _, _ => (none, heap)

/-- Takes out up to `count` items, smallest first, in front of those taken before. -/
def popInto : Nat → Bounded α → List α → List α × Bounded α
  | 0, heap, taken => (taken, heap)
  | count + 1, heap, taken =>
    match heap.pop with
    | (some least, rest) => popInto count rest (least :: taken)
    | (none, rest) => (taken, rest)

/-- Takes out every item; the answer lists them greatest first. -/
def drain (heap : Bounded α) : List α × Bounded α := popInto heap.items.size heap []

end Bounded

end QueryFusion.Heap

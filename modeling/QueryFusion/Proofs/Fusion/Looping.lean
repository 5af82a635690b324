import QueryFusion.Proofs.Fusion.Rounds
import QueryFusion.Proofs.Fusion.StepTraces

/-!
# The code of every trace is regular

Whatever way code is made, blocks lead to later blocks, only a loop by position counts its position,
and nothing else stores into the position or the copy of such a loop. So the code of every trace is
regular, and a function made along a trace comes to an end.
-/

namespace QueryFusion.Fusion

open Code
open Code.Arena (declaration)
open Engine (nextRecord)

/-! ## Statements that were added -/

/-- The heads of blocks got statements, and the tails of blocks stayed. -/
structure Writes (old new : Arena) (added : BlockId → Node → Prop) : Prop where
  names : old.names ≤ new.names
  tails : ∀ (i : BlockId) (block : Block), old.blocks[i]? = some block →
    ∃ block', new.blocks[i]? = some block' ∧ block'.tail = block.tail
  heads : ∀ (i : BlockId) (block : Block), new.blocks[i]? = some block → ∀ s ∈ block.head,
    (∃ before, old.blocks[i]? = some before ∧ s ∈ before.head) ∨ added i s

variable {added : BlockId → Node → Prop} {block : Block} {name : String} {init : Node}

section writes

variable {old new : Arena} {b : BlockId} {s : Node} {more : Nat} {change : Block → Block}
variable {blocks : List Block}

theorem Writes.tail (writes : Writes old new added) {i : BlockId}
    {before : Block} (here : new.blocks[i]? = some block)
    (there : old.blocks[i]? = some before) : block.tail = before.tail := by
  obtain ⟨block', here', same⟩ := writes.tails i before there
  rw [← Option.some.inj (here'.symm.trans here)]
  exact same

theorem Writes.trans {middle : Arena} {added' : BlockId → Node → Prop}
    (first : Writes old middle added) (second : Writes middle new added') :
    Writes old new fun i t => added i t ∨ added' i t where
  names := first.names.trans second.names
  tails := by
    intro i block here
    obtain ⟨block₁, here₁, same₁⟩ := first.tails i block here
    obtain ⟨block₂, here₂, same₂⟩ := second.tails i block₁ here₁
    exact ⟨block₂, here₂, same₂.trans same₁⟩
  heads := by
    intro i block here t member
    rcases second.heads i block here t member with ⟨before, there, old⟩ | isNew
    · exact (first.heads i before there t old).imp_right .inl
    · exact .inr (.inr isNew)

/-- A change of one block that adds statements to its head. -/
theorem Rewrites.writes {added : Node → Prop} (rewrites : Rewrites b change old new)
    (tail : ∀ block, (change block).tail = block.tail)
    (heads : ∀ block, ∀ t ∈ (change block).head, t ∈ block.head ∨ added t) :
    Writes old new fun i t => i = b ∧ added t where
  names := rewrites.names
  tails := by
    intro i block here
    refine ⟨_, rewrites.blocks i block here, ?_⟩
    split
    · exact tail block
    · rfl
  heads := by
    intro i block here t member
    obtain ⟨before, there, rfl⟩ := rewrites.before here
    split at member
    · next same => exact (heads before t member).imp (⟨before, there, ·⟩) (⟨same, ·⟩)
    · exact .inl ⟨before, there, member⟩

/-- A statement at the end of a head. -/
theorem mem_head_append {t : Node}
    (member : t ∈ { block with rest := block.rest ++ [s] }.head) : t ∈ block.head ∨ t = s := by
  unfold Block.head at member ⊢
  rw [← List.append_assoc] at member
  exact (List.mem_append.mp member).imp_right List.mem_singleton.mp

theorem Linked.writes (linked : Linked old new b s blocks) :
    Writes old new fun i t => (i = b ∧ t = s) ∨
      (old.blocks.size ≤ i ∧ ∃ block ∈ blocks, t ∈ block.head) where
  names := Nat.le_of_eq linked.names.symm
  tails := by
    intro i block here
    refine ⟨_, linked.kept i block here, ?_⟩
    split <;> rfl
  heads := by
    intro i block here t member
    rcases linked.cases here with ⟨before, there, rfl⟩ | ⟨late, isAdded⟩
    · split at member
      · next same =>
        rcases mem_head_append member with old | isNew
        · exact .inl ⟨before, there, old⟩
        · exact .inr (.inl ⟨same, isNew⟩)
      · exact .inl ⟨before, there, member⟩
    · exact .inr (.inr ⟨late, block, isAdded, member⟩)

theorem writes_appendHead (done : old.appendHead b s = .ok new) :
    Writes old new fun i t => i = b ∧ t = s :=
  (rewrites_of_updates (Arena.appendHead_updates done)).writes (fun _ => rfl) fun _ _ => mem_head_append

theorem writes_declareHere (done : old.declareHere b init = .ok (name, new)) :
    Writes old new fun i t => i = b ∧ t = declaration old.names init := by
  obtain ⟨rfl, updates⟩ := Arena.declareHere_updates done
  exact (rewrites_of_updates updates).writes (fun _ => rfl) fun _ _ => mem_head_append

theorem writes_declare (done : old.declare b init = .ok (name, new)) :
    Writes old new fun i t => i = b ∧ t = declaration old.names init := by
  obtain ⟨rfl, updates⟩ := Arena.declare_updates done
  exact (rewrites_of_updates updates).writes (fun _ => rfl) fun _ _ member => (List.mem_cons.mp member).symm

end writes

/-! ## Regular code -/

section orders

variable {counts counts' : Nat → Option BlockId} {fn fn' : Function} {b : BlockId} {s : Node}

/-- A regular statement, or the loop over the records, that stores only into a variable that was
declared. -/
structure Fits (counts : Nat → Option BlockId) (fn : Function) (b : BlockId) (s : Node) : Prop where
  regular : Regular counts fn.arena b s ∨
    b = fn.body ∧ ∃ records, b < records ∧ s = .loop nextRecord records
  stored : ∀ k value declares, s = .assign (variableName k) value declares → k < fn.arena.names

/-- Code whose loops by position are known, in a function that is not complete. -/
structure Orders (counts : Nat → Option BlockId) (fn : Function) : Prop where
  apart : ∀ n body, counts n = some body → counts (n + 1) = none
  below : ∀ n body, counts n = some body → n + 1 < fn.arena.names
  head : ∀ (b : BlockId) (block : Block), fn.arena.blocks[b]? = some block → ∀ s ∈ block.head,
    Fits counts fn b s
  tail : ∀ (b : BlockId) (block : Block), fn.arena.blocks[b]? = some block → ∀ s ∈ block.tail,
    s.isQuiet = true ∨ ∃ n, s = countOf n ∧ counts n = some b
  body : ∃ block, fn.arena.blocks[fn.body]? = some block ∧ block.tail = []

/-- A variable that was declared and is neither the copy nor the position of a loop. -/
structure Free (counts : Nat → Option BlockId) (fn : Function) (k : Nat) : Prop where
  below : k < fn.arena.names
  copy : counts k = none
  position : ∀ n, k = n + 1 → counts n = none

/-- The next variable to be declared is of no loop. -/
theorem Orders.next (orders : Orders counts fn) : counts fn.arena.names = none ∧
    ∀ n, fn.arena.names = n + 1 → counts n = none := by
  constructor
  · refine Option.eq_none_iff_forall_ne_some.mpr fun body isCount => ?_
    exact absurd (orders.below _ body isCount) (by omega)
  · refine fun n same => Option.eq_none_iff_forall_ne_some.mpr fun body isCount => ?_
    exact absurd (orders.below n body isCount) (by omega)

variable {k : Nat}

theorem Free.kept (free : Free counts fn k) (names : fn.arena.names ≤ fn'.arena.names)
    (same : ∀ n, n < fn.arena.names → counts' n = counts n) : Free counts' fn' k where
  below := free.below.trans_le names
  copy := (same k free.below).trans free.copy
  position := by
    rintro n rfl
    exact (same n (Nat.lt_of_succ_lt free.below)).trans (free.position n rfl)

/-- What regular code needs from the blocks stays. -/
theorem Fits.kept (fits : Fits counts fn b s)
    (below : ∀ n body, counts n = some body → n + 1 < fn.arena.names)
    (body : fn'.body = fn.body) (names : fn.arena.names ≤ fn'.arena.names)
    (same : ∀ n, n < fn.arena.names → counts' n = counts n)
    (tails : ∀ (i : BlockId) (block : Block), fn.arena.blocks[i]? = some block →
      ∃ block', fn'.arena.blocks[i]? = some block' ∧ block'.tail = block.tail) :
    Fits counts' fn' b s where
  regular := by
    rw [body]
    refine fits.regular.imp_left fun regular => ?_
    cases regular with
    | expr quiet => exact .expr quiet
    | leave => exact .leave
    | @store k value declares quiet copy position =>
      have declared := fits.stored k value declares rfl
      refine .store quiet (fun body isCount => copy body ((same k declared).symm.trans isCount)) ?_
      rintro n body rfl isCount
      exact position n body rfl ((same n (Nat.lt_of_succ_lt declared)).symm.trans isCount)
    | branch quiet onYes onNo => exact .branch quiet onYes onNo
    | stepping later here tail =>
      obtain ⟨block', here', sameTail⟩ := tails _ _ here
      exact .stepping later here' (sameTail.trans tail)
    | @counting n body _ later counted here tail =>
      obtain ⟨block', here', sameTail⟩ := tails _ _ here
      have counted' := (same n (Nat.lt_of_succ_lt (below n body counted))).trans counted
      exact .counting later counted' here' (sameTail.trans tail)
  stored := fun k value declares isStore =>
    Nat.lt_of_lt_of_le (fits.stored k value declares isStore) names

theorem Orders.grow (orders : Orders counts fn)
    (writes : Writes fn.arena fn'.arena added) (body : fn'.body = fn.body)
    (same : ∀ n, n < fn.arena.names → counts' n = counts n)
    (apart : ∀ n body, counts' n = some body → counts' (n + 1) = none)
    (below : ∀ n body, counts' n = some body → n + 1 < fn'.arena.names)
    (fits : ∀ i t, added i t → Fits counts' fn' i t)
    (tails : ∀ (i : BlockId) (block : Block), fn'.arena.blocks[i]? = some block →
      fn.arena.blocks[i]? = none → ∀ t ∈ block.tail,
        t.isQuiet = true ∨ ∃ n, t = countOf n ∧ counts' n = some i) : Orders counts' fn' where
  apart := apart
  below := below
  head := by
    intro i block here t member
    rcases writes.heads i block here t member with ⟨before, there, old⟩ | isAdded
    · exact (orders.head i before there t old).kept orders.below body writes.names same writes.tails
    · exact fits i t isAdded
  tail := by
    intro i block here t member
    cases there : fn.arena.blocks[i]? with
    | none => exact tails i block here there t member
    | some before =>
      rw [writes.tail here there] at member
      refine (orders.tail i before there t member).imp_right ?_
      rintro ⟨n, isCount, counted⟩
      have isOld := Nat.lt_of_succ_lt (orders.below n i counted)
      exact ⟨n, isCount, (same n isOld).trans counted⟩
  body := by
    obtain ⟨block, here, isEmpty⟩ := orders.body
    obtain ⟨block', here', sameTail⟩ := writes.tails fn.body block here
    rw [body]
    exact ⟨block', here', sameTail.trans isEmpty⟩

theorem Orders.writes (orders : Orders counts fn)
    (writes : Writes fn.arena fn'.arena added) (body : fn'.body = fn.body)
    (fits : ∀ i t, added i t → Fits counts fn' i t)
    (tails : ∀ (i : BlockId) (block : Block), fn'.arena.blocks[i]? = some block →
      fn.arena.blocks[i]? = none → ∀ t ∈ block.tail, t.isQuiet = true) : Orders counts fn' :=
  orders.grow writes body (fun _ _ => rfl) orders.apart
    (fun n body isCount => Nat.lt_of_lt_of_le (orders.below n body isCount) writes.names) fits
    fun i block here gone t member => .inl (tails i block here gone t member)

/-- No block is new. -/
theorem Orders.writesSame (orders : Orders counts fn) (writes : Writes fn.arena fn'.arena added)
    (size : fn'.arena.blocks.size = fn.arena.blocks.size) (body : fn'.body = fn.body)
    (fits : ∀ i t, added i t → Fits counts fn' i t) : Orders counts fn' := by
  refine orders.writes writes body fits fun i block here gone => ?_
  have there := Array.inside here
  rw [Array.getElem?_eq_none_iff, ← size] at gone
  exact absurd there gone.not_gt

theorem Fits.expr {n : Node} (quiet : n.isQuiet = true) : Fits counts fn b n := by
  refine ⟨.inl (.expr quiet), fun k value declares same => ?_⟩
  rw [same, Node.isQuiet] at quiet
  cases quiet

/-- A store into a free variable. -/
theorem Fits.store {value : Node} {declares : Bool} (free : Free counts fn k)
    (quiet : value.isQuiet = true) : Fits counts fn b (.assign (variableName k) value declares) where
  regular := by
    refine .inl (.store quiet (fun body isCount => ?_) fun n body same isCount => ?_)
    · rw [free.copy] at isCount
      cases isCount
    · rw [free.position n same] at isCount
      cases isCount
  stored := by
    intro k' value' declares' same
    injection same with names
    exact variableName_injective names ▸ free.below

theorem Fits.set {value : Node} (free : Free counts fn k) (quiet : value.isQuiet = true) :
    Fits counts fn b (.set (variableName k) value) := .store free quiet

/-- A branch into later blocks. -/
theorem Fits.branch {test : Node} {yes no : BlockId} (quiet : test.isQuiet = true)
    (onYes : yes = emptyBlock ∨ b < yes) (onNo : no = emptyBlock ∨ b < no) :
    Fits counts fn b (.branch test yes no) :=
  ⟨.inl (.branch quiet onYes onNo), nofun⟩

theorem Fits.loop {cond : Node} {body : BlockId} (regular : Regular counts fn.arena b (.loop cond body)) :
    Fits counts fn b (.loop cond body) := ⟨.inl regular, nofun⟩

/-- A variable that was declared just now is free. -/
theorem Orders.fresh (orders : Orders counts fn) (names : fn'.arena.names = fn.arena.names + 1) :
    Free counts fn' fn.arena.names where
  below := by
    rw [names]
    exact Nat.lt_succ_self _
  copy := orders.next.1
  position := orders.next.2

theorem Orders.congr (orders : Orders counts fn) (arena : fn'.arena = fn.arena)
    (body : fn'.body = fn.body) : Orders counts fn' := by
  have writes : Writes fn.arena fn'.arena fun _ _ => False := by
    rw [arena]
    exact ⟨le_rfl, fun i block here => ⟨block, here, rfl⟩,
      fun i block here t member => .inl ⟨block, here, member⟩⟩
  exact orders.writesSame writes (by rw [arena]) body fun _ _ => False.elim

end orders

/-! ## The code of traces -/

section traces

variable {S : Terms} {may : Nat → Prop} {scope later : Scope} {counts : Nat → Option BlockId}

theorem isQuiet_copyOf (j : Nat) : (copyOf j).isQuiet = true := by
  simp [copyOf, Node.isQuiet, Node.areQuiet, Member.materialize, Member.hasNext]

variable {arena : Arena}

theorem Orders.declared {b : BlockId} (orders : Orders counts scope.fn) (quiet : init.isQuiet = true)
    (writes : Writes scope.fn.arena arena fun i t => i = b ∧ t = declaration scope.fn.arena.names init)
    (names : arena.names = scope.fn.arena.names + 1)
    (size : arena.blocks.size = scope.fn.arena.blocks.size) :
    Orders counts (scope.withArena arena).fn ∧
      Free counts (scope.withArena arena).fn scope.fn.arena.names := by
  have free : Free counts (scope.withArena arena).fn scope.fn.arena.names := orders.fresh names
  refine ⟨orders.writesSame writes size rfl ?_, free⟩
  rintro i _ ⟨rfl, rfl⟩
  exact .store free quiet

theorem Orders.declare {b : BlockId} (orders : Orders counts scope.fn) (quiet : init.isQuiet = true)
    (done : scope.fn.arena.declare b init = .ok (name, arena)) :
    Orders counts (scope.withArena arena).fn ∧
      Free counts (scope.withArena arena).fn scope.fn.arena.names :=
  have updates := (Arena.declare_updates done).2
  orders.declared quiet (writes_declare done) updates.names updates.size

/-- A statement was linked to new blocks. -/
theorem Orders.linked {home : BlockId} {s : Node} {blocks : List Block}
    (orders : Orders counts scope.fn) (linked : Linked scope.fn.arena arena home s blocks)
    (fits : Fits counts (scope.withArena arena).fn home s)
    (heads : ∀ i, ∀ block ∈ blocks, ∀ t ∈ block.head, Fits counts (scope.withArena arena).fn i t)
    (tails : ∀ block ∈ blocks, ∀ t ∈ block.tail, t.isQuiet = true) :
    Orders counts (scope.withArena arena).fn := by
  refine orders.writes linked.writes rfl ?_ ?_
  · rintro i t (⟨rfl, rfl⟩ | ⟨_, block, isNew, member⟩)
    · exact fits
    · exact heads i block isNew t member
  · intro i block here gone
    rcases linked.cases here with ⟨before, there, _⟩ | ⟨_, isAdded⟩
    · rw [gone] at there
      cases there
    · exact tails block isAdded

/-- The code of an expression is regular. -/
theorem Codes.orders (codes : Codes S may scope later) : Orders counts scope.fn →
    (∀ k, may k → Free counts scope.fn k) → Orders counts later.fn := by
  induction codes with
  | refl => exact fun orders _ => orders
  | trans first _ ihFirst ihSecond =>
    intro orders free
    exact ihSecond (ihFirst orders free) fun k allowed =>
      (free k allowed).kept first.adds.later.arena.names fun _ _ => rfl
  | notes => exact fun orders _ => orders.congr rfl rfl
  | memo => exact fun orders _ => orders
  | reader => exact fun orders _ => orders.congr rfl rfl
  | @advance _ _ j _ _ _ steps binds =>
    intro orders _
    have updates := (Arena.appendHead_updates steps).trans (Arena.bind_updates binds)
    exact orders.writesSame ((rewrites_of_updates updates).writes (fun _ => rfl) fun block t =>
      @mem_head_append block (nextOf j) t) updates.size rfl fun _ _ isNext =>
        .expr (isNext.2 ▸ isQuiet_nextOf j)
  | redirect _ _ _ _ _ _ declares redirects =>
    intro orders _
    have declared := (orders.declare (isQuiet_copyOf _) declares).1
    have size := (Arena.update_eq_ok redirects).2.2.1
    exact declared.writesSame ((rewrites_update redirects).writes (fun _ => rfl) fun _ _ => .inl) size rfl
      fun _ _ (isNew : _ ∧ False) => isNew.2.elim
  | emit simple done =>
    intro orders free
    refine orders.writesSame (writes_appendHead done) (Arena.appendHead_updates done).size rfl ?_
    rintro i _ ⟨rfl, rfl⟩
    cases simple with
    | expr reads => exact .expr reads.quiet
    | leave => exact ⟨.inl .leave, nofun⟩
    | set allowed _ reads =>
      refine .set ((free _ allowed).kept ?_ fun _ _ => rfl) reads.quiet
      exact Nat.le_of_eq (Arena.appendHead_updates done).names.symm
  | declareHere reads done _ ih =>
    intro orders free
    have updates := (Arena.declareHere_updates done).2
    obtain ⟨declared, isFree⟩ :=
      orders.declared reads.quiet (writes_declareHere done) updates.names updates.size
    refine ih declared fun k allowed => ?_
    rcases allowed with allowed | rfl
    · exact (free k allowed).kept (adds_declareHere done).later.arena.names fun _ _ => rfl
    · exact isFree
  | @fork _ scope first last test tag arena reads _ linked yesCodes noCodes onYes onNo =>
    intro orders free
    have later : ∀ i, scope.current < scope.fn.arena.blocks.size + i :=
      fun i => linked.there.trans_le (Nat.le_add_right _ i)
    have isEmpty : ∀ block ∈ [({ parent := some scope.current, tag } : Block),
        { parent := some scope.current, tag }], block.head = [] ∧ block.tail = [] := by
      intro block isNew
      simp only [List.mem_cons, List.not_mem_nil, or_false, or_self] at isNew
      exact isNew ▸ ⟨rfl, rfl⟩
    have branched : Orders counts (scope.withArena arena).fn := by
      refine orders.linked linked (.branch reads.quiet (.inr (later 0)) (.inr (later 1))) ?_ ?_
      · intro i block isNew t member
        rw [(isEmpty block isNew).1] at member
        cases member
      · intro block isNew t member
        rw [(isEmpty block isNew).2] at member
        cases member
    have names : scope.fn.arena.names ≤ first.fn.arena.names :=
      Nat.le_trans linked.names.ge yesCodes.adds.later.arena.names
    have afterYes := onYes branched fun k allowed =>
      (free k allowed).kept linked.names.ge fun _ _ => rfl
    exact onNo afterYes fun k allowed => (free k allowed).kept names fun _ _ => rfl

/-- A loop by position counts a new variable. -/
theorem Orders.count {j : Nat} {array index : String} {copied positioned : Arena}
    (orders : Orders counts scope.fn)
    (copies : scope.fn.arena.declareHere scope.current (copyOf j) = .ok (array, copied))
    (positions : copied.declareHere scope.current (.long 0) = .ok (index, positioned))
    (linked : Linked positioned arena scope.current
      (.loop (hasPosition scope.fn.arena.names) scope.fn.arena.blocks.size) [block])
    (head : block.head = []) (tail : block.tail = [countOf scope.fn.arena.names]) :
    Orders (fun n => if n = scope.fn.arena.names then some scope.fn.arena.blocks.size else counts n)
      (scope.withArena arena).fn := by
  have size := positions_size copies positions
  have copiedNames : copied.names = scope.fn.arena.names + 1 :=
    (Arena.declareHere_updates copies).2.names
  have names : arena.names = scope.fn.arena.names + 2 := by
    rw [linked.names, (Arena.declareHere_updates positions).2.names, copiedNames]
  have here : scope.current < scope.fn.arena.blocks.size := size ▸ linked.there
  have isBody := linked.extra 0 block rfl
  rw [Nat.add_zero, size] at isBody
  obtain ⟨_, notPosition⟩ := orders.next
  have stored : ∀ {n k : Nat} {init value : Node} {declares : Bool}, n < scope.fn.arena.names + 2 →
      declaration n init = .assign (variableName k) value declares → k < arena.names := by
    intro n k init value declares below same
    injection same with isName
    rw [names, ← variableName_injective isName]
    exact below
  have writes : Writes scope.fn.arena (scope.withArena arena).fn.arena _ :=
    ((writes_declareHere copies).trans (writes_declareHere positions)).trans linked.writes
  refine orders.grow writes rfl (fun n below => if_neg below.ne) ?_ ?_ ?_ ?_
  · intro n body isCount
    split at isCount
    · next same =>
      rw [if_neg (by omega), same]
      refine Option.eq_none_iff_forall_ne_some.mpr fun other counted => ?_
      exact absurd (orders.below _ other counted) (by omega)
    · rw [if_neg (Nat.ne_of_lt (orders.below n body isCount))]
      exact orders.apart n body isCount
  · intro n body isCount
    rw [names]
    split at isCount
    · next same => omega
    · exact Nat.lt_of_lt_of_le (orders.below n body isCount) (Nat.le_add_right _ 2)
  · rintro i t ((⟨rfl, rfl⟩ | ⟨rfl, rfl⟩) | ⟨rfl, rfl⟩ | ⟨_, other, isNew, member⟩)
    · refine ⟨.inl (.store (isQuiet_copyOf j) (fun body isCount => ?_) fun n body same isCount => ?_),
        fun k value declares same => ?_⟩
      · rw [if_pos rfl] at isCount
        exact Option.some.inj isCount ▸ here
      · rw [if_neg (by omega), notPosition n same] at isCount
        cases isCount
      · exact stored (by omega) same
    · refine ⟨.inl (.store (by rw [Node.long, Node.isQuiet]) (fun body isCount => ?_)
        fun n body same isCount => ?_), fun k value declares same => ?_⟩
      · rw [if_neg (by omega)] at isCount
        exact absurd (orders.below _ body isCount) (by omega)
      · rw [if_pos (by omega)] at isCount
        exact ⟨Option.some.inj isCount ▸ here, rfl⟩
      · exact stored (by omega) same
    · exact .loop (.counting here (if_pos rfl) isBody tail)
    · rw [List.mem_singleton.mp isNew, head] at member
      cases member
  · intro i found isFound gone t member
    rcases linked.cases isFound with ⟨before, there, _⟩ | ⟨late, isNew⟩
    · rw [Array.getElem?_eq_none_iff, ← size] at gone
      exact absurd (Array.inside there) gone.not_gt
    · rw [List.mem_singleton.mp isNew, tail, List.mem_singleton] at member
      refine .inr ⟨_, member, ?_⟩
      have there := Array.inside isFound
      rw [linked.size, size] at there
      rw [size] at late
      rw [if_pos rfl, late.antisymm (Nat.le_of_lt_succ there)]

theorem Makes.orders (makes : Makes S may scope later) : ∀ {counts : Nat → Option BlockId},
    Orders counts scope.fn → (∀ k, may k → Free counts scope.fn k) →
    ∃ counts', Orders counts' later.fn ∧ ∀ n, n < scope.fn.arena.names → counts' n = counts n := by
  induction makes with
  | code codes => exact fun orders free => ⟨_, codes.orders orders free, fun _ _ => rfl⟩
  | trans first _ ihFirst ihSecond =>
    intro counts orders free
    obtain ⟨counts₁, orders₁, same₁⟩ := ihFirst orders free
    have names := first.enters.later.arena.names
    obtain ⟨counts₂, orders₂, same₂⟩ := ihSecond orders₁ fun k allowed =>
      (free k allowed).kept names same₁
    exact ⟨counts₂, orders₂, fun n below =>
      (same₂ n (below.trans_le names)).trans (same₁ n below)⟩
  | frame _ fn => exact fun orders _ => ⟨_, orders.congr (by rw [fn]) (by rw [fn]), fun _ _ => rfl⟩
  | declare isOpen quiet _ _ _ done _ ih =>
    intro counts orders free
    obtain ⟨declared, isFree⟩ := orders.declare quiet done
    have names := (adds_declare isOpen done).later.arena.names
    obtain ⟨counts', orders', same⟩ := ih declared fun k allowed => by
      rcases allowed with allowed | rfl
      · exact (free k allowed).kept names fun _ _ => rfl
      · exact isFree
    exact ⟨counts', orders', fun n below => same n (below.trans_le names)⟩
  | @enter _ scope s block arena _ opens linked =>
    intro counts orders _
    refine ⟨counts, ?_, fun _ _ => rfl⟩
    have later : scope.current < scope.fn.arena.blocks.size := linked.there
    have isBody := linked.extra 0 block rfl
    cases opens with
    | select reads =>
      exact orders.linked linked (.branch reads.quiet (.inr later) (.inl rfl))
        (by simp [Block.head]) (by simp)
    | stepping isReader =>
      refine orders.linked linked (.loop (.stepping later isBody rfl)) (by simp [Block.head]) ?_
      simp only [List.mem_singleton, forall_eq]
      exact isQuiet_nextOf _
  | count isReader copies positions linked =>
    intro counts orders _
    exact ⟨_, orders.count copies positions linked rfl rfl, fun n below => if_neg below.ne⟩
  | @keep _ scope test key item best payload tag arena reads readsKey readsItem _ maySetBest
      maySetPayload _ _ linked =>
    intro counts orders free
    have names : scope.fn.arena.names ≤ arena.names := Nat.le_of_eq linked.names.symm
    refine ⟨counts, orders.linked linked (.branch reads.quiet (.inr linked.there) (.inl rfl)) ?_
      (by simp), fun _ _ => rfl⟩
    simp only [forall_eq, Block.head, List.nil_append, List.mem_cons, List.not_mem_nil, or_false]
    rintro i t (rfl | rfl)
    · exact .set ((free _ maySetBest).kept names fun _ _ => rfl) readsKey.quiet
    · exact .set ((free _ maySetPayload).kept names fun _ _ => rfl) readsItem.quiet
  | nested _ ih => exact fun orders free => ih orders free

/-- The code of a whole function is regular. -/
theorem Builds.orders (builds : Builds S scope later) :
    (∃ counts, Orders counts scope.fn) → ∃ counts, Orders counts later.fn := by
  induction builds with
  | make makes =>
    rintro ⟨counts, orders⟩
    obtain ⟨counts', orders', _⟩ := makes.orders orders fun _ => False.elim
    exact ⟨counts', orders'⟩
  | trans _ _ first second => exact fun orders => second (first orders)
  | @group scope second outer name flagged third arena _ _ declares inside _ sets linked =>
    rintro ⟨counts, orders⟩
    obtain ⟨declared, isFree⟩ := orders.declare (by rw [Node.bool, Node.isQuiet]) declares
    obtain ⟨counts', orders', same⟩ := inside.orders declared fun _ => False.elim
    refine ⟨counts', ?_⟩
    have flagFree : Free counts' (second.withArena third).fn scope.fn.arena.names :=
      isFree.kept (Nat.le_trans inside.enters.later.arena.names
        (Nat.le_of_eq (Arena.appendHead_updates sets).names.symm)) same
    have set : Orders counts' (second.withArena third).fn := by
      refine orders'.writesSame (writes_appendHead sets) (Arena.appendHead_updates sets).size rfl ?_
      rintro i _ ⟨rfl, rfl⟩
      exact .set flagFree (by rw [Node.bool, Node.isQuiet])
    exact set.linked linked (.branch (by rw [Node.isQuiet]) (.inr linked.there) (.inl rfl))
      (by simp [Block.head]) (by simp)
  | toBody => exact id
  | atBody _ quiet _ done =>
    rintro ⟨counts, orders⟩
    refine ⟨counts, orders.writesSame (writes_appendHead done) (Arena.appendHead_updates done).size
      rfl ?_⟩
    rintro i _ ⟨rfl, rfl⟩
    exact .expr quiet

end traces

end QueryFusion.Fusion

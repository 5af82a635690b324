import QueryFusion.Proofs.Engine.Quiet
import QueryFusion.Proofs.Engine.Records
import QueryFusion.Proofs.Fusion.Bindings

/-!
# Code whose loops end

In regular code every block leads only to later blocks, expressions stay at the record, and every
loop ends its rounds with the statement that makes it end: it advances the reader it tests, or it
counts the position it tests. The copy and the position of a loop by position are written by nothing
inside the loop but that statement.

Regular code halts. A loop by reader ends because every round takes an element from what its stepper
has ahead, a loop by position because the position comes closer to the length of the copy, and the
loop over the records because it takes one of them.
-/

namespace QueryFusion.Fusion

open Code
open Engine

/-! ## Regular code -/

/-- A statement that can stand in the head of a block. `counts` gives the body of the loop by
position over a copy, by the number of the copy; the position has the next number. -/
inductive Regular (counts : Nat → Option BlockId) (arena : Arena) (b : BlockId) : Node → Prop
  | expr {n : Node} (quiet : n.isQuiet = true) : Regular counts arena b n
  | leave : Regular counts arena b .leave
  | store {k : Nat} {value : Node} {declares : Bool} (quiet : value.isQuiet = true)
      (copy : ∀ body, counts k = some body → b < body)
      (position : ∀ n body, k = n + 1 → counts n = some body → b < body ∧ value = .long 0) :
      Regular counts arena b (.assign (variableName k) value declares)
  | branch {test : Node} {yes no : BlockId} (quiet : test.isQuiet = true)
      (onYes : yes = Code.emptyBlock ∨ b < yes) (onNo : no = Code.emptyBlock ∨ b < no) :
      Regular counts arena b (.branch test yes no)
  | stepping {j : Nat} {body : BlockId} {block : Block} (later : b < body)
      (here : arena.blocks[body]? = some block) (tail : block.tail = [nextOf j]) :
      Regular counts arena b (.loop (hasElement j) body)
  | counting {n : Nat} {body : BlockId} {block : Block} (later : b < body)
      (counted : counts n = some body) (here : arena.blocks[body]? = some block)
      (tail : block.tail = [countOf n]) : Regular counts arena b (.loop (hasPosition n) body)

/-- All code of a function is regular, but for the loop over the records. -/
structure Looped (counts : Nat → Option BlockId) (fn : Function) : Prop where
  apart : ∀ n body, counts n = some body → counts (n + 1) = none
  head : ∀ (b : BlockId) (block : Block), fn.arena.blocks[b]? = some block → ∀ s ∈ block.head,
    Regular counts fn.arena b s ∨
      b = fn.body ∧ ∃ records, b < records ∧ s = .loop nextRecord records
  tail : ∀ (b : BlockId) (block : Block), fn.arena.blocks[b]? = some block → ∀ s ∈ block.tail,
    s.isQuiet = true ∨ ∃ n, s = countOf n ∧ counts n = some b

/-! ## What regular code keeps -/

section rounds

variable {counts : Nat → Option BlockId} {fn : Function} {m m' m'' : Machine} {b : BlockId}

/-- Positions are integers, and the clock is ahead of the columns. -/
structure Counted (counts : Nat → Option BlockId) (m : Machine) : Prop where
  tracked : m.Tracked
  position : ∀ n body v, counts n = some body → m.env.lookup (variableName (n + 1)) = some v →
    ∃ x, v = .int x

/-- What code keeps: the record, the names that are no variables, and the copies and positions of
some loops. -/
structure Settles (counts : Nat → Option BlockId) (kept : BlockId → Prop) (m m' : Machine) : Prop where
  steps : m.Steps m'
  names : ∀ name, (∀ n, name ≠ variableName n) → m'.env.lookup name = m.env.lookup name
  copy : ∀ n body, counts n = some body → kept body →
    m'.env.lookup (variableName n) = m.env.lookup (variableName n)
  position : ∀ n body, counts n = some body → kept body →
    m'.env.lookup (variableName (n + 1)) = m.env.lookup (variableName (n + 1))
  counted : Counted counts m → Counted counts m'

namespace Settles

variable {kept kept' : BlockId → Prop}

theorem refl (m : Machine) : Settles counts kept m m where
  steps := .refl m
  names := fun _ _ => rfl
  copy := fun _ _ _ _ => rfl
  position := fun _ _ _ _ => rfl
  counted := id

theorem trans (first : Settles counts kept m m') (second : Settles counts kept m' m'') :
    Settles counts kept m m'' where
  steps := first.steps.trans second.steps
  names := fun name apart => (second.names name apart).trans (first.names name apart)
  copy := fun n body isCount isKept =>
    (second.copy n body isCount isKept).trans (first.copy n body isCount isKept)
  position := fun n body isCount isKept =>
    (second.position n body isCount isKept).trans (first.position n body isCount isKept)
  counted := fun counted => second.counted (first.counted counted)

theorem mono (settles : Settles counts kept m m') (fewer : ∀ body, kept' body → kept body) :
    Settles counts kept' m m' :=
  { settles with
    copy := fun n body isCount isKept => settles.copy n body isCount (fewer body isKept)
    position := fun n body isCount isKept => settles.position n body isCount (fewer body isKept) }

theorem of_calm (calm : m.Calm m') : Settles counts kept m m' where
  steps := calm.steps
  names := fun _ _ => by rw [calm.env]
  copy := fun _ _ _ _ => by rw [calm.env]
  position := fun _ _ _ _ => by rw [calm.env]
  counted := fun counted => ⟨calm.steps.tracked counted.tracked, by
    rw [calm.env]
    exact counted.position⟩

/-- A store into a variable. -/
theorem put (k : Nat) (v : Value) (copy : ∀ body, counts k = some body → ¬ kept body)
    (position : ∀ n body, k = n + 1 → counts n = some body → ¬ kept body ∧ ∃ x, v = .int x) :
    Settles counts kept m (m.put (variableName k) v) where
  steps := .of_same rfl rfl rfl rfl rfl rfl rfl
  names := by
    intro name apart
    rw [Machine.lookup_put, if_neg (apart k)]
  copy := by
    intro n body isCount isKept
    rw [Machine.lookup_put, if_neg]
    intro same
    obtain rfl := variableName_injective same
    exact copy body isCount isKept
  position := by
    intro n body isCount isKept
    rw [Machine.lookup_put, if_neg]
    intro same
    exact (position n body (variableName_injective same).symm isCount).1 isKept
  counted := by
    intro counted
    have steps : m.Steps (m.put (variableName k) v) := .of_same rfl rfl rfl rfl rfl rfl rfl
    refine ⟨steps.tracked counted.tracked, ?_⟩
    intro n body w isCount found
    rw [Machine.lookup_put] at found
    split at found
    · next same =>
      cases found
      exact (position n body (variableName_injective same).symm isCount).2
    · exact counted.position n body w isCount found

end Settles

/-! ## Statements without loops -/

variable {wanted : Flow → Machine → Prop}

/-- A quiet expression as a statement. -/
theorem halts_expr {n : Node} (quiet : n.isQuiet = true)
    (evaluated : Halts (eval n) m fun _ m' => wanted .proceed m') : Halts (exec fn n) m wanted := by
  rw [exec_of_isQuiet quiet]
  exact .bind (evaluated.mono fun _ _ held => .pure held)

theorem halts_store {k : Nat} {value : Node} {declares : Bool} {kept : BlockId → Prop}
    (quiet : value.isQuiet = true) (copy : ∀ body, counts k = some body → ¬ kept body)
    (position : ∀ n body, k = n + 1 → counts n = some body → ¬ kept body ∧
      Halts (eval value) m fun v _ => ∃ x, v = .int x) :
    Halts (exec fn (.assign (variableName k) value declares)) m fun _ m' =>
      Settles counts kept m m' := by
  refine .assign ?_
  have evaluated := halts_eval value m quiet
  unfold Halts at evaluated ⊢
  split at evaluated
  · next v m' same =>
    refine .trans (.of_calm evaluated) (.put k v copy fun n body isNext isCount => ?_)
    obtain ⟨notKept, isInt⟩ := position n body isNext isCount
    exact ⟨notKept, isInt.answer same⟩
  · trivial
  · exact evaluated.elim

/-- Statements that settle one after the other. -/
theorem halts_all {kept : BlockId → Prop} : ∀ (code : List Node) (m : Machine),
    Counted counts m →
    (∀ s ∈ code, ∀ m, Counted counts m → Halts (exec fn s) m fun _ m' => Settles counts kept m m') →
    Halts (execAll fn code) m fun _ m' => Settles counts kept m m'
  | [], m, _, _ => .nil (.refl m)
  | s :: rest, m, counted, each => by
    refine .cons ((each s (.head _) m counted).mono fun flow m' settles => ⟨?_, ?_⟩)
    · intro _
      exact (halts_all rest m' (settles.counted counted) (List.forall_mem_cons.mp each).2).mono fun _ _ after => settles.trans after
    · exact fun _ => settles

/-- Code that is followed by more code if it goes on. -/
theorem halts_append {first second : List Node} (before : Halts (execAll fn first) m fun flow m' =>
      (flow = .proceed → Halts (execAll fn second) m' wanted) ∧ (flow ≠ .proceed → wanted flow m')) :
    Halts (execAll fn (first ++ second)) m wanted := by
  induction first generalizing m with
  | nil =>
    rw [execAll] at before
    exact before.1 rfl
  | cons n rest ih =>
    rw [execAll] at before
    rw [List.cons_append, execAll]
    unfold Halts at before ⊢
    rw [bind_apply] at before ⊢
    cases outcome : exec fn n m with
    | none => simp only [outcome] at before
    | some answer =>
      cases answer with
      | error stop => trivial
      | ok answer =>
        obtain ⟨flow, m'⟩ := answer
        simp only [outcome] at before ⊢
        cases flow with
        | proceed => exact ih before
        | leave => exact before.2 (by decide)
        | finish => exact before.2 (by decide)

variable {s : Node}

theorem halts_single (halts : Halts (exec fn s) m wanted) : Halts (execAll fn [s]) m wanted := by
  refine .cons (halts.mono fun flow m' held => ⟨?_, fun _ => held⟩)
  rintro rfl
  exact .nil held

/-! ## Loops by reader -/

/-- The test for a further element answers from a stepper. -/
theorem halts_hasElement (j : Nat) (m : Machine) :
    Halts (eval (hasElement j)) m fun v m' => m' = m ∧ ∃ i c,
      m.env.lookup (Function.readerName j) = some (.handle (.column i)) ∧
      m.columns[i]? = some c ∧ c.path.IsElement ∧ v = .bool !c.atEnd := by
  refine .bind ?_
  cases found : m.env.lookup (Function.readerName j) with
  | none =>
    refine .bind ?_
    refine .bind (.get ?_)
    rw [found]
    exact .fail
  | some v =>
    have isMember := eval_member (eval_ident found) Member.isEndOfArray
    refine .congr isMember ?_
    unfold callMember
    split
    · exact .bind (.get .fail)
    · exact .fail
    · next i =>
      refine .bind ((halts_columnAt i m).mono ?_)
      rintro c _ ⟨rfl, here⟩
      refine (halts_columnAtEnd c _).mono ?_
      rintro v _ ⟨rfl, rfl, isElement⟩
      exact .pure ⟨rfl, i, c, rfl, here, isElement, rfl⟩
    · exact .fail
    · exact .fail
    · exact .fail

theorem isQuiet_nextOf (j : Nat) : (nextOf j).isQuiet = true := by
  simp [nextOf, Node.isQuiet, Node.areQuiet, Member.next, Member.hasNext]

variable {j : Nat}

theorem halts_nextOf {i : Nat}
    (found : m.env.lookup (Function.readerName j) = some (.handle (.column i))) :
    Halts (eval (nextOf j)) m fun _ m' => ∃ c d, m.columns[i]? = some c ∧ m.Moved i c d ∧
      m' = m.moveColumn i d := by
  have isMember := eval_member (eval_ident found) Member.next
  refine .congr isMember ?_
  exact .bind ((halts_advance i m).mono fun _ _ held => .pure held)

/-- How many rounds a loop by reader can still run. -/
def RoundsLeft (j : Nat) (measure : Nat) (m : Machine) : Prop :=
  ∀ i c, m.env.lookup (Function.readerName j) = some (.handle (.column i)) →
    m.columns[i]? = some c → c.path.IsElement →
    ∃ rest, m.Chain (i :: rest) ∧
      (m.ahead (i :: rest)).length + (if c.atEnd then 0 else 1) ≤ measure

theorem exists_roundsLeft (j : Nat) (tracked : m.Tracked) : ∃ measure, RoundsLeft j measure m := by
  by_cases stepper : ∃ i c, m.env.lookup (Function.readerName j) = some (.handle (.column i)) ∧
      m.columns[i]? = some c ∧ c.path.IsElement
  · obtain ⟨i, c, found, here, isElement⟩ := stepper
    obtain ⟨rest, links⟩ := tracked.exists_chain _ i c rfl here isElement
    refine ⟨(m.ahead (i :: rest)).length + (if c.atEnd then 0 else 1), ?_⟩
    intro i' c' found' here' _
    cases found.symm.trans found'
    cases here.symm.trans here'
    exact ⟨rest, links, le_rfl⟩
  · refine ⟨0, fun i c found here isElement => ?_⟩
    exact absurd ⟨i, c, found, here, isElement⟩ stepper

/-- An advance at the end of a round leaves fewer rounds. -/
theorem RoundsLeft.next {i measure : Nat} {c e d : Column} (left : RoundsLeft j measure m)
    (found : m.env.lookup (Function.readerName j) = some (.handle (.column i)))
    (here : m.columns[i]? = some c) (isElement : c.path.IsElement) (goesOn : c.atEnd = false)
    (tracked : m.Tracked) (steps : m.Steps m') (here' : m'.columns[i]? = some e)
    (names : m'.env.lookup (Function.readerName j) = m.env.lookup (Function.readerName j))
    (moved : m'.Moved i e d) :
    ∃ less, less < measure ∧ RoundsLeft j less (m'.moveColumn i d) := by
  obtain ⟨rest, links, bound⟩ := left i c found here isElement
  rw [goesOn, if_neg Bool.false_ne_true] at bound
  have links' := steps.chain links
  have tracked' := steps.tracked tracked
  have shrinks := (steps.ahead tracked _ links).length_le
  obtain ⟨before, after⟩ := moved.ahead_self tracked' links' here'
  have after' : (m'.moveColumn i d).columns[i]? = some d := by
    rw [Machine.getElem?_moveColumn here', if_pos rfl]
  refine ⟨((m'.moveColumn i d).ahead (i :: rest)).length + (if d.atEnd then 0 else 1), ?_, ?_⟩
  · rw [before] at shrinks
    rw [after]
    simp only [List.length_append, List.length_drop] at shrinks ⊢
    unfold Column.atEnd
    split
    · omega
    · next inside =>
      simp only [decide_eq_true_eq, Nat.not_le] at inside
      omega
  · intro i' c' found' there _
    change m'.env.lookup (Function.readerName j) = _ at found'
    rw [names] at found'
    cases found.symm.trans found'
    cases after'.symm.trans there
    exact ⟨rest, (Machine.Steps.moveColumn here' moved).chain links', le_rfl⟩

/-! ## Loops by position -/

variable {n : Nat}

theorem halts_hasPosition (m : Machine) : Halts (eval (hasPosition n)) m fun v m' => m' = m ∧ ∃ p w,
      m.env.lookup (variableName (n + 1)) = some p ∧ m.env.lookup (variableName n) = some w ∧
      v = Value.binary .lt p (listLength w) := by
  have looks : ∀ name, Halts (eval (.ident name)) m fun v m' => m' = m ∧
      m.env.lookup name = some v := by
    intro name
    refine .bind (.get ?_)
    cases found : m.env.lookup name with
    | none => exact .fail
    | some v => exact .pure ⟨rfl, rfl⟩
  refine .bind ((looks _).mono ?_)
  rintro p _ ⟨rfl, isPosition⟩
  refine .bind (.bind (.bind ((looks _).mono ?_)))
  rintro w _ ⟨rfl, isCopy⟩
  refine .bind (.pure (.pure ?_))
  exact .pure (.pure ⟨rfl, p, w, isPosition, isCopy, rfl⟩)

variable {x : Int64}

theorem lt_of_hasPosition {w : Value}
    (isTrue : (Value.binary .lt (.int x) (listLength w)).truth = true) :
    ∃ vs, w = .list vs ∧ x.toInt < (Int64.ofNat vs.length).toInt := by
  cases w with
  | list vs =>
    refine ⟨vs, rfl, ?_⟩
    rw [← Int64.lt_iff_toInt_lt]
    change ((if x < Int64.ofNat vs.length then Ordering.lt
      else if Int64.ofNat vs.length < x then .gt else .eq) == .lt) = true at isTrue
    split at isTrue
    · assumption
    · split at isTrue <;> cases isTrue
  | _ => cases isTrue

theorem toInt_add_one {y : Int64} (less : x.toInt < y.toInt) : (x + 1).toInt = x.toInt + 1 := by
  have below := y.toInt_lt
  have above := x.le_toInt
  rw [Int64.toInt_add, Int64.toInt_one]
  refine Int.bmod_eq_of_le ?_ ?_ <;> omega

theorem halts_counted (found : m.env.lookup (variableName (n + 1)) = some (.int x)) :
    Halts (exec fn (countOf n)) m fun _ m' =>
      m' = m.put (variableName (n + 1)) (.int (x + 1)) := by
  have isSum : eval (.binary .add (.ident (variableName (n + 1))) (.long 1)) m =
      some (.ok (.int (x + 1), m)) := by
    rw [eval, bind_apply, eval_ident found]
    rfl
  exact .assign (.of_eq isSum rfl)

/-- How many rounds a loop by position can still run. -/
def PositionsLeft (n : Nat) (measure : Nat) (m : Machine) : Prop :=
  ∀ x vs, m.env.lookup (variableName (n + 1)) = some (.int x) →
    m.env.lookup (variableName n) = some (.list vs) →
    ((Int64.ofNat vs.length).toInt - x.toInt).toNat ≤ measure

theorem exists_positionsLeft (n : Nat) (m : Machine) : ∃ measure, PositionsLeft n measure m := by
  by_cases counted : ∃ x vs, m.env.lookup (variableName (n + 1)) = some (.int x) ∧
      m.env.lookup (variableName n) = some (.list vs)
  · obtain ⟨x, vs, isPosition, isCopy⟩ := counted
    refine ⟨((Int64.ofNat vs.length).toInt - x.toInt).toNat, fun x' vs' found found' => ?_⟩
    cases isPosition.symm.trans found
    cases isCopy.symm.trans found'
    exact le_rfl
  · exact ⟨0, fun x vs found found' => absurd ⟨x, vs, found, found'⟩ counted⟩

/-! ## Statements and blocks -/

/-- Every later block halts. -/
def LaterHalts (counts : Nat → Option BlockId) (fn : Function) (b : BlockId) : Prop :=
  ∀ later, b < later → ∀ m, Counted counts m →
    Halts (execBlock fn later) m fun _ m' => Settles counts (· < later) m m'

theorem LaterHalts.or_empty (halts : LaterHalts counts fn b) {id : BlockId}
    (after : id = emptyBlock ∨ b < id) (counted : Counted counts m) :
    Halts (execBlock fn id) m fun _ m' => Settles counts (· ≤ b) m m' := by
  rcases after with rfl | later
  · rw [execBlock, if_pos rfl]
    exact .pure (.refl m)
  · exact (halts id later m counted).mono fun _ _ settles =>
      settles.mono fun _ isKept => isKept.trans_lt later

variable {body : BlockId} {block : Block}

theorem halts_round {last : Node} (here : fn.arena.blocks[body]? = some block)
    (proper : body ≠ emptyBlock) (tail : block.tail = [last])
    (head : Halts (execAll fn block.head) m fun _ m' => Settles counts (· ≤ body) m m')
    (ends : ∀ m', Settles counts (· ≤ body) m m' → Halts (exec fn last) m' wanted)
    (leaves : ∀ flow m', flow ≠ .proceed → Settles counts (· ≤ body) m m' → wanted flow m') :
    Halts (execBlock fn body) m wanted := by
  refine .block (fun isEmpty => absurd isEmpty proper) fun block' _ here' => ?_
  cases here.symm.trans here'
  unfold Block.statements
  rw [tail]
  exact halts_append (head.mono fun flow m' settles =>
    ⟨fun _ => halts_single (ends m' settles), fun isOut => leaves flow m' isOut settles⟩)

theorem declines_stepping
    (here : fn.arena.blocks[body]? = some block) (tail : block.tail = [nextOf j]) (later : b < body)
    (head : ∀ m, Counted counts m →
      Halts (execAll fn block.head) m fun _ m' => Settles counts (· ≤ body) m m')
    (counted : Counted counts m) : Declines fn (hasElement j) body
      (fun measure m' => Settles counts (· ≤ b) m m' ∧ RoundsLeft j measure m')
      fun _ m' => Settles counts (· ≤ b) m m' := by
  have around : ∀ {m m'}, Settles counts (· ≤ body) m m' → Settles counts (· ≤ b) m m' :=
    fun settles => settles.mono fun _ isKept => isKept.trans later.le
  rintro measure now ⟨settled, left⟩
  refine (halts_hasElement j now).mono ?_
  rintro v _ ⟨rfl, i, c, found, atColumn, isElement, rfl⟩
  have counted' := settled.counted counted
  split
  · next goesOn =>
    change (!c.atEnd) = true at goesOn
    rw [Bool.not_eq_true'] at goesOn
    refine halts_round here (Nat.ne_zero_of_lt later) tail (head _ counted') ?_ ?_
    · intro m' round
      have names := round.names (Function.readerName j) fun n same =>
        variableName_ne_readerName n j same.symm
      refine halts_expr (isQuiet_nextOf j) ((halts_nextOf (names.trans found)).mono ?_)
      rintro _ _ ⟨e, d, atColumn', moved, rfl⟩
      have moves : Settles counts (· ≤ b) m' (m'.moveColumn i d) :=
        .of_calm ⟨rfl, .moveColumn atColumn' moved⟩
      have done := settled.trans ((around round).trans moves)
      obtain ⟨less, isLess, left'⟩ := left.next found atColumn isElement goesOn counted'.tracked
        round.steps atColumn' names moved
      exact ⟨fun _ => ⟨less, isLess, done, left'⟩, fun _ => done, fun _ => done⟩
    · intro flow m' isOut round
      have done := settled.trans (around round)
      exact ⟨fun goes => absurd goes isOut, fun _ => done, fun _ => done⟩
  · exact settled

theorem declines_counting (apart : counts (n + 1) = none) (isCount : counts n = some body)
    (here : fn.arena.blocks[body]? = some block) (tail : block.tail = [countOf n]) (later : b < body)
    (head : ∀ m, Counted counts m →
      Halts (execAll fn block.head) m fun _ m' => Settles counts (· ≤ body) m m')
    (counted : Counted counts m) : Declines fn (hasPosition n) body
      (fun measure m' => Settles counts (· ≤ b) m m' ∧ PositionsLeft n measure m')
      fun _ m' => Settles counts (· ≤ b) m m' := by
  have around : ∀ {m m'}, Settles counts (· ≤ body) m m' → Settles counts (· ≤ b) m m' :=
    fun settles => settles.mono fun _ isKept => isKept.trans later.le
  rintro measure now ⟨settled, left⟩
  refine (halts_hasPosition now).mono ?_
  rintro v _ ⟨rfl, p, w, isPosition, isCopy, rfl⟩
  have counted' := settled.counted counted
  obtain ⟨x, rfl⟩ := counted'.position n body p isCount isPosition
  split
  · next goesOn =>
    obtain ⟨vs, rfl, less⟩ := lt_of_hasPosition goesOn
    refine halts_round here (Nat.ne_zero_of_lt later) tail (head _ counted') ?_ ?_
    · intro m' round
      have isPosition' := (round.position n body isCount le_rfl).trans isPosition
      have isCopy' := (round.copy n body isCount le_rfl).trans isCopy
      refine (halts_counted isPosition').mono ?_
      rintro flow _ rfl
      have steps : Settles counts (· ≤ b) m' (m'.put (variableName (n + 1)) (.int (x + 1))) := by
        refine .put _ _ (fun body' isCount' => ?_) fun k body' same isCount' => ?_
        · rw [apart] at isCount'
          cases isCount'
        · cases same
          cases isCount.symm.trans isCount'
          exact ⟨later.not_ge, _, rfl⟩
      have done := settled.trans ((around round).trans steps)
      refine ⟨fun _ => ⟨measure - 1, ?_, done, ?_⟩, fun _ => done, fun _ => done⟩
      · have bound := left x vs isPosition isCopy
        omega
      · intro y us found found'
        rw [Machine.lookup_put, if_pos rfl] at found
        rw [Machine.lookup_put, if_neg, isCopy'] at found'
        · cases found
          cases found'
          have bound := left x vs isPosition isCopy
          have next := toInt_add_one less
          omega
        · intro same
          exact Nat.ne_of_lt (Nat.lt_succ_self n) (variableName_injective same)
    · intro flow m' isOut round
      have done := settled.trans (around round)
      exact ⟨fun goes => absurd goes isOut, fun _ => done, fun _ => done⟩
  · exact settled

/-- The heads of all later blocks halt. -/
def LaterHeads (counts : Nat → Option BlockId) (fn : Function) (b : BlockId) : Prop :=
  ∀ (body : BlockId) (block : Block), b < body → fn.arena.blocks[body]? = some block →
    ∀ m, Counted counts m → Halts (execAll fn block.head) m fun _ m' => Settles counts (· ≤ body) m m'

/-- The rounds of a regular loop decline. -/
theorem Regular.exists_declines {cond : Node}
    (regular : Regular counts fn.arena b (.loop cond body)) (looped : Looped counts fn)
    (heads : LaterHeads counts fn b) (counted : Counted counts m) :
    ∃ invariant, Declines fn cond body invariant (fun _ m' => Settles counts (· ≤ b) m m') ∧
      (∃ measure, invariant measure m) ∧
      ∀ measure m', invariant measure m' → Settles counts (· ≤ b) m m' := by
  cases regular with
  | expr quiet =>
    cases quiet
  | stepping after here tail =>
    obtain ⟨measure, left⟩ := exists_roundsLeft _ counted.tracked
    exact ⟨_, declines_stepping here tail after (heads _ _ after here) counted,
      ⟨measure, .refl m, left⟩, fun _ _ => And.left⟩
  | @counting n _ _ after isCount here tail =>
    obtain ⟨measure, left⟩ := exists_positionsLeft n m
    exact ⟨_, declines_counting (looped.apart _ _ isCount) isCount here tail after
      (heads _ _ after here) counted, ⟨measure, .refl m, left⟩, fun _ _ => And.left⟩

/-- A regular statement halts if all later blocks do. -/
theorem Regular.halts (regular : Regular counts fn.arena b s)
    (looped : Looped counts fn) (later : LaterHalts counts fn b) (heads : LaterHeads counts fn b)
    (counted : Counted counts m) :
    Halts (exec fn s) m fun _ m' => Settles counts (· ≤ b) m m' := by
  have loops : ∀ {cond body}, Regular counts fn.arena b (.loop cond body) →
      Halts (exec fn (.loop cond body)) m fun _ m' => Settles counts (· ≤ b) m m' := by
    intro cond body regular
    obtain ⟨_, declines, ⟨measure, starts⟩, _⟩ := regular.exists_declines looped heads counted
    exact .loop declines measure m starts
  cases regular with
  | expr quiet =>
    exact halts_expr quiet ((halts_eval s m quiet).mono fun _ _ calm => .of_calm calm)
  | leave => exact .leave (.refl m)
  | store quiet copy position =>
    refine halts_store quiet (fun body isCount => Nat.not_le.mpr (copy body isCount)) ?_
    intro n body isNext isCount
    obtain ⟨before, rfl⟩ := position n body isNext isCount
    refine ⟨before.not_ge, ?_⟩
    exact .pure ⟨0, rfl⟩
  | branch quiet onYes onNo =>
    refine .branch ((halts_eval _ m quiet).mono fun v m' calm => ?_)
    have settles : Settles counts (· ≤ b) m m' := .of_calm calm
    have inside : ∀ {id : BlockId}, id = emptyBlock ∨ b < id →
        Halts (execBlock fn id) m' fun _ m'' => Settles counts (· ≤ b) m m'' := fun after =>
      (later.or_empty after (settles.counted counted)).mono fun _ _ after => settles.trans after
    split
    · exact inside onYes
    · exact inside onNo
  | stepping after here tail => exact loops (.stepping after here tail)
  | counting after isCount here tail => exact loops (.counting after isCount here tail)

section

variable (looped : Looped counts fn)

include looped

theorem Looped.halts_tail (here : fn.arena.blocks[b]? = some block) (member : s ∈ block.tail)
    (counted : Counted counts m) : Halts (exec fn s) m fun _ m' => Settles counts (· < b) m m' := by
  rcases looped.tail b block here s member with quiet | ⟨n, rfl, isCount⟩
  · exact halts_expr quiet ((halts_eval s m quiet).mono fun _ _ calm => .of_calm calm)
  · refine halts_store (by simp [Node.isQuiet, Node.long]) (fun body isCount' => ?_)
      fun k body same isCount' => ?_
    · rw [looped.apart n b isCount] at isCount'
      cases isCount'
    · cases same
      cases isCount.symm.trans isCount'
      refine ⟨Nat.lt_irrefl b, ?_⟩
      refine .bind ?_
      refine .bind (.get ?_)
      cases found : m.env.lookup (variableName (n + 1)) with
      | none => exact .fail
      | some v =>
        obtain ⟨x, rfl⟩ := counted.position n b v isCount found
        refine .pure ?_
        exact .bind (.pure (.pure ⟨x + 1, rfl⟩))

theorem Looped.halts_inside :
    ∀ (left : Nat) (b : BlockId), fn.arena.blocks.size - b = left → fn.body < b →
      (∀ (block : Block), fn.arena.blocks[b]? = some block → ∀ m, Counted counts m →
        Halts (execAll fn block.head) m fun _ m' => Settles counts (· ≤ b) m m') ∧
      ∀ m, Counted counts m → Halts (execBlock fn b) m fun _ m' => Settles counts (· < b) m m' := by
  intro left
  induction left using Nat.strongRecOn with
  | ind left ih =>
    intro b isLeft inside
    have fewer : ∀ later, b < later → b < fn.arena.blocks.size →
        fn.arena.blocks.size - later < left := by
      intro later after there
      rw [← isLeft]
      exact Nat.sub_lt_sub_left there after
    have heads : ∀ (block : Block), fn.arena.blocks[b]? = some block → ∀ m, Counted counts m →
        Halts (execAll fn block.head) m fun _ m' => Settles counts (· ≤ b) m m' := by
      intro block here m counted
      have there := Array.inside here
      refine halts_all block.head m counted fun s member m counted => ?_
      have regular := (looped.head b block here s member).resolve_right fun atBody =>
        Nat.ne_of_gt inside atBody.1
      exact regular.halts looped
        (fun later after => (ih _ (fewer later after there) later rfl (inside.trans after)).2)
        (fun body block after =>
          (ih _ (fewer body after there) body rfl (inside.trans after)).1 block)
        counted
    refine ⟨heads, fun m counted => ?_⟩
    refine .block (fun _ => .refl m) fun block _ here => ?_
    have before : ∀ {m m'}, Settles counts (· ≤ b) m m' → Settles counts (· < b) m m' :=
      fun settles => settles.mono fun _ => Nat.le_of_lt
    refine halts_append ((heads block here m counted).mono fun flow m' settles => ?_)
    refine ⟨fun _ => ?_, fun _ => before settles⟩
    exact (halts_all block.tail m' (settles.counted counted) fun s member m counted =>
      looped.halts_tail here member counted).mono fun _ _ after => (before settles).trans after

theorem Looped.laterHeads (inside : fn.body ≤ b) : LaterHeads counts fn b :=
  fun body block after => (looped.halts_inside _ body rfl (inside.trans_lt after)).1 block

theorem Looped.laterHalts (inside : fn.body ≤ b) : LaterHalts counts fn b :=
  fun later after => (looped.halts_inside _ later rfl (inside.trans_lt after)).2

/-- Every statement inside the body halts. -/
theorem Looped.halts_statement (inside : fn.body < b)
    (here : fn.arena.blocks[b]? = some block) (member : s ∈ block.statements)
    (counted : Counted counts m) : Halts (exec fn s) m fun _ m' => Settles counts (· < b) m m' := by
  rcases List.mem_append.mp member with inHead | inTail
  · have regular := (looped.head b block here s inHead).resolve_right fun atBody =>
      Nat.ne_of_gt inside atBody.1
    exact (regular.halts looped (looped.laterHalts inside.le)
      (looped.laterHeads inside.le) counted).mono fun _ _ settles =>
        settles.mono fun _ => Nat.le_of_lt
  · exact looped.halts_tail here inTail counted

/-- The rounds of every loop inside the body decline. -/
theorem Looped.exists_declines (inside : fn.body < b)
    (here : fn.arena.blocks[b]? = some block) {cond : Node}
    (member : .loop cond body ∈ block.statements) (counted : Counted counts m) :
    ∃ invariant, Declines fn cond body invariant (fun _ m' => Settles counts (· ≤ b) m m') ∧
      (∃ measure, invariant measure m) ∧
      ∀ measure m', invariant measure m' → Settles counts (· ≤ b) m m' := by
  rcases List.mem_append.mp member with inHead | inTail
  · have regular := (looped.head b block here _ inHead).resolve_right fun atBody =>
      Nat.ne_of_gt inside atBody.1
    exact regular.exists_declines looped (looped.laterHeads inside.le) counted
  · rcases looped.tail b block here _ inTail with quiet | ⟨n, same, _⟩
    · cases quiet
    · cases same

end

/-! ## Whole functions -/

theorem halts_nextRecord (m : Machine) :
    Halts (eval nextRecord) m fun v m' =>
      (∃ record, m.position < m.records.size ∧ m' = m.take record) ∨
      v.truth = false ∧ m' = { m with record := .null } := by
  cases found : m.env.lookup Function.cursor with
  | none =>
    refine .bind ?_
    refine .bind (.get ?_)
    rw [found]
    exact .fail
  | some v =>
    refine .congr (eval_member (eval_ident found) Member.hasNext) ?_
    unfold callMember
    split
    · refine .congr (eval_member (eval_ident found) _).symm ?_
      have taken := eval_nextRecord found
      split at taken
      · next record isNext =>
        exact .of_eq taken (.inl ⟨record, (Array.inside isNext), rfl⟩)
      · exact .of_eq taken (.inr ⟨rfl, rfl⟩)
    · exact .fail
    · exact .fail
    · exact .fail
    · exact .fail
    · exact .fail

theorem Counted.of_same (counted : Counted counts m) (env : m'.env = m.env)
    (columns : m'.columns = m.columns) (clock : m'.clock = m.clock)
    (steppers : m'.steppers = m.steppers) : Counted counts m' where
  tracked :=
    { move := by
        rw [columns, clock]
        exact counted.tracked.move
      place := by
        rw [columns, clock]
        exact counted.tracked.place
      stepper := by
        rw [columns, steppers]
        exact counted.tracked.stepper }
  position := by
    rw [env]
    exact counted.position

/-- The loop over the records halts. -/
theorem Looped.halts_records (looped : Looped counts fn) {records : BlockId}
    (inside : fn.body < records) (counted : Counted counts m) :
    Halts (exec fn (.loop nextRecord records)) m fun _ m' => Counted counts m' := by
  have block := (looped.halts_inside _ records rfl inside).2
  suffices declines : Declines fn nextRecord records
      (fun measure m => Counted counts m ∧ m.records.size - m.position = measure)
      fun _ m' => Counted counts m' from .loop declines _ m ⟨counted, rfl⟩
  rintro measure now ⟨counted, isMeasure⟩
  refine (halts_nextRecord now).mono ?_
  rintro v _ (⟨record, before, rfl⟩ | ⟨isFalse, rfl⟩)
  · have taken : Counted counts (now.take record) := counted.of_same rfl rfl rfl rfl
    split
    · refine (block _ taken).mono fun flow m' settles => ?_
      have counted' := settles.counted taken
      refine ⟨fun _ => ⟨_, ?_, counted', rfl⟩, fun _ => counted', fun _ => counted'⟩
      rw [settles.steps.records, settles.steps.position]
      change now.records.size - (now.position + 1) < measure
      omega
    · exact taken
  · rw [if_neg (by rw [isFalse]; exact Bool.false_ne_true)]
    exact counted.of_same rfl rfl rfl rfl

/-- A run of a looped function has an outcome. -/
theorem Looped.halts (looped : Looped counts fn) (counted : Counted counts m) :
    Halts (execBlock fn fn.body) m fun _ m' => Counted counts m' := by
  have later : LaterHalts counts fn fn.body := fun b inside =>
    (looped.halts_inside _ b rfl inside).2
  have each : ∀ (code : List Node) (m : Machine), Counted counts m →
      (∀ s ∈ code, ∀ m, Counted counts m → Halts (exec fn s) m fun _ m' => Counted counts m') →
      Halts (execAll fn code) m fun _ m' => Counted counts m' := by
    intro code
    induction code with
    | nil => exact fun m counted _ => .nil counted
    | cons s rest ih =>
      intro m counted each
      refine .cons ((each s (.head _) m counted).mono fun flow m' counted' =>
        ⟨fun _ => ?_, fun _ => counted'⟩)
      exact ih m' counted' (List.forall_mem_cons.mp each).2
  refine .block (fun _ => counted) fun block _ here => ?_
  refine each _ m counted fun s member m counted => ?_
  rcases List.mem_append.mp member with inHead | inTail
  · rcases looped.head fn.body block here s inHead with regular | ⟨_, records, inside, rfl⟩
    · exact (regular.halts looped later
        (fun body block after => (looped.halts_inside _ body rfl after).1 block)
        counted).mono fun _ _ settles => settles.counted counted
    · exact looped.halts_records inside counted
  · exact (looped.halts_tail here inTail counted).mono fun _ _ settles => settles.counted counted

theorem start_counted (counts : Nat → Option BlockId) (frozen : fn.frozen = true)
    (records : List Value) : Counted counts (Machine.start fn records) where
  tracked :=
    { move := by
        intro i c here
        rw [Machine.start_columns frozen, List.getElem?_toArray, List.getElem?_map] at here
        obtain ⟨entry, _, rfl⟩ := Option.map_eq_some_iff.mp here
        exact Nat.le_refl 0
      place := by
        intro i c place here isPlace
        rw [Machine.start_columns frozen, List.getElem?_toArray, List.getElem?_map] at here
        obtain ⟨entry, _, rfl⟩ := Option.map_eq_some_iff.mp here
        cases isPlace
      stepper := by
        intro text i found
        rw [Machine.start_steppers frozen] at found
        obtain ⟨p, isPath, isElement, isText⟩ :=
          Machine.mem_freshSteppers.mp (List.mem_reverse.mp (mem_of_lookup found))
        rw [Machine.start_columns frozen, List.getElem?_toArray, List.getElem?_map,
          List.getElem?_zipIdx, isPath]
        exact ⟨_, rfl, isElement, isText⟩ }
  position := by
    intro n body v _ found
    rw [Machine.start_env frozen] at found
    have member := mem_of_lookup found
    rcases List.mem_append.mp member with fixed | reader
    · rcases List.mem_cons.mp fixed with same | fixed
      · exact absurd (Prod.mk.inj same).1 (variableName_ne_cursor _)
      · exact absurd (Prod.mk.inj (List.mem_singleton.mp fixed)).1 (variableName_ne_sink _)
    · obtain ⟨entry, _, same⟩ := List.mem_map.mp reader
      exact absurd (Prod.mk.inj same).1.symm (variableName_ne_readerName _ _)

/-- A run of a looped function is not endless. -/
theorem Looped.run_ne_endless (looped : Looped counts fn) (records : List Value) :
    (run fn records).result ≠ .error .endless := by
  unfold run
  split
  · next frozen =>
    have ends := (looped.halts (start_counted counts frozen records)).ne_none
    split
    · exact nofun
    · exact nofun
    · exact nofun
    · next isNone => exact absurd isNone ends
  · exact nofun

end rounds

end QueryFusion.Fusion

import Mathlib.Data.Nat.Basic
import Mathlib.Logic.Relation
import Mathlib.Order.Basic
import Std.Data.String.ToNat
import QueryFusion.Code.Function
import QueryFusion.Proofs.Outcome

/-!
# Names in code and blocks inside blocks

A block is within another one if it is that block or is reached from it through parents. Searches
from a block look at exactly the blocks it is within. Blocks are added below existing ones, so a
parent has a smaller number than its children, and the table only grows: a changed block keeps its
place and what was in it.

Names that are handed out differ from each other and from the parameters of functions.
-/

namespace QueryFusion.Code

/-!
## The names in an expression

An expression reads names: of parameters and of variables. It is quiet if it is made of expressions
only and does not ask the cursor for the next record, so that evaluating it stays at a record. It is
local if it neither asks for the metadata of the record nor makes an aggregator, so that evaluating it
depends on nothing but the record. It may advance readers or ask them.
-/

/-- What code does with a reader: it advances it, or it asks for a value or for the end of a list. -/
inductive Access where
  | advance
  | ask
deriving DecidableEq

namespace Node

mutual

/-- The names that evaluating an expression looks up. -/
def names : Node → List String
  | ident name => [name]
  | not operand => operand.names
  | binary _ left right => left.names ++ right.names
  | call _ args => namesOf args
  | member object _ args => object.names ++ namesOf args
  | element array index => array.names ++ index.names
  | lit _ | absent | assign _ _ _ | branch _ _ _ | loop _ _ | leave | finish _ => []

/-- The names that evaluating arguments looks up. -/
def namesOf : List Node → List String
  | [] => []
  | arg :: rest => arg.names ++ namesOf rest

end

mutual

/-- Whether a node is an expression whose evaluation stays at the current record. -/
def isQuiet : Node → Bool
  | lit _ | ident _ => true
  | not operand => operand.isQuiet
  | binary _ left right => left.isQuiet && right.isQuiet
  | call _ args => areQuiet args
  | member object name args => name != Member.hasNext && object.isQuiet && areQuiet args
  | element array index => array.isQuiet && index.isQuiet
  | absent | assign _ _ _ | branch _ _ _ | loop _ _ | leave | finish _ => false

/-- Whether arguments are expressions whose evaluation stays at the current record. -/
def areQuiet : List Node → Bool
  | [] => true
  | arg :: rest => arg.isQuiet && areQuiet rest

end

mutual

/-- Whether a node neither asks for the metadata of a record nor makes an aggregator. -/
def isLocal : Node → Bool
  | lit _ | ident _ | absent | leave => true
  | not operand => operand.isLocal
  | binary _ left right => left.isLocal && right.isLocal
  | call fn args =>
    fn != Builtin.newHashAggregator && fn != Builtin.newTopKAggregator && areLocal args
  | member object name args => name != Member.describe && object.isLocal && areLocal args
  | element array index => array.isLocal && index.isLocal
  | assign _ value _ => value.isLocal
  | branch cond _ _ | loop cond _ => cond.isLocal
  | finish value => value.isLocal

/-- Whether arguments neither ask for the metadata of a record nor make an aggregator. -/
def areLocal : List Node → Bool
  | [] => true
  | arg :: rest => arg.isLocal && areLocal rest

end

mutual

/-- What a node does with readers, wherever it stands in the node. -/
def accesses : Node → List (Access × String)
  | not operand => operand.accesses
  | binary _ left right => left.accesses ++ right.accesses
  | call _ args => accessesOf args
  | member object name args =>
    (if name = Member.next then object.names.map (.advance, ·)
      else if name = Member.getValue ∨ name = Member.isEndOfArray then object.names.map (.ask, ·)
      else []) ++ (object.accesses ++ accessesOf args)
  | element array index => array.accesses ++ index.accesses
  | assign _ value _ | finish value => value.accesses
  | branch cond _ _ | loop cond _ => cond.accesses
  | lit _ | ident _ | absent | leave => []

/-- What arguments do with readers. -/
def accessesOf : List Node → List (Access × String)
  | [] => []
  | arg :: rest => arg.accesses ++ accessesOf rest

end

/-- The readers that a node advances, as often as it does. -/
def advances (n : Node) : List String := (n.accesses.filter (·.1 = .advance)).map Prod.snd

end Node

/-! ## Names that are handed out -/

/-- The variable name that is handed out as the `n`th. -/
def variableName (n : Nat) : String := s!"v{n}"

variable {n : Nat}

theorem variableName_injective {m : Nat} (same : variableName m = variableName n) : m = n := by
  have texts : "v" ++ Nat.repr m = "v" ++ Nat.repr n := same
  exact Nat.repr_injective (String.append_right_inj "v" |>.mp texts)

theorem readerName_injective {i j : Nat}
    (same : Function.readerName i = Function.readerName j) : i = j := by
  have texts : "reader_" ++ Nat.repr i = "reader_" ++ Nat.repr j := same
  exact Nat.repr_injective (String.append_right_inj "reader_" |>.mp texts)

theorem variableName_toList (n : Nat) : (variableName n).toList = 'v' :: (Nat.repr n).toList := by
  change ("v" ++ Nat.repr n).toList = _
  rw [String.toList_append]
  rfl

theorem readerName_toList (i : Nat) :
    (Function.readerName i).toList = 'r' :: ("eader_".toList ++ (Nat.repr i).toList) := by
  change ("reader_" ++ Nat.repr i).toList = _
  rw [String.toList_append]
  rfl

theorem variableName_ne_readerName (n i : Nat) : variableName n ≠ Function.readerName i := by
  intro same
  have letters := congrArg String.toList same
  rw [variableName_toList, readerName_toList] at letters
  exact absurd (List.cons.inj letters).1 (by decide)

theorem variableName_ne_cursor (n : Nat) : variableName n ≠ Function.cursor := by
  intro same
  have letters := congrArg String.toList same
  rw [variableName_toList] at letters
  exact absurd (List.cons.inj letters).1 (by decide)

theorem variableName_ne_sink (n : Nat) : variableName n ≠ Function.sink := by
  intro same
  have letters := congrArg String.toList same
  rw [variableName_toList] at letters
  exact absurd (List.cons.inj letters).1 (by decide)

theorem readerName_ne_cursor (i : Nat) : Function.readerName i ≠ Function.cursor := by
  intro same
  have letters := congrArg String.toList same
  rw [readerName_toList] at letters
  exact absurd (List.cons.inj letters).1 (by decide)

theorem readerName_ne_sink (i : Nat) : Function.readerName i ≠ Function.sink := by
  intro same
  have letters := congrArg String.toList same
  rw [readerName_toList] at letters
  exact absurd (List.cons.inj letters).1 (by decide)

namespace Arena

variable {arena : Arena} {id block ancestor : BlockId}

/-! ## Searches -/

/-- The second block is the parent of the first one. -/
def Parent (arena : Arena) (id parent : BlockId) : Prop :=
  ∃ block, arena.blocks[id]? = some block ∧ block.parent = some parent

/-- The first block is the second one or inside it. -/
def Within (arena : Arena) : BlockId → BlockId → Prop := Relation.ReflTransGen arena.Parent

theorem get_eq_ok {found : Block} : arena.get id = .ok found ↔ arena.blocks[id]? = some found := by
  unfold Arena.get
  cases arena.blocks[id]? with
  | none => constructor <;> intro h <;> cases h
  | some found => constructor <;> intro h <;> cases h <;> rfl

theorem within_iff {found : Block} (here : arena.blocks[id]? = some found) :
    arena.Within id ancestor ↔
      ancestor = id ∨ ∃ parent, found.parent = some parent ∧ arena.Within parent ancestor := by
  constructor
  · intro within
    rcases Relation.ReflTransGen.cases_head within with same | ⟨parent, step, above⟩
    · exact .inl same.symm
    · obtain ⟨block, here', isParent⟩ := step
      cases here.symm.trans here'
      exact .inr ⟨parent, isParent, above⟩
  · rintro (rfl | ⟨parent, isParent, above⟩)
    · exact .refl
    · exact .head ⟨found, here, isParent⟩ above

theorem parent_unique {parent other : BlockId} (first : arena.Parent id parent)
    (second : arena.Parent id other) : parent = other := by
  obtain ⟨block, here, same⟩ := first
  obtain ⟨block', here', same'⟩ := second
  cases here.symm.trans here'
  exact Option.some.inj (same.symm.trans same')

/-- Of two blocks around a third, one is within the other. -/
theorem within_total {other : BlockId} (first : arena.Within id ancestor)
    (second : arena.Within id other) :
    arena.Within ancestor other ∨ arena.Within other ancestor :=
  Relation.ReflTransGen.total_of_right_unique (fun _ _ _ => parent_unique) first second

section findUp

variable {β : Type} {probe : BlockId → Block → Option β}

theorem findUp_some : ∀ {steps : Nat} {start : Option BlockId} {answer : β},
    arena.findUp probe steps start = .ok (some answer) →
    ∃ id block found, start = some id ∧ arena.Within id block ∧
      arena.blocks[block]? = some found ∧ probe block found = some answer
  | steps, none, answer, h => by
    unfold findUp at h
    cases h
  | 0, some id, answer, h => by
    cases h
  | steps + 1, some id, answer, h => by
    obtain ⟨found, got, h⟩ := Except.bind_eq_ok.mp h
    have here := get_eq_ok.mp got
    cases probed : probe id found with
    | some other =>
      simp only [probed] at h
      cases h
      exact ⟨id, id, found, rfl, .refl, here, probed⟩
    | none =>
      simp only [probed] at h
      obtain ⟨parent, block, there, isParent, within, at', answers⟩ := findUp_some h
      exact ⟨id, block, there, rfl, .head ⟨found, here, isParent⟩ within, at', answers⟩

/-- A search finds the closest block with an answer. -/
theorem findUp_closest : ∀ {steps : Nat} {id : BlockId} {answer : β},
    arena.findUp probe steps (some id) = .ok (some answer) →
    ∃ block found, arena.Within id block ∧ arena.blocks[block]? = some found ∧
      probe block found = some answer ∧ ∀ other there, arena.Within id other →
        arena.blocks[other]? = some there → probe other there ≠ none → arena.Within block other
  | 0, id, answer, h => by
    cases h
  | steps + 1, id, answer, h => by
    obtain ⟨found, got, h⟩ := Except.bind_eq_ok.mp h
    have here := get_eq_ok.mp got
    cases probed : probe id found with
    | some other =>
      simp only [probed] at h
      cases h
      exact ⟨id, found, .refl, here, probed, fun _ _ within _ _ => within⟩
    | none =>
      simp only [probed] at h
      cases isParent : found.parent with
      | none =>
        rw [isParent] at h
        unfold findUp at h
        cases h
      | some parent =>
        rw [isParent] at h
        obtain ⟨block, there, within, at', answers, closest⟩ := findUp_closest h
        refine ⟨block, there, .head ⟨found, here, isParent⟩ within, at', answers, ?_⟩
        intro other found' within' here' isAnswer
        rcases (within_iff here).mp within' with rfl | ⟨parent', isParent', above⟩
        · cases here.symm.trans here'
          exact absurd probed isAnswer
        · cases isParent.symm.trans isParent'
          exact closest other found' above here' isAnswer

theorem findUp_none : ∀ {steps : Nat} {id : BlockId},
    arena.findUp probe steps (some id) = .ok none →
    ∀ block found, arena.Within id block → arena.blocks[block]? = some found →
      probe block found = none
  | 0, id, h => by
    cases h
  | steps + 1, id, h => by
    obtain ⟨found, got, h⟩ := Except.bind_eq_ok.mp h
    have here := get_eq_ok.mp got
    cases probed : probe id found with
    | some other =>
      simp only [probed] at h
      cases h
    | none =>
      simp only [probed] at h
      intro block there within at'
      rcases (within_iff here).mp within with rfl | ⟨parent, isParent, above⟩
      · cases here.symm.trans at'
        exact probed
      · rw [isParent] at h
        exact findUp_none h block there above at'

end findUp

/-- An ancestor that is met on the way up encloses the start. -/
theorem meets_iff : ∀ {steps : Nat} {id : BlockId} {answer : Bool},
    arena.meets ancestor steps (some id) = .ok answer → (answer = true ↔ arena.Within id ancestor)
  | 0, id, answer, h => by
    cases h
  | steps + 1, id, answer, h => by
    unfold meets at h
    by_cases same : id = ancestor
    · rw [if_pos same] at h
      cases h
      exact ⟨fun _ => same ▸ .refl, fun _ => rfl⟩
    · rw [if_neg same] at h
      obtain ⟨found, got, h⟩ := Except.bind_eq_ok.mp h
      have here := get_eq_ok.mp got
      rw [within_iff here]
      cases isParent : found.parent with
      | none =>
        rw [isParent] at h
        unfold meets at h
        cases h
        simp [Ne.symm same]
      | some parent =>
        rw [isParent] at h
        simp [meets_iff h, Ne.symm same]

end Arena

/-! ## Growth -/

/-- A block that got more statements, readers and redirections and lost none. What was put in front
declares names from `lo` on and below `hi`, and so do the lists that reads were redirected to. -/
structure Block.Grows (lo hi : Nat) (old new : Block) : Prop where
  parent : new.parent = old.parent
  tag : new.tag = old.tag
  front : ∃ more, new.front = more ++ old.front ∧
    ∀ s ∈ more, ∃ n init, lo ≤ n ∧ n < hi ∧ s = .assign (variableName n) init true
  rest : old.rest <+: new.rest
  tail : old.tail <+: new.tail
  bound : old.bound <+: new.bound
  overrides : ∃ more, new.overrides = old.overrides ++ more ∧
    ∀ e ∈ more, ∃ n, lo ≤ n ∧ n < hi ∧ e.2.array = variableName n

namespace Block.Grows

variable {lo lo' mid hi : Nat} {old middle new : Block}

theorem refl (lo hi : Nat) (block : Block) : block.Grows lo hi block where
  parent := rfl
  tag := rfl
  front := ⟨[], rfl, by simp⟩
  rest := List.prefix_rfl
  tail := List.prefix_rfl
  bound := List.prefix_rfl
  overrides := ⟨[], (List.append_nil _).symm, by simp⟩

theorem trans (first : old.Grows lo mid middle) (second : middle.Grows lo' hi new)
    (early : lo ≤ lo') (late : mid ≤ hi) : old.Grows lo hi new where
  parent := second.parent.trans first.parent
  tag := second.tag.trans first.tag
  front := by
    obtain ⟨some, same, names⟩ := first.front
    obtain ⟨more, same', names'⟩ := second.front
    refine ⟨more ++ some, by rw [same', same, List.append_assoc], ?_⟩
    intro s member
    rcases List.mem_append.mp member with isLate | isEarly
    · obtain ⟨n, init, above, below, is⟩ := names' s isLate
      exact ⟨n, init, early.trans above, below, is⟩
    · obtain ⟨n, init, above, below, is⟩ := names s isEarly
      exact ⟨n, init, above, below.trans_le late, is⟩
  rest := first.rest.trans second.rest
  tail := first.tail.trans second.tail
  bound := first.bound.trans second.bound
  overrides := by
    obtain ⟨some, same, names⟩ := first.overrides
    obtain ⟨more, same', names'⟩ := second.overrides
    refine ⟨some ++ more, by rw [same', same, List.append_assoc], ?_⟩
    intro e member
    rcases List.mem_append.mp member with isEarly | isLate
    · obtain ⟨n, above, below, is⟩ := names e isEarly
      exact ⟨n, above, below.trans_le late, is⟩
    · obtain ⟨n, above, below, is⟩ := names' e isLate
      exact ⟨n, early.trans above, below, is⟩

theorem head (grows : old.Grows lo hi new) {s : Node} (member : s ∈ old.head) : s ∈ new.head := by
  obtain ⟨moreFront, front, _⟩ := grows.front
  obtain ⟨moreRest, rest⟩ := grows.rest
  unfold Block.head at member ⊢
  rw [front, ← rest]
  rcases List.mem_append.mp member with inFront | inRest
  · exact List.mem_append_left _ (List.mem_append_right _ inFront)
  · exact List.mem_append_right _ (List.mem_append_left _ inRest)

end Block.Grows

namespace Arena

/-- A table of blocks that grew from another one. Only touched blocks differ from what they were, and
what they declare in front has names from `lo` on. -/
structure Extends (touched : BlockId → Prop) (lo : Nat) (old new : Arena) : Prop where
  names : old.names ≤ new.names
  size : old.blocks.size ≤ new.blocks.size
  grown : ∀ (id : BlockId) (block : Block), old.blocks[id]? = some block →
    ∃ block', new.blocks[id]? = some block' ∧ block.Grows lo new.names block'
  untouched : ∀ (id : BlockId) (block : Block), old.blocks[id]? = some block → ¬ touched id →
    new.blocks[id]? = some block

/-- Every parent was there before its children. -/
def Tree (arena : Arena) : Prop := ∀ id parent, arena.Parent id parent → parent < id

variable {arena old middle new : Arena} {touched touched' : BlockId → Prop} {lo lo' : Nat}
variable {id : BlockId}

theorem Extends.refl (touched : BlockId → Prop) (lo : Nat) (arena : Arena) :
    Extends touched lo arena arena where
  names := le_rfl
  size := le_rfl
  grown := fun _ block here => ⟨block, here, .refl _ _ block⟩
  untouched := fun _ _ here _ => here

theorem Extends.trans (first : Extends touched lo old middle) (second : Extends touched' lo' middle new)
    (early : lo ≤ lo') (within : ∀ id, touched' id → touched id ∨ old.blocks.size ≤ id) :
    Extends touched lo old new where
  names := first.names.trans second.names
  size := first.size.trans second.size
  grown := by
    intro id block here
    obtain ⟨block', here', grows⟩ := first.grown id block here
    obtain ⟨block'', here'', grows'⟩ := second.grown id block' here'
    exact ⟨block'', here'', grows.trans grows' early second.names⟩
  untouched := by
    intro id block here isUntouched
    refine second.untouched id block (first.untouched id block here isUntouched) fun isTouched => ?_
    rcases within id isTouched with isTouched' | beyond
    · exact isUntouched isTouched'
    · rw [Array.getElem?_eq_none beyond] at here
      cases here

theorem Extends.mono (extends' : Extends touched lo old new)
    (more : ∀ id, touched id → touched' id) : Extends touched' lo old new :=
  { extends' with
    untouched := fun id block here isUntouched =>
      extends'.untouched id block here fun isTouched => isUntouched (more id isTouched) }

theorem Extends.parent (extends' : Extends touched lo old new) {parent : BlockId}
    (isParent : old.Parent id parent) : new.Parent id parent := by
  obtain ⟨block, here, same⟩ := isParent
  obtain ⟨block', here', grows⟩ := extends'.grown id block here
  exact ⟨block', here', grows.parent.trans same⟩

theorem Extends.parent_of_lt (extends' : Extends touched lo old new) {parent : BlockId}
    (isParent : new.Parent id parent) (bound : id < old.blocks.size) : old.Parent id parent := by
  obtain ⟨block', here', same⟩ := isParent
  obtain ⟨block'', here'', grows⟩ := extends'.grown id _ (Array.getElem?_eq_getElem bound)
  cases here'.symm.trans here''
  exact ⟨_, Array.getElem?_eq_getElem bound, grows.parent.symm.trans same⟩

variable {ancestor : BlockId}

theorem Extends.within (extends' : Extends touched lo old new)
    (within : old.Within id ancestor) : new.Within id ancestor :=
  Relation.ReflTransGen.mono (fun _ _ => extends'.parent) _ _ within

/-- Growth puts no block that was there into another one. -/
theorem Extends.within_of_lt (extends' : Extends touched lo old new) (tree : old.Tree)
    (within : new.Within id ancestor) (bound : id < old.blocks.size) : old.Within id ancestor := by
  induction within using Relation.ReflTransGen.head_induction_on with
  | refl => exact .refl
  | head step _ ih =>
    have isParent := extends'.parent_of_lt step bound
    exact .head isParent (ih (Nat.lt_trans (tree _ _ isParent) bound))

theorem Tree.le_of_within (tree : arena.Tree)
    (within : arena.Within id ancestor) : ancestor ≤ id := by
  induction within with
  | refl => exact le_rfl
  | tail _ step ih => exact Nat.le_trans (Nat.le_of_lt (tree _ _ step)) ih

/-! ## What the changes do -/

variable {change : Block → Block}

/-- A change of one block leaves the others as they are. -/
theorem update_eq_ok (updated : arena.update id change = .ok new) :
    id ≠ emptyBlock ∧ new.names = arena.names ∧ new.blocks.size = arena.blocks.size ∧
      ∃ block, arena.blocks[id]? = some block ∧
        ∀ i, new.blocks[i]? = if i = id then some (change block) else arena.blocks[i]? := by
  unfold update at updated
  split at updated
  · cases updated
  · next isProper =>
    obtain ⟨block, got, updated⟩ := Except.bind_eq_ok.mp updated
    have here : arena.blocks[id]? = some block := get_eq_ok.mp got
    cases updated
    have bound := Array.inside here
    refine ⟨isProper, rfl, by simp, block, here, fun i => ?_⟩
    by_cases same : id = i
    · subst same
      simp [bound]
    · simp [same, Ne.symm same]

/-- A change of one block that makes it grow. -/
theorem update_extends {names : Nat}
    (updated : { arena with names }.update id change = .ok new) (more : arena.names ≤ names)
    (grows : ∀ block, arena.blocks[id]? = some block → block.Grows lo names (change block)) :
    Extends (· = id) lo arena new ∧ new.names = names ∧ new.blocks.size = arena.blocks.size ∧
      ∃ block, arena.blocks[id]? = some block ∧ new.blocks[id]? = some (change block) := by
  obtain ⟨_, sameNames, size, block, here, there⟩ := update_eq_ok updated
  refine ⟨⟨sameNames ▸ more, Nat.le_of_eq size.symm, ?_, ?_⟩, sameNames, size, block, here,
    by simp [there]⟩
  · intro i other hereOther
    rw [there i]
    split
    · next same =>
      subst same
      cases here.symm.trans hereOther
      exact ⟨_, rfl, sameNames ▸ grows block here⟩
    · exact ⟨other, hereOther, .refl _ _ _⟩
  · intro i other hereOther apart
    rw [there i, if_neg apart]
    exact hereOther

/-- What a change of one block leaves behind. -/
structure Updates (id : BlockId) (change : Block → Block) (more : Nat) (old new : Arena) : Prop where
  extends' : Extends (· = id) old.names old new
  names : new.names = old.names + more
  size : new.blocks.size = old.blocks.size
  here : ∃ block, old.blocks[id]? = some block ∧ new.blocks[id]? = some (change block)

variable {more : Nat}

theorem Updates.trans {change' : Block → Block} {more' : Nat}
    (first : Updates id change more old middle) (second : Updates id change' more' middle new) :
    Updates id (change' ∘ change) (more + more') old new where
  extends' := first.extends'.trans second.extends' first.extends'.names fun _ => .inl
  names := by rw [second.names, first.names, Nat.add_assoc]
  size := second.size.trans first.size
  here := by
    obtain ⟨block, isBefore, there⟩ := first.here
    obtain ⟨_, there', isAfter⟩ := second.here
    cases there.symm.trans there'
    exact ⟨block, isBefore, isAfter⟩

theorem Updates.before (updates : Updates id change more old new) {i : BlockId} {block : Block}
    (here : new.blocks[i]? = some block) :
    ∃ before, old.blocks[i]? = some before ∧ block = if i = id then change before else before := by
  obtain ⟨bound, _⟩ := Array.getElem?_eq_some_iff.mp here
  rw [updates.size] at bound
  by_cases same : i = id
  · subst same
    obtain ⟨before, at', after⟩ := updates.here
    cases here.symm.trans after
    exact ⟨before, at', (if_pos rfl).symm⟩
  · have at' := Array.getElem?_eq_getElem bound
    have after := updates.extends'.untouched i _ at' same
    cases here.symm.trans after
    exact ⟨_, at', (if_neg same).symm⟩

variable {reader : String}

/-- A change that leaves redirections alone. -/
theorem Updates.overrides (updates : Updates id change more old new)
    (keeps : ∀ block, (change block).overrides = block.overrides) {i : BlockId}
    (unredirected : ∀ block, old.blocks[i]? = some block → block.overrides.lookup reader = none)
    (block : Block) (here : new.blocks[i]? = some block) :
    block.overrides.lookup reader = none := by
  obtain ⟨before, at', rfl⟩ := updates.before here
  split
  · rw [keeps]
    exact unredirected before at'
  · exact unredirected before at'

theorem Updates.nothing_added {holds : BlockId → Block → Prop}
    (updates : Updates id change more old new) (i : BlockId) (block : Block)
    (beyond : old.blocks.size ≤ i) (here : new.blocks[i]? = some block) : holds i block := by
  rw [Array.getElem?_eq_none (updates.size ▸ beyond)] at here
  cases here

theorem appendHead_updates {n : Node} (done : arena.appendHead id n = .ok new) :
    Updates id (fun block => { block with rest := block.rest ++ [n] }) 0 arena new := by
  obtain ⟨extends', names, size, here⟩ := update_extends done le_rfl fun block _ =>
    { Block.Grows.refl _ _ block with rest := List.prefix_append _ _ }
  exact ⟨extends', names, size, here⟩

theorem appendTail_updates {n : Node} (done : arena.appendTail id n = .ok new) :
    Updates id (fun block => { block with tail := block.tail ++ [n] }) 0 arena new := by
  obtain ⟨extends', names, size, here⟩ := update_extends done le_rfl fun block _ =>
    { Block.Grows.refl _ _ block with tail := List.prefix_append _ _ }
  exact ⟨extends', names, size, here⟩

theorem bind_updates (done : arena.bind id reader = .ok new) :
    Updates id (fun block => { block with bound := block.bound ++ [reader] }) 0 arena new := by
  obtain ⟨updated, did, done⟩ := Except.bind_eq_ok.mp done
  obtain ⟨block, _, done⟩ := Except.bind_eq_ok.mp done
  split at done
  · cases done
  · cases done
    obtain ⟨extends', names, size, here⟩ := update_extends did le_rfl fun block _ =>
      { Block.Grows.refl _ _ block with bound := List.prefix_append _ _ }
    exact ⟨extends', names, size, here⟩

variable {init : Node} {name : String}

/-- Declaring a variable hands out the next name. -/
theorem declare_updates (done : arena.declare id init = .ok (name, new)) :
    name = variableName arena.names ∧
      Updates id (fun block => { block with
        vars := block.vars ++ [(name, init)]
        front := .assign name init true :: block.front }) 1 arena new := by
  obtain ⟨updated, did, done⟩ := Except.bind_eq_ok.mp done
  cases done
  refine ⟨rfl, ?_⟩
  obtain ⟨extends', names, size, here⟩ := update_extends did (Nat.le_succ _) fun block _ =>
    { Block.Grows.refl _ _ block with
      front := ⟨[_], rfl, fun s member => ⟨arena.names, init, le_rfl, Nat.lt_succ_self _,
        List.mem_singleton.mp member⟩⟩ }
  exact ⟨extends', names, size, here⟩

theorem declareHere_updates (done : arena.declareHere id init = .ok (name, new)) :
    name = variableName arena.names ∧
      Updates id (fun block => { block with
        vars := block.vars ++ [(name, init)]
        rest := block.rest ++ [.assign name init true] }) 1 arena new := by
  obtain ⟨updated, did, done⟩ := Except.bind_eq_ok.mp done
  cases done
  refine ⟨rfl, ?_⟩
  obtain ⟨extends', names, size, here⟩ := update_extends did (Nat.le_succ _) fun block _ =>
    { Block.Grows.refl _ _ block with rest := List.prefix_append _ _ }
  exact ⟨extends', names, size, here⟩

theorem setOverride_extends {target : Override}
    (done : arena.setOverride id reader target = .ok new)
    (isNew : ∀ block, arena.blocks[id]? = some block → block.overrides.lookup reader = none)
    (array : target.array = variableName n) (above : lo ≤ n) (below : n < arena.names) :
    Extends (· = id) lo arena new ∧ new.names = arena.names ∧
      new.blocks.size = arena.blocks.size ∧ ∃ block, arena.blocks[id]? = some block ∧
        new.blocks[id]? = some { block with overrides := block.overrides ++ [(reader, target)] } := by
  have kept : ∀ block, arena.blocks[id]? = some block →
      block.overrides.filter (·.1 != reader) = block.overrides := by
    intro block here
    have absent := List.lookup_eq_none_iff.mp (isNew block here)
    refine List.filter_eq_self.mpr fun e member => ?_
    simpa [bne, BEq.comm] using absent e member
  have grows : ∀ block, arena.blocks[id]? = some block → block.Grows lo arena.names
      { block with overrides := block.overrides.filter (·.1 != reader) ++ [(reader, target)] } :=
    fun block here => { Block.Grows.refl _ _ block with
      overrides := ⟨[(reader, target)], by rw [kept block here], by
        intro e member
        obtain rfl := List.mem_singleton.mp member
        exact ⟨n, above, below, array⟩⟩ }
  obtain ⟨extends', names, size, block, here, there⟩ := update_extends done le_rfl grows
  exact ⟨extends', names, size, block, here, by rw [there, kept block here]⟩

theorem new_getElem? (arena : Arena) (parent : Option BlockId) (tag : Tag) (id : BlockId) :
    (arena.new parent tag).2.blocks[id]? =
      if id = arena.blocks.size then some { parent, tag } else arena.blocks[id]? :=
  Array.getElem?_push

/-- A new block is empty and stands after all others. -/
theorem new_extends (arena : Arena) (parent : Option BlockId) (tag : Tag) :
    Extends (fun _ => False) lo arena (arena.new parent tag).2 := by
  have kept : ∀ (id : BlockId) (block : Block), arena.blocks[id]? = some block →
      (arena.new parent tag).2.blocks[id]? = some block := by
    intro id block here
    have bound := Array.inside here
    rw [new_getElem?, if_neg bound.ne]
    exact here
  exact {
    names := le_rfl
    size := by simp [new]
    grown := fun id block here => ⟨block, kept id block here, .refl _ _ _⟩
    untouched := fun id block here _ => kept id block here }

/-! ## Names declared in front -/

/-- The statement that declares a variable. -/
def declaration (n : Nat) (init : Node) : Node := .assign (variableName n) init true

theorem declaration_inj {m : Nat} {init' : Node}
    (same : declaration m init = declaration n init') : m = n ∧ init = init' := by
  injection same with names inits
  exact ⟨variableName_injective names, inits⟩

/-- What stands in front of blocks declares variables, each name once. -/
structure Named (arena : Arena) : Prop where
  front : ∀ (id : BlockId) (block : Block), arena.blocks[id]? = some block →
    ∀ s ∈ block.front, ∃ n init, n < arena.names ∧ s = declaration n init
  distinct : ∀ (id : BlockId) (block : Block), arena.blocks[id]? = some block →
    block.front.Pairwise fun s t => ∀ n init init', s = declaration n init → t ≠ declaration n init'
  apart : ∀ (id id' : BlockId) (block block' : Block) (n : Nat) (init init' : Node),
    arena.blocks[id]? = some block → arena.blocks[id']? = some block' →
    declaration n init ∈ block.front → declaration n init' ∈ block'.front → id = id'

/-- No front declares a name that was not handed out. -/
theorem Named.not_declared {b : BlockId} {block : Block} (named : arena.Named)
    (here : arena.blocks[b]? = some block) : declaration arena.names init ∉ block.front := by
  intro member
  obtain ⟨n, _, below, same⟩ := named.front b block here _ member
  obtain ⟨rfl, _⟩ := declaration_inj same
  exact Nat.lt_irrefl _ below

/-- A block that grows gets declarations of new names only. -/
theorem declared_of_grows {hi : Nat} {old new : Block}
    (grows : old.Grows lo hi new) (below : n < lo) (member : declaration n init ∈ new.front) :
    declaration n init ∈ old.front := by
  obtain ⟨more, same, isNew⟩ := grows.front
  rw [same] at member
  refine (List.mem_append.mp member).resolve_left fun added => ?_
  obtain ⟨_, _, above, _, isDeclaration⟩ := isNew _ added
  obtain ⟨rfl, _⟩ := declaration_inj isDeclaration
  exact above.not_gt below

/-- A table in which every front was there before. -/
theorem Named.of_fronts (named : arena.Named) (names : arena.names ≤ new.names)
    (fronts : ∀ (i : BlockId) (block : Block), new.blocks[i]? = some block → block.front = [] ∨
      ∃ before, arena.blocks[i]? = some before ∧ block.front = before.front) : new.Named where
  front := by
    intro i block here s member
    rcases fronts i block here with none | ⟨before, there, same⟩
    · rw [none] at member
      cases member
    · obtain ⟨n, init, below, is⟩ := named.front i before there s (same ▸ member)
      exact ⟨n, init, below.trans_le names, is⟩
  distinct := by
    intro i block here
    rcases fronts i block here with none | ⟨before, there, same⟩
    · rw [none]
      exact .nil
    · rw [same]
      exact named.distinct i before there
  apart := by
    intro i i' block block' n init init' here here' member member'
    rcases fronts i block here with none | ⟨before, there, same⟩
    · rw [none] at member
      cases member
    · rcases fronts i' block' here' with none | ⟨before', there', same'⟩
      · rw [none] at member'
        cases member'
      · exact named.apart i i' before before' n init init' there there' (same ▸ member)
          (same' ▸ member')

theorem update_named {names : Nat} (more : arena.names ≤ names)
    (updated : { arena with names }.update id change = .ok new)
    (keeps : ∀ block, (change block).front = block.front) (named : arena.Named) : new.Named := by
  obtain ⟨_, sameNames, _, block, here, there⟩ := update_eq_ok updated
  refine named.of_fronts (sameNames ▸ more) fun i block' here' => .inr ?_
  rw [there i] at here'
  split at here'
  · next same =>
    subst same
    cases here'
    exact ⟨block, here, keeps block⟩
  · exact ⟨block', here', rfl⟩

theorem bind_named (done : arena.bind id reader = .ok new) (named : arena.Named) : new.Named := by
  obtain ⟨updated, did, done⟩ := Except.bind_eq_ok.mp done
  obtain ⟨block, _, done⟩ := Except.bind_eq_ok.mp done
  split at done
  · cases done
  · cases done
    exact update_named le_rfl did (fun _ => rfl) named

theorem declareHere_named
    (done : arena.declareHere id init = .ok (name, new)) (named : arena.Named) : new.Named := by
  obtain ⟨updated, did, done⟩ := Except.bind_eq_ok.mp done
  cases done
  exact update_named (Nat.le_succ _) did (fun _ => rfl) named

theorem new_named (parent : Option BlockId) (tag : Tag) (named : arena.Named) :
    (arena.new parent tag).2.Named := by
  refine named.of_fronts le_rfl fun i block here => ?_
  rw [new_getElem?] at here
  split at here
  · cases here
    exact .inl rfl
  · exact .inr ⟨block, here, rfl⟩

/-- A declared variable has a name that no front had before. -/
theorem declare_named
    (done : arena.declare id init = .ok (name, new)) (named : arena.Named) : new.Named := by
  obtain ⟨rfl, updates⟩ := declare_updates done
  have later : arena.names < new.names := by
    rw [updates.names]
    exact Nat.lt_succ_self _
  refine ⟨?_, ?_, ?_⟩
  · intro i block here s member
    obtain ⟨before, there, rfl⟩ := updates.before here
    have old : ∀ s ∈ before.front, ∃ n init, n < new.names ∧ s = declaration n init := by
      intro s member
      obtain ⟨n, init', below, is⟩ := named.front i before there s member
      exact ⟨n, init', below.trans later, is⟩
    split at member
    · rcases List.mem_cons.mp member with rfl | member
      · exact ⟨arena.names, init, later, rfl⟩
      · exact old s member
    · exact old s member
  · intro i block here
    obtain ⟨before, there, rfl⟩ := updates.before here
    split
    · refine List.pairwise_cons.mpr ⟨fun t member n init' init'' is => ?_,
        named.distinct i before there⟩
      rintro rfl
      obtain ⟨rfl, _⟩ := declaration_inj is
      exact named.not_declared there member
    · exact named.distinct i before there
  · intro i i' block block' n init₁ init₂ here here' member member'
    obtain ⟨before, there, rfl⟩ := updates.before here
    obtain ⟨before', there', rfl⟩ := updates.before here'
    have splits : ∀ (k : BlockId) (old : Block) (init' : Node),
        declaration n init' ∈ (if k = id then { old with
          vars := old.vars ++ [(variableName arena.names, init)]
          front := .assign (variableName arena.names) init true :: old.front } else old).front →
        (k = id ∧ n = arena.names) ∨ declaration n init' ∈ old.front := by
      intro k old init' member
      split at member
      · next same =>
        rcases List.mem_cons.mp member with isFirst | member
        · exact .inl ⟨same, (declaration_inj isFirst).1⟩
        · exact .inr member
      · exact .inr member
    rcases splits i before init₁ member with ⟨rfl, rfl⟩ | old
    · rcases splits i' before' init₂ member' with ⟨rfl, _⟩ | old'
      · rfl
      · exact absurd old' (named.not_declared there')
    · rcases splits i' before' init₂ member' with ⟨_, rfl⟩ | old'
      · exact absurd old (named.not_declared there)
      · exact named.apart i i' before before' n init₁ init₂ there there' old old'

end Arena

end QueryFusion.Code

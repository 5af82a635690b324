import QueryFusion.Proofs.Fusion.Looping

/-!
# Variables that have values

Code reads a variable only where every way to it has given the variable a value for the record at
hand. A ledger keeps, for every block, the variables that have values whenever the block is entered.
The variables in front of the blocks around a block have values too, and so does what was declared
before a statement in its own block.

One kind of block is entered by a detour: the block that a group-by opens beside its loop reads
variables of the loop. It runs only if a flag is set, and the flag is set only where those variables
have values. So the ledger also keeps which variables are such flags.

Only functions whose body is nothing but the loop through the records are accounted for. In others the
body reads what the loop has left behind.
-/

namespace QueryFusion.Fusion

open Code
open Code.Arena (declaration)

/-- What a variable is for. -/
inductive Role where
  /-- Its declaration and the code after it set it. -/
  | plain
  /-- It is the flag of a group, declared as not set, and nothing sets it so far. -/
  | idle
  /-- It is the flag of a group, set only where certain variables have values. -/
  | guard (seen : Nat → Prop)

/-- What is known of the variables of a function. -/
structure Ledger where
  /-- The variables that have values when a block is entered, those in front of blocks apart. -/
  opened : BlockId → Nat → Prop
  /-- What each variable is for. -/
  role : Nat → Role

/-- A variable is declared in front of a block or of one around it. -/
def Fronted (arena : Arena) (b : BlockId) (n : Nat) : Prop :=
  ∃ above block init, arena.Within b above ∧ arena.blocks[above]? = some block ∧
    declaration n init ∈ block.front

/-- Code declares a variable. -/
def DeclaredIn (code : List Node) (n : Nat) : Prop := ∃ init, declaration n init ∈ code

/-- The block of an unnest loop is around a block. -/
def InLoop (arena : Arena) (b : BlockId) : Prop :=
  ∃ above block, arena.Within b above ∧ arena.blocks[above]? = some block ∧ block.tag = .unnest

/-- A name that code may read where some variables have values. -/
def Visible (fn : Function) (seen : Nat → Prop) (name : String) : Prop :=
  IsParam fn name ∨ ∃ n, name = variableName n ∧ seen n

namespace Ledger

/-- The variables that have values behind the front of a block. -/
def base (ledger : Ledger) (arena : Arena) (b : BlockId) (n : Nat) : Prop :=
  ledger.opened b n ∨ Fronted arena b n

/-- The variables that have values where the code of a block goes on. -/
def reach (ledger : Ledger) (arena : Arena) (b : BlockId) (n : Nat) : Prop :=
  ledger.base arena b n ∨ ∃ block, arena.blocks[b]? = some block ∧ DeclaredIn block.rest n

/-- A declared variable that any code may set. -/
def Settable (ledger : Ledger) (fn : Function) (n : Nat) : Prop :=
  n < fn.arena.names ∧ ledger.role n = .plain

/-- A block that a branch leads to where some variables have values. -/
def Child (ledger : Ledger) (fn : Function) (b : BlockId) (seen : Nat → Prop) (c : BlockId) : Prop :=
  c = Code.emptyBlock ∨
    (∃ block, fn.arena.blocks[c]? = some block ∧ block.parent = some b ∧ block.tag.isLoop = false) ∧
      ∀ n, ledger.opened c n → seen n

/-- A statement of a block that reads only variables that have values before it. -/
inductive Accepts (ledger : Ledger) (fn : Function) (b : BlockId) (seen : Nat → Prop) : Node → Prop
  | expr {n : Node} (quiet : n.isQuiet = true) (names : ∀ name ∈ n.names, Visible fn seen name) :
      Accepts ledger fn b seen n
  | declare {k : Nat} {init : Node} (quiet : init.isQuiet = true)
      (names : ∀ name ∈ init.names, Visible fn seen name) (below : k < fn.arena.names)
      (flag : ledger.role k ≠ .plain → init = .bool false) :
      Accepts ledger fn b seen (declaration k init)
  | set {k : Nat} {value : Node} (quiet : value.isQuiet = true)
      (names : ∀ name ∈ value.names, Visible fn seen name) (settable : ledger.Settable fn k)
      (isSeen : seen k) : Accepts ledger fn b seen (.set (variableName k) value)
  | mark {k : Nat} {held : Nat → Prop} (isGuard : ledger.role k = .guard held) (isSeen : seen k)
      (all : ∀ n, held n → seen n) : Accepts ledger fn b seen (.set (variableName k) (.bool true))
  | leave (inside : InLoop fn.arena b) : Accepts ledger fn b seen .leave
  | branch {test : Node} {yes no : BlockId} (quiet : test.isQuiet = true)
      (names : ∀ name ∈ test.names, Visible fn seen name) (onYes : ledger.Child fn b seen yes)
      (onNo : ledger.Child fn b seen no) : Accepts ledger fn b seen (.branch test yes no)
  | guarded {k : Nat} {held : Nat → Prop} {yes : BlockId} (isGuard : ledger.role k = .guard held)
      (isSeen : seen k) (onYes : ledger.Child fn b (fun n => seen n ∨ held n) yes) :
      Accepts ledger fn b seen (.branch (.ident (variableName k)) yes Code.emptyBlock)
  | loop {cond : Node} {body : BlockId} (quiet : cond.isQuiet = true)
      (names : ∀ name ∈ cond.names, Visible fn seen name) (isParent : fn.arena.Parent body b)
      (opens : ∀ n, ledger.opened body n → seen n) : Accepts ledger fn b seen (.loop cond body)

/-- A declaration in front of a block, which reads no variables. -/
def Fronts (ledger : Ledger) (fn : Function) (b : BlockId) (s : Node) : Prop :=
  (∃ n init, s = declaration n init) ∧ ledger.Accepts fn b (fun _ => False) s

/-- Code whose statements are accepted one after the other. -/
def Sure (ledger : Ledger) (fn : Function) (b : BlockId) : (Nat → Prop) → List Node → Prop
  | _, [] => True
  | seen, s :: rest => ledger.Accepts fn b seen s ∧
      ledger.Sure fn b (fun n => seen n ∨ DeclaredIn [s] n) rest

/-- A later ledger: it has more blocks and more variables, and idle flags may have become guards. -/
structure Later (ledger later : Ledger) (fn : Function) : Prop where
  opened : ∀ b, b < fn.arena.blocks.size → later.opened b = ledger.opened b
  plain : ∀ n, n < fn.arena.names → ledger.role n = .plain → later.role n = .plain
  guard : ∀ n held, ledger.role n = .guard held → later.role n = .guard held

end Ledger

/-- A function that got more code. -/
structure Widens (fn fn' : Function) : Prop where
  body : fn'.body = fn.body
  paths : fn.paths <+: fn'.paths
  names : fn.arena.names ≤ fn'.arena.names
  kept : ∀ (i : BlockId) (block : Block), fn.arena.blocks[i]? = some block →
    ∃ block', fn'.arena.blocks[i]? = some block' ∧ block'.parent = block.parent ∧
      block'.tag = block.tag ∧ (∀ s ∈ block.front, s ∈ block'.front) ∧
      ∀ s ∈ block.rest, s ∈ block'.rest

section kept

variable {ledger ledger' : Ledger} {fn fn' : Function} {b c : BlockId} {seen seen' : Nat → Prop}
variable {s : Node} {code more : List Node} {name : String} {n : Nat}

theorem Widens.refl (fn : Function) : Widens fn fn :=
  ⟨rfl, List.prefix_rfl, le_rfl, fun _ block here =>
    ⟨block, here, rfl, rfl, fun _ => id, fun _ => id⟩⟩

theorem Scope.Later.widens {scope later : Scope} (later' : scope.Later later) :
    Widens scope.fn later.fn where
  body := later'.body
  paths := later'.paths
  names := later'.arena.names
  kept := by
    intro i block here
    obtain ⟨block', here', grows⟩ := later'.arena.grown i block here
    obtain ⟨added, front, _⟩ := grows.front
    refine ⟨block', here', grows.parent, grows.tag, fun s member => ?_, fun s member => ?_⟩
    · rw [front]
      exact List.mem_append_right _ member
    · exact grows.rest.subset member

theorem Widens.parent (widens : Widens fn fn') (isParent : fn.arena.Parent c b) :
    fn'.arena.Parent c b := by
  obtain ⟨block, here, same⟩ := isParent
  obtain ⟨block', here', parent, _⟩ := widens.kept c block here
  exact ⟨block', here', parent.trans same⟩

theorem Widens.within (widens : Widens fn fn') (within : fn.arena.Within c b) :
    fn'.arena.Within c b := Relation.ReflTransGen.mono (fun _ _ => widens.parent) _ _ within

theorem Widens.param (widens : Widens fn fn') (isParam : IsParam fn name) : IsParam fn' name := by
  cases isParam with
  | cursor => exact .cursor
  | sink => exact .sink
  | reader below => exact .reader (below.trans_le widens.paths.length_le)

theorem Fronted.kept (fronted : Fronted fn.arena b n) (widens : Widens fn fn') :
    Fronted fn'.arena b n := by
  obtain ⟨above, block, init, within, here, member⟩ := fronted
  obtain ⟨block', here', _, _, front, _⟩ := widens.kept above block here
  exact ⟨above, block', init, widens.within within, here', front _ member⟩

theorem InLoop.kept (inside : InLoop fn.arena b) (widens : Widens fn fn') : InLoop fn'.arena b := by
  obtain ⟨above, block, within, here, isLoop⟩ := inside
  obtain ⟨block', here', _, tag, _⟩ := widens.kept above block here
  exact ⟨above, block', widens.within within, here', tag.trans isLoop⟩

theorem Visible.kept (visible : Visible fn seen name) (widens : Widens fn fn')
    (wider : ∀ n, seen n → seen' n) : Visible fn' seen' name :=
  visible.imp widens.param fun ⟨n, same, isSeen⟩ => ⟨n, same, wider n isSeen⟩

theorem DeclaredIn.append : DeclaredIn (code ++ more) n ↔ DeclaredIn code n ∨ DeclaredIn more n := by
  constructor
  · rintro ⟨init, member⟩
    exact (List.mem_append.mp member).imp (⟨init, ·⟩) (⟨init, ·⟩)
  · rintro (⟨init, member⟩ | ⟨init, member⟩)
    · exact ⟨init, List.mem_append_left _ member⟩
    · exact ⟨init, List.mem_append_right _ member⟩

/-- Only a declaration declares something. -/
theorem not_declaredIn (other : ∀ name init, s ≠ .assign name init true) (n : Nat) :
    ¬ DeclaredIn [s] n := by
  rintro ⟨init, member⟩
  exact other _ init (List.mem_singleton.mp member).symm

theorem eq_of_declaredIn {k : Nat} {init : Node} (declared : DeclaredIn [declaration k init] n) :
    n = k := by
  obtain ⟨init', member⟩ := declared
  have same := List.mem_singleton.mp member
  injection same with names
  exact variableName_injective names

theorem DeclaredIn.cons : DeclaredIn (s :: code) n ↔ DeclaredIn [s] n ∨ DeclaredIn code n := by
  change DeclaredIn ([s] ++ code) n ↔ _
  exact DeclaredIn.append

namespace Ledger

theorem Later.refl (ledger : Ledger) (fn : Function) : ledger.Later ledger fn :=
  ⟨fun _ _ => rfl, fun _ _ => id, fun _ _ => id⟩

theorem Settable.kept (settable : ledger.Settable fn n) (later : ledger.Later ledger' fn)
    (widens : Widens fn fn') : ledger'.Settable fn' n :=
  ⟨settable.1.trans_le widens.names, later.plain n settable.1 settable.2⟩

theorem base.kept (isBase : ledger.base fn.arena b n) (below : b < fn.arena.blocks.size)
    (later : ledger.Later ledger' fn) (widens : Widens fn fn') : ledger'.base fn'.arena b n :=
  isBase.imp (fun opened => by rw [later.opened b below]; exact opened) fun fronted =>
    fronted.kept widens

theorem reach.kept (reached : ledger.reach fn.arena b n) (below : b < fn.arena.blocks.size)
    (later : ledger.Later ledger' fn) (widens : Widens fn fn') : ledger'.reach fn'.arena b n := by
  refine reached.imp (fun isBase => isBase.kept below later widens) fun ⟨block, here, init, member⟩ => ?_
  obtain ⟨block', here', _, _, _, rest⟩ := widens.kept b block here
  exact ⟨block', here', init, rest _ member⟩

theorem Child.kept (child : ledger.Child fn b seen c) (later : ledger.Later ledger' fn)
    (widens : Widens fn fn') (wider : ∀ n, seen n → seen' n) : ledger'.Child fn' b seen' c := by
  refine child.imp_right fun ⟨⟨block, here, isParent, inLine⟩, opens⟩ => ⟨?_, fun n opened => ?_⟩
  · obtain ⟨block', here', parent, tag, _⟩ := widens.kept c block here
    exact ⟨block', here', parent.trans isParent, tag ▸ inLine⟩
  · rw [later.opened c (Array.inside here)] at opened
    exact wider n (opens n opened)

theorem Accepts.kept (accepts : ledger.Accepts fn b seen s) (later : ledger.Later ledger' fn)
    (widens : Widens fn fn') (wider : ∀ n, seen n → seen' n) : ledger'.Accepts fn' b seen' s := by
  have visible : ∀ {n : Node}, (∀ name ∈ n.names, Visible fn seen name) →
      ∀ name ∈ n.names, Visible fn' seen' name :=
    fun names name member => (names name member).kept widens wider
  cases accepts with
  | expr quiet names => exact .expr quiet (visible names)
  | declare quiet names below flag =>
    refine .declare quiet (visible names) (below.trans_le widens.names) fun special => ?_
    exact flag fun isPlain => special (later.plain _ below isPlain)
  | set quiet names settable isSeen =>
    exact .set quiet (visible names) (settable.kept later widens) (wider _ isSeen)
  | mark isGuard isSeen all =>
    exact .mark (later.guard _ _ isGuard) (wider _ isSeen) fun n isHeld => wider n (all n isHeld)
  | leave inside => exact .leave (inside.kept widens)
  | branch quiet names onYes onNo =>
    exact .branch quiet (visible names) (onYes.kept later widens wider) (onNo.kept later widens wider)
  | guarded isGuard isSeen onYes =>
    refine .guarded (later.guard _ _ isGuard) (wider _ isSeen) (onYes.kept later widens ?_)
    exact fun n => Or.imp_left (wider n)
  | @loop cond body quiet names isParent opens =>
    refine .loop quiet (visible names) (widens.parent isParent) fun n opened => ?_
    obtain ⟨block, here, _⟩ := isParent
    rw [later.opened body (Array.inside here)] at opened
    exact wider n (opens n opened)

theorem Sure.kept : ∀ {code : List Node} {seen seen' : Nat → Prop}, ledger.Sure fn b seen code →
    ledger.Later ledger' fn → Widens fn fn' → (∀ n, seen n → seen' n) → ledger'.Sure fn' b seen' code
  | [], _, _, _, _, _, _ => trivial
  | _ :: _, _, _, sure, later, widens, wider =>
    ⟨sure.1.kept later widens wider, .kept sure.2 later widens fun n => Or.imp_left (wider n)⟩

theorem Sure.mono (sure : ledger.Sure fn b seen code) (wider : ∀ n, seen n → seen' n) :
    ledger.Sure fn b seen' code := sure.kept (.refl ledger fn) (.refl fn) wider

theorem Sure.append : ∀ {code : List Node} {seen : Nat → Prop}, ledger.Sure fn b seen (code ++ more) ↔
    ledger.Sure fn b seen code ∧ ledger.Sure fn b (fun n => seen n ∨ DeclaredIn code n) more
  | [], seen => by
    refine ⟨fun sure => ⟨trivial, .mono sure fun _ => .inl⟩, fun sure => .mono sure.2 ?_⟩
    rintro n (isSeen | ⟨_, member⟩)
    · exact isSeen
    · cases member
  | s :: code, seen => by
    have same : (fun n => (seen n ∨ DeclaredIn [s] n) ∨ DeclaredIn code n) =
        fun n => seen n ∨ DeclaredIn (s :: code) n := by
      funext n
      exact propext ((or_assoc).trans (or_congr_right DeclaredIn.cons.symm))
    have rest := @Sure.append code fun n => seen n ∨ DeclaredIn [s] n
    rw [same] at rest
    exact (and_congr_right fun _ => rest).trans and_assoc.symm

end Ledger

end kept

/-! ## Functions that are accounted for -/

/-- A redirected reader reads variables that have values behind the front of the block. -/
def Ledger.Redirected (ledger : Ledger) (arena : Arena) (b : BlockId)
    (entry : String × Code.Override) : Prop :=
  (∃ n, entry.2.array = variableName n ∧ ledger.base arena b n) ∧
    ∃ n, entry.2.index = variableName n ∧ ledger.base arena b n

/-- A function in which code reads only variables that have values, its body apart. -/
structure Accounted (ledger : Ledger) (fn : Function) : Prop where
  front : ∀ (b : BlockId) (block : Block), fn.arena.blocks[b]? = some block → ∀ s ∈ block.front,
    ledger.Fronts fn b s
  code : ∀ (b : BlockId) (block : Block), fn.arena.blocks[b]? = some block → b ≠ fn.body →
    ledger.Sure fn b (ledger.base fn.arena b) (block.rest ++ block.tail)
  redirected : ∀ (b : BlockId) (block : Block), fn.arena.blocks[b]? = some block →
    ∀ entry ∈ block.overrides, ledger.Redirected fn.arena b entry
  descends : ∀ c b, fn.arena.Parent c b → ∀ n, ledger.opened b n → ledger.opened c n
  fresh : ∀ n, fn.arena.names ≤ n → ledger.role n = .plain

section accounted

variable {ledger ledger' : Ledger} {fn fn' : Function} {b : BlockId} {s : Node} {n : Nat}

theorem Ledger.Redirected.kept {entry : String × Override}
    (redirected : ledger.Redirected fn.arena b entry) (below : b < fn.arena.blocks.size)
    (later : ledger.Later ledger' fn) (widens : Widens fn fn') :
    ledger'.Redirected fn'.arena b entry :=
  redirected.imp (fun ⟨n, same, isBase⟩ => ⟨n, same, isBase.kept below later widens⟩)
    fun ⟨n, same, isBase⟩ => ⟨n, same, isBase.kept below later widens⟩

theorem Accounted.base_of_within (accounted : Accounted ledger fn) {c : BlockId}
    (within : fn.arena.Within c b) (isBase : ledger.base fn.arena b n) : ledger.base fn.arena c n := by
  refine isBase.imp (fun opened => ?_) fun ⟨above, block, init, up, here, member⟩ =>
    ⟨above, block, init, within.trans up, here, member⟩
  induction within using Relation.ReflTransGen.head_induction_on with
  | refl => exact opened
  | head step _ ih => exact accounted.descends _ _ step n ih

theorem Accounted.grow (accounted : Accounted ledger fn) (tree : fn.arena.Tree)
    (widens : Widens fn fn') (later : ledger.Later ledger' fn)
    (old : ∀ (i : BlockId) (before block : Block), fn.arena.blocks[i]? = some before →
      fn'.arena.blocks[i]? = some block → block.tail = before.tail ∧
      (∀ s ∈ block.front, s ∈ before.front ∨ ledger'.Fronts fn' i s) ∧
      (∀ entry ∈ block.overrides, entry ∈ before.overrides ∨ ledger'.Redirected fn'.arena i entry) ∧
      ∃ code, block.rest = before.rest ++ code ∧ (i ≠ fn.body →
        ledger'.Sure fn' i (fun n => ledger'.base fn'.arena i n ∨ DeclaredIn before.rest n) code))
    (isNew : ∀ (i : BlockId) (block : Block), fn'.arena.blocks[i]? = some block →
      fn.arena.blocks[i]? = none → block.front = [] ∧
      ledger'.Sure fn' i (ledger'.base fn'.arena i) (block.rest ++ block.tail) ∧
      (∀ entry ∈ block.overrides, ledger'.Redirected fn'.arena i entry) ∧
      ∀ b, block.parent = some b → ∀ n, ledger'.opened b n → ledger'.opened i n)
    (fresh : ∀ n, fn'.arena.names ≤ n → ledger'.role n = .plain) : Accounted ledger' fn' where
  front := by
    intro i block here s member
    cases there : fn.arena.blocks[i]? with
    | none =>
      rw [(isNew i block here there).1] at member
      cases member
    | some before =>
      rcases (old i before block there here).2.1 s member with isOld | accepted
      · exact (accounted.front i before there s isOld).imp_right fun accepts =>
          accepts.kept later widens fun _ => id
      · exact accepted
  code := by
    intro i block here isInside
    rw [widens.body] at isInside
    cases there : fn.arena.blocks[i]? with
    | none => exact (isNew i block here there).2.1
    | some before =>
      have below := Array.inside there
      obtain ⟨tail, _, _, code, rest, sure⟩ := old i before block there here
      have both := (accounted.code i before there isInside).kept later widens
        fun n isBase => isBase.kept below later widens
      obtain ⟨first, last⟩ := Ledger.Sure.append.mp both
      rw [rest, tail]
      refine Ledger.Sure.append.mpr ⟨Ledger.Sure.append.mpr ⟨first, sure isInside⟩, last.mono ?_⟩
      exact fun n => Or.imp_right fun declared => DeclaredIn.append.mpr (.inl declared)
  redirected := by
    intro i block here entry member
    cases there : fn.arena.blocks[i]? with
    | none => exact (isNew i block here there).2.2.1 entry member
    | some before =>
      rcases (old i before block there here).2.2.1 entry member with isOld | redirected
      · exact (accounted.redirected i before there entry isOld).kept
          (Array.inside there) later widens
      · exact redirected
  descends := by
    rintro c b ⟨block, here, isParent⟩ n opened
    cases there : fn.arena.blocks[c]? with
    | none => exact (isNew c block here there).2.2.2 b isParent n opened
    | some before =>
      have below := Array.inside there
      obtain ⟨block', here', parent, _⟩ := widens.kept c before there
      cases here.symm.trans here'
      have isOld : fn.arena.Parent c b := ⟨before, there, parent.symm.trans isParent⟩
      rw [later.opened c below]
      rw [later.opened b (Nat.lt_trans (tree c b isOld) below)] at opened
      exact accounted.descends c b isOld n opened
  fresh := fresh

variable {change : Block → Block}

/-- A change of one block that keeps what is there. -/
structure Enlarges (change : Block → Block) (code : List Node) : Prop where
  parent : ∀ block, (change block).parent = block.parent
  tag : ∀ block, (change block).tag = block.tag
  tail : ∀ block, (change block).tail = block.tail
  rest : ∀ block, (change block).rest = block.rest ++ code
  front : ∀ block, ∀ s ∈ block.front, s ∈ (change block).front

theorem Rewrites.widens {code : List Node}
    (rewrites : Rewrites b change fn.arena fn'.arena) (enlarges : Enlarges change code)
    (body : fn'.body = fn.body) (paths : fn.paths <+: fn'.paths) : Widens fn fn' where
  body := body
  paths := paths
  names := rewrites.names
  kept := by
    intro i block here
    refine ⟨_, rewrites.blocks i block here, ?_⟩
    split
    · refine ⟨enlarges.parent _, enlarges.tag _, enlarges.front _, fun s member => ?_⟩
      rw [enlarges.rest]
      exact List.mem_append_left _ member
    · exact ⟨rfl, rfl, fun _ => id, fun _ => id⟩

theorem Accounted.rewrite {code : List Node}
    (accounted : Accounted ledger fn) (tree : fn.arena.Tree)
    (rewrites : Rewrites b change fn.arena fn'.arena) (enlarges : Enlarges change code)
    (widens : Widens fn fn') (later : ledger.Later ledger' fn)
    (fresh : ∀ n, fn'.arena.names ≤ n → ledger'.role n = .plain)
    (front : ∀ block, ∀ s ∈ (change block).front, s ∈ block.front ∨ ledger'.Fronts fn' b s)
    (overrides : ∀ block, ∀ entry ∈ (change block).overrides,
      entry ∈ block.overrides ∨ ledger'.Redirected fn'.arena b entry)
    (sure : b ≠ fn.body → ledger'.Sure fn' b (ledger.reach fn.arena b) code) :
    Accounted ledger' fn' := by
  refine accounted.grow tree widens later ?_ ?_ fresh
  · intro i before block there here
    have below := Array.inside there
    cases (rewrites.blocks i before there).symm.trans here
    split
    · next same =>
      subst same
      refine ⟨enlarges.tail _, front _, overrides _, code, enlarges.rest _, fun isInside =>
        (sure isInside).mono ?_⟩
      rintro n (isBase | ⟨before', there', declared⟩)
      · exact .inl (isBase.kept below later widens)
      · cases there.symm.trans there'
        exact .inr declared
    · exact ⟨rfl, fun _ => .inl, fun _ => .inl, [], (List.append_nil _).symm, fun _ => trivial⟩
  · intro i block here there
    have below := Array.inside here
    rw [Array.getElem?_eq_none_iff] at there
    exact absurd (rewrites.size ▸ below) there.not_gt

end accounted

end QueryFusion.Fusion

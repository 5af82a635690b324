import QueryFusion.Proofs.Engine.Akin
import QueryFusion.Proofs.Fusion.Assigned

/-!
# Runs that agree

Two runs of a function agree if they are akin and give the same values to the variables that the
ledger says have values. Code that is accounted for goes the same way in both and leaves them in
agreement, whatever is left in the other variables from records before.
-/

namespace QueryFusion.Fusion

open Code
open Code.Arena (declaration)
open Engine

/-- Two machines agree on the variables that are known to have values. A flag that is set says that
the variables it guards are known. -/
structure Agrees (ledger : Ledger) (known : Nat → Prop) (before before' : List (List Value))
    (m n : Machine) : Prop where
  akin : m.Akin before before' n
  names : ∀ name, (∀ k, name ≠ variableName k) → n.env.lookup name = m.env.lookup name
  values : ∀ k, known k → n.env.lookup (variableName k) = m.env.lookup (variableName k)
  guards : ∀ k held v, ledger.role k = .guard held → known k →
    m.env.lookup (variableName k) = some v → v.truth = true → ∀ j, held j → known j

/-- What a statement of a block leaves behind in two runs that agree: they still do, and if code goes
on the declared variables are known too. -/
structure Together (ledger : Ledger) (fn : Function) (b : BlockId) (before before' : List (List Value))
    (known declared : Nat → Prop) (flow : Flow) (m n : Machine) : Prop where
  stays : flow ≠ .finish
  leaves : flow = .leave → InLoop fn.arena b
  agrees : ∃ more : Nat → Prop, (∀ k, known k → more k) ∧ (flow = .proceed → ∀ k, declared k → more k) ∧
    Agrees ledger more before before' m n

variable {name : String} {flow : Flow}

section agreement

variable {ledger : Ledger} {fn : Function} {b c : BlockId} {before before' : List (List Value)}
variable {known seen declared : Nat → Prop} {m n m' n' : Machine} {e s : Node} {k : Nat} {v : Value}

theorem IsParam.ne_variableName (isParam : IsParam fn name) (k : Nat) : name ≠ variableName k := by
  cases isParam with
  | cursor => exact (variableName_ne_cursor k).symm
  | sink => exact (variableName_ne_sink k).symm
  | reader => exact (variableName_ne_readerName k _).symm

section

variable (agrees : Agrees ledger known before before' m n)

include agrees

/-- A visible name has the same value on both machines. -/
theorem Agrees.lookup (isKnown : ∀ k, seen k → known k) (visible : Visible fn seen name) :
    n.env.lookup name = m.env.lookup name := by
  rcases visible with isParam | ⟨k, rfl, isSeen⟩
  · exact agrees.names name isParam.ne_variableName
  · exact agrees.values k (isKnown k isSeen)

/-- Machines with the same names agree on what they did. -/
theorem Agrees.still (standing : Standing before before' m n m' n') :
    Agrees ledger known before before' m' n' where
  akin := standing.akin
  names := by
    rw [standing.env, standing.env']
    exact agrees.names
  values := by
    rw [standing.env, standing.env']
    exact agrees.values
  guards := by
    rw [standing.env]
    exact agrees.guards

theorem Agrees.eval (quiet : e.isQuiet = true)
    (isLocal : e.isLocal = true) (isKnown : ∀ k, seen k → known k)
    (names : ∀ name ∈ e.names, Visible fn seen name) :
    Twins (eval e) m n fun _ m' n' => m.Calm m' ∧ Agrees ledger known before before' m' n' := by
  refine ((stands_eval e m n agrees.akin quiet isLocal fun name member =>
    agrees.lookup isKnown (names name member)).and_halts (halts_eval e m quiet)).mono ?_
  rintro a b m' n' ⟨calm, same, standing⟩
  exact ⟨same, calm, agrees.still standing⟩

/-- Both runs store the same value into a variable. -/
theorem Agrees.put (k : Nat) (v : Value)
    (guards : ∀ held, ledger.role k = .guard held → v.truth = true → ∀ j, held j → known j) :
    Agrees ledger (fun j => known j ∨ j = k) before before' (m.put (variableName k) v)
      (n.put (variableName k) v) where
  akin := agrees.akin.still ⟨rfl, rfl, rfl, rfl, rfl, rfl, rfl⟩
    ⟨rfl, rfl, rfl, rfl, rfl, rfl, rfl⟩ agrees.akin.written
  names := by
    intro name apart
    rw [Machine.lookup_put, Machine.lookup_put, if_neg (apart k), if_neg (apart k)]
    exact agrees.names name apart
  values := by
    intro j isKnown
    rw [Machine.lookup_put, Machine.lookup_put]
    split
    · rfl
    · next apart =>
      exact agrees.values j (isKnown.resolve_right fun same => apart (congrArg variableName same))
  guards := by
    intro j held w isGuard isKnown found isTrue i isHeld
    rw [Machine.lookup_put] at found
    split at found
    · next same =>
      obtain rfl := variableName_injective same
      cases found
      exact .inl (guards held isGuard isTrue i isHeld)
    · next apart =>
      have isKnown' := isKnown.resolve_right fun same => apart (congrArg variableName same)
      exact .inl (agrees.guards j held w isGuard isKnown' found isTrue i isHeld)

/-- Nothing was declared, and code goes on. -/
theorem Together.proceed
    (nothing : ∀ k, ¬ declared k) : Together ledger fn b before before' known declared .proceed m n where
  stays := nofun
  leaves := nofun
  agrees := ⟨known, fun _ => id, fun _ k isDeclared => absurd isDeclared (nothing k), agrees⟩

end

/-- A variable got a value, and code goes on. -/
theorem Together.stored (agrees : Agrees ledger (fun j => known j ∨ j = k) before before' m n)
    (only : ∀ j, declared j → j = k) :
    Together ledger fn b before before' known declared .proceed m n where
  stays := nofun
  leaves := nofun
  agrees := ⟨_, fun _ => .inl, fun _ j isDeclared => .inr (only j isDeclared), agrees⟩

theorem Together.wider {fewer : Nat → Prop}
    (together : Together ledger fn b before before' known declared flow m n)
    (isKnown : ∀ k, fewer k → known k) :
    Together ledger fn b before before' fewer declared flow m n where
  stays := together.stays
  leaves := together.leaves
  agrees := by
    obtain ⟨more, wider, after, agrees⟩ := together.agrees
    exact ⟨more, fun k isFewer => wider k (isKnown k isFewer), after, agrees⟩

theorem Together.outward
    (together : Together ledger fn c before before' known (fun _ => False) flow m n)
    (outward : InLoop fn.arena c → InLoop fn.arena b) (nothing : ∀ k, ¬ declared k) :
    Together ledger fn b before before' known declared flow m n where
  stays := together.stays
  leaves := fun isLeave => outward (together.leaves isLeave)
  agrees := by
    obtain ⟨more, wider, _, agrees⟩ := together.agrees
    exact ⟨more, wider, fun _ k isDeclared => absurd isDeclared (nothing k), agrees⟩

theorem InLoop.parent {block : Block} (inside : InLoop fn.arena c)
    (here : fn.arena.blocks[c]? = some block) (isParent : block.parent = some b)
    (inLine : block.tag ≠ .unnest) : InLoop fn.arena b := by
  obtain ⟨above, block', within, there, isLoop⟩ := inside
  rcases (Arena.within_iff here).mp within with rfl | ⟨parent, isParent', within'⟩
  · cases here.symm.trans there
    exact absurd isLoop inLine
  · cases isParent.symm.trans isParent'
    exact ⟨above, block', within', there, isLoop⟩

end agreement

/-! ## Code of a function -/

/-- A function whose code goes the same way in all runs that agree. -/
structure Lockstep (ledger : Ledger) (counts : Nat → Option BlockId) (fn : Function) : Prop where
  accounted : Accounted ledger fn
  looped : Looped counts fn
  tree : fn.arena.Tree
  isLocal : ∀ (b : BlockId) (block : Block), fn.arena.blocks[b]? = some block →
    ∀ s ∈ block.statements, s.isLocal = true

/-- The variables that have values where a block is entered are known. -/
def Ledger.Entering (ledger : Ledger) (fn : Function) (known : Nat → Prop) (c : BlockId) : Prop :=
  ∀ k, (ledger.opened c k ∨ ∃ b, fn.arena.Parent c b ∧ Fronted fn.arena b k) → known k

/-- Runs that agree where a later block is entered go through it together. -/
def LaterAgree (ledger : Ledger) (counts : Nat → Option BlockId) (fn : Function)
    (before before' : List (List Value)) (b : BlockId) : Prop :=
  ∀ c, b < c → ∀ known m n, ledger.Entering fn known c → Counted counts m →
    Agrees ledger known before before' m n →
    Twins (execBlock fn c) m n (Together ledger fn c before before' known fun _ => False)

section code

variable {ledger : Ledger} {counts : Nat → Option BlockId} {fn : Function} {b c : BlockId}
variable {block : Block} {before before' : List (List Value)} {known seen : Nat → Prop}
variable {m n : Machine} {s : Node} {v : Value}

theorem Ledger.Entering.of_parent (isParent : fn.arena.Parent c b)
    (opens : ∀ k, ledger.opened c k → known k)
    (fronted : ∀ k, Fronted fn.arena b k → known k) : ledger.Entering fn known c := by
  rintro k (opened | ⟨b', isParent', isFronted⟩)
  · exact opens k opened
  · obtain ⟨block, here, same⟩ := isParent
    obtain ⟨block', here', same'⟩ := isParent'
    cases here.symm.trans here'
    cases same.symm.trans same'
    exact fronted k isFronted

theorem eval_bool {flag : Bool} {m' : Machine}
    (done : eval (.bool flag) m = some (.ok (v, m'))) : v = .bool flag := by
  cases done
  rfl

theorem eval_ident_ok {m' : Machine}
    (done : eval (.ident name) m = some (.ok (v, m'))) : m' = m ∧ m.env.lookup name = some v := by
  rw [eval, lookupName, get_bind_apply] at done
  cases found : m.env.lookup name with
  | none =>
    rw [found] at done
    cases done
  | some w =>
    rw [found] at done
    cases done
    exact ⟨rfl, rfl⟩

variable {k : Nat}

/-- A variable gets the same value in both runs. -/
theorem twins_store {value : Node} {declares : Bool}
    (agrees : Agrees ledger known before before' m n) (quiet : value.isQuiet = true)
    (isLocal : value.isLocal = true) (isKnown : ∀ k, seen k → known k)
    (names : ∀ name ∈ value.names, Visible fn seen name) (isSeen : declares = false → seen k)
    (guards : ∀ v m', eval value m = some (.ok (v, m')) → ∀ held, ledger.role k = .guard held →
      v.truth = true → ∀ j, held j → known j) :
    Twins (exec fn (.assign (variableName k) value declares)) m n
      (Together ledger fn b before before' known (· = k)) := by
  refine .assign fun v m' done => ?_
  obtain ⟨w, n', done', rfl, _, agrees'⟩ := agrees.eval quiet isLocal isKnown names v m' done
  refine ⟨_, n', done', rfl, fun isSet defined => ?_, .stored (agrees'.put k _ ?_) fun _ => id⟩
  · rw [agrees'.values k (isKnown k (isSeen isSet))]
    exact defined
  · exact guards _ m' done

theorem Together.declares {declared declared' : Nat → Prop}
    (together : Together ledger fn b before before' known declared flow m n)
    (fewer : ∀ k, declared' k → declared k) :
    Together ledger fn b before before' known declared' flow m n where
  stays := together.stays
  leaves := together.leaves
  agrees := by
    obtain ⟨more, wider, after, agrees⟩ := together.agrees
    exact ⟨more, wider, fun goes k isDeclared => after goes k (fewer k isDeclared), agrees⟩

theorem twins_declaration {init : Node} (agrees : Agrees ledger known before before' m n)
    (quiet : init.isQuiet = true) (isLocal : init.isLocal = true) (isKnown : ∀ k, seen k → known k)
    (names : ∀ name ∈ init.names, Visible fn seen name)
    (flag : ledger.role k ≠ .plain → init = .bool false) :
    Twins (exec fn (declaration k init)) m n
      (Together ledger fn b before before' known (DeclaredIn [declaration k init])) := by
  refine .mono (twins_store agrees quiet isLocal isKnown names nofun ?_) fun _ _ _ together =>
    together.declares fun _ => eq_of_declaredIn
  intro v m' done held isGuard isTrue
  have isFalse := flag (by rw [isGuard]; exact nofun)
  subst isFalse
  rw [eval_bool done] at isTrue
  cases isTrue

section statements

variable (lockstep : Lockstep ledger counts fn) (later : LaterAgree ledger counts fn before before' b)
  (fronted : ∀ k, Fronted fn.arena b k → known k) (counted : Counted counts m)
  (agrees : Agrees ledger known before before' m n)

include lockstep later fronted counted agrees

/-- Both runs take the same branch. -/
theorem twins_child {seen' : Nat → Prop} (child : ledger.Child fn b seen' c)
    (isKnown : ∀ k, seen' k → known k) (nothing : ∀ k, ¬ DeclaredIn [s] k) :
    Twins (execBlock fn c) m n (Together ledger fn b before before' known (DeclaredIn [s])) := by
  rcases child with rfl | ⟨⟨block, here, isParent, inLine⟩, opens⟩
  · rw [execBlock, if_pos rfl]
    exact .pure (.proceed agrees nothing)
  · have isParent' : fn.arena.Parent c b := ⟨block, here, isParent⟩
    have entering : ledger.Entering fn known c :=
      .of_parent isParent' (fun k opened => isKnown k (opens k opened)) fronted
    refine .mono (later c (lockstep.tree c b isParent') known m n entering counted agrees)
      fun _ _ _ together => together.outward (fun inside => inside.parent here isParent ?_) nothing
    intro isLoop
    rw [isLoop] at inLine
    cases inLine

variable (inside : fn.body < b) (here : fn.arena.blocks[b]? = some block)
  (isKnown : ∀ k, seen k → known k)

include inside here isKnown

/-- Runs that agree go through a loop together. -/
theorem twins_loop {cond : Node} {body : BlockId} (member : .loop cond body ∈ block.statements)
    (quiet : cond.isQuiet = true) (names : ∀ name ∈ cond.names, Visible fn seen name)
    (isParent : fn.arena.Parent body b) (opens : ∀ k, ledger.opened body k → seen k) :
    Twins (exec fn (.loop cond body)) m n
      (Together ledger fn b before before' known (DeclaredIn [.loop cond body])) := by
  have nothing : ∀ k, ¬ DeclaredIn [.loop cond body] k := not_declaredIn nofun
  have isLocal := lockstep.isLocal b block here _ member
  obtain ⟨_, declines, ⟨measure, starts⟩, settles⟩ :=
    lockstep.looped.exists_declines inside here member counted
  let joint (m n : Machine) : Prop :=
    ∃ more : Nat → Prop, (∀ k, known k → more k) ∧ Agrees ledger more before before' m n
  refine .loop declines joint ?_ measure m n starts ⟨known, fun _ => id, agrees⟩
  rintro measure m n settled ⟨more, wider, agrees⟩
  have isMore : ∀ k, seen k → more k := fun k isSeen => wider k (isKnown k isSeen)
  refine .mono (agrees.eval quiet isLocal isMore names) fun v m' n' ⟨calm, agrees'⟩ => ?_
  have counted' : Counted counts m' :=
    ((settles measure m settled).trans (.of_calm calm)).counted counted
  split
  · have entering : ledger.Entering fn more body := .of_parent isParent
      (fun k opened => isMore k (opens k opened)) fun k isFronted => wider k (fronted k isFronted)
    refine .mono (later body (lockstep.tree body b isParent) more m' n' entering counted' agrees')
      fun flow m'' n'' together => ⟨fun _ => ?_, fun _ => ?_, fun isFinish => ?_⟩
    · obtain ⟨most, wider', _, agrees''⟩ := together.agrees
      exact ⟨most, fun k isKnown => wider' k (wider k isKnown), agrees''⟩
    · obtain ⟨most, wider', _, agrees''⟩ := together.agrees
      exact (Together.proceed agrees'' nothing).wider fun k isKnown => wider' k (wider k isKnown)
    · exact absurd isFinish together.stays
  · exact (Together.proceed agrees' nothing).wider wider

theorem Ledger.Accepts.twins (accepts : ledger.Accepts fn b seen s) (member : s ∈ block.statements) :
    Twins (exec fn s) m n (Together ledger fn b before before' known (DeclaredIn [s])) := by
  have isLocal := lockstep.isLocal b block here s member
  have calms : ∀ {m'}, m.Calm m' → Counted counts m' := fun calm =>
    (show Settles counts (fun _ => True) m _ from .of_calm calm).counted counted
  cases accepts with
  | expr quiet names =>
    refine .expr quiet (.mono (agrees.eval quiet isLocal isKnown names) ?_)
    rintro _ _ _ ⟨_, agrees'⟩
    refine .proceed agrees' (not_declaredIn ?_)
    rintro name init rfl
    cases quiet
  | declare quiet names below flag =>
    exact twins_declaration agrees quiet isLocal isKnown names flag
  | set quiet names settable isSeen =>
    refine .mono (twins_store agrees quiet isLocal isKnown names (fun _ => isSeen) ?_)
      fun _ _ _ together => together.declares fun k declared =>
        absurd declared (not_declaredIn (by rintro _ _ ⟨⟩) k)
    intro v m' _ held isGuard
    rw [settable.2] at isGuard
    cases isGuard
  | @mark k held isGuard isSeen all =>
    have quiet : (Node.bool true).isQuiet = true := by rw [Node.bool, Node.isQuiet]
    have names : ∀ name ∈ (Node.bool true).names, Visible fn seen name := by
      rintro _ ⟨⟩
    refine .mono (twins_store agrees quiet isLocal isKnown names (fun _ => isSeen) ?_)
      fun _ _ _ together => together.declares fun k declared =>
        absurd declared (not_declaredIn (by rintro _ _ ⟨⟩) k)
    intro v m' _ held' isGuard' _ j isHeld
    rw [isGuard] at isGuard'
    cases isGuard'
    exact isKnown j (all j isHeld)
  | leave inLoop =>
    exact .leave ⟨by decide, fun _ => inLoop, known, fun _ => id, by rintro ⟨⟩, agrees⟩
  | @branch cond yes no quiet names onYes onNo =>
    have nothing : ∀ j, ¬ DeclaredIn [.branch cond yes no] j := not_declaredIn (by rintro _ _ ⟨⟩)
    refine .branch (.mono (agrees.eval quiet isLocal isKnown names) ?_)
    rintro v m' n' ⟨calm, agrees'⟩
    split
    · exact twins_child lockstep later fronted (calms calm) agrees' onYes isKnown nothing
    · exact twins_child lockstep later fronted (calms calm) agrees' onNo isKnown nothing
  | @guarded k held yes isGuard isSeen onYes =>
    have nothing : ∀ j, ¬ DeclaredIn [.branch (.ident (variableName k)) yes emptyBlock] j :=
      not_declaredIn (by rintro _ _ ⟨⟩)
    have quiet : (Node.ident (variableName k)).isQuiet = true := by rw [Node.isQuiet]
    have names : ∀ name ∈ (Node.ident (variableName k)).names, Visible fn seen name := by
      intro name isName
      exact .inr ⟨k, List.mem_singleton.mp isName, isSeen⟩
    refine .branch fun v m' done => ?_
    obtain ⟨w, n', done', rfl, calm, agrees'⟩ := agrees.eval quiet isLocal isKnown names v m' done
    obtain ⟨rfl, found⟩ := eval_ident_ok done
    refine ⟨_, n', done', rfl, ?_⟩
    dsimp only
    split
    · next isTrue =>
      refine twins_child lockstep later fronted counted agrees' onYes ?_ nothing
      rintro j (isSeen' | isHeld)
      · exact isKnown j isSeen'
      · exact agrees'.guards k held _ isGuard (isKnown k isSeen) found isTrue j isHeld
    · rw [execBlock, if_pos rfl]
      exact .pure (.proceed agrees' nothing)
  | loop quiet names isParent opens =>
    exact twins_loop lockstep later fronted counted agrees inside here isKnown member quiet names
      isParent opens

end statements

theorem together_cons {code : List Node}
    (first : Twins (exec fn s) m n (Together ledger fn b before before' known (DeclaredIn [s])))
    (halts : Halts (exec fn s) m fun _ m' => Counted counts m')
    (rest : ∀ more m' n', (∀ k, known k → more k) → (∀ k, DeclaredIn [s] k → more k) →
      Counted counts m' → Agrees ledger more before before' m' n' →
      Twins (execAll fn code) m' n' (Together ledger fn b before before' more (DeclaredIn code))) :
    Twins (execAll fn (s :: code)) m n
      (Together ledger fn b before before' known (DeclaredIn (s :: code))) := by
  refine .cons ((first.and_halts halts).mono ?_)
  rintro flow _ m' n' ⟨counted, rfl, together⟩
  obtain ⟨more, wider, after, agrees⟩ := together.agrees
  refine ⟨rfl, fun goes => ?_, fun stops => ?_⟩
  · refine .mono (rest more m' n' wider (after goes) counted agrees) ?_
    refine fun flow m'' n'' together' => ⟨together'.stays, together'.leaves, ?_⟩
    obtain ⟨most, wider', after', agrees'⟩ := together'.agrees
    refine ⟨most, fun k isKnown => wider' k (wider k isKnown), fun goes' k declared => ?_, agrees'⟩
    rcases DeclaredIn.cons.mp declared with atFirst | atRest
    · exact wider' k (after goes k atFirst)
    · exact after' goes' k atRest
  · exact ⟨together.stays, together.leaves, more, wider, fun goes => absurd goes stops, agrees⟩

/-- Runs that agree go through accepted code together. -/
theorem Ledger.Sure.twins (lockstep : Lockstep ledger counts fn) (inside : fn.body < b)
    (here : fn.arena.blocks[b]? = some block)
    (later : LaterAgree ledger counts fn before before' b) :
    ∀ (code : List Node) (seen known : Nat → Prop) (m n : Machine),
      (∀ s ∈ code, s ∈ block.statements) → ledger.Sure fn b seen code → (∀ k, seen k → known k) →
      (∀ k, Fronted fn.arena b k → known k) → Counted counts m →
      Agrees ledger known before before' m n →
      Twins (execAll fn code) m n (Together ledger fn b before before' known (DeclaredIn code))
  | [], _, _, _, _, _, _, _, _, _, agrees => .nil (.proceed agrees fun _ => nofun)
  | s :: code, seen, known, m, n, members, sure, isKnown, fronted, counted, agrees => by
    have member := members s (.head _)
    refine together_cons (sure.1.twins lockstep later fronted counted agrees inside here isKnown member)
      ((lockstep.looped.halts_statement inside here member counted).mono fun _ _ settles =>
        settles.counted counted) fun more m' n' wider after counted' agrees' => ?_
    refine Sure.twins lockstep inside here later code _ more m' n'
      (List.forall_mem_cons.mp members).2 sure.2 ?_
      (fun k isFronted => wider k (fronted k isFronted)) counted' agrees'
    rintro k (isSeen | declared)
    · exact wider k (isKnown k isSeen)
    · exact after k declared

theorem Ledger.Accepts.of_declaration {init : Node}
    (accepts : ledger.Accepts fn b seen (declaration k init)) : init.isQuiet = true ∧
      (∀ name ∈ init.names, Visible fn seen name) ∧ (ledger.role k ≠ .plain → init = .bool false) := by
  generalize same : declaration k init = s at accepts
  cases accepts with
  | expr quiet =>
    rw [← same, declaration, Node.isQuiet] at quiet
    cases quiet
  | declare quiet names below flag =>
    injection same with isName isInit
    obtain rfl := variableName_injective isName
    subst isInit
    exact ⟨quiet, names, flag⟩
  | set | mark =>
    injection same with _ _ declares
    cases declares
  | leave | branch | guarded | loop => cases same

theorem twins_front (lockstep : Lockstep ledger counts fn) (inside : fn.body < b)
    (here : fn.arena.blocks[b]? = some block) : ∀ (code : List Node) (known : Nat → Prop)
      (m n : Machine), (∀ s ∈ code, s ∈ block.front) → Counted counts m →
      Agrees ledger known before before' m n →
      Twins (execAll fn code) m n (Together ledger fn b before before' known (DeclaredIn code))
  | [], _, _, _, _, _, agrees => .nil (.proceed agrees fun _ => nofun)
  | s :: code, known, m, n, members, counted, agrees => by
    have isFront := members s (.head _)
    have member : s ∈ block.statements :=
      List.mem_append_left _ (List.mem_append_left _ isFront)
    have isLocal := lockstep.isLocal b block here s member
    refine together_cons ?_ ((lockstep.looped.halts_statement inside here member counted).mono
      fun _ _ settles => settles.counted counted) fun more m' n' _ _ counted' agrees' =>
        twins_front lockstep inside here code more m' n'
          (List.forall_mem_cons.mp members).2 counted' agrees'
    obtain ⟨⟨k, init, rfl⟩, accepts⟩ := lockstep.accounted.front b block here s isFront
    obtain ⟨quiet, names, flag⟩ := accepts.of_declaration
    exact twins_declaration agrees quiet isLocal (fun _ => False.elim) names flag

theorem Lockstep.twins_block (lockstep : Lockstep ledger counts fn) (inside : fn.body < b)
    (later : LaterAgree ledger counts fn before before' b)
    (entering : ledger.Entering fn known b) (counted : Counted counts m)
    (agrees : Agrees ledger known before before' m n) :
    Twins (execBlock fn b) m n (Together ledger fn b before before' known fun _ => False) := by
  refine .block (fun _ => .proceed agrees fun _ => id) fun block proper here => ?_
  have split : block.statements = block.front ++ (block.rest ++ block.tail) := by
    unfold Block.statements Block.head
    rw [List.append_assoc]
  rw [split]
  have halts : Halts (execAll fn block.front) m fun _ m' => Settles counts (· < b) m m' := by
    refine halts_all block.front m counted fun s isFront m counted => ?_
    refine lockstep.looped.halts_statement inside here ?_ counted
    exact List.mem_append_left _ (List.mem_append_left _ isFront)
  refine .append (((twins_front lockstep inside here block.front known m n (fun _ => id) counted
    agrees).and_halts halts).mono ?_)
  rintro flow _ m' n' ⟨settles, rfl, together⟩
  obtain ⟨more, wider, after, agrees'⟩ := together.agrees
  refine ⟨rfl, fun goes => ?_, fun stops => ?_⟩
  · have fronted : ∀ k, Fronted fn.arena b k → more k := by
      rintro k ⟨above, block', init, within, there, isFront⟩
      rcases (Arena.within_iff here).mp within with rfl | ⟨parent, isParent, within'⟩
      · cases here.symm.trans there
        exact after goes k ⟨init, isFront⟩
      · exact wider k (entering k (.inr ⟨parent, ⟨block, here, isParent⟩, above, block', init, within',
          there, isFront⟩))
    have base : ∀ k, ledger.base fn.arena b k → more k := by
      rintro k (opened | isFronted)
      · exact wider k (entering k (.inl opened))
      · exact fronted k isFronted
    have rest := Ledger.Sure.twins lockstep inside here later (block.rest ++ block.tail) _ more m' n'
      (fun s isIn => split ▸ List.mem_append_right _ isIn)
      (lockstep.accounted.code b block here inside.ne') base fronted
      (settles.counted counted) agrees'
    exact .mono rest fun _ _ _ together' =>
      (together'.wider wider).declares fun _ => False.elim
  · exact together.declares fun _ => False.elim

theorem Lockstep.laterAgree (lockstep : Lockstep ledger counts fn) :
    ∀ (left : Nat) (b : BlockId), fn.arena.blocks.size - b = left → fn.body ≤ b →
      LaterAgree ledger counts fn before before' b := by
  intro left
  induction left using Nat.strongRecOn with
  | ind left ih =>
    intro b isLeft inside c after known m n entering counted agrees
    by_cases there : c < fn.arena.blocks.size
    · have fewer : fn.arena.blocks.size - c < left := by
        rw [← isLeft]
        exact Nat.sub_lt_sub_left (after.trans there) after
      have later := ih _ fewer c rfl (inside.trans after.le)
      exact lockstep.twins_block (inside.trans_lt after) later entering counted agrees
    · refine .block (fun _ => .proceed agrees fun _ => id) fun block _ here => ?_
      exact absurd (Array.inside here) there

end code

end QueryFusion.Fusion

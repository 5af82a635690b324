import QueryFusion.Proofs.Fusion.Faultless
import QueryFusion.Proofs.Fusion.Closing

/-!
# Readers are advanced once in a block

A block marks the readers that are advanced in it. Marks and statements are made apart, in whichever
block code goes to, but they go together in every scope that a compilation goes through: a block
advances each reader that it marks once, the body of a loop over a list advances the reader of the
list at its end instead, unless it reads a copy, and a reader is asked only where it was advanced.
-/

namespace QueryFusion.Fusion

open Code
open Plan (OpId Body)

/-- The steps that operators are compiled with. -/
inductive Part : {α : Type} → Emit α → Prop
  | step (body : Body) : Part (compileStep body)
  | assign (v : Var) (e : Expr) : Part (assignVar v e)
  | code (e : Expr) : Part (codeOf e)
  | ahead (args : List Expr) : Part (advanceArgs args)

/-- The scopes that a compilation goes through: between operators, inside nested plans, and inside
expressions with case distinctions. -/
inductive Traversed : Scope → Prop
  | opened {scan dataset vars schema scope}
      (made : Scope.new scan dataset vars schema = .ok scope) : Traversed scope
  | emits {α : Type} {step : Emit α} {a scope later} (traversed : Traversed scope)
      (emits : Emits {} False step) (done : step scope = .ok (a, later)) : Traversed later
  | part {α : Type} {step : Emit α} {a scope later} (traversed : Traversed scope) (part : Part step)
      (done : step scope = .ok (a, later)) : Traversed later
  | nested {scope} (traversed : Traversed scope) :
      Traversed { scope with saved := scope.live :: scope.saved }
  | declared {scope b name arena} {l : Literal} (traversed : Traversed scope) (isOpen : scope.Open b)
      (done : scope.fn.arena.declare b (.lit l) = .ok (name, arena)) : Traversed (scope.withArena arena)
  | accumulated {scope b name later} {call : Call} (traversed : Traversed scope)
      (isOpen : scope.Open b) (done : accumulate call b scope = .ok (name, later)) : Traversed later
  | result {scope name arena} (traversed : Traversed scope)
      (done : scope.fn.arena.declareHere scope.current .null = .ok (name, arena)) :
      Traversed (scope.withArena arena)
  /-- The blocks of a condition and of the other cases were opened, and code goes into the first one. -/
  | fork {scope cond test tested} {opened arena : Arena} (traversed : Traversed scope)
      (coded : codeOf cond scope = .ok (test, tested))
      (opens : ((tested.fn.arena.new (some tested.current) .case).2.new
        (some tested.current) .case).2 = opened)
      (done : opened.appendHead tested.current (.branch test tested.fn.arena.blocks.size
        (tested.fn.arena.blocks.size + 1)) = .ok arena) :
      Traversed ((tested.withArena arena).goto tested.fn.arena.blocks.size)
  | sets {scope later e name value arena} (traversed : Traversed scope)
      (coded : codeOf e scope = .ok (value, later))
      (done : later.fn.arena.appendHead later.current (.set name value) = .ok arena) :
      Traversed (later.withArena arena)
  /-- Code goes on in any other block of the function. -/
  | moves {scope b} (traversed : Traversed scope) (below : b < scope.fn.arena.blocks.size)
      (inside : scope.fn.arena.Within b scope.fn.body) : Traversed (scope.goto b)
  | written {scope later} (traversed : Traversed scope)
      (done : writeOutput scope = .ok ((), later)) : Traversed later

section traversed

variable {scope later : Scope}

theorem codes_codeOf {e : Expr} {node : Node} (sane : scope.Sane {})
    (done : codeOf e scope = .ok (node, later)) :
    Codes {} (fun _ => False) scope later ∧ later.Reads {} node :=
  Works.yields (codesAt_codeOf e .any _ scope sane) node later done

theorem Part.makes {α : Type} {step : Emit α} {a : α} (part : Part step) (sane : scope.Sane {})
    (done : step scope = .ok (a, later)) : Makes {} (fun _ => False) scope later := by
  have made {holds : α → Scope → Prop}
      (makes : MakesAt {} False (fun _ => False) step scope holds) :
      Makes {} (fun _ => False) scope later := (makes.yields a later done).1
  cases part with
  | step body => exact made (makesAt_compileStep .any scope sane)
  | assign v e => exact made (makesAt_assignVar v .any sane)
  | code e => exact .code (codes_codeOf sane done).1
  | ahead args => exact made (codesAt_advanceArgs args scope).makes

/-- Every scope of a compilation is intact. -/
theorem Traversed.kept (traversed : Traversed scope) : scope.Sane {} ∧ scope.Intact {} := by
  have makes {scope later : Scope} (kept : scope.Sane {} ∧ scope.Intact {})
      (makes : Makes {} (fun _ => False) scope later) : later.Sane {} ∧ later.Intact {} :=
    ⟨makes.sane kept.1, makes.intact kept.2⟩
  induction traversed with
  | opened made =>
    cases made
    exact ⟨opened_sane _ _ _ _ nofun, Scope.opened_intact _ _ _ _ nofun⟩
  | emits _ emits done kept =>
    have builds := emits.trace kept.1 nofun done
    exact ⟨(builds.kept kept.1).2, builds.intact kept.2⟩
  | part _ part done kept => exact makes kept (part.makes kept.1 done)
  | nested _ kept => exact ⟨kept.1.kept .of_notes rfl rfl, kept.2.entered⟩
  | declared _ isOpen done kept =>
    exact makes kept (.declare (fun _ => isOpen) (by rw [Node.isQuiet]) (by rintro _ ⟨⟩) rfl nofun done
      (.code (.refl _)))
  | @accumulated scope b _ _ call _ isOpen done kept =>
    have made : MakesAt {} False (fun _ => False) (accumulate call b) scope _ :=
      makesAt_accumulate .any kept.1 isOpen nofun
    exact makes kept (made.yields _ _ done).1
  | result _ done kept => exact makes kept (.code (.declareHere (reads_literal _) done (.refl _)))
  | fork _ coded opens done kept =>
    subst opens
    obtain ⟨codes, reads⟩ := codes_codeOf kept.1 coded
    have sane := codes.sane kept.1
    have linked := Linked.of_two (by decide) done sane.rooted.current
    have forked := sane.kept (linked.adds fun _ => .refl).later rfl rfl
    exact ⟨forked.goto ((linked.forks (.refl _)).1.later.rooted sane.rooted),
      (linked.intact_forks (.refl _) reads.allows (codes.intact kept.2)).1⟩
  | sets _ coded done kept =>
    obtain ⟨codes, reads⟩ := codes_codeOf kept.1 coded
    have intact := codes.intact kept.2
    exact ⟨(codes.sane kept.1).kept (adds_appendHead (fun _ => .refl) done).later rfl rfl,
      intact.withArena (fits_appendHead intact.fits (n := .set _ _) rfl reads.allows done)
        (Arena.appendHead_updates done).size.ge⟩
  | moves _ below inside kept =>
    have rooted := kept.1.rooted
    have proper := kept.2.body.1.trans_le (rooted.tree.le_of_within inside)
    exact ⟨kept.1.goto ⟨rooted.tree, rooted.top, below, inside⟩, kept.2.goto ⟨proper, below⟩⟩
  | written _ done kept =>
    obtain ⟨_, _, sane, intact⟩ := (works_writeOutput kept.1 nofun).yields () _ done
    exact ⟨sane, intact kept.2⟩

theorem Traversed.invariant (s : Setting) :
    Invariant s {} (fun st => ∀ scope ∈ st.scope, Traversed scope) where
  sure := nofun
  loses _ _ traversed _ := traversed
  fails _ traversed _ _ := traversed
  knows _ _ _ _ _ := trivial
  aggregates := nofun
  groups := nofun
  same _ _ _ isScope _ _ traversed := isScope ▸ traversed
  emits emits traversed isOpen done := by
    rintro _ ⟨⟩
    exact (traversed _ isOpen).emits (emits nofun nofun fun _ _ _ => .any) done
  removes _ _ _ _ := keeps_drafting fun _ _ => id
  unbinds _ _ st traversed _ := (keeps_drafting (fun _ _ => id) st traversed).mono
    fun _ traversed => ⟨traversed, nofun⟩
  drops _ _ := nofun
  completes _ _ _ _ := keeps_completing (fun _ _ => id) s (fun _ _ _ => id) _ nofun
  opens scan dataset vars _ _ schema _ _ _ _ _ := by
    rintro _ ⟨⟩
    exact .opened (Scope.new_eq scan dataset vars schema)
  below _ _ _ _ _ _ _ _ := trivial

end traversed

/-- A compilation advances readers once in a block. In every scope that it goes through, a reader is
advanced once in the head of the blocks that mark it, and in no other head, where the body of a loop
over the list of the reader is left out; it is advanced once in the tail of the body of such a loop
that does not read a copy, and in no other tail. It is asked only where it was advanced. -/
theorem compile_advances_once :
    (∀ (s : Setting) (depth : Nat) (op : OpId) (parent : Option OpId),
      EStateM.Keeps (fun st => ∀ scope ∈ st.scope, Traversed scope) (visit s depth op parent)) ∧
    ∀ scope, Traversed scope → ∀ (b : BlockId) (block : Block), scope.fn.arena.blocks[b]? = some block →
      ∀ r, (block.head.flatMap Node.advances).count r ≤ 1 ∧
        (block.tail.flatMap Node.advances).count r ≤ 1 ∧
        (r ∈ block.head.flatMap Node.advances ↔ r ∈ block.bound ∧ scope.loopReader? b ≠ some r) ∧
        (r ∈ block.tail.flatMap Node.advances ↔ scope.loopReader? b = some r ∧ block.overrides = []) ∧
        ∀ n ∈ block.statements, (.ask, r) ∈ n.accesses → scope.fn.arena.Bound b r := by
  refine ⟨fun s depth op parent =>
    (Traversed.invariant s).visit depth op parent trivial (fun _ _ => trivial) nofun,
    fun scope traversed b block here r => ?_⟩
  have fits := traversed.kept.2.fits b block here
  have marks := fits.marks
  have steps := fits.steps
  obtain ⟨_, once, apart⟩ := List.nodup_append'.mp (marks ▸ fits.distinct)
  have isOwn : r ∈ (scope.loopReader? b).toList ↔ scope.loopReader? b = some r := Option.mem_toList
  refine ⟨List.nodup_iff_count_le_one.mp once r, ?_, ?_, ?_, fun n member => fits.asks n member r⟩
  · rw [steps]
    split
    · cases scope.loopReader? b <;> simp [List.count_singleton]
      split <;> decide
    · exact Nat.zero_le 1
  · rw [marks, List.mem_append, Ne, ← isOwn]
    exact ⟨fun inHead => ⟨.inr inHead, fun own => apart own inHead⟩,
      fun marked => marked.1.resolve_left marked.2⟩
  · rw [steps, ← isOwn]
    split <;> simp [*]

/-- A loop over the list `a` of a record, in the scope of a scan. -/
def listLoop : Except Abort (Bool × Scope) :=
  let r : Var := ⟨0, "r", .record⟩
  fuseUnnest ⟨1, "x", .any⟩ none (.field (.var r) "a") <| .opened 0 "d" [r]
    { record := r, entries := [([.field "a", .element], ⟨"unnest", .none⟩)] }

/-- The reader of a list is advanced once before a loop over the list and once in the loop. -/
theorem listLoop_advances_once : ∃ scope, Traversed scope ∧ scope.loopReader? 3 = some "reader_0" ∧
    ∃ home body : Block, scope.fn.arena.blocks[2]? = some home ∧ scope.fn.arena.blocks[3]? = some body ∧
      (home.head.flatMap Node.advances).count "reader_0" = 1 ∧
      (body.tail.flatMap Node.advances).count "reader_0" = 1 := by
  have looped : listLoop.toOption.map (fun answer => (answer.2.loopReader? 3, answer.2.loopReader? 2,
      answer.2.fn.arena.blocks[2]?.map Block.bound,
      answer.2.fn.arena.blocks[3]?.map (·.overrides.isEmpty))) =
        some (some "reader_0", none, some ["reader_0"], some true) := by decide +kernel
  cases ran : listLoop with
  | error abort =>
    rw [ran] at looped
    cases looped
  | ok answer =>
    rw [ran] at looped
    simp only [Except.toOption, Option.map_some, Option.some.injEq, Prod.mk.injEq] at looped
    obtain ⟨own, free, marked, plain⟩ := looped
    obtain ⟨home, isHome, bound⟩ := Option.map_eq_some_iff.mp marked
    obtain ⟨body, isBody, isPlain⟩ := Option.map_eq_some_iff.mp plain
    unfold listLoop at ran
    have traversed : Traversed answer.2 :=
      (Traversed.opened (Scope.new_eq _ _ _ _)).emits (.unnest _ _ _) ran
    obtain ⟨most, _, inHead, _⟩ := compile_advances_once.2 _ traversed 2 home isHome "reader_0"
    obtain ⟨_, most', _, inTail, _⟩ := compile_advances_once.2 _ traversed 3 body isBody "reader_0"
    refine ⟨answer.2, traversed, own, home, body, isHome, isBody, most.antisymm ?_, most'.antisymm ?_⟩
    · exact List.one_le_count_iff.mpr (inHead.mpr ⟨bound ▸ .head _, by rw [free]; nofun⟩)
    · exact List.one_le_count_iff.mpr (inTail.mpr ⟨own, List.isEmpty_iff.mp isPlain⟩)

end QueryFusion.Fusion

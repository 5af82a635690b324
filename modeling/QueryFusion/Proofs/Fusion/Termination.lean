import QueryFusion.Proofs.Fusion.Looping
import QueryFusion.Proofs.Fusion.Closing

/-!
# Compiled functions come to an end

The code of every compiled function is regular, so a run of it over finitely many records comes to an
end: the loop over the records, every loop over a list by its reader and every loop by position makes
finitely many rounds, however they are nested and wherever they are left.
-/

namespace QueryFusion.Fusion

open Code
open Plan (OpId Operator Body)
open Engine

/-- The loop over the records of a new scope. -/
theorem opened_orders (scan : OpId) (dataset : String) (vars : List Var) (schema : Plan.Schema) :
    Orders (fun _ => none) (Scope.opened scan dataset vars schema).fn where
  apart := nofun
  below := nofun
  head := by
    intro b block here s member
    obtain ⟨_, front, _, _, _, rest⟩ := emptyFunction_block here
    unfold Block.head at member
    rw [front, List.nil_append] at member
    by_cases isBody : b = 1
    · subst isBody
      cases here
      obtain rfl := List.mem_singleton.mp member
      exact ⟨.inr ⟨rfl, 2, Nat.lt_succ_self 1, rfl⟩, nofun⟩
    · rw [rest isBody] at member
      cases member
  tail := by
    intro b block here s member
    rw [(emptyFunction_block here).2.2.1] at member
    cases member
  body := ⟨_, rfl, rfl⟩

theorem Orders.sealed {counts : Nat → Option BlockId} {done final : Scope}
    (orders : Orders counts done.fn) (isSealed : Sealed done final) : Looped counts final.fn := by
  obtain ⟨arena, name, appended, rfl⟩ := isSealed
  have updates := Arena.appendTail_updates appended
  obtain ⟨last, isLast, isEmpty⟩ := orders.body
  have kept : ∀ (i : BlockId) (block : Block) (s : Node), done.fn.arena.blocks[i]? = some block →
      block.tail = [s] → arena.blocks[i]? = some block := by
    intro i block s here tail
    refine updates.extends'.untouched i block here fun same => ?_
    subst same
    cases isLast.symm.trans here
    rw [isEmpty] at tail
    cases tail
  refine ⟨orders.apart, fun b block here s member => ?_, fun b block here s member => ?_⟩
  · obtain ⟨before, there, rfl⟩ := updates.before here
    have old : s ∈ before.head := by split at member <;> exact member
    refine (orders.head b before there s old).regular.imp_left fun regular => ?_
    cases regular with
    | expr quiet => exact .expr quiet
    | leave => exact .leave
    | store quiet copy position => exact .store quiet copy position
    | branch quiet onYes onNo => exact .branch quiet onYes onNo
    | stepping later here' tail => exact .stepping later (kept _ _ _ here' tail) tail
    | counting later counted here' tail =>
      exact .counting later counted (kept _ _ _ here' tail) tail
  · obtain ⟨before, there, rfl⟩ := updates.before here
    split at member
    · rcases List.mem_append.mp member with old | isNew
      · exact orders.tail b before there s old
      · rw [List.mem_singleton.mp isNew]
        exact .inl (by simp [flushSink, Node.isQuiet, Node.areQuiet, Member.flush, Member.hasNext])
    · exact orders.tail b before there s member

theorem Traced.looped {f : ScanFunction} (traced : Traced f) : ∃ counts, Looped counts f.fn := by
  obtain ⟨scan, dataset, vars, schema, done, final, builds, isSealed, same⟩ := traced
  obtain ⟨counts, orders⟩ := builds.orders ⟨_, opened_orders scan dataset vars schema⟩
  rw [same]
  exact ⟨counts, orders.sealed isSealed⟩

theorem Traced.frozen {f : ScanFunction} (traced : Traced f) : f.fn.frozen = true := by
  obtain ⟨_, _, _, _, _, _, _, isSealed, same⟩ := traced
  rw [same]
  exact isSealed.frozen

/-- A run of a function that a compilation gave comes to an outcome over every list of records. -/
theorem compile_run_terminates (plan : Plan) (root : OpId) (config : Plan.Config)
    (catalog : Plan.Catalog) (schemas : Option Plan.Schemas) (stem : String)
    (functions : List ScanFunction) (f : ScanFunction) (records : List Value)
    (compiled : (compile plan root config catalog schemas stem).result = .ok functions)
    (isFunction : f ∈ functions) :
    (∃ outcome, execBlock f.fn f.fn.body (Machine.start f.fn records) = some outcome) ∧
      (Engine.run f.fn records).result ≠ .error .endless := by
  have traced := compile_traced compiled f isFunction
  obtain ⟨counts, looped⟩ := traced.looped
  have ends := (looped.halts (start_counted counts traced.frozen records)).ne_none
  exact ⟨Option.ne_none_iff_exists'.mp ends, looped.run_ne_endless records⟩

/-- A loop by position inside a loop by reader, over two lists of a record. -/
def twoLists : Plan :=
  let r : Var := ⟨0, "r", .record⟩
  let x : Var := ⟨1, "x", .any⟩
  let y : Var := ⟨2, "y", .any⟩
  let p : Var := ⟨3, "p", .any⟩
  { ops := #[
      { body := .scan "d" [r] "" [], inputs := [] },
      { body := .unnest x none (.field (.var r) "a"), inputs := [0] },
      { body := .unnest y (some p) (.field (.var r) "b"), inputs := [1] },
      { body := .boundary .distributeResult [], inputs := [2] }] }

/-- Both loops of `twoLists` are fused, and every run of their function ends. -/
theorem compile_twoLists_terminates :
    ∃ f, (compile twoLists 3 {} columnar none "f").result = .ok [f] ∧ ∀ records,
      (∃ outcome, execBlock f.fn f.fn.body (Machine.start f.fn records) = some outcome) ∧
        (Engine.run f.fn records).result ≠ .error .endless := by
  obtain ⟨f, compiled⟩ := Except.exists_eq_ok_singleton
    (show (compile twoLists 3 {} columnar none "f").result.toOption.map _ = _ by decide +kernel)
  exact ⟨f, compiled, fun records => compile_run_terminates _ _ _ _ _ _ _ f records compiled
    (List.mem_singleton_self f)⟩

end QueryFusion.Fusion

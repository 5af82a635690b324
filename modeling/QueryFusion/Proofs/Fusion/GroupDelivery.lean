import QueryFusion.Proofs.Fusion.Delivery
import QueryFusion.Proofs.Fusion.HashGroups

/-!
# What a group-by by hashing delivers

The function of a group-by by hashing gives the shares of its tuples to an aggregator, record by
record, and lets the aggregator write its groups after the last one. A run of it fails if an
expression has no value for one of the tuples it meets, or if the groups met so far need more memory
than the budget has, whichever comes first.
-/

namespace QueryFusion

open Code
open Plan (Tuple Body Among Tally Share)

variable {records : List Value} {record : Value} {keys : List Plan.Binding} {out : Var}
variable {budget : Int64} {aggregator : String}

/-! ## Shares of one more record -/

namespace Plan.Tally

variable {tally : Tally} {t t' : Tuple}

theorem shares?_take_succ {k : Nat} (here : records[k]? = some record) :
    tally.shares? (records.take (k + 1)) =
      (tally.shares? (records.take k)).bind fun first =>
        (tally.sharesOf? [Tuple.ofRecord tally.vars record k]).map (first ++ ·) := by
  unfold shares?
  rw [Tuple.ofRecords_take tally.vars here, sharesOf?_append]

theorem sharesOf?_of_none (isNone : tuples? tally.steps [t] = none) : tally.sharesOf? [t] = none := by
  unfold sharesOf?
  rw [isNone]
  rfl

theorem sharesOf?_of_nil (isNil : tuples? tally.steps [t] = some []) :
    tally.sharesOf? [t] = some [] := by
  unfold sharesOf?
  rw [isNil]
  rfl

theorem sharesOf?_of_one (isOne : tuples? tally.steps [t] = some [t']) :
    tally.sharesOf? [t] = (tally.share? t').map fun share => [share] := by
  unfold sharesOf?
  rw [isOne]
  change [t'].mapM tally.share? = _
  rw [List.mapM_cons]
  cases tally.share? t' <;> rfl

end Plan.Tally

namespace Fusion

open Engine

/-- A run of a function over records delivers the groups of a group-by. -/
structure Groups (fn : Function) (tally : Tally) (budget : Int64) (records : List Value) : Prop where
  /-- One row for each group, in the order in which their keys first appear. -/
  rows : ∀ shares, tally.shares? records = some shares → ¬ Tally.overBudget budget shares →
    (Engine.run fn records).result = .ok { rows := tally.rows shares, flushed := true }
  /-- The budget is what a run fails for exactly if the groups of some first records exceed it. -/
  overBudget : ∀ groups, (Engine.run fn records).result =
      .error (.failed fn.name (.overBudget groups budget)) ↔
    ∃ n shares, tally.shares? (records.take n) = some shares ∧ Tally.overBudget budget shares ∧
      (∀ k first, k < n → tally.shares? (records.take k) = some first →
        ¬ Tally.overBudget budget first) ∧
      groups = (Tally.keyTuples shares).length
  /-- Within the budget, a run fails in a call if an expression has no value. -/
  fails : tally.shares? records = none →
    (∀ n shares, tally.shares? (records.take n) = some shares → ¬ Tally.overBudget budget shares) →
    ∃ cause : RunError, cause.OfCall ∧ (Engine.run fn records).result = .error (.failed fn.name cause)

/-! ## The code of a record -/

section takes

variable {D : Path → Prop} {final scope first : Scope} {spot : Spot} {m m' : Machine}
variable {hidden : Nat → Prop} {tally : Tally} {t : Tuple} {agg : HashAggregator} {i : Nat}

/-- The share of what a pipeline makes of a tuple, if there is any, goes to an aggregator. -/
inductive Takes (tally : Tally) (t : Tuple) (i : Nat) (agg : HashAggregator) (m m' : Machine) : Prop
  | nothing (isNil : tally.sharesOf? [t] = some []) (still : m.Still m')
  | one (share : Share) (agg' : HashAggregator) (isOne : tally.sharesOf? [t] = some [share])
      (added : agg.add (joinKeys share.1) share.2 = .ok agg') (gave : m.Gave i agg' m')

/-- What a run can fail for at a tuple. -/
inductive Refuses (tally : Tally) (t : Tuple) (agg : HashAggregator) (cause : RunError) : Prop
  | undefined (isNone : tally.sharesOf? [t] = none) (ofCall : cause.OfCall)
  | refused (share : Share) (isOne : tally.sharesOf? [t] = some [share])
      (isError : agg.add (joinKeys share.1) share.2 = .error cause)

theorem sim_tally {more : List Var} {calls : List Call} {input : Option Plan.OpId} {kind : String}
    (isSteps : fuseSteps tally.steps scope = .ok ((), first))
    (pipes : Pipes D scope hidden tally.vars tally.steps) (covers : t.Covers tally.vars)
    (shares : Shares D scope.schema (Plan.delivered tally.vars tally.steps) tally)
    (isKeys : keys.map Plan.Binding.expr = tally.keys) (isKind : (HashKind.ofName? kind).isSome)
    (distinct : ((keys.map Plan.Binding.var ++ [out]).map Var.id).Nodup) :
    Sim D final scope.New spot (fun _ => (do
        hashGroups budget keys ⟨out :: more, calls, input⟩ tally.call kind
        countFused : Emit Unit) first) scope m
      ((m.env.lookup (variableName first.fn.arena.names) = some (.handle (.hashAggregator i)) ∧
        m.hashes[i]? = some agg) ∧ Live scope spot hidden (Among tally.vars) t.known m)
      (fun _ later => later.emitters = [variableName first.fn.arena.names] ∧
        later.outputs = keys.map Plan.Binding.var ++ [out] ∧
        later.Declares scope.fn.body first.fn.arena.names (newAggregator kind budget))
      (fun _ _ => Onward (Takes tally t i agg m)) (Refuses tally t agg) := by
  refine .after isSteps fun only onlyAt => ?_
  let declared (later : Scope) : Prop := later.emitters = [variableName first.fn.arena.names] ∧
    later.outputs = keys.map Plan.Binding.var ++ [out] ∧
    later.Declares scope.fn.body first.fn.arena.names (newAggregator kind budget)
  refine (sim_steps (fun _ => declared) (fun _ => Takes tally t i agg m) (fun t' cause =>
    (tally.share? t' = none ∧ cause.OfCall) ∨ ∃ share, tally.share? t' = some share ∧
      agg.add (joinKeys share.1) share.2 = .error cause) tally.steps tally.vars scope m t _ _ pipes
    covers ⟨?_, ?_, ?_, ?_⟩).mono id (fun _ _ ⟨_, _, held⟩ => held) (fun _ _ _ _ _ _ => id) fun _ => id
  · exact fun isNone _ => .undefined (Tally.sharesOf?_of_none isNone)
  · rintro t' cause isTuple (⟨isNone, ofCall⟩ | ⟨share, isShare, isError⟩)
    · refine .undefined ?_ ofCall
      rw [Tally.sharesOf?_of_one isTuple, isNone]
      rfl
    · refine .refused share ?_ isError
      rw [Tally.sharesOf?_of_one isTuple, isShare]
      rfl
  · exact fun _ _ _ _ _ _ passed isNil => .nothing (Tally.sharesOf?_of_nil isNil) passed.still
  · intro scope' m' t' enters pipes' covers'
    refine onlyAt.sim ?_
    rintro rfl
    have body : scope'.fn.body = scope.fn.body := enters.later.body
    refine (sim_hashGroups (i := i) isKeys isKind pipes' covers' (enters.later.schema ▸ shares)
      distinct).mono ?_ ?_ ?_ fun _ => id
    · rintro ⟨⟨found, here⟩, _, passes, live⟩
      refine ⟨live, ?_, ?_⟩
      · rw [passes.frame.lookup_kept (Nat.lt_irrefl _)]
        exact found
      · rw [passes.still.outside]
        exact here
    · rintro _ later ⟨emitters, outputs, declares⟩
      exact ⟨emitters, outputs, body ▸ declares⟩
    · rintro _ later flow m'' ⟨_, isTuple, passes, _⟩ _
        ⟨rfl, share, agg', isShare, added, mid, still, same⟩
      refine ⟨rfl, .one share agg' ?_ added ⟨mid, passes.still.trans still, same⟩⟩
      rw [Tally.sharesOf?_of_one isTuple, isShare]
      rfl

end takes

/-- The statement that lets an aggregator write its groups. -/
def emitRows (aggregator : String) : Node :=
  .member (.ident aggregator) Code.Member.emit [.ident Function.sink]

/-- The aggregator writes the rows of a function. -/
theorem writeRows_groups {scope : Scope} (emitters : scope.emitters = [aggregator]) :
    Yields writeRows scope fun _ later => ∃ arena,
      scope.fn.arena.appendHead scope.fn.body (emitRows aggregator) = .ok arena ∧
        later = { scope with fn := { scope.fn with arena } } := by
  refine .bind (.get ?_)
  rw [emitters]
  exact .bind (.changeArena fun arena isArena =>
    .pure ⟨arena, isArena, by rw [← emitters]⟩)

/-! ## Runs -/

/-- A scope holds the code of a group-by by hashing over a scan. -/
structure Tallies (D : Path → Prop) (scan : Plan.OpId) (dataset : String) (schema : Plan.Schema)
    (tally : Tally) (keys : List Plan.Binding) (out : Var) (budget : Int64) (name : String)
    (kind : HashKind) (first later : Scope) : Prop where
  feeds : Feeds D schema tally.vars tally.steps
  shares : Shares D schema (Plan.delivered tally.vars tally.steps) tally
  isKeys : keys.map Plan.Binding.expr = tally.keys
  distinct : ((keys.map Plan.Binding.var ++ [out]).map Var.id).Nodup
  isKind : HashKind.ofName? name = some kind
  computes : Tally.Computes kind tally.call
  isSteps : fuseSteps tally.steps (.opened scan dataset tally.vars schema) = .ok ((), first)
  isGrouped : ∃ more calls input, (do
    hashGroups budget keys ⟨out :: more, calls, input⟩ tally.call name
    countFused : Emit Unit) first = .ok ((), later)

/-- Why a run of a group-by fails: a value is missing while the groups are within the budget, or the
groups are above it for the first time. -/
inductive Stops (tally : Tally) (budget : Int64) (records : List Value) (cause : RunError) : Prop
  | undefined (n : Nat) (shares : List Share) (before : tally.shares? (records.take n) = some shares)
      (within : ¬ Tally.overBudget budget shares)
      (isNone : tally.shares? (records.take (n + 1)) = none) (ofCall : cause.OfCall)
  | overBudget (n : Nat) (shares : List Share)
      (isSome : tally.shares? (records.take n) = some shares) (exceeded : Tally.overBudget budget shares)
      (within : ∀ k first, k < n → tally.shares? (records.take k) = some first →
        ¬ Tally.overBudget budget first)
      (same : cause = .overBudget (Tally.keyTuples shares).length budget)

/-- An aggregator holds the groups of the records that a run has dealt with. -/
structure Tallied (tally : Tally) (kind : HashKind) (budget : Int64) (aggregator : String)
    (records : List Value) (shares : List Share) (i : Nat) (agg : HashAggregator) (m : Machine) :
    Prop where
  written : m.written = []
  found : m.env.lookup aggregator = some (.handle (.hashAggregator i))
  here : m.hashes[i]? = some agg
  isKind : agg.kind = kind
  isBudget : agg.budget = budget
  holds : agg.Holds Engine.hashCode (shares.map Tally.entry)
  isShares : tally.shares? records = some shares

section runs

variable {D : Path → Prop} {scan : Plan.OpId} {dataset : String} {schema : Plan.Schema}
variable {tally : Tally} {kind : HashKind}
variable {first later final : Scope} {k : Nat}
variable {m m₁ m' : Machine} {shares : List Share} {i : Nat} {agg : HashAggregator}
variable {name : String}

theorem Tallied.within (tallied : Tallied tally kind budget aggregator records shares i agg m) :
    ¬ Tally.overBudget budget shares := by
  rw [← Tally.exceeds_entries, ← tallied.isBudget, tallied.holds.within]
  exact Bool.false_ne_true

/-- An aggregator takes the share of one more record. -/
theorem Tallied.takes
    (tallied : Tallied tally kind budget aggregator (records.take k) shares i agg m)
    (isRecord : records[k]? = some record)
    (found : m'.env.lookup aggregator = m.env.lookup aggregator)
    (takes : Takes tally (Tuple.ofRecord tally.vars record k) i agg (m.take record) m') :
    ∃ shares agg, Tallied tally kind budget aggregator (records.take (k + 1)) shares i agg m' := by
  have isShares : tally.shares? (records.take (k + 1)) = _ := Tally.shares?_take_succ isRecord
  rw [tallied.isShares, Option.bind_some] at isShares
  cases takes with
  | nothing isNil same =>
    rw [isNil, Option.map_some, List.append_nil] at isShares
    refine ⟨shares, agg, ?_, found.trans tallied.found, ?_, tallied.isKind, tallied.isBudget,
      tallied.holds, isShares⟩
    · rw [same.outside]
      exact tallied.written
    · rw [same.outside]
      exact tallied.here
  | one share agg' isOne added gave =>
    obtain ⟨mid, same, rfl⟩ := gave
    rw [isOne, Option.map_some] at isShares
    have taken := tallied.holds.add (joinKeys share.1) share.2
    rw [show agg.addWith hashCode (joinKeys share.1) share.2 = .ok agg' from added] at taken
    obtain ⟨sameKind, sameBudget, holds⟩ := taken
    refine ⟨shares ++ [share], agg', ?_, found.trans tallied.found, ?_, sameKind.trans tallied.isKind,
      sameBudget.trans tallied.isBudget, ?_, isShares⟩
    · rw [same.outside]
      exact tallied.written
    · have hashes : mid.hashes = m.hashes := by
        rw [same.outside]
        rfl
      have below := Array.inside tallied.here
      rw [hashes, Array.getElem?_setIfInBounds_self_of_lt below]
    · rw [List.map_append]
      exact holds

/-- A run that fails at the next record has a cause. -/
theorem Tallied.stops
    (tallied : Tallied tally kind budget aggregator (records.take k) shares i agg m)
    (isRecord : records[k]? = some record) {cause : RunError}
    (refuses : Refuses tally (Tuple.ofRecord tally.vars record k) agg cause) :
    Stops tally budget records cause := by
  have isShares : tally.shares? (records.take (k + 1)) = _ := Tally.shares?_take_succ isRecord
  rw [tallied.isShares, Option.bind_some] at isShares
  cases refuses with
  | undefined isNone ofCall =>
    rw [isNone] at isShares
    exact .undefined k shares tallied.isShares tallied.within isShares ofCall
  | refused share isOne isError =>
    rw [isOne, Option.map_some] at isShares
    have refused := tallied.holds.add (joinKeys share.1) share.2
    rw [show agg.addWith hashCode (joinKeys share.1) share.2 = .error cause from isError] at refused
    obtain ⟨exceeded, same⟩ := refused
    have entries : shares.map Tally.entry ++ [(joinKeys share.1, share.2)] =
        (shares ++ [share]).map Tally.entry := by
      rw [List.map_append]
      rfl
    rw [entries, tallied.isBudget] at exceeded same
    refine .overBudget (k + 1) (shares ++ [share]) isShares
      ((Tally.exceeds_entries budget _).mp exceeded) ?_ ?_
    · intro j before isBelow isBefore overBefore
      obtain ⟨before', isBefore', more, rfl⟩ :=
        Tally.shares?_take (Nat.le_of_lt_succ isBelow) tallied.isShares
      cases isBefore.symm.trans isBefore'
      exact tallied.within (Tally.overBudget_append overBefore)
    · rw [same, Tally.keysOf_entries, List.length_map]

theorem Tallies.simulates
    (tallies : Tallies D scan dataset schema tally keys out budget name kind first later)
    (final : Scope) (record : Value) (k : Nat) (i : Nat) (agg : HashAggregator) (m : Machine) :
    Simulates D final (Scope.opened scan dataset tally.vars schema).New (spotOf record k)
      (.opened scan dataset tally.vars schema) m
      ((m.env.lookup (variableName first.fn.arena.names) = some (.handle (.hashAggregator i)) ∧
        m.hashes[i]? = some agg) ∧
        Live (.opened scan dataset tally.vars schema) (spotOf record k) (fun _ => False)
          (Among tally.vars) (Tuple.ofRecord tally.vars record k).known m)
      (fun _ later => later.emitters = [variableName first.fn.arena.names] ∧
        later.outputs = keys.map Plan.Binding.var ++ [out] ∧
        later.Declares 1 first.fn.arena.names (newAggregator name budget))
      (fun _ _ => Onward (Takes tally (.ofRecord tally.vars record k) i agg m))
      (Refuses tally (.ofRecord tally.vars record k) agg) () later := by
  obtain ⟨more, calls, input, isGrouped⟩ := tallies.isGrouped
  exact sim_tally tallies.isSteps tallies.feeds.pipes (Tuple.covers_ofRecord tally.vars record k)
    tallies.shares tallies.isKeys (by rw [tallies.isKind]; rfl) tallies.distinct () later isGrouped

theorem Tallies.codes
    (tallies : Tallies D scan dataset schema tally keys out budget name kind first later)
    (record : Value) (k : Nat) :
    (Scope.opened scan dataset tally.vars schema).Step D later ∧
      later.emitters = [variableName first.fn.arena.names] ∧
      later.outputs = keys.map Plan.Binding.var ++ [out] ∧
      later.Declares 1 first.fn.arena.names (newAggregator name budget) := by
  obtain ⟨step, facts, _⟩ := tallies.simulates later record k 0 { kind, budget }
    (Machine.start later.fn [])
  exact ⟨step, facts⟩

theorem Tallied.ends_rows {fn : Function} {accepted : RunError → Prop}
    (computes : Tally.Computes kind tally.call)
    (tallied : Tallied tally kind budget aggregator records shares i agg m)
    (sink : m.env.lookup Function.sink = some (.handle .sink)) :
    Ends (execAll fn [emitRows aggregator, flushSink]) m
      (fun _ m' => m'.rows = tally.rows shares ∧ m'.flushed = true) accepted := by
  have evaluated : eval (emitRows aggregator) m =
      some (.ok (.null, { m with written := agg.rows.reverse ++ m.written })) := by
    unfold emitRows
    rw [eval, bind_apply, eval_ident tallied.found]
    dsimp only
    rw [bind_apply, evalAll, evalAll, bind_apply, eval_ident sink]
    exact callMember_emit tallied.here
  refine Ends.cons (.member (.of_eq evaluated ⟨rfl, ends_flush sink ⟨?_, rfl⟩⟩))
  change (agg.rows.reverse ++ m.written).reverse = _
  rw [tallied.written, List.append_nil, List.reverse_reverse, tallied.holds.rows, tallied.isKind,
    Tally.rows_entries computes]

/-- A run over all records. -/
theorem Tallies.runsTo
    (tallies : Tallies D scan dataset schema tally keys out budget name kind first later)
    (ending : Ending [emitRows (variableName first.fn.arena.names)] later final)
    (records : List Value) :
    RunsTo final.fn records (fun m => ∃ shares, tally.shares? records = some shares ∧
      ¬ Tally.overBudget budget shares ∧ m.rows = tally.rows shares ∧ m.flushed = true)
      (Stops tally budget records) := by
  obtain ⟨step, _, _, declares⟩ := tallies.codes .null 0
  refine ending.run tallies.feeds step records (fun k m => ∃ shares i agg,
    Tallied tally kind budget (variableName first.fn.arena.names) (records.take k) shares i agg m)
    ?_ ?_ ?_
  · intro m readies isNew
    obtain ⟨v, found, isNew⟩ := isNew _ _ declares
    obtain ⟨i, rfl, isThere⟩ := isNew.aggregator name budget kind rfl tallies.isKind
    refine ⟨[], i, _, ?_, found, isThere, rfl, rfl, HashAggregator.holds_new _ _ _, ?_⟩
    · rw [readies.same]
      rfl
    · unfold Tally.shares? Tally.sharesOf?
      rw [List.take_zero, show Tuple.ofRecords tally.vars [] = [] from rfl, Plan.tuples?_nil]
      rfl
  · rintro k record m isRecord ⟨shares, i, agg, tallied⟩
    refine ⟨_, _, _, _, tallies.simulates final record k i agg (m.take record),
      fun _ => tallied.stops isRecord, fun live => ⟨⟨tallied.found, tallied.here⟩, live⟩, ?_⟩
    intro m' kept takes
    obtain ⟨shares', agg', tallied'⟩ :=
      tallied.takes isRecord (kept _ _ (ending.declares_iff.mpr declares) nofun) takes
    exact ⟨shares', i, agg', tallied'⟩
  · rintro m wired ⟨shares, i, agg, tallied⟩
    rw [List.take_length] at tallied
    have atEnd : Tallied tally kind budget (variableName first.fn.arena.names) records shares i agg
      { m with record := .null } := { tallied with }
    refine (atEnd.ends_rows tallies.computes wired.sink).mono ?_ fun _ => id
    rintro flow m' ⟨isRows, flushed⟩
    exact ⟨shares, tallied.isShares, tallied.within, isRows, flushed⟩

theorem overBudget_of_take {n : Nat} {before : List Share}
    (isShares : tally.shares? records = some shares)
    (isBefore : tally.shares? (records.take n) = some before)
    (exceeded : Tally.overBudget budget before) :
    Tally.overBudget budget shares := by
  have isAll : tally.shares? (records.take (max n records.length)) = some shares := by
    rw [List.take_of_length_le (Nat.le_max_right _ _)]
    exact isShares
  obtain ⟨before', isBefore', more, rfl⟩ := Tally.shares?_take (Nat.le_max_left _ _) isAll
  cases isBefore.symm.trans isBefore'
  exact Tally.overBudget_append exceeded

theorem Tallies.groups
    (tallies : Tallies D scan dataset schema tally keys out budget name kind first later)
    (ending : Ending [emitRows (variableName first.fn.arena.names)] later final)
    (records : List Value) : Groups final.fn tally budget records := by
  rcases tallies.runsTo ending records with
    ⟨m, ⟨shares, isShares, within, isRows, flushed⟩, result⟩ | ⟨cause, stops, result⟩
  · refine ⟨?_, fun groups => ⟨?_, ?_⟩, fun isNone => ?_⟩
    · intro shares' isShares' _
      cases isShares.symm.trans isShares'
      rw [result, isRows, flushed]
    · intro failed
      cases result.symm.trans failed
    · rintro ⟨n, before, isBefore, exceeded, _⟩
      exact absurd (overBudget_of_take isShares isBefore exceeded) within
    · cases isShares.symm.trans isNone
  · cases stops with
    | undefined n before isBefore within isNone ofCall =>
      have short : ∀ j shares, tally.shares? (records.take j) = some shares → j ≤ n := by
        intro j shares isShares
        by_contra beyond
        obtain ⟨_, isSome, _⟩ := Tally.shares?_take (Nat.lt_of_not_le beyond) isShares
        cases isNone.symm.trans isSome
      refine ⟨?_, fun groups => ⟨?_, ?_⟩, fun _ _ => ⟨cause, ofCall, result⟩⟩
      · intro shares isShares _
        have isAll : tally.shares? (records.take (max (n + 1) records.length)) = some shares := by
          rw [List.take_of_length_le (Nat.le_max_right _ _)]
          exact isShares
        have atMost := short _ shares isAll
        omega
      · intro failed
        cases result.symm.trans failed
        exact ofCall.elim
      · rintro ⟨j, shares, isShares, exceeded, _⟩
        obtain ⟨shares', isShares', more, rfl⟩ := Tally.shares?_take (short j shares isShares) isBefore
        cases isShares.symm.trans isShares'
        exact absurd (Tally.overBudget_append exceeded) within
    | overBudget n shares isSome exceeded within same =>
      subst same
      refine ⟨?_, fun groups => ⟨?_, ?_⟩, fun _ allWithin => absurd exceeded (allWithin n shares isSome)⟩
      · intro shares' isShares' within'
        exact absurd (overBudget_of_take isShares' isSome exceeded) within'
      · intro failed
        cases result.symm.trans failed
        exact ⟨n, shares, isSome, exceeded, within, rfl⟩
      · rintro ⟨j, shares', isShares', exceeded', within', rfl⟩
        obtain rfl : j = n := by
          rcases Nat.lt_trichotomy j n with less | same | more
          · exact absurd exceeded' (within j shares' less isShares')
          · exact same
          · exact absurd exceeded (within' n shares more isSome)
        cases isSome.symm.trans isShares'
        exact result

end runs

end Fusion

end QueryFusion

import QueryFusion.Proofs.Fusion.Functions

/-!
# What a scalar pipeline delivers

The function of a scalar pipeline writes, for one record after the other, the rows of the tuples that
the operators make of the record. A run of it fails exactly if an expression of the operators has no
value for one of the tuples it meets.
-/

namespace QueryFusion

open Plan (Tuple Body Among)

variable {records : List Value} {record : Value} {steps : List Body}

/-! ## Tuples of the first records -/

theorem Plan.Tuple.ofRecords_take (vars : List Var) {k : Nat} (here : records[k]? = some record) :
    Tuple.ofRecords vars (records.take (k + 1)) =
      Tuple.ofRecords vars (records.take k) ++ [Tuple.ofRecord vars record k] := by
  have below := (List.getElem?_eq_some_iff.mp here).1
  unfold Tuple.ofRecords
  rw [List.take_add_one, here, Option.toList_some, List.mapIdx_concat, List.length_take,
    Nat.min_eq_left below.le]

variable {t : Tuple} {ts : List Tuple}

theorem Plan.tuples?_eq_none (member : t ∈ ts) (isNone : Plan.tuples? steps [t] = none) :
    Plan.tuples? steps ts = none := by
  obtain ⟨before, after, rfl⟩ := List.append_of_mem member
  rw [Plan.tuples?_eq_gather, Plan.gather_append, Plan.gather_cons, isNone]
  cases Plan.gather (fun t => Plan.tuples? steps [t]) before <;> rfl

theorem Plan.tuples?_mem {one all : List Tuple} (member : t ∈ ts)
    (isOne : Plan.tuples? steps [t] = some one) (isAll : Plan.tuples? steps ts = some all) :
    ∀ t' ∈ one, t' ∈ all := by
  obtain ⟨before, after, rfl⟩ := List.append_of_mem member
  rw [Plan.tuples?_eq_gather, Plan.gather_append, Plan.gather_cons, isOne] at isAll
  obtain ⟨first, _, isAll⟩ := Option.bind_eq_some_iff.mp isAll
  obtain ⟨second, isSecond, rfl⟩ := Option.map_eq_some_iff.mp isAll
  obtain ⟨third, _, rfl⟩ := Option.map_eq_some_iff.mp isSecond
  exact fun t' isThere => List.mem_append_right _ (List.mem_append_left _ isThere)

theorem Plan.tuples?_concat {before after : List Tuple}
    (isBefore : Plan.tuples? steps ts = some before)
    (isAfter : Plan.tuples? steps [t] = some after) :
    Plan.tuples? steps (ts ++ [t]) = some (before ++ after) := by
  rw [Plan.tuples?_eq_gather] at isBefore ⊢
  rw [Plan.gather_append, isBefore, Plan.gather_singleton, isAfter]
  rfl

namespace Fusion

open Code
open Engine

/-- A run of a function over records delivers what operators make of the records: the rows of their
tuples, or a failure if there are none. -/
def Delivers (fn : Function) (steps : List Body) (vars outputs : List Var) (records : List Value) :
    Prop :=
  match Plan.tuples? steps (Tuple.ofRecords vars records) with
  | some ts => ∃ rows, ts.mapM (·.row? outputs) = some rows ∧
      (Engine.run fn records).result = .ok { rows, flushed := true }
  | none => ∃ cause : RunError, cause.OfCall ∧
      (Engine.run fn records).result = .error (.failed fn.name cause)

/-- What a scalar pipeline over the variables of a scan needs: the operators read variables of their
input, and the schema has the paths they read. -/
structure Feeds (D : Path → Prop) (schema : Plan.Schema) (vars : List Var) (steps : List Body) :
    Prop where
  texts : ∀ p q, D p → D q → p.text = q.text → p = q
  distinct : (vars.map Var.id).Nodup
  noPath : ∀ v ∈ vars, schema.varPath? v = none
  isRecord : ∀ v, vars[0]? = some v → schema.record.id = v.id
  isScoped : Plan.Scoped vars steps
  readable : ∀ body ∈ steps, body.Readable D schema

section delivery

variable {D : Path → Prop} {scan : Plan.OpId} {dataset : String} {vars : List Var}
variable {schema : Plan.Schema} {done final : Scope}
variable {m : Machine} {k : Nat} {accepted : RunError → Prop}

theorem Feeds.pipes (feeds : Feeds D schema vars steps) :
    Pipes D (.opened scan dataset vars schema) (fun _ => False) vars steps where
  sound := opened_sound feeds.texts
  inScope := opened_inScope feeds.distinct feeds.noPath
  plainly := opened_plainly
  isScoped := feeds.isScoped
  readable := feeds.readable
  outputs := fun v member => ⟨v, rfl, v, member, rfl⟩

/-- What the code of a record does. -/
theorem Feeds.simulates (feeds : Feeds D schema vars steps)
    (fused : (do fuseSteps steps; writeRows : Emit Unit) (.opened scan dataset vars schema) =
      .ok ((), done)) (final : Scope) (record : Value) (k : Nat) (m : Machine)
    (tolerant : Plan.tuples? steps [Tuple.ofRecord vars record k] = none →
      ∀ cause : RunError, cause.OfCall → accepted cause) :
    Simulates D final (Scope.opened scan dataset vars schema).New (spotOf record k)
      (.opened scan dataset vars schema) m
      (Live (.opened scan dataset vars schema) (spotOf record k) (fun _ => False) (Among vars)
        (Tuple.ofRecord vars record k).known m) (fun _ _ => True)
      (fun _ later => Onward fun m' => ∃ ts rows,
        Plan.tuples? steps [Tuple.ofRecord vars record k] = some ts ∧
        ts.mapM (·.row? later.outputs) = some rows ∧ m.Wrote rows m') accepted () done :=
  sim_pipeline steps vars _ m (.ofRecord vars record k) accepted feeds.pipes
    (Tuple.covers_ofRecord vars record k) tolerant () done fused

theorem Feeds.step (feeds : Feeds D schema vars steps)
    (fused : (do fuseSteps steps; writeRows : Emit Unit) (.opened scan dataset vars schema) =
      .ok ((), done)) (record : Value) (k : Nat) :
    (Scope.opened scan dataset vars schema).Step D done := by
  have runs : Simulates D done _ (spotOf record k) _ (Machine.start done.fn []) _ _ _
      (fun _ => True) () done := feeds.simulates fused done record k _ fun _ _ _ => trivial
  exact runs.1

theorem Ending.run {rows : List Node} {wanted : Machine → Prop} (feeds : Feeds D schema vars steps)
    (step : (Scope.opened scan dataset vars schema).Step D done) (ending : Ending rows done final)
    (records : List Value) (keeps : Nat → Machine → Prop)
    (begins : ∀ m, (Machine.start final.fn records).Readies m →
      (∀ n init, done.Declares 1 n init →
        ∃ v, m.env.lookup (variableName n) = some v ∧ IsNew m init v) → keeps 0 m)
    (round : ∀ k record m, records[k]? = some record → keeps k m →
      ∃ (pre : Prop) (fact : Unit → Scope → Prop) (post : Scope → Machine → Prop)
        (refused : RunError → Prop),
        Simulates D final (Scope.opened scan dataset vars schema).New (spotOf record k)
          (.opened scan dataset vars schema) (m.take record) pre fact
          (fun _ later => Onward (post later)) refused () done ∧
        (∀ cause, refused cause → accepted cause) ∧
        (Live (.opened scan dataset vars schema) (spotOf record k) (fun _ => False) (Among vars)
          (Tuple.ofRecord vars record k).known (m.take record) → pre) ∧
        ∀ m', KeepsGroups final m m' → post done m' → keeps (k + 1) m')
    (after : ∀ m, m.Wired final.fn.paths → keeps records.length m →
      Ends (execAll final.fn (rows ++ [flushSink])) { m with record := .null } (fun _ => wanted)
        accepted) : RunsTo final.fn records wanted accepted := by
  have sound : Sound D (.opened scan dataset vars schema) := opened_sound feeds.texts
  have sound' := sound.step step
  have isBody : done.fn.body = 1 := step.enters.later.body
  obtain ⟨block, here, rest, tail⟩ := opened_body step
  have there := ending.body (isBody ▸ here)
  rw [isBody, rest, tail] at there
  have tops : final.Tops := opened_tops step fun _ _ => ending.declares_iff.mp
  have ends : Ends (execBlock final.fn 1) (Machine.start final.fn records) (fun _ => wanted)
      accepted := by
    refine ends_function scan dataset vars schema ending.frozen
      (ending.completes sound'.rooted sound'.named).named there rfl tops
      (fun k m => Between final records k m ∧ keeps k m) (fun k m held => held.1) ?_ ?_ ?_
    · exact fun m between readies isNew => ⟨between, begins m readies fun n init declares =>
        isNew n init (ending.declares_iff.mpr declares)⟩
    · rintro k record m isRecord ⟨between, held⟩ ready
      obtain ⟨pre, fact, post, _, simulates, refuses, isPre, next⟩ := round k record m isRecord held
      refine (ends_round sound simulates (ending.completes sound'.rooted sound'.named)
        (ending.other (by rw [isBody]; exact Nat.succ_ne_self 1)
          (Nat.lt_of_lt_of_le (Nat.lt_succ_self 2) step.enters.later.arena.size)) between ready
        (isPre (opened_live feeds.distinct feeds.noPath feeds.isRecord (Nat.succ_ne_zero k)))).mono
        ?_ refuses
      rintro flow m' ⟨rfl, between', kept, held'⟩
      exact ⟨rfl, between', next m' kept held'⟩
    · exact fun m ⟨between, held⟩ => after m between.wired held
  rw [← ending.fnBody.trans isBody] at ends
  exact runsTo_of_body ending.frozen ends

/-- The tuple of a record is among those of all records. -/
theorem mem_ofRecords (vars : List Var) (isRecord : records[k]? = some record) :
    Tuple.ofRecord vars record k ∈ Tuple.ofRecords vars records := by
  refine List.mem_of_getElem? (i := k) ?_
  rw [Tuple.ofRecords, List.getElem?_mapIdx, isRecord]
  rfl

/-- The rows of the tuples of some records were written. -/
def Delivered (steps : List Body) (vars outputs : List Var) (records : List Value) (m : Machine) :
    Prop :=
  ∃ ts rows, Plan.tuples? steps (Tuple.ofRecords vars records) = some ts ∧
    ts.mapM (·.row? outputs) = some rows ∧ m.rows = rows

/-- The rows of one more record are written. -/
theorem Delivered.next {outputs : List Var} {m' : Machine} {rows : List (List Value)}
    (delivered : Delivered steps vars outputs (records.take k) m)
    (isRecord : records[k]? = some record)
    (isTuples : Plan.tuples? steps [Tuple.ofRecord vars record k] = some ts)
    (isRows : ts.mapM (·.row? outputs) = some rows) (wrote : (m.take record).Wrote rows m') :
    Delivered steps vars outputs (records.take (k + 1)) m' := by
  obtain ⟨ts', rows', isTuples', isRows', written⟩ := delivered
  obtain ⟨mid, still, rfl⟩ := wrote
  refine ⟨ts' ++ ts, rows' ++ rows, ?_, ?_, ?_⟩
  · rw [Tuple.ofRecords_take vars isRecord]
    exact Plan.tuples?_concat isTuples' isTuples
  · rw [List.mapM_append, isRows', isRows]
    rfl
  · change (rows.reverse ++ mid.written).reverse = _
    rw [still.written, List.reverse_append, List.reverse_reverse]
    exact congrArg (· ++ rows) written

theorem Feeds.delivers (feeds : Feeds D schema vars steps)
    (fused : (do fuseSteps steps; writeRows : Emit Unit) (.opened scan dataset vars schema) =
      .ok ((), done)) (isSealed : Sealed done final) (records : List Value) :
    Delivers final.fn steps vars done.outputs records := by
  have runs : RunsTo final.fn records
      (fun m => Delivered steps vars done.outputs records m ∧ m.flushed = true)
      (fun cause => cause.OfCall ∧ Plan.tuples? steps (Tuple.ofRecords vars records) = none) := by
    refine isSealed.ending.run feeds (feeds.step fused .null 0) records
      (fun k m => Delivered steps vars done.outputs (records.take k) m) ?_ ?_ ?_
    · intro m readies _
      refine ⟨[], [], Plan.tuples?_nil steps, rfl, ?_⟩
      rw [readies.same]
      rfl
    · intro k record m isRecord delivered
      refine ⟨_, _, _, _, feeds.simulates fused final record k (m.take record) ?_, fun _ => id, id, ?_⟩
      · exact fun isNone cause ofCall =>
          ⟨ofCall, Plan.tuples?_eq_none (mem_ofRecords vars isRecord) isNone⟩
      · rintro m' _ ⟨ts, rows, isTuples, isRows, wrote⟩
        exact delivered.next isRecord isTuples isRows wrote
    · intro m wired delivered
      rw [List.take_length] at delivered
      exact ends_flush wired.sink ⟨delivered, rfl⟩
  unfold Delivers
  rcases runs with ⟨m, ⟨⟨ts, rows, isTuples, isRows, isOutput⟩, flushed⟩, result⟩ |
    ⟨cause, ⟨ofCall, isNone⟩, result⟩
  · rw [isTuples]
    exact ⟨rows, isRows, by rw [result, isOutput, flushed]⟩
  · rw [isNone]
    exact ⟨cause, ofCall, result⟩

end delivery

end Fusion

end QueryFusion

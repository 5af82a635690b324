import QueryFusion.Proofs.Engine.Motion
import QueryFusion.Proofs.Outcome

/-!
# Going through the records

A run starts with a column for every path of the function and the cursor before the first record.
The loop over the cursor takes one record after the other. What every round keeps holds after the
last record.
-/

namespace QueryFusion.Engine

open Code

/-! ## The start of a run -/

namespace Machine

variable {fn : Function} {records : List Value}

/-- The column of a path before the first step. -/
def freshColumn (entry : Path × Nat) : Column :=
  { name := Function.readerName entry.2, path := entry.1 }

theorem start_columns (frozen : fn.frozen = true) :
    (start fn records).columns = (fn.paths.zipIdx.map freshColumn).toArray := by
  have schemas : fn.schemas = fn.paths := by
    unfold Function.schemas
    rw [if_pos frozen]
  unfold start
  rw [schemas]
  rfl

theorem start_env (frozen : fn.frozen = true) : (start fn records).env =
    [(Function.cursor, .handle .cursor), (Function.sink, .handle .sink)] ++
      fn.paths.zipIdx.map fun entry => (Function.readerName entry.2, .handle (.column entry.2)) := by
  have schemas : fn.schemas = fn.paths := by
    unfold Function.schemas
    rw [if_pos frozen]
  unfold start
  rw [schemas]
  change _ ++ ((fn.paths.zipIdx.map freshColumn).zipIdx.map _) = _
  rw [zipIdx_map_zipIdx, List.map_map]
  rfl

/-- The steppers in the order of their columns. -/
def freshSteppers (paths : List Path) : List (String × Nat) :=
  paths.zipIdx.filterMap fun entry =>
    if (freshColumn entry).isStepper then some (entry.1.text, entry.2) else none

theorem start_steppers (frozen : fn.frozen = true) :
    (start fn records).steppers = (freshSteppers fn.paths).reverse := by
  have schemas : fn.schemas = fn.paths := by
    unfold Function.schemas
    rw [if_pos frozen]
  unfold start
  rw [schemas]
  change (List.filterMap _ (fn.paths.zipIdx.map freshColumn).zipIdx).reverse = _
  rw [zipIdx_map_zipIdx, List.filterMap_map]
  rfl

theorem mem_freshSteppers {paths : List Path} {text : String} {j : Nat} :
    (text, j) ∈ freshSteppers paths ↔ ∃ p, paths[j]? = some p ∧ p.IsElement ∧ p.text = text := by
  unfold freshSteppers
  rw [List.mem_filterMap]
  constructor
  · rintro ⟨⟨p, i⟩, member, isEntry⟩
    rw [List.mem_zipIdx_iff_getElem?] at member
    split at isEntry
    · next isStepper =>
      cases isEntry
      exact ⟨p, member, (Column.isStepper_iff _).mp isStepper, rfl⟩
    · cases isEntry
  · rintro ⟨p, isPath, isElement, rfl⟩
    refine ⟨(p, j), List.mem_zipIdx_iff_getElem?.mpr isPath, ?_⟩
    rw [if_pos ((Column.isStepper_iff (freshColumn (p, j))).mpr isElement)]

theorem start_wired (frozen : fn.frozen = true) : (start fn records).Wired fn.paths where
  cursor := by
    rfl
  sink := by
    rfl
  reader := by
    intro j below
    have member : (Function.readerName j, Value.handle (.column j)) ∈ fn.paths.zipIdx.map fun entry =>
        (Function.readerName entry.2, Value.handle (.column entry.2)) := by
      refine List.mem_map.mpr ⟨(fn.paths[j], j), ?_, rfl⟩
      exact List.mem_zipIdx_iff_getElem?.mpr (List.getElem?_eq_getElem below)
    have distinct : ((fn.paths.zipIdx.map fun entry =>
        (Function.readerName entry.2, Value.handle (.column entry.2))).map Prod.fst).Nodup := by
      rw [List.map_map]
      have names : Prod.fst ∘ (fun entry : Path × Nat =>
          (Function.readerName entry.2, Value.handle (.column entry.2))) =
          Function.readerName ∘ Prod.snd := rfl
      rw [names, ← List.map_map, List.zipIdx_map_snd]
      refine List.Pairwise.map _ (fun _ _ apart same => ?_) List.nodup_range'
      exact apart (readerName_injective same)
    rw [start_env frozen, List.cons_append, List.cons_append, List.nil_append, List.lookup_cons,
      beq_false_of_ne (readerName_ne_cursor j), List.lookup_cons,
      beq_false_of_ne (readerName_ne_sink j)]
    exact lookup_of_mem distinct member
  column := by
    intro j p isPath
    rw [start_columns frozen, List.getElem?_toArray, List.getElem?_map, List.getElem?_zipIdx, isPath]
    exact ⟨_, rfl, by simp [freshColumn], rfl⟩
  size := by
    rw [start_columns frozen]
    simp

end Machine

/-! ## The loop -/

/-- The test that takes the next record. -/
def nextRecord : Node := .member (.ident Function.cursor) Code.Member.hasNext []

/-- The machine at its next record. -/
def Machine.take (m : Machine) (record : Value) : Machine :=
  { m with record, position := m.position + 1, ordinal := m.position + 1 }

section loop

variable {fn : Function} {body : BlockId} {m : Machine} {record : Value}
variable {accepted : RunError → Prop}

theorem eval_nextRecord (cursor : m.env.lookup Function.cursor = some (.handle .cursor)) :
    eval nextRecord m = match m.records[m.position]? with
      | some record => some (.ok (.bool true, m.take record))
      | none => some (.ok (.bool false, { m with record := .null })) := by
  unfold nextRecord
  rw [eval_member (eval_ident cursor)]
  change (match m.records[m.position]? with
    | some record => do
      set { m with record, position := m.position + 1, ordinal := m.position + 1 }
      pure (.bool true)
    | none => do
      set { m with record := Value.null }
      pure (.bool false) : Run Value) m = _
  cases m.records[m.position]? <;> rfl

theorem Ends.records (records : List Value) (keeps : Nat → Machine → Prop)
    (reading : ∀ k m, keeps k m → m.env.lookup Function.cursor = some (.handle .cursor) ∧
      m.records = records.toArray ∧ m.position = k)
    (round : ∀ k record m, records[k]? = some record → keeps k m →
      Ends (execBlock fn body) (m.take record) (Onward (keeps (k + 1))) accepted)
    (begins : keeps 0 m) :
    Ends (exec fn (.loop nextRecord body)) m (Onward fun m' =>
      ∃ last, keeps records.length last ∧ m' = { last with record := .null }) accepted := by
  refine .loop (fun measure m => ∃ k, k + measure = records.length ∧ keeps k m) ?_
    records.length m ⟨0, Nat.zero_add _, begins⟩
  rintro measure m ⟨k, whole, held⟩
  obtain ⟨cursor, isRecords, isPosition⟩ := reading k m held
  have next : m.records[m.position]? = records[k]? := by
    rw [isRecords, isPosition, List.getElem?_toArray]
  have taken := eval_nextRecord cursor
  rw [next] at taken
  cases isRecord : records[k]? with
  | some record =>
    rw [isRecord] at taken
    refine .of_eq taken ?_
    refine (round k record m isRecord held).mono ?_ fun _ => id
    rintro flow m' ⟨rfl, held'⟩
    have below := (List.getElem?_eq_some_iff.mp isRecord).1
    exact .inl ⟨rfl, measure - 1, by omega, k + 1, by omega, held'⟩
  | none =>
    rw [isRecord] at taken
    have isLast : k = records.length := by
      have above := List.getElem?_eq_none_iff.mp isRecord
      omega
    refine .of_eq taken ?_
    exact ⟨m, isLast ▸ held, rfl⟩

end loop

end QueryFusion.Engine

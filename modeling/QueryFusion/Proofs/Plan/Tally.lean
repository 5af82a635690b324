import QueryFusion.Proofs.Engine.Grouping
import QueryFusion.Proofs.Plan.Tuples
import QueryFusion.Proofs.Value.Data

/-!
# Groups of tuples

What a group-by with one count or sum makes of tuples. Each tuple has a share in the group of its key
values: a count adds one for it, or for a known value of its argument, and a sum adds the value of its
argument. The groups are in the order in which their keys first appear.

Key values are told apart by the encoding of the key they are joined to.
-/

namespace QueryFusion

/-! ## Counts and sums -/

namespace Call

/-- What a count or sum starts from. -/
def seed (call : Call) : Value := if call.fn.isZeroSeeded then .int 0 else .null

/-- The operator that takes a share into an aggregate. -/
def operator (call : Call) : Code.BinaryOp :=
  if call.fn.isCount then .add
  else if call.fn.isSum then .aggAdd
  else if call.fn.isMin then .aggMin
  else .aggMax

/-- Takes the share of one more tuple into an aggregate. -/
def step (call : Call) (total share : Value) : Value := Value.binary call.operator total share

/-- What a tuple adds to a count or sum. A count without an argument, or with a constant one, counts
the tuple; otherwise it counts whether the value is known. -/
def share? (call : Call) (known : Expr → Option Value) : Option Value :=
  match call.args with
  | [] => if call.fn.isCount then some (.int 1) else none
  | arg :: _ =>
    if call.fn.isCount then
      if arg.isConstant then some (.int 1) else (arg.value? known).map Engine.oneOrZero
    else arg.value? known

end Call

/-- Joins the values of several keys to one. -/
def joinKeys : List Value → Value
  | [k] => k
  | ks => .key ks

/-- The values that a key stands for in a row. -/
def Value.keyParts : Value → List Value
  | .key ks => ks
  | k => [k]

/-- The encoding by which key values are told apart. -/
def keyCode (ks : List Value) : List UInt8 := (joinKeys ks).encode

theorem keyParts_joinKeys : ∀ {ks : List Value}, (∀ k ∈ ks, ∀ vs, k ≠ .key vs) →
    (joinKeys ks).keyParts = ks
  | [], _ => rfl
  | [k], each => by
    unfold joinKeys Value.keyParts
    split
    · next vs same => exact absurd same (each k (.head _) vs)
    · rfl
  | _ :: _ :: _, _ => rfl

namespace Plan

/-- A group-by with one count or sum over a scalar pipeline over a scan. -/
structure Tally where
  vars : List Var
  steps : List Body
  keys : List Expr
  call : Call

/-- The key values of a tuple and what it adds to their group. -/
abbrev Share := List Value × Value

namespace Tally

variable (tally : Tally)

/-- The share of a tuple. -/
def share? (t : Tuple) : Option Share := do
  let ks ← Expr.values? t.known tally.keys
  let x ← tally.call.share? t.known
  some (ks, x)

/-- The shares of the tuples that the pipeline makes of tuples. -/
def sharesOf? (ts : List Tuple) : Option (List Share) := do
  let ts ← tuples? tally.steps ts
  ts.mapM tally.share?

/-- The shares of the tuples that the pipeline makes of records. -/
def shares? (records : List Value) : Option (List Share) :=
  tally.sharesOf? (Tuple.ofRecords tally.vars records)

/-- The key values of some shares, each once, in the order of their first appearance. -/
def keyTuples (shares : List Share) : List (List Value) := distinctBy keyCode (shares.map Prod.fst)

/-- What the shares with some key values add up to. -/
def total (shares : List Share) (ks : List Value) : Value :=
  ((shares.filter fun share => keyCode share.1 = keyCode ks).map Prod.snd).foldl tally.call.step
    tally.call.seed

/-- The rows of the groups: the key values and what their shares add up to. -/
def rows (shares : List Share) : List (List Value) :=
  (keyTuples shares).map fun ks => (joinKeys ks).keyParts ++ [tally.total shares ks]

/-- The memory that groups are charged with: for each its encoded key values and a fixed part. -/
def memory (shares : List Share) : Nat :=
  ((keyTuples shares).map fun ks => (keyCode ks).length + 32).sum

/-- Whether groups need more memory than a budget has; a budget that is not positive is none. -/
def overBudget (budget : Int64) (shares : List Share) : Prop :=
  0 < budget.toInt ∧ budget.toInt < memory shares

end Tally

end Plan

/-! ## One tuple after the other -/

theorem Plan.Tuple.ofRecords_of_take (vars : List Var) (records : List Value) (k : Nat) :
    Plan.Tuple.ofRecords vars (records.take k) = (Plan.Tuple.ofRecords vars records).take k := by
  unfold Plan.Tuple.ofRecords
  refine List.ext_getElem? fun i => ?_
  rw [List.getElem?_mapIdx, List.getElem?_take, List.getElem?_take, List.getElem?_mapIdx]
  split <;> rfl

variable {records : List Value}

namespace Plan.Tally

variable {tally : Tally}

/-- The shares of some tuples and of others after them. -/
theorem sharesOf?_append (tally : Tally) (ts us : List Tuple) : tally.sharesOf? (ts ++ us) =
    (tally.sharesOf? ts).bind fun first => (tally.sharesOf? us).map (first ++ ·) := by
  unfold sharesOf?
  rw [tuples?_eq_gather, gather_append, ← tuples?_eq_gather, ← tuples?_eq_gather]
  cases tuples? tally.steps ts with
  | none => rfl
  | some ts' =>
    cases tuples? tally.steps us with
    | none =>
      change none = (ts'.mapM tally.share?).bind fun first => Option.map (first ++ ·) none
      cases ts'.mapM tally.share? <;> rfl
    | some us' =>
      change (ts' ++ us').mapM tally.share? = (ts'.mapM tally.share?).bind fun first =>
        (us'.mapM tally.share?).map (first ++ ·)
      rw [List.mapM_append]
      cases ts'.mapM tally.share? with
      | none => rfl
      | some first => cases us'.mapM tally.share? <;> rfl

/-- The shares of the first records come first. -/
theorem shares?_take {k n : Nat} {shares : List Share} (less : k ≤ n)
    (found : tally.shares? (records.take n) = some shares) :
    ∃ first, tally.shares? (records.take k) = some first ∧ first <+: shares := by
  have split : Tuple.ofRecords tally.vars (records.take n) =
      Tuple.ofRecords tally.vars (records.take k) ++
        (Tuple.ofRecords tally.vars (records.take n)).drop k := by
    have first : records.take k = (records.take n).take k := by
      rw [List.take_take, Nat.min_eq_left less]
    rw [first, Tuple.ofRecords_of_take tally.vars (records.take n) k, List.take_append_drop]
  unfold shares? at found ⊢
  rw [split, sharesOf?_append] at found
  obtain ⟨first, isFirst, rest⟩ := Option.bind_eq_some_iff.mp found
  obtain ⟨others, _, rfl⟩ := Option.map_eq_some_iff.mp rest
  exact ⟨first, isFirst, List.prefix_append _ _⟩

end Plan.Tally

/-! ## Groups of data -/

theorem exists_of_mem_mapM {α β : Type} {f : α → Option β} {y : β} : ∀ {xs : List α} {ys : List β},
    xs.mapM f = some ys → y ∈ ys → ∃ x ∈ xs, f x = some y
  | [], _, found, member => by
    cases found
    cases member
  | x :: rest, _, found, member => by
    rw [List.mapM_cons] at found
    obtain ⟨first, isFirst, others⟩ := Option.bind_eq_some_iff.mp found
    obtain ⟨ys, isRest, same⟩ := Option.bind_eq_some_iff.mp others
    cases same
    rcases List.mem_cons.mp member with rfl | later
    · exact ⟨x, .head _, isFirst⟩
    · obtain ⟨x', isThere, made⟩ := exists_of_mem_mapM isRest later
      exact ⟨x', .tail _ isThere, made⟩

namespace Plan

/-- All values of a tuple are data. -/
def Tuple.IsData (t : Tuple) : Prop := ∀ entry ∈ t, entry.2.IsData

variable {t t' : Tuple} {tally : Tally}

theorem Tuple.IsData.known (isData : t.IsData) {e : Expr} {x : Value} (isKnown : t.known e = some x) :
    x.IsData := by
  cases e with
  | var v => exact isData (v.id, x) (mem_of_lookup isKnown)
  | _ => cases isKnown

theorem Tuple.isData_ofRecord (vars : List Var) {record : Value} (isData : record.IsData)
    (position : Nat) : (ofRecord vars record position).IsData := by
  intro entry member
  obtain ⟨⟨v, i⟩, _, rfl⟩ := List.mem_map.mp member
  split
  · exact isData
  · exact .int _

theorem Tuple.IsData.assign : ∀ {vars : List Var} {exprs : List Expr} {t t' : Tuple}, t.IsData →
    t.assign? vars exprs = some t' → t'.IsData
  | [], _, _, _, isData, isTuple => by
    exact Option.some.inj isTuple ▸ isData
  | _ :: _, [], _, _, isData, isTuple => by
    exact Option.some.inj isTuple ▸ isData
  | v :: _, e :: _, _, _, isData, isTuple => by
    obtain ⟨x, isValue, rest⟩ := Option.bind_eq_some_iff.mp isTuple
    refine .assign (List.forall_mem_cons.mpr ⟨?_, isData⟩) rest
    exact Expr.isData_value? (fun _ _ => isData.known) e isValue

/-- What operators make of data is data. -/
theorem isData_tuples? : ∀ {steps : List Body} {ts ts' : List Tuple}, (∀ t ∈ ts, t.IsData) →
    tuples? steps ts = some ts' → ∀ t ∈ ts', t.IsData
  | [], _, _, each, isTuples => Option.some.inj isTuples ▸ each
  | body :: rest, ts, ts', each, isTuples => by
    obtain ⟨mid, isMid, isRest⟩ := Option.bind_eq_some_iff.mp isTuples
    refine isData_tuples? ?_ isRest
    obtain ⟨parts, isParts, same⟩ := Option.bind_eq_some_iff.mp isMid
    cases same
    intro t member
    obtain ⟨part, isPart, isThere⟩ := List.mem_flatten.mp member
    obtain ⟨before, isBefore, made⟩ := exists_of_mem_mapM isParts isPart
    have isData := each before isBefore
    cases body with
    | select cond =>
      obtain ⟨c, _, same⟩ := Option.bind_eq_some_iff.mp made
      cases same
      split at isThere
      · exact List.mem_singleton.mp isThere ▸ isData
      · cases isThere
    | assign vars exprs =>
      obtain ⟨extended, isTuple, same⟩ := Option.bind_eq_some_iff.mp made
      cases same
      exact List.mem_singleton.mp isThere ▸ isData.assign isTuple
    | project vars =>
      cases made
      rw [List.mem_singleton.mp isThere]
      exact fun entry member => isData entry (List.mem_filter.mp member).1
    | _ => cases made

/-- The key values of data are data. -/
theorem Tally.isData_keys {shares : List Share}
    (each : ∀ record ∈ records, record.IsData) (isShares : tally.shares? records = some shares) :
    ∀ share ∈ shares, ∀ k ∈ share.1, k.IsData := by
  obtain ⟨ts, isTuples, isShares⟩ := Option.bind_eq_some_iff.mp isShares
  have isData : ∀ t ∈ ts, t.IsData := by
    refine isData_tuples? (fun t member => ?_) isTuples
    obtain ⟨i, below, rfl⟩ := List.mem_mapIdx.mp member
    exact Tuple.isData_ofRecord tally.vars (each _ (List.getElem_mem below)) i
  intro share member
  obtain ⟨t, isTuple, isShare⟩ := exists_of_mem_mapM isShares member
  obtain ⟨ks, isKeys, rest⟩ := Option.bind_eq_some_iff.mp isShare
  obtain ⟨x, _, same⟩ := Option.bind_eq_some_iff.mp rest
  cases same
  exact Expr.isData_values? (fun _ _ => (isData t isTuple).known) tally.keys isKeys

theorem Tally.rows_of_data {shares : List Share}
    (each : ∀ record ∈ records, record.IsData) (isShares : tally.shares? records = some shares) :
    tally.rows shares = (keyTuples shares).map fun ks => ks ++ [tally.total shares ks] := by
  refine List.map_congr_left fun ks member => ?_
  obtain ⟨share, isShare, rfl⟩ := List.mem_map.mp (mem_distinctBy_of_new member)
  rw [keyParts_joinKeys]
  rintro k isKey vs rfl
  cases Tally.isData_keys each isShares share isShare _ isKey

end Plan

/-! ## Shares as entries of an aggregator -/

namespace Plan.Tally

open Engine (Entry HashKind)

/-- What an aggregator is given for a share. -/
def entry (share : Share) : Entry := (joinKeys share.1, share.2)

variable {tally : Tally} {shares more : List Share} {budget : Int64}

theorem keysOf_entries (shares : List Share) :
    Engine.keysOf (shares.map entry) = (keyTuples shares).map joinKeys := by
  unfold Engine.keysOf keyTuples
  rw [List.map_map, show Prod.fst ∘ entry = joinKeys ∘ Prod.fst from rfl, ← List.map_map,
    distinctBy_map]
  rfl

theorem memoryOf_entries (shares : List Share) :
    Engine.memoryOf (shares.map entry) = memory shares := by
  unfold Engine.memoryOf memory
  rw [keysOf_entries, List.map_map]
  rfl

theorem exceeds_entries (budget : Int64) (shares : List Share) :
    Engine.exceeds (Engine.memoryOf (shares.map entry)) budget = true ↔ overBudget budget shares := by
  unfold Engine.exceeds overBudget
  rw [memoryOf_entries, Bool.and_eq_true, decide_eq_true_eq, decide_eq_true_eq]

theorem overBudget_append (exceeded : overBudget budget shares) :
    overBudget budget (shares ++ more) := by
  rw [← exceeds_entries] at exceeded ⊢
  rw [List.map_append]
  exact Engine.exceeds_append exceeded

/-- The kind of aggregator that computes a count or sum. -/
structure Computes (kind : HashKind) (call : Call) : Prop where
  seed : kind.seed = call.seed
  step : kind.step = call.step

theorem total_entries {kind : HashKind} (computes : Computes kind tally.call) (shares : List Share)
    (ks : List Value) : Engine.totalBy kind.step kind.seed (shares.map entry) (joinKeys ks) =
      tally.total shares ks := by
  unfold Engine.totalBy total
  rw [List.filter_map, List.foldl_map, List.foldl_map, computes.seed, computes.step]
  rfl

theorem rows_entries {kind : HashKind} (computes : Computes kind tally.call) (shares : List Share) :
    (Engine.groupsBy kind.step kind.seed (shares.map entry)).map Engine.Group.row =
      tally.rows shares := by
  unfold Engine.groupsBy rows
  rw [keysOf_entries, List.map_map, List.map_map]
  refine List.map_congr_left fun ks _ => ?_
  dsimp only [Function.comp]
  rw [total_entries computes]
  cases joinKeys ks <;> rfl

end Plan.Tally

end QueryFusion

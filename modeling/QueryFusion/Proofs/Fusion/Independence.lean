import Mathlib.Tactic.IntervalCases
import QueryFusion.Proofs.Fusion.Accounting
import QueryFusion.Proofs.Fusion.Agreement
import QueryFusion.Proofs.Fusion.Termination

/-!
# Records are processed one by one

A function keeps nothing from one record to the next if its body is only the loop through the
records, it makes no aggregator and it asks for no metadata of a record. Then what it does with a
record is what it does with the record alone: variables and columns that earlier records have left
behind are not read. So the rows of a run are the rows of its records, one record after the other.
-/

namespace QueryFusion.Fusion

open Code
open Code.Arena (declaration)
open Plan (OpId)
open Engine

variable {name : String} {block : Block} {scan : OpId} {rows : List (List Value)}
variable {input : List Value}

/-! ## What is known of such a function -/

/-- A function that runs one block for every record and then completes its output. -/
structure PerRecord (ledger : Ledger) (counts : Nat → Option BlockId) (fn : Function)
    (records : BlockId) : Prop where
  lockstep : Lockstep ledger counts fn
  frozen : fn.frozen = true
  proper : fn.body ≠ Code.emptyBlock
  body : ∃ block, fn.arena.blocks[fn.body]? = some block ∧
    block.statements = [.loop nextRecord records, flushSink]
  inside : fn.body < records
  outside : ¬ InLoop fn.arena records
  opens : ledger.Entering fn (fun _ => False) records

section perRecord

variable {dataset : String} {vars : List Var} {schema : Plan.Schema}
variable {ledger : Ledger} {done final : Scope}

theorem names_scanMeaning {i : Nat} {node : Node} {readers : List String}
    (same : scanMeaning i = .code node readers) (member : name ∈ node.names) :
    name = Function.cursor := by
  unfold scanMeaning at same
  split at same
  · injection same with isNode
    rw [← isNode] at member
    simpa [Node.names, Node.namesOf] using member
  · injection same with isNode
    rw [← isNode] at member
    simpa [Node.names, Node.namesOf, Node.long] using member

theorem opened_knows (knows : (Scope.opened scan dataset vars schema).Knows name) :
    IsParam (Scope.opened scan dataset vars schema).fn name := by
  cases knows with
  | param isParam => exact isParam
  | @ofBlock b n _ introduced =>
    obtain ⟨block, init, here, member⟩ := introduced
    obtain ⟨_, front, _, _, _, rest⟩ := emptyFunction_block here
    rw [Block.head, front, List.nil_append] at member
    by_cases isBody : b = 1
    · subst isBody
      cases here
      cases List.mem_singleton.mp member
    · rw [rest isBody] at member
      cases member
  | value bound member =>
    obtain ⟨i, _, _, _, same⟩ := opened_values scan dataset vars schema bound
    rw [names_scanMeaning same.symm member]
    exact .cursor
  | flag bound => cases bound
  | item bound => cases bound
  | copy _ here member | position _ here member =>
    rw [(emptyFunction_block here).2.2.2.2.1] at member
    cases member

/-- The code of a new scope is accounted for: there is none. -/
theorem opened_books {S : Terms} (sane : (Scope.opened scan dataset vars schema).Sane S) :
    Books S { opened := fun _ _ => False, role := fun _ => .plain } (fun _ => False)
      (Scope.opened scan dataset vars schema) where
  sane := sane
  recordwise := opened_recordwise scan dataset vars schema
  accounted :=
    { front := by
        intro b block here s member
        rw [(emptyFunction_block here).2.1] at member
        cases member
      code := by
        intro b block here inside
        obtain ⟨_, _, tail, _, _, rest⟩ := emptyFunction_block here
        rw [rest inside, tail]
        trivial
      redirected := by
        intro b block here entry member
        rw [(emptyFunction_block here).2.2.2.2.1] at member
        cases member
      descends := fun _ _ _ _ => id
      fresh := fun _ _ => rfl }
  covers := fun _ knows => .inl (opened_knows knows)
  settable := fun _ => False.elim

/-- Sealing a function changes the end of its body only. -/
theorem Sealed.kept (isSealed : Sealed done final) {i : BlockId}
    (here : done.fn.arena.blocks[i]? = some block) : final.fn.arena.blocks[i]? =
      some (if i = done.fn.body then { block with tail := block.tail ++ [flushSink] } else block) := by
  split
  · next same =>
    subst same
    exact isSealed.body here
  · next apart => exact (isSealed.other apart).trans here

theorem Sealed.widens (isSealed : Sealed done final) : Widens done.fn final.fn where
  body := by
    obtain ⟨arena, name, _, rfl⟩ := isSealed
    rfl
  paths := isSealed.paths ▸ List.prefix_rfl
  names := by
    obtain ⟨arena, name, appended, rfl⟩ := isSealed
    exact (Arena.appendTail_updates appended).extends'.names
  kept := by
    intro i block here
    refine ⟨_, isSealed.kept here, ?_⟩
    split
    · exact ⟨rfl, rfl, fun _ => id, fun _ => id⟩
    · exact ⟨rfl, rfl, fun _ => id, fun _ => id⟩

theorem Sealed.parent (isSealed : Sealed done final) {c b : BlockId}
    (isParent : final.fn.arena.Parent c b) : done.fn.arena.Parent c b := by
  obtain ⟨block, here, same⟩ := isParent
  obtain ⟨before, there, rfl⟩ := isSealed.block here
  refine ⟨before, there, ?_⟩
  split at same
  · exact same
  · exact same

/-- What completes a function is local. -/
theorem Sealed.isLocal (isSealed : Sealed done final)
    (isLocal : ∀ (b : BlockId) block, done.fn.arena.blocks[b]? = some block →
      ∀ s ∈ block.statements, s.isLocal = true) (b : BlockId) (block : Block)
    (here : final.fn.arena.blocks[b]? = some block) : ∀ s ∈ block.statements, s.isLocal = true := by
  intro s member
  obtain ⟨before, there, rfl⟩ := isSealed.block here
  have isOld := isLocal b before there s
  split at member
  · rw [Block.statements, ← List.append_assoc] at member
    rcases List.mem_append.mp member with old | isNew
    · exact isOld old
    · cases List.mem_singleton.mp isNew
      rfl
  · exact isOld member

theorem Accounted.sealed (accounted : Accounted ledger done.fn) (isSealed : Sealed done final) :
    Accounted ledger final.fn := by
  have widens := isSealed.widens
  have later := Ledger.Later.refl ledger done.fn
  have below : ∀ {i : BlockId} {block : Block}, done.fn.arena.blocks[i]? = some block →
      i < done.fn.arena.blocks.size := fun here => (Array.inside here)
  refine ⟨fun b block here s member => ?_, fun b block here inside => ?_,
    fun b block here entry member => ?_, fun c b isParent => ?_, fun n late => ?_⟩
  · obtain ⟨before, there, rfl⟩ := isSealed.block here
    have isOld : s ∈ before.front := by
      split at member
      · exact member
      · exact member
    exact (accounted.front b before there s isOld).imp_right fun accepts =>
      accepts.kept later widens fun _ => id
  · rw [widens.body] at inside
    obtain ⟨before, there, rfl⟩ := isSealed.block here
    rw [if_neg inside]
    exact (accounted.code b before there inside).kept later widens fun n isBase =>
      isBase.kept (below there) later widens
  · obtain ⟨before, there, rfl⟩ := isSealed.block here
    have isOld : entry ∈ before.overrides := by
      split at member
      · exact member
      · exact member
    exact (accounted.redirected b before there entry isOld).kept (below there) later widens
  · exact accounted.descends c b (isSealed.parent isParent)
  · exact accounted.fresh n (widens.names.trans late)

theorem sealed_of_opened (later : (Scope.opened scan dataset vars schema).Later done)
    (isSealed : Sealed done final) {i : BlockId}
    (here : emptyFunction.arena.blocks[i]? = some block) : ∃ block',
      final.fn.arena.blocks[i]? = some block' ∧ block'.parent = block.parent ∧
        block'.tag = block.tag ∧ block.rest <+: block'.rest := by
  obtain ⟨middle, there, grows⟩ := later.arena.grown i block here
  refine ⟨_, isSealed.kept there, ?_⟩
  split
  · exact ⟨grows.parent, grows.tag, grows.rest⟩
  · exact ⟨grows.parent, grows.tag, grows.rest⟩

end perRecord

theorem ScanFunction.OwnCode.perRecord {plan : Plan} {f : ScanFunction}
    (own : f.OwnCode plan scan) :
    ∃ ledger counts records, PerRecord ledger counts f.fn records := by
  obtain ⟨done, final, own, isSealed, same⟩ := own
  rw [same]
  have sane := own.sane
  obtain ⟨⟨start, isStart, _, isFront, isOne⟩, _, isLocal⟩ := own.recordwise.confined
  obtain ⟨dataset, vars, schema, metadata, builds⟩ := own
  have opened := opened_sane (S := recordTerms plan scan) scan dataset vars schema fun _ v member =>
    List.mem_map_of_mem (metadata ▸ member)
  have later := (builds.kept opened).1
  obtain ⟨counts, orders⟩ := builds.orders ⟨_, opened_orders scan dataset vars schema⟩
  obtain ⟨ledger, sameOpened, books⟩ := builds.books trivial (opened_books opened)
  have atBody : done.fn.body = 1 := later.body
  have body : final.fn.body = 1 := isSealed.widens.body.trans atBody
  obtain ⟨ending, isEnding, noTail⟩ := orders.body
  cases isStart.symm.trans isEnding
  have here := isSealed.body isStart
  rw [atBody] at here
  obtain ⟨first, isFirst, noParent, isFunction, loop⟩ := sealed_of_opened (i := 1) later isSealed rfl
  cases here.symm.trans isFirst
  have isLoop : start.rest = [.loop nextRecord 2] := (loop.eq_of_length isOne.symm).symm
  obtain ⟨second, isSecond, isParent, isRecords, _⟩ := sealed_of_opened (i := 2) later isSealed rfl
  have top : ∀ b, final.fn.arena.Within 1 b → b = 1 := by
    intro b within
    rcases (Arena.within_iff here).mp within with same | ⟨parent, isParent', _⟩
    · exact same
    · rw [noParent] at isParent'
      cases isParent'
  have above : ∀ b, final.fn.arena.Parent 2 b → b = 1 := by
    rintro b ⟨block', isBlock, isParent'⟩
    cases isSecond.symm.trans isBlock
    rw [isParent] at isParent'
    exact (Option.some.inj isParent').symm
  refine ⟨ledger, counts, 2, ?_, isSealed.frozen, ?_, ⟨_, body ▸ here, ?_⟩, ?_, ?_, ?_⟩
  · exact ⟨books.accounted.sealed isSealed, orders.sealed isSealed,
      fun c b isParent => sane.rooted.tree c b (isSealed.parent isParent), isSealed.isLocal isLocal⟩
  · rw [body]
    exact nofun
  · rw [Block.statements, Block.head, isFront, isLoop, noTail]
    rfl
  · rw [body]
    exact Nat.lt_succ_self 1
  · rintro ⟨b, found, within, isFound, steps⟩
    rcases (Arena.within_iff isSecond).mp within with rfl | ⟨parent, isParent', within'⟩
    · cases isSecond.symm.trans isFound
      rw [isRecords] at steps
      cases steps
    · obtain rfl := above parent ⟨second, isSecond, isParent'⟩
      obtain rfl := top b within'
      cases here.symm.trans isFound
      rw [isFunction] at steps
      cases steps
  · rintro k (opened | ⟨b, isParent', b', found, init, within, isFound, member⟩)
    · rw [sameOpened 2 (Nat.lt_succ_self 2)] at opened
      exact opened
    · obtain rfl := above b isParent'
      obtain rfl := top b' within
      cases here.symm.trans isFound
      rw [isFront] at member
      cases member

/-! ## Between records -/

/-- Between two records only variables and columns can hold something that was not there at the
start. -/
structure Rested (counts : Nat → Option BlockId) (fn : Function) (m : Machine) : Prop where
  names : ∀ name, (∀ k, name ≠ variableName k) →
    m.env.lookup name = (Machine.start fn []).env.lookup name
  steppers : m.steppers = (Machine.start fn []).steppers
  size : m.columns.size = (Machine.start fn []).columns.size
  column : ∀ (i : Nat) (c d : Engine.Column), (Machine.start fn []).columns[i]? = some c →
    m.columns[i]? = some d → d.path = c.path ∧ d.name = c.name
  counted : Counted counts m
  past : m.Past
  ordinal : m.ordinal = m.position
  hashes : m.hashes = #[]
  topKs : m.topKs = #[]

section rested

variable {ledger : Ledger} {counts : Nat → Option BlockId} {fn : Function} {m m' : Machine}
variable {kept : BlockId → Prop} {v : Value}

theorem start_place (frozen : fn.frozen = true) {records : List Value} {i : Nat} {c : Column}
    (here : (Machine.start fn records).columns[i]? = some c) : c.place = none := by
  rw [Machine.start_columns frozen, List.getElem?_toArray, List.getElem?_map] at here
  obtain ⟨entry, _, rfl⟩ := Option.map_eq_some_iff.mp here
  rfl

theorem start_rested (counts : Nat → Option BlockId) (frozen : fn.frozen = true)
    (records : List Value) : Rested counts fn (Machine.start fn records) where
  names := fun _ _ => rfl
  steppers := rfl
  size := rfl
  column := by
    intro i c d here there
    cases here.symm.trans there
    exact ⟨rfl, rfl⟩
  counted := start_counted counts frozen records
  past := by
    intro i c place here isPlace
    rw [start_place frozen here] at isPlace
    cases isPlace
  ordinal := rfl
  hashes := rfl
  topKs := rfl

theorem Rested.take (rested : Rested counts fn m) : Counted counts (m.take v) :=
  rested.counted.of_same rfl rfl rfl rfl

theorem Rested.agrees (rested : Rested counts fn m) (frozen : fn.frozen = true) (v : Value) :
    Agrees ledger (fun _ => False) m.written [] (m.take v) ((Machine.start fn [v]).take v) where
  akin :=
    { record := rfl
      started := Nat.succ_ne_zero _
      started' := Nat.succ_ne_zero _
      steppers := rested.steppers.symm
      size := rested.size.symm
      column := by
        intro i c d here there
        obtain ⟨path, name⟩ := rested.column i d c there here
        have stale : ¬ (m.take v).Advanced c := by
          rintro ⟨place, isHere, isPlace⟩
          have late := rested.past i c place here isPlace
          rw [Machine.record_of_placeAt isHere, rested.ordinal] at late
          exact Nat.not_succ_le_self _ late
        have stale' : ¬ ((Machine.start fn [v]).take v).Advanced d := by
          rintro ⟨place, _, isPlace⟩
          have isNone := start_place frozen (show (Machine.start fn [v]).columns[i]? = some d from there)
          rw [isNone] at isPlace
          cases isPlace
        exact ⟨name.symm, path.symm, iff_of_false stale' stale, fun advanced => absurd advanced stale⟩
      tracked := (rested.take).tracked
      tracked' := ((start_rested counts frozen [v]).take).tracked
      hashes := rested.hashes
      hashes' := rfl
      topKs := rested.topKs
      topKs' := rfl
      written := ⟨[], rfl, rfl⟩ }
  names := fun name apart => (rested.names name apart).symm
  values := fun _ => False.elim
  guards := fun _ _ _ _ => False.elim

theorem Agrees.symm {before before' : List (List Value)} {n : Machine}
    (agrees : Agrees ledger (fun _ => False) before before' m n) :
    Agrees ledger (fun _ => False) before' before n m where
  akin := agrees.akin.symm
  names := fun name apart => (agrees.names name apart).symm
  values := fun _ => False.elim
  guards := fun _ _ _ _ => False.elim

/-- The code for a record leaves a machine between records. -/
theorem Rested.after (rested : Rested counts fn m) (settles : Settles counts kept (m.take v) m')
    (hashes : m'.hashes = #[]) (topKs : m'.topKs = #[]) : Rested counts fn m' where
  names := fun name apart => (settles.names name apart).trans (rested.names name apart)
  steppers := settles.steps.steppers.trans rested.steppers
  size := settles.steps.size.trans rested.size
  column := by
    intro i c d here there
    have below := Array.inside there
    rw [settles.steps.size] at below
    have between := Array.getElem?_eq_getElem below
    obtain ⟨path, name⟩ := rested.column i c _ here between
    obtain ⟨d', there', path'⟩ := settles.steps.column i _ between
    cases there.symm.trans there'
    exact ⟨path'.trans path, (settles.steps.name i _ d between there).trans name⟩
  counted := settles.counted rested.take
  past := by
    refine settles.steps.past fun i c place here isPlace => ?_
    refine Nat.le_trans (rested.past i c place here isPlace) ?_
    rw [rested.ordinal]
    exact Nat.le_succ _
  ordinal := settles.steps.ordinal.trans settles.steps.position.symm
  hashes := hashes
  topKs := topKs

end rested

/-! ## Runs -/

/-- The rows that a function writes for a record, if it answers. -/
def rowsOfRecord (fn : Function) (records : BlockId) (v : Value) : Option (List (List Value)) :=
  match execBlock fn records ((Machine.start fn [v]).take v) with
  | some (.ok (_, m)) => some m.rows
  | _ => none

/-- The rows that a function writes for records, one after the other. -/
def rowsOfRecords (fn : Function) (records : BlockId) : List Value → Option (List (List Value))
  | [] => some []
  | v :: rest => do
    let rows ← rowsOfRecord fn records v
    let more ← rowsOfRecords fn records rest
    some (rows ++ more)

theorem rowsOfRecords_append (fn : Function) (records : BlockId) (first second : List Value) :
    rowsOfRecords fn records (first ++ second) = (do
      let rows ← rowsOfRecords fn records first
      let more ← rowsOfRecords fn records second
      some (rows ++ more)) := by
  induction first with
  | nil => simp [rowsOfRecords]
  | cons v rest ih =>
    rw [List.cons_append, rowsOfRecords, ih, rowsOfRecords]
    simp [List.append_assoc, Option.bind_assoc]

section runs

variable {ledger : Ledger} {counts : Nat → Option BlockId} {fn : Function} {records : BlockId}
variable {m m' : Machine} {v : Value} {flow : Flow}

theorem PerRecord.round (per : PerRecord ledger counts fn records) (rested : Rested counts fn m)
    (done : execBlock fn records (m.take v) = some (.ok (flow, m'))) :
    flow = .proceed ∧ Rested counts fn m' ∧ m'.records = m.records ∧ m'.position = m.position + 1 ∧
      ∃ rows, rowsOfRecord fn records v = some rows ∧ m'.written = rows.reverse ++ m.written := by
  have settles := (per.lockstep.looped.laterHalts (Nat.le_refl fn.body) records per.inside _
    rested.take).answer done
  obtain ⟨flow', n', done', rfl, together⟩ := per.lockstep.laterAgree _ fn.body rfl le_rfl
    records per.inside _ _ _ per.opens rested.take (rested.agrees per.frozen v) flow m' done
  obtain ⟨_, _, _, agrees⟩ := together.agrees
  obtain ⟨rows, written, written'⟩ := agrees.akin.written
  refine ⟨?_, rested.after settles agrees.akin.hashes agrees.akin.topKs, settles.steps.records,
    settles.steps.position, rows.reverse, ?_, ?_⟩
  · cases flow' with
    | proceed => rfl
    | leave => exact absurd (together.leaves rfl) per.outside
    | finish => exact absurd rfl together.stays
  · unfold rowsOfRecord
    rw [done']
    change some n'.written.reverse = _
    rw [written', List.append_nil]
  · rw [written, List.reverse_reverse]

theorem PerRecord.answers (per : PerRecord ledger counts fn records) (rested : Rested counts fn m)
    (found : rowsOfRecord fn records v = some rows) :
    ∃ flow m', execBlock fn records (m.take v) = some (.ok (flow, m')) := by
  unfold rowsOfRecord at found
  split at found
  · next flow n done =>
    have fresh := start_rested counts per.frozen [v]
    obtain ⟨_, m', done', _⟩ := per.lockstep.laterAgree _ fn.body rfl le_rfl records
      per.inside _ _ _ per.opens fresh.take (rested.agrees per.frozen v).symm flow n done
    exact ⟨_, m', done'⟩
  · cases found

theorem Rested.cursor (rested : Rested counts fn m) (frozen : fn.frozen = true) :
    m.env.lookup Function.cursor = some (.handle .cursor) := by
  rw [rested.names _ fun k => (variableName_ne_cursor k).symm, Machine.start_env frozen]
  rfl

theorem Rested.sink (rested : Rested counts fn m) (frozen : fn.frozen = true) :
    m.env.lookup Function.sink = some (.handle .sink) := by
  rw [rested.names _ fun k => (variableName_ne_sink k).symm, Machine.start_env frozen]
  rfl

/-- The loop through the records at the next one. -/
theorem exec_records_take (cursor : m.env.lookup Function.cursor = some (.handle .cursor))
    (next : m.records[m.position]? = some v) : exec fn (.loop nextRecord records) m =
      (execBlock fn records >>= fun
        | .proceed => exec fn (.loop nextRecord records)
        | .leave => pure .proceed
        | .finish => pure .finish : Run Flow) (m.take v) := by
  conv_lhs => rw [exec]
  rw [bind_apply, eval_nextRecord cursor, next]
  rfl

/-- The loop through the records after the last one. -/
theorem exec_records_done (cursor : m.env.lookup Function.cursor = some (.handle .cursor))
    (next : m.records[m.position]? = none) : exec fn (.loop nextRecord records) m =
      some (.ok (.proceed, { m with record := .null })) := by
  rw [exec, bind_apply, eval_nextRecord cursor, next]
  rfl

theorem PerRecord.loop (per : PerRecord ledger counts fn records) :
    ∀ (rest : List Value) (m : Machine), Rested counts fn m → m.records.toList.drop m.position = rest →
      (∀ flow m', exec fn (.loop nextRecord records) m = some (.ok (flow, m')) → flow = .proceed ∧
        m'.env.lookup Function.sink = some (.handle .sink) ∧ ∃ rows,
          rowsOfRecords fn records rest = some rows ∧ m'.written = rows.reverse ++ m.written) ∧
      (∀ rows, rowsOfRecords fn records rest = some rows →
        ∃ flow m', exec fn (.loop nextRecord records) m = some (.ok (flow, m'))) := by
  intro rest
  induction rest with
  | nil =>
    intro m rested isRest
    have next : m.records[m.position]? = none := by
      rw [← Array.getElem?_toList]
      exact List.getElem?_eq_none (List.drop_eq_nil_iff.mp isRest)
    have ends : exec fn (.loop nextRecord records) m = _ :=
      exec_records_done (rested.cursor per.frozen) next
    refine ⟨fun flow m' done => ?_, fun _ _ => ⟨_, _, ends⟩⟩
    rw [ends] at done
    cases done
    exact ⟨rfl, rested.sink per.frozen, [], rfl, rfl⟩
  | cons v rest ih =>
    intro m rested isRest
    have next : m.records[m.position]? = some v := by
      rw [← Array.getElem?_toList, ← List.head?_drop, isRest]
      rfl
    have goes : exec fn (.loop nextRecord records) m = _ :=
      exec_records_take (rested.cursor per.frozen) next
    have step : ∀ m' : Machine, m'.records = m.records → m'.position = m.position + 1 →
        m'.records.toList.drop m'.position = rest := by
      intro m' sameRecords isNext
      rw [sameRecords, isNext, ← List.tail_drop, isRest]
      rfl
    refine ⟨fun flow m' done => ?_, fun rows found => ?_⟩
    · rw [goes] at done
      obtain ⟨first, middle, atRecord, after⟩ := bind_eq_answer done
      obtain ⟨rfl, rested', sameRecords, isNext, rows, found, written⟩ := per.round rested atRecord
      obtain ⟨isProceed, sink, more, found', written'⟩ :=
        (ih middle rested' (step middle sameRecords isNext)).1 flow m' after
      refine ⟨isProceed, sink, rows ++ more, ?_, ?_⟩
      · rw [rowsOfRecords, found, found']
        rfl
      · rw [written', written, List.reverse_append, List.append_assoc]
    · obtain ⟨first, isFirst, found⟩ := Option.bind_eq_some_iff.mp found
      obtain ⟨more, isMore, _⟩ := Option.bind_eq_some_iff.mp found
      obtain ⟨flow, middle, atRecord⟩ := per.answers rested isFirst
      obtain ⟨rfl, rested', sameRecords, isNext, _⟩ := per.round rested atRecord
      obtain ⟨flow, m', after⟩ := (ih middle rested' (step middle sameRecords isNext)).2 more isMore
      refine ⟨flow, m', ?_⟩
      rw [goes, bind_apply, atRecord]
      exact after

theorem exec_flushSink (sink : m.env.lookup Function.sink = some (.handle .sink)) :
    exec fn flushSink m = some (.ok (.proceed, { m with flushed := true })) := by
  have quiet : flushSink.isQuiet = true := by
    simp [flushSink, Node.isQuiet, Node.areQuiet, Member.flush, Member.hasNext]
  rw [exec_of_isQuiet quiet, bind_apply, flushSink, eval_member (eval_ident sink)]
  rfl

section

variable (per : PerRecord ledger counts fn records)

include per

theorem PerRecord.execBlock_body :
    execBlock fn fn.body = execAll fn [.loop nextRecord records, flushSink] := by
  obtain ⟨block, here, isBody⟩ := per.body
  rw [execBlock, if_neg per.proper, Arena.get, here, ← isBody]
  rfl

theorem PerRecord.of_answer
    (done : execBlock fn fn.body (Machine.start fn input) = some (.ok (flow, m'))) :
    rowsOfRecords fn records input = some m'.rows := by
  rw [per.execBlock_body, execAll] at done
  obtain ⟨first, middle, atLoop, after⟩ := bind_eq_answer done
  obtain ⟨rfl, sink, rows, found, written⟩ :=
    (per.loop input _ (start_rested counts per.frozen input) rfl).1 first middle atLoop
  dsimp only at after
  rw [execAll, bind_apply, exec_flushSink sink, execAll] at after
  cases after
  rw [found, Machine.rows, written]
  change some rows = some (rows.reverse ++ []).reverse
  rw [List.append_nil, List.reverse_reverse]

theorem PerRecord.exists_answer (found : rowsOfRecords fn records input = some rows) :
    ∃ flow m', execBlock fn fn.body (Machine.start fn input) = some (.ok (flow, m')) := by
  obtain ⟨gives, answers⟩ := per.loop input _ (start_rested counts per.frozen input) rfl
  obtain ⟨first, middle, atLoop⟩ := answers rows found
  obtain ⟨rfl, sink, _⟩ := gives first middle atLoop
  refine ⟨.proceed, { middle with flushed := true }, ?_⟩
  rw [per.execBlock_body, execAll, bind_apply, atLoop]
  dsimp only
  rw [execAll, bind_apply, exec_flushSink sink, execAll]
  rfl

theorem PerRecord.run (input : List Value)
    (rows : List (List Value)) : (∃ out, (Engine.run fn input).result = .ok out ∧ out.rows = rows) ↔
      rowsOfRecords fn records input = some rows := by
  unfold Engine.run
  rw [if_pos per.frozen]
  constructor
  · rintro ⟨out, isOut, rfl⟩
    split at isOut
    · next flow m done =>
      cases isOut
      exact per.of_answer done
    · cases isOut
    · cases isOut
    · cases isOut
  · intro found
    obtain ⟨flow, m, done⟩ := per.exists_answer found
    have same := per.of_answer done
    rw [done]
    exact ⟨_, rfl, Option.some.inj (same.symm.trans found)⟩

end

end runs

/-- A function processes records independently: it succeeds on two lists of records together if and
only if it succeeds on each, and then it writes the rows of the first list followed by the rows of the
second. -/
def Independent (fn : Function) : Prop :=
  ∀ first second : List Value,
    ((∃ out, (Engine.run fn (first ++ second)).result = .ok out) ↔
      (∃ out, (Engine.run fn first).result = .ok out) ∧
        ∃ out, (Engine.run fn second).result = .ok out) ∧
    ∀ out out₁ out₂, (Engine.run fn (first ++ second)).result = .ok out →
      (Engine.run fn first).result = .ok out₁ → (Engine.run fn second).result = .ok out₂ →
      out.rows = out₁.rows ++ out₂.rows

/-- A function that was compiled from a plan with no fused aggregate, and no fused group-by but record
by record, processes records independently if the metadata of its records is neither read nor
written. -/
theorem compile_records_independent (plan : Plan) (root : OpId) (config : Plan.Config)
    (catalog : Plan.Catalog) (schemas : Option Plan.Schemas) (stem : String)
    (functions : List ScanFunction) (f : ScanFunction)
    (compiled : (compile plan root config catalog schemas stem).result = .ok functions)
    (isFunction : f ∈ functions)
    (byRecord : FusesByRecord plan (compile plan root config catalog schemas stem).plan
      (compile plan root config catalog schemas stem).notes)
    (unread : plan.Unread (plan.metadata f.scan))
    (unwritten : ∀ v ∈ f.outputs, v.id ∉ (plan.metadata f.scan).map Var.id) : Independent f.fn := by
  intro first second
  obtain ⟨ledger, counts, records, per⟩ :=
    (compile_ownCode compiled isFunction byRecord unread unwritten).perRecord
  have whole : ∀ {input out}, (Engine.run f.fn input).result = .ok out →
      rowsOfRecords f.fn records input = some out.rows :=
    fun {input out} isOut => (per.run input out.rows).mp ⟨out, isOut, rfl⟩
  have append := rowsOfRecords_append f.fn records first second
  refine ⟨⟨?_, ?_⟩, ?_⟩
  · rintro ⟨out, isOut⟩
    rw [whole isOut] at append
    obtain ⟨rows, isRows, rest⟩ := Option.bind_eq_some_iff.mp append.symm
    obtain ⟨more, isMore, _⟩ := Option.bind_eq_some_iff.mp rest
    exact ⟨((per.run first rows).mpr isRows).imp fun _ => And.left,
      ((per.run second more).mpr isMore).imp fun _ => And.left⟩
  · rintro ⟨⟨out₁, isOut₁⟩, out₂, isOut₂⟩
    rw [whole isOut₁, whole isOut₂] at append
    exact ((per.run _ _).mpr append).imp fun _ => And.left
  · intro out out₁ out₂ isOut isOut₁ isOut₂
    rw [whole isOut, whole isOut₁, whole isOut₂] at append
    exact Option.some.inj append

/-- A group-by over the elements of a list, with a key of the record, below an aggregate of all
records. -/
def groupedLists : Plan :=
  let r : Var := ⟨0, "r", .record⟩
  let m : Var := ⟨1, "m", .any⟩
  let x : Var := ⟨2, "x", .any⟩
  let k : Var := ⟨3, "k", .any⟩
  let total : Var := ⟨4, "t", .any⟩
  let most : Var := ⟨5, "u", .any⟩
  { ops := #[
      { body := .scan "d" [r, m] "" [], inputs := [] },
      { body := .unnest x none (.field (.var r) "a"), inputs := [0] },
      { body := .groupBy [⟨k, .field (.var r) "b"⟩] (some 6) false, inputs := [1] },
      { body := .aggregate [most] [⟨.localMax, [.var total], Location.none⟩] true, inputs := [2] },
      { body := .boundary .distributeResult [], inputs := [3] },
      { body := .nestedSource (some 2), inputs := [] },
      { body := .aggregate [total] [⟨.localSum, [.var x], Location.none⟩] false, inputs := [5] }] }

/-- Whether there is one function, and it passes a test. -/
def isOnly (test : ScanFunction → Bool) : Except Abort (List ScanFunction) → Bool
  | .ok [f] => test f
  | _ => false

/-- The group-by of `groupedLists` is done for each record and the aggregate is left in the plan, and
so the function is independent. -/
theorem compile_groupedLists_independent :
    ∃ f, (compile groupedLists 4 {} columnar none "f").result = .ok [f] ∧ f.outputs.length = 2 ∧
      FusesByRecord groupedLists (compile groupedLists 4 {} columnar none "f").plan
        (compile groupedLists 4 {} columnar none "f").notes ∧ Independent f.fn := by
  have compiles : isOnly (fun f => f.scan == 0 && f.outputs.map Var.id == [3, 4])
      (compile groupedLists 4 {} columnar none "f").result = true := by decide +kernel
  have inputs : (compile groupedLists 4 {} columnar none "f").plan.ops.toList.map
      Plan.Operator.inputs = [[], [0], [0], [0], [3], [], [5]] := by decide +kernel
  have byRecord : FusesByRecord groupedLists (compile groupedLists 4 {} columnar none "f").plan
      (compile groupedLists 4 {} columnar none "f").notes := by
    refine ⟨fun op o vars calls isGlobal found isBody => ?_, by decide +kernel⟩
    have inside : op < 7 := Array.inside found
    obtain rfl | rfl : op = 3 ∨ op = 6 := by
      interval_cases op <;> cases found <;> cases isBody <;> decide
    all_goals
      refine Plan.not_bypassed (Plan.forall_readsFrom rfl ?_) (Plan.forall_readsFrom inputs ?_)
      · decide
      · decide
  unfold isOnly at compiles
  split at compiles
  · next f compiled =>
    obtain ⟨isScan, outputs⟩ := Bool.and_eq_true_iff.mp compiles
    replace outputs := eq_of_beq outputs
    refine ⟨f, compiled, by simpa using congrArg List.length outputs, byRecord,
      compile_records_independent _ _ _ _ _ _ _ f compiled (List.mem_singleton_self f) byRecord ?_ ?_⟩
    · rw [eq_of_beq isScan]
      unfold Plan.Unread
      decide
    · rw [eq_of_beq isScan]
      have apart : ∀ id ∈ f.outputs.map Var.id, id ∉ (groupedLists.metadata 0).map Var.id := by
        rw [outputs]
        decide
      exact fun v member => apart v.id (List.mem_map_of_mem member)
  · cases compiles

end QueryFusion.Fusion

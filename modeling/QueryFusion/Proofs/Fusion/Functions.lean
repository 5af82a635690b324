import QueryFusion.Proofs.Engine.Records
import QueryFusion.Proofs.Fusion.Pipeline

/-!
# Complete functions

A function starts as a loop over the records with an empty body. When it is complete, a run of it
declares what stands in front of its body, goes through the records and flushes the sink.
-/

namespace QueryFusion.Fusion

open Code
open Code.Arena (declaration declaration_inj)
open Engine
open Plan (Tuple Body Among)

/-! ## New scopes -/

/-- What a variable of a scan stands for. -/
def scanMeaning (i : Nat) : Meaning :=
  if i = 0 then .code (.member (.ident Function.cursor) Code.Member.record []) []
  else .code (.member (.ident Function.cursor) Code.Member.describe [.long (Int64.ofNat i)]) []

/-- The code of a new function: a loop over the records that does nothing. -/
def emptyFunction : Function where
  name := ""
  arena := { blocks := #[{ parent := none, tag := .none },
    { parent := none, tag := .function, rest := [.loop Engine.nextRecord 2] },
    { parent := some 1, tag := .records }] }
  body := 1

/-- The scope of a scan before anything is fused. -/
def Scope.opened (scan : Plan.OpId) (dataset : String) (vars : List Var) (schema : Plan.Schema) :
    Scope where
  scan := scan
  dataset := dataset
  scanVars := vars
  schema := schema
  fn := emptyFunction
  current := 2
  live := { values := vars.zipIdx.foldl (fun m entry => m.insert entry.1 (scanMeaning entry.2)) {} }
  outputs := vars

theorem Scope.new_eq (scan : Plan.OpId) (dataset : String) (vars : List Var) (schema : Plan.Schema) :
    Scope.new scan dataset vars schema = .ok (.opened scan dataset vars schema) := rfl

section opened

variable {D : Path → Prop} {scan : Plan.OpId} {dataset : String} {vars : List Var}
variable {schema : Plan.Schema} {spot : Spot} {m : Machine} {hidden : Nat → Prop}

theorem emptyFunction_block {id : BlockId} {block : Block}
    (here : emptyFunction.arena.blocks[id]? = some block) :
    (id = 0 ∧ block.parent = none ∨ id = 1 ∧ block.parent = none ∨ id = 2 ∧ block.parent = some 1) ∧
    block.front = [] ∧ block.tail = [] ∧ block.bound = [] ∧ block.overrides = [] ∧
    (id ≠ 1 → block.rest = []) := by
  match id with
  | 0 =>
    cases here
    exact ⟨.inl ⟨rfl, rfl⟩, rfl, rfl, rfl, rfl, fun _ => rfl⟩
  | 1 =>
    cases here
    exact ⟨.inr (.inl ⟨rfl, rfl⟩), rfl, rfl, rfl, rfl, fun apart => absurd rfl apart⟩
  | 2 =>
    cases here
    exact ⟨.inr (.inr ⟨rfl, rfl⟩), rfl, rfl, rfl, rfl, fun _ => rfl⟩
  | id + 3 => cases here

theorem emptyFunction_parent {id parent : BlockId}
    (isParent : emptyFunction.arena.Parent id parent) : id = 2 ∧ parent = 1 := by
  obtain ⟨block, here, same⟩ := isParent
  obtain ⟨⟨_, none⟩ | ⟨_, none⟩ | ⟨isTwo, isOne⟩, _⟩ := emptyFunction_block here
  · rw [none] at same; cases same
  · rw [none] at same; cases same
  · rw [isOne] at same
    exact ⟨isTwo, (Option.some.inj same).symm⟩

theorem emptyFunction_root {b : BlockId} (within : emptyFunction.arena.Within 1 b) : b = 1 := by
  have outer : emptyFunction.arena.blocks[1]? =
    some { parent := none, tag := .function, rest := [.loop nextRecord 2] } := rfl
  rcases (Arena.within_iff outer).mp within with same | ⟨parent, isParent, _⟩
  · exact same
  · cases isParent

theorem emptyFunction_named : emptyFunction.arena.Named where
  front := by
    intro id block here s member
    rw [(emptyFunction_block here).2.1] at member
    cases member
  distinct := by
    intro id block here
    rw [(emptyFunction_block here).2.1]
    exact List.Pairwise.nil
  apart := by
    intro id id' block block' n init init' here _ member _
    rw [(emptyFunction_block here).2.1] at member
    cases member

theorem opened_isParent : (Scope.opened scan dataset vars schema).fn.arena.Parent 2 1 :=
  ⟨_, rfl, rfl⟩

theorem opened_rooted : (Scope.opened scan dataset vars schema).Rooted where
  tree := by
    intro id parent isParent
    obtain ⟨rfl, rfl⟩ := emptyFunction_parent isParent
    decide
  top := by
    intro parent isParent
    obtain ⟨same, _⟩ := emptyFunction_parent isParent
    cases same
  current := Nat.lt_succ_self 2
  body := .single opened_isParent

theorem opened_open {b : BlockId} (isOpen : (Scope.opened scan dataset vars schema).Open b) :
    b = 2 ∨ b = 1 := by
  have inner : emptyFunction.arena.blocks[2]? = some { parent := some 1, tag := .records } := rfl
  rcases (Arena.within_iff inner).mp isOpen with same | ⟨parent, isParent, within⟩
  · exact .inl same
  · cases isParent
    exact .inr (emptyFunction_root within)

theorem opened_sound (texts : ∀ p q, D p → D q → p.text = q.text → p = q) :
    Sound D (.opened scan dataset vars schema) where
  texts := texts
  rooted := opened_rooted
  named := emptyFunction_named
  reads := ⟨nofun, List.Pairwise.nil⟩
  direct := fun _ _ _ here => (emptyFunction_block here).2.2.2.2.1

theorem opened_fresh : (Scope.opened scan dataset vars schema).Fresh 1 where
  isParent := opened_isParent
  empty := by
    intro block here
    obtain ⟨_, front, tail, bound, _, rest⟩ := emptyFunction_block here
    exact ⟨front, rest (Nat.succ_ne_self 1), tail, bound⟩

theorem VarMap.find?_insertAll_of_apart {α : Type} (f : Nat → α) (w : Var) :
    ∀ (entries : List (Var × Nat)) (m : VarMap α), (∀ entry ∈ entries, entry.1.id ≠ w.id) →
      (entries.foldl (fun m entry => m.insert entry.1 (f entry.2)) m).find? w = m.find? w
  | [], _, _ => rfl
  | (v, i) :: rest, m, apart => by
    rw [List.foldl_cons, find?_insertAll_of_apart f w rest _ (List.forall_mem_cons.mp apart).2, VarMap.find?_insert]
    exact if_neg (Ne.symm (apart (v, i) (.head _)))

theorem VarMap.find?_insertAll {α : Type} (f : Nat → α) {v w : Var} {i : Nat} (same : v.id = w.id) :
    ∀ (entries : List (Var × Nat)) (m : VarMap α), (entries.map (·.1.id)).Nodup →
      (v, i) ∈ entries →
      (entries.foldl (fun m entry => m.insert entry.1 (f entry.2)) m).find? w = some (f i)
  | (u, k) :: rest, m, distinct, member => by
    rw [List.map_cons, List.nodup_cons] at distinct
    rw [List.foldl_cons]
    rcases List.mem_cons.mp member with isFirst | later
    · cases isFirst
      rw [find?_insertAll_of_apart, VarMap.find?_insert, if_pos same.symm]
      rintro entry member' sameId
      exact distinct.1 (List.mem_map.mpr ⟨entry, member', sameId.trans same.symm⟩)
    · exact find?_insertAll f same rest _ distinct.2 later

theorem opened_value {v w : Var} {i : Nat} (distinct : (vars.map Var.id).Nodup)
    (here : vars[i]? = some v) (same : v.id = w.id) :
    (Scope.opened scan dataset vars schema).live.values.find? w = some (scanMeaning i) := by
  refine VarMap.find?_insertAll scanMeaning same _ _ ?_ (List.mem_zipIdx_iff_getElem?.mpr here)
  have ids : (fun entry : Var × Nat => entry.1.id) = Var.id ∘ Prod.fst := rfl
  rw [ids, ← List.map_map, List.zipIdx_map_fst]
  exact distinct

theorem opened_plainly : (Scope.opened scan dataset vars schema).Plainly :=
  ⟨rfl, rfl⟩

theorem opened_inScope (distinct : (vars.map Var.id).Nodup)
    (noPath : ∀ v ∈ vars, schema.varPath? v = none) :
    InScope D (.opened scan dataset vars schema) (fun _ => False) (Among vars) := by
  have meaning : ∀ w : Var, Among vars (.var w) → ∃ i v, vars[i]? = some v ∧ v.id = w.id ∧
      (Scope.opened scan dataset vars schema).live.values.find? w = some (scanMeaning i) := by
    rintro w ⟨w', same, v, member, sameId⟩
    cases same
    obtain ⟨i, here⟩ := List.mem_iff_getElem?.mp member
    exact ⟨i, v, here, sameId, opened_value distinct here sameId⟩
  have isCode : ∀ i, ∃ node, scanMeaning i = .code node [] ∧ ∀ name, node ≠ .ident name := by
    intro i
    unfold scanMeaning
    split
    · exact ⟨_, rfl, fun _ => nofun⟩
    · exact ⟨_, rfl, fun _ => nofun⟩
  refine ⟨nofun, fun e ⟨v, isVar, _⟩ => ⟨v, isVar⟩, fun _ => rfl, fun _ => rfl, ?_, ?_, nofun, ?_⟩
  · intro w isSeen
    obtain ⟨i, v, _, _, found⟩ := meaning w isSeen
    obtain ⟨node, same, _⟩ := isCode i
    refine ⟨_, found, fun p isPath => ?_⟩
    rw [same] at isPath
    cases isPath
  · rintro w p ⟨w', same, v, member, sameId⟩ isPath
    cases same
    have none : schema.varPath? w = none := by
      have isNone := noPath v member
      unfold Plan.Schema.varPath? at isNone ⊢
      rw [← sameId]
      exact isNone
    exact absurd (none.symm.trans isPath) nofun
  · intro w node readers isSeen found
    obtain ⟨i, v, _, _, isMeaning⟩ := meaning w isSeen
    obtain ⟨node', same, notName⟩ := isCode i
    rw [isMeaning, same] at found
    cases found
    exact fun name isName => absurd isName (notName name)

theorem opened_live (distinct : (vars.map Var.id).Nodup)
    (noPath : ∀ v ∈ vars, schema.varPath? v = none)
    (isRecord : ∀ v, vars[0]? = some v → schema.record.id = v.id) (there : spot.ordinal ≠ 0) :
    Live (.opened scan dataset vars schema) spot (fun _ => False) (Among vars)
      (Tuple.ofRecord vars spot.record (spot.ordinal - 1)).known m := by
  have lookup : ∀ (v : Var) (x : Value),
      (Tuple.ofRecord vars spot.record (spot.ordinal - 1)).known (.var v) = some x → _ :=
    fun v x found => Tuple.lookup_ofRecord found
  have atCode : ∀ i, ∃ node, scanMeaning i = .code node [] ∧
      ∀ free, Fixed free spot m node
        (if i = 0 then spot.record else .int (Int64.ofNat (spot.ordinal - 1))) := by
    intro i
    unfold scanMeaning
    split
    · exact ⟨_, rfl, fun _ => .record there⟩
    · exact ⟨_, rfl, fun _ => .describe there _⟩
  refine ⟨(Tuple.covers_ofRecord vars _ _).domain, ?_, ?_, nofun, ?_, ?_⟩
  · intro w x node readers isKnown found
    obtain ⟨i, v, here, same, rfl⟩ := lookup w x isKnown
    obtain ⟨node', isMeaning, fixed⟩ := atCode i
    rw [opened_value distinct here same, isMeaning] at found
    cases found
    exact fixed _
  · intro w x p isKnown found
    obtain ⟨i, v, here, same, _⟩ := lookup w x isKnown
    obtain ⟨node', isMeaning, _⟩ := atCode i
    rw [opened_value distinct here same, isMeaning] at found
    cases found
  · intro w x p isKnown isPath
    obtain ⟨i, v, here, same, _⟩ := lookup w x isKnown
    have isNone := noPath v (List.mem_of_getElem? here)
    change (schema.bound.find? _).map _ = _ at isPath
    unfold Plan.Schema.varPath? at isNone
    rw [same, isPath] at isNone
    cases isNone
  · intro w x isKnown sameId
    obtain ⟨i, v, here, same, rfl⟩ := lookup w x isKnown
    cases i with
    | zero => rfl
    | succ k =>
      have isFirst : ∃ first, vars[0]? = some first := by
        cases vars with
        | nil => cases here
        | cons first rest => exact ⟨first, rfl⟩
      obtain ⟨first, isFirst⟩ := isFirst
      have clash : first.id = v.id := (isRecord first isFirst).symm.trans (sameId.symm.trans same.symm)
      exfalso
      have below := (List.getElem?_eq_some_iff.mp here).1
      have ids : (vars.map Var.id)[0]? = (vars.map Var.id)[k + 1]? := by
        rw [List.getElem?_map, List.getElem?_map, isFirst, here]
        exact congrArg some clash
      have same := (List.getElem?_inj (by rw [List.length_map]; omega) distinct).mp ids
      cases same

end opened

/-! ## Before the first record -/

end QueryFusion.Fusion

namespace QueryFusion.Engine

open Code (Node)

/-- Only names were given values and aggregators made. -/
structure Machine.Readies (m m' : Machine) : Prop where
  same : m' = { m with env := m'.env, hashes := m'.hashes, topKs := m'.topKs }
  kept : ∀ (i : Nat) (agg : HashAggregator), m.hashes[i]? = some agg → m'.hashes[i]? = some agg
  topKs : m.topKs.size ≤ m'.topKs.size
  emptyHashes : ∀ agg ∈ m'.hashes, agg ∈ m.hashes ∨ agg.table = {}
  emptyTopKs : ∀ agg ∈ m'.topKs, agg ∈ m.topKs ∨ agg.table = {}

theorem Machine.Readies.trans {m m' m'' : Machine} (first : m.Readies m') (second : m'.Readies m'') :
    m.Readies m'' where
  same := by
    rw [second.same, first.same]
  kept := fun i agg here => second.kept i agg (first.kept i agg here)
  topKs := first.topKs.trans second.topKs
  emptyHashes := fun agg member => (second.emptyHashes agg member).elim (first.emptyHashes agg) .inr
  emptyTopKs := fun agg member => (second.emptyTopKs agg member).elim (first.emptyTopKs agg) .inr

theorem Machine.Readies.of_env {m : Machine} (env : List (String × Value)) : m.Readies { m with env } :=
  ⟨rfl, fun _ _ => id, le_rfl, fun _ => .inl, fun _ => .inl⟩

theorem Machine.Readies.hashes {m m' : Machine} (readies : m.Readies m') :
    m.hashes.size ≤ m'.hashes.size := by
  rcases Nat.lt_or_ge m'.hashes.size m.hashes.size with fewer | atLeast
  · have there := readies.kept m'.hashes.size _ (Array.getElem?_eq_getElem fewer)
    exact absurd (Array.inside there) (Nat.lt_irrefl _)
  · exact atLeast

theorem Machine.Groups.kept {m m' : Machine} {v : Value} (groups : m.Groups v)
    (readies : m.Readies m') : m'.Groups v := groups.mono readies.hashes readies.topKs

theorem eval_newHashAggregator {kind : String} {budget : Int64} {hashKind : HashKind}
    (isKind : HashKind.ofName? kind = some hashKind) (m : Machine) :
    eval (.call Code.Builtin.newHashAggregator [.string kind, .long budget]) m =
      some (.ok (.handle (.hashAggregator m.hashes.size),
        { m with hashes := m.hashes.push { kind := hashKind, budget } })) := by
  change newHashAggregator (.string kind) (.int budget) m = _
  unfold newHashAggregator
  rw [isKind]
  rfl

theorem eval_newTopKAggregator (count : Int64) (least : Bool) (m : Machine) :
    eval (.call Code.Builtin.newTopKAggregator [.long count, .bool least]) m =
      some (.ok (.handle (.topKAggregator m.topKs.size),
        { m with topKs := m.topKs.push { limit := count.toInt, least } })) := by
  change callBuiltin Code.Builtin.newTopKAggregator [.int count, .bool least] m = _
  unfold callBuiltin
  rw [if_neg (by decide), if_neg (by decide), if_neg (by decide), if_neg (by decide),
    if_neg (by decide), if_pos rfl]
  cases least <;> rfl

end QueryFusion.Engine

namespace QueryFusion.Fusion

open Code
open Code.Arena (declaration declaration_inj)
open Engine
open Plan (Tuple Body Among)

variable {init : Node} {scope : Scope} {spot : Spot} {wanted : Flow → Machine → Prop}
variable {name : String} {b : BlockId} {accepted : RunError → Prop} {records : List Value}

section top

variable {fn : Function}

/-- What a variable that is declared in front of the body of a function holds. -/
def Begins (m : Machine) (n : Nat) (init : Node) : Prop :=
  ∃ v, m.env.lookup (variableName n) = some v ∧ Suits m init v

/-- The value that a variable was declared with: a constant, or a hash aggregator without groups. -/
structure IsNew (m : Machine) (init : Node) (v : Value) : Prop where
  constant : ∀ l, init = .lit l → v = Engine.literalValue l
  aggregator : ∀ kind budget hashKind,
    init = .call Code.Builtin.newHashAggregator [.string kind, .long budget] →
    HashKind.ofName? kind = some hashKind →
    ∃ i, v = .handle (.hashAggregator i) ∧ m.hashes[i]? = some { kind := hashKind, budget }

theorem IsNew.kept {m m' : Machine} {v : Value} (isNew : IsNew m init v) (readies : m.Readies m') :
    IsNew m' init v where
  constant := isNew.constant
  aggregator := by
    intro kind budget hashKind isInit isKind
    obtain ⟨i, isHandle, here⟩ := isNew.aggregator kind budget hashKind isInit isKind
    exact ⟨i, isHandle, readies.kept i _ here⟩

theorem MakesGroups.eval (makes : MakesGroups init) (m : Machine) :
    ∃ v m', eval init m = some (.ok (v, m')) ∧ m.Readies m' ∧ m'.env = m.env ∧ m'.Groups v ∧
      IsNew m' init v := by
  cases makes with
  | hash kind budget isKind =>
    obtain ⟨hashKind, isKind⟩ := Option.isSome_iff_exists.mp isKind
    refine ⟨_, _, eval_newHashAggregator isKind m, ⟨rfl, ?_, le_rfl, ?_, fun _ => .inl⟩,
      rfl, .inl ⟨_, rfl, ?_⟩, nofun, ?_⟩
    · intro i agg here
      have below := Array.inside here
      rw [Array.getElem?_push, if_neg below.ne]
      exact here
    · exact fun agg member => (Array.mem_push.mp member).imp_right fun same => by rw [same]
    · simp
    · rintro _ _ hashKind' same isKind'
      cases same
      cases isKind.symm.trans isKind'
      exact ⟨_, rfl, Array.getElem?_push_size⟩
  | topK count least =>
    refine ⟨_, _, eval_newTopKAggregator count least m,
      ⟨rfl, fun _ _ => id, ?_, fun _ => .inl, ?_⟩, rfl, .inr ⟨_, rfl, ?_⟩, nofun, ?_⟩
    · simp
    · exact fun agg member => (Array.mem_push.mp member).imp_right fun same => by rw [same]
    · simp
    · intro _ _ _ same
      exact absurd (Node.call.inj same).1 (by decide)

/-- Declarations in front of the body of a function. -/
theorem ends_top : ∀ (code : List Node) (m : Machine),
    (∀ s ∈ code, ∃ n init, s = declaration n init ∧ ((∃ l, init = .lit l) ∨ MakesGroups init)) →
    (code.Pairwise fun s t => ∀ n init init', s = declaration n init → t ≠ declaration n init') →
    Ends (execAll fn code) m (Onward fun m' => m.Readies m' ∧
      (∀ name, (∀ n, name ≠ variableName n) → m'.env.lookup name = m.env.lookup name) ∧
      (∀ n, (∀ init, declaration n init ∉ code) →
        m'.env.lookup (variableName n) = m.env.lookup (variableName n)) ∧
      ∀ n init, declaration n init ∈ code → ∃ v, m'.env.lookup (variableName n) = some v ∧
        Suits m' init v ∧ IsNew m' init v) accepted
  | [], m, _, _ => .nil ⟨rfl, .of_env m.env, fun _ _ => rfl, fun _ _ => rfl,
      fun _ _ member => nomatch member⟩
  | s :: rest, m, each, distinct => by
    obtain ⟨n, init, rfl, kind⟩ := each s (.head _)
    obtain ⟨first, others⟩ := List.pairwise_cons.mp distinct
    have value : ∃ v m₁, eval init m = some (.ok (v, m₁)) ∧ m.Readies m₁ ∧
        m₁.env = m.env ∧ Suits m₁ init v ∧ IsNew m₁ init v := by
      rcases kind with ⟨l, rfl⟩ | makes
      · exact ⟨_, m, by rw [eval]; rfl, .of_env m.env, rfl, nofun,
          ⟨fun _ same => congrArg literalValue (Node.lit.inj same), nofun⟩⟩
      · obtain ⟨v, m₁, evaluates, readies, env, groups, isNew⟩ := makes.eval m
        exact ⟨v, m₁, evaluates, readies, env, fun _ => groups, isNew⟩
    obtain ⟨v, m₁, evaluates, readies, env, suits, isNew⟩ := value
    have stored : m₁.Readies (m₁.put (variableName n) v) := .of_env _
    refine .cons (.assign (.of_eq evaluates (.of_eq (store_apply v (.inl rfl)) ⟨rfl, ?_⟩)))
    refine (ends_top rest _ (List.forall_mem_cons.mp each).2 others).mono ?_ fun _ => id
    rintro flow m' ⟨rfl, readies', names, kept, begins⟩
    refine ⟨rfl, (readies.trans stored).trans readies', ?_, ?_, ?_⟩
    · intro name apart
      rw [names name apart, Machine.lookup_put, if_neg (apart n), env]
    · intro k absent
      rw [kept k fun init member => absent init (.tail _ member), Machine.lookup_put, if_neg, env]
      intro same
      obtain rfl := variableName_injective same
      exact absent init (.head _)
    · intro k init' member
      rcases List.mem_cons.mp member with same | later
      · obtain ⟨rfl, rfl⟩ := declaration_inj same
        refine ⟨v, ?_, fun makes => ((suits makes).kept stored).kept readies',
          (isNew.kept stored).kept readies'⟩
        rw [kept, Machine.lookup_put, if_pos rfl]
        intro init member'
        exact first _ member' _ _ _ rfl rfl
      · exact begins k init' later

end top

/-! ## From record to record -/

/-- The variables in front of the body of a function start as constants or aggregators. -/
def Scope.Tops (final : Scope) : Prop :=
  ∀ n init, final.Declares 1 n init → (∃ l, init = .lit l) ∨ MakesGroups init

/-- A run has dealt with some records and not begun the next one. -/
structure Between (final : Scope) (records : List Value) (done : Nat) (m : Machine) : Prop where
  wired : m.Wired final.fn.paths
  records : m.records = records.toArray
  position : m.position = done
  begun : ∀ n init, final.Declares 1 n init → Begins m n init

section records

variable {scan : Plan.OpId} {dataset : String} {vars : List Var} {schema : Plan.Schema}
variable {D : Path → Prop} {done final : Scope} {k : Nat} {m m' : Machine}
variable {record : Value}

/-- The spot of a record. -/
abbrev spotOf (record : Value) (k : Nat) : Spot := { record, ordinal := k + 1 }

theorem Between.ready (between : Between final records k m) (record : Value) :
    Ready final ((Scope.opened scan dataset vars schema).goto 1) (spotOf record k)
      (m.take record) := by
  refine ⟨⟨{ between.wired with }, rfl, congrArg (· + 1) between.position⟩, ?_, ?_⟩
  · rintro j c ⟨b, block, _, here, member⟩
    rw [(emptyFunction_block here).2.2.2.1] at member
    cases member
  · intro b n init isOpen declares
    obtain rfl := emptyFunction_root isOpen
    obtain ⟨v, found, suits⟩ := between.begun n init declares
    exact ⟨v, found, fun makes => (suits makes).mono le_rfl le_rfl⟩

theorem Between.next {written : Nat → Prop} (between : Between final records k m)
    (ready : Ready final scope spot m') (isOpen : scope.Open 1)
    (frame : (m.take record).Frame written m') : Between final records (k + 1) m' where
  wired := ready.stands.wired
  records := frame.records.trans between.records
  position := by
    rw [frame.position]
    exact congrArg (· + 1) between.position
  begun := fun n init => ready.declared 1 n init isOpen

theorem Readies.wired {paths : List Path} (wired : m.Wired paths) (readies : m.Readies m')
    (names : ∀ name, (∀ n, name ≠ variableName n) → m'.env.lookup name = m.env.lookup name) :
    m'.Wired paths := by
  have columns : m'.columns = m.columns := by rw [readies.same]
  refine ⟨?_, ?_, ?_, columns ▸ wired.column, columns ▸ wired.size⟩
  · exact (names _ fun n => (variableName_ne_cursor n).symm).trans wired.cursor
  · exact (names _ fun n => (variableName_ne_sink n).symm).trans wired.sink
  · exact fun j below =>
      (names _ fun n => (variableName_ne_readerName n j).symm).trans (wired.reader j below)

theorem ends_function (scan : Plan.OpId) (dataset : String) (vars : List Var) (schema : Plan.Schema)
    {block : Block} {more : List Node} (frozen : final.fn.frozen = true)
    (named : final.fn.arena.Named) (here : final.fn.arena.blocks[1]? = some block)
    (rest : block.rest = .loop nextRecord 2 :: more) (tops : final.Tops)
    (keeps : Nat → Machine → Prop) (between : ∀ k m, keeps k m → Between final records k m)
    (begins : ∀ m, Between final records 0 m → (Machine.start final.fn records).Readies m →
      (∀ n init, final.Declares 1 n init →
        ∃ v, m.env.lookup (variableName n) = some v ∧ IsNew m init v) → keeps 0 m)
    (round : ∀ k record m, records[k]? = some record → keeps k m →
      Ready final ((Scope.opened scan dataset vars schema).goto 1) (spotOf record k)
        (m.take record) →
      Ends (execBlock final.fn 2) (m.take record) (Onward (keeps (k + 1))) accepted)
    (after : ∀ m, keeps records.length m →
      Ends (execAll final.fn (more ++ block.tail)) { m with record := .null } wanted accepted) :
    Ends (execBlock final.fn 1) (Machine.start final.fn records) wanted accepted := by
  have declared : ∀ n init, final.Declares 1 n init ↔ declaration n init ∈ block.front := by
    intro n init
    constructor
    · rintro ⟨block', here', member⟩
      cases here.symm.trans here'
      exact member
    · exact fun member => ⟨block, here, member⟩
  refine .block here (Nat.succ_ne_zero 0) ?_
  unfold Block.statements Block.head
  rw [List.append_assoc, rest]
  refine .append ((ends_top block.front _ ?_ ?_).mono ?_ fun _ => id)
  · intro s member
    obtain ⟨n, init, _, rfl⟩ := named.front 1 block here s member
    exact ⟨n, init, rfl, tops n init ((declared n init).mpr member)⟩
  · exact named.distinct 1 block here
  · rintro flow m ⟨rfl, readies, names, _, begun⟩
    refine ⟨rfl, ?_⟩
    have isStart : Between final records 0 m := by
      refine ⟨Readies.wired (Machine.start_wired frozen) readies names, ?_, ?_, ?_⟩
      · rw [readies.same]
        rfl
      · rw [readies.same]
        rfl
      · intro n init declares
        obtain ⟨v, found, suits, _⟩ := begun n init ((declared n init).mp declares)
        exact ⟨v, found, suits⟩
    refine Ends.cons ((Ends.records records keeps ?_ ?_ ?_).mono ?_ fun _ => id)
    · exact fun k m held => ⟨(between k m held).wired.cursor, (between k m held).records,
        (between k m held).position⟩
    · exact fun k record m isRecord held =>
        round k record m isRecord held ((between k m held).ready record)
    · refine begins m isStart readies fun n init declares => ?_
      obtain ⟨v, found, _, isNew⟩ := begun n init ((declared n init).mp declares)
      exact ⟨v, found, isNew⟩
    · rintro flow m' ⟨rfl, last, held, rfl⟩
      exact ⟨rfl, after last held⟩

/-- The body of a function keeps its loop over the records. -/
theorem opened_body (step : (Scope.opened scan dataset vars schema).Step D done) :
    ∃ block, done.fn.arena.blocks[1]? = some block ∧
      block.rest = [.loop nextRecord 2] ∧ block.tail = [] := by
  obtain ⟨block, here, _⟩ := step.enters.later.arena.grown 1 _ rfl
  obtain ⟨tail, _, apart⟩ := step.calm 1 _ block rfl here
  exact ⟨block, here, (apart (Nat.succ_ne_self 1).symm).1, tail⟩

theorem opened_tops (step : (Scope.opened scan dataset vars schema).Step D done)
    (declared : ∀ n init, final.Declares 1 n init → done.Declares 1 n init) : final.Tops := by
  intro n init declares
  rcases step.fronts 1 n init (.single opened_isParent) (declared n init declares) with
    ⟨old, isOld, member⟩ | ⟨_, starts⟩
  · rw [(emptyFunction_block isOld).2.1] at member
    cases member
  · cases starts with
    | lit l => exact .inl ⟨l, rfl⟩
    | groups makes => exact .inr makes

/-- The aggregators in front of the body are the same. -/
def KeepsGroups (final : Scope) (m m' : Machine) : Prop :=
  ∀ n init, final.Declares 1 n init → (∀ l, init ≠ .lit l) →
    m'.env.lookup (variableName n) = m.env.lookup (variableName n)

/-- The code of one more record. -/
theorem ends_round {pre : Prop} {fact : Unit → Scope → Prop} {post : Scope → Machine → Prop}
    (sound : Sound D (.opened scan dataset vars schema))
    (simulates : Simulates D final (Scope.opened scan dataset vars schema).New (spotOf record k)
      (.opened scan dataset vars schema) (m.take record) pre fact
      (fun _ later => Onward (post later)) accepted () done)
    (completes : (done.goto 2).Completes final)
    (isFinal : final.fn.arena.blocks[2]? = done.fn.arena.blocks[2]?)
    (between : Between final records k m)
    (ready : Ready final ((Scope.opened scan dataset vars schema).goto 1) (spotOf record k)
      (m.take record))
    (begins : pre) :
    Ends (execBlock final.fn 2) (m.take record) (Onward fun m' => Between final records (k + 1) m' ∧
      KeepsGroups final m m' ∧ post done m') accepted := by
  have step := simulates.1
  have isOpen : (Scope.opened scan dataset vars schema).Open 1 := .single opened_isParent
  refine Ends.enter opened_fresh sound.rooted step completes.named isFinal ready fun ready' => ?_
  refine (simulates.2.2 completes ready' begins).mono ?_ fun _ => id
  rintro flow m' ⟨ready'', frame, rfl, after⟩
  refine ⟨rfl, between.next ready'' (step.enters.later.arena.within isOpen) frame, ?_, after⟩
  intro n init declares notLit
  exact frame.lookup_kept fun ⟨_, _, unpinned⟩ => unpinned ⟨1, init, isOpen, declares, notLit⟩

end records

/-! ## Sealed functions -/

/-- The statement that completes the output. -/
def flushSink : Node := .member (.ident Function.sink) Code.Member.flush []

/-- A function is sealed: it flushes the sink at its end, has a name and gets no more readers. -/
def Sealed (done final : Scope) : Prop :=
  ∃ arena name, done.fn.arena.appendTail done.fn.body flushSink = .ok arena ∧
    final = { done with fn := { done.fn with arena, name, frozen := true } }

theorem writeOutput_eq (scope : Scope) : writeOutput scope = (do
    writeRows
    changeArena (·.appendTail scope.fn.body flushSink) : Emit Unit) scope := by
  unfold writeOutput writeRows
  have here : ∀ next : Scope → Emit Unit, (get >>= next) scope = next scope scope := fun _ => rfl
  rw [bind_assoc, here, here]
  split
  · rw [bind_assoc]
    rfl
  · rfl

section sealed

variable {D : Path → Prop} {last done final : Scope} {fn : Function}
variable {m : Machine}

theorem sealed_of_writeOutput (output : writeOutput scope = .ok ((), last))
    (frozen : Function.freeze { last.fn with name } = .ok fn)
    (same : ∀ later, writeRows scope = .ok ((), later) → later.fn.body = scope.fn.body) :
    ∃ done, writeRows scope = .ok ((), done) ∧ Sealed done { last with fn } := by
  rw [writeOutput_eq] at output
  obtain ⟨⟨_, done⟩, wrote, flushed⟩ := Except.bind_eq_ok.mp output
  refine ⟨done, wrote, ?_⟩
  have appended : Yields (changeArena (·.appendTail scope.fn.body flushSink)) done fun _ later =>
      ∃ arena, done.fn.arena.appendTail scope.fn.body flushSink = .ok arena ∧
        later = { done with fn := { done.fn with arena } } :=
    .changeArena fun arena isArena => ⟨arena, isArena, rfl⟩
  obtain ⟨arena, isArena, rfl⟩ := appended () last flushed
  refine ⟨arena, name, same done wrote ▸ isArena, ?_⟩
  unfold Function.freeze at frozen
  split at frozen
  · cases frozen
  · cases frozen
    rfl

namespace Sealed

section

variable (isSealed : Sealed done final)

include isSealed

theorem frozen : final.fn.frozen = true := by
  obtain ⟨arena, name, _, rfl⟩ := isSealed
  rfl

theorem paths : final.fn.paths = done.fn.paths := by
  obtain ⟨arena, name, _, rfl⟩ := isSealed
  rfl

/-- Only the last statements of the body change. -/
theorem block {block : Block} (here : final.fn.arena.blocks[b]? = some block) :
    ∃ before, done.fn.arena.blocks[b]? = some before ∧
      block = if b = done.fn.body then { before with tail := before.tail ++ [flushSink] }
        else before := by
  obtain ⟨arena, name, appended, rfl⟩ := isSealed
  exact (Arena.appendTail_updates appended).before here

theorem body {block : Block} (here : done.fn.arena.blocks[done.fn.body]? = some block) :
    final.fn.arena.blocks[done.fn.body]? =
      some { block with tail := block.tail ++ [flushSink] } := by
  obtain ⟨arena, name, appended, rfl⟩ := isSealed
  obtain ⟨before, isBefore, after⟩ := (Arena.appendTail_updates appended).here
  cases here.symm.trans isBefore
  exact after

theorem other (apart : b ≠ done.fn.body) :
    final.fn.arena.blocks[b]? = done.fn.arena.blocks[b]? := by
  obtain ⟨arena, name, appended, rfl⟩ := isSealed
  have updates := Arena.appendTail_updates appended
  cases here : done.fn.arena.blocks[b]? with
  | some block => exact updates.extends'.untouched b block here apart
  | none =>
    refine Array.getElem?_eq_none ?_
    rw [updates.size]
    exact Array.getElem?_eq_none_iff.mp here

end

end Sealed

/-- Completing the output. -/
theorem ends_flush (sink : m.env.lookup Function.sink = some (.handle .sink))
    (held : wanted .proceed { m with flushed := true }) :
    Ends (execAll fn [flushSink]) m wanted accepted := by
  have evaluated : eval flushSink m = some (.ok (.null, { m with flushed := true })) := by
    unfold flushSink
    rw [eval_member (eval_ident sink)]
    rfl
  exact .single (.member (.of_eq evaluated held))

/-- A run of a function over records ends in a machine with some property, or fails for one of some
causes. -/
def RunsTo (fn : Function) (records : List Value) (wanted : Machine → Prop)
    (accepted : RunError → Prop) : Prop :=
  (∃ m, wanted m ∧ (Engine.run fn records).result = .ok { rows := m.rows, flushed := m.flushed }) ∨
  ∃ cause, accepted cause ∧ (Engine.run fn records).result = .error (.failed fn.name cause)

theorem runsTo_of_body {wanted : Machine → Prop} (frozen : fn.frozen = true)
    (ends : Ends (execBlock fn fn.body) (Machine.start fn records) (fun _ => wanted) accepted) :
    RunsTo fn records wanted accepted := by
  unfold RunsTo run
  rw [if_pos frozen]
  unfold Ends at ends
  split at ends
  · next flow m same =>
    rw [same]
    exact .inl ⟨m, ends, rfl⟩
  · next cause same =>
    rw [same]
    exact .inr ⟨cause, ends, rfl⟩
  · exact ends.elim
  · exact ends.elim

end sealed

/-! ## Rows after the last record -/

/-- A function has some more statements after its records, and is sealed. -/
structure Ending (rows : List Node) (later final : Scope) : Prop where
  frozen : final.fn.frozen = true
  fnBody : final.fn.body = later.fn.body
  paths : final.fn.paths = later.fn.paths
  updates : Arena.Updates later.fn.body (fun block => { block with
    rest := block.rest ++ rows, tail := block.tail ++ [flushSink] }) 0 later.fn.arena final.fn.arena
  named : later.fn.arena.Named → final.fn.arena.Named

section ending

variable {row : Node} {rows : List Node} {later last done final : Scope} {fn : Function}

theorem Sealed.ending (isSealed : Sealed done final) : Ending [] done final := by
  obtain ⟨arena, name, appended, rfl⟩ := isSealed
  refine ⟨rfl, rfl, rfl, ?_, Arena.update_named le_rfl appended fun _ => rfl⟩
  simp only [List.append_nil]
  exact Arena.appendTail_updates appended

theorem ending_of_writeOutput {base : Scope} (isFn : base.fn = scope.fn)
    (wrote : Yields writeRows scope fun _ later => ∃ arena,
      scope.fn.arena.appendHead scope.fn.body row = .ok arena ∧
        later = { scope with fn := { scope.fn with arena } })
    (output : writeOutput scope = .ok ((), last))
    (frozen : Function.freeze { last.fn with name } = .ok fn) :
    Ending [row] base { base with fn } ∧ last.outputs = scope.outputs := by
  have body : ∀ later, writeRows scope = .ok ((), later) → later.fn.body = scope.fn.body := by
    intro later isLater
    obtain ⟨arena, _, rfl⟩ := wrote () later isLater
    rfl
  obtain ⟨done, isDone, isSealed⟩ := sealed_of_writeOutput output frozen body
  obtain ⟨arena, isArena, rfl⟩ := wrote () done isDone
  obtain ⟨arena', name', appended, same⟩ := isSealed
  have isFinal : fn = _ := congrArg Scope.fn same
  have outputs := congrArg Scope.outputs same
  rw [← isFn] at isArena appended isFinal
  subst isFinal
  refine ⟨⟨rfl, rfl, rfl, ?_, fun named => ?_⟩, outputs⟩
  · exact (Arena.appendHead_updates isArena).trans (Arena.appendTail_updates appended)
  · exact Arena.update_named le_rfl appended (fun _ => rfl)
      (Arena.update_named le_rfl isArena (fun _ => rfl) named)

namespace Ending

theorem other (ending : Ending rows later final) (apart : b ≠ later.fn.body)
    (there : b < later.fn.arena.blocks.size) :
    final.fn.arena.blocks[b]? = later.fn.arena.blocks[b]? := by
  have here := Array.getElem?_eq_getElem there
  rw [ending.updates.extends'.untouched b _ here apart, here]

theorem body {block : Block} (ending : Ending rows later final)
    (here : later.fn.arena.blocks[later.fn.body]? = some block) :
    final.fn.arena.blocks[later.fn.body]? = some { block with
      rest := block.rest ++ rows, tail := block.tail ++ [flushSink] } := by
  obtain ⟨before, isBefore, after⟩ := ending.updates.here
  cases here.symm.trans isBefore
  exact after

theorem declares_iff {n : Nat} (ending : Ending rows later final) :
    final.Declares b n init ↔ later.Declares b n init := by
  constructor
  · rintro ⟨block, here, member⟩
    obtain ⟨before, isBefore, rfl⟩ := ending.updates.before here
    refine ⟨before, isBefore, ?_⟩
    split at member <;> exact member
  · rintro ⟨block, here, member⟩
    by_cases same : b = later.fn.body
    · subst same
      exact ⟨_, ending.body here, member⟩
    · have there := Array.inside here
      exact ⟨block, (ending.other same there).trans here, member⟩

theorem completes {h : BlockId} (ending : Ending rows later final) (rooted : (later.goto h).Rooted)
    (named : later.fn.arena.Named) : (later.goto h).Completes final := by
  have updates := ending.updates
  have isLater : (later.goto h).Later
      { later.goto h with fn := { later.fn with arena := final.fn.arena } } :=
    .of_arena updates.extends' (fun _ same _ => same ▸ rooted.body) updates.nothing_added ending.named
  have whole := Scope.Completes.of_later isLater rooted named
  exact ⟨ending.fnBody, ending.paths ▸ List.prefix_rfl, whole.names, whole.named, whole.grown,
    whole.closed⟩

end Ending

end ending

end QueryFusion.Fusion

import QueryFusion.Proofs.Outcome
import QueryFusion.Proofs.Plan.Schema

/-!
# The pass that finds schemas

The schemas of a plan are found in one pass over its operators, inputs first, while a fused operator
asks the schemas that this pass ends with. If every operator reads variables that were produced
before it and every variable is produced once, the two agree, and every operator can rely on the
schemas that the pass ends with.
-/

namespace QueryFusion.Plan

variable {more : List Var} {body : Body} {ops : List (OpId × Body)} {plan : Plan} {ids : List OpId}

namespace Pushdown

variable {b b' : Pushdown} {vars : List Var} {e : Expr} {v w : Var} {p : Path}
variable {scan id : OpId} {s s' : Schema}

theorem lookup_modify (schemas : Schemas) (scan id : OpId) (change : Schema → Schema) :
    (schemas.modify scan change).lookup id =
      (schemas.lookup id).map fun s => if id = scan then change s else s := by
  induction schemas with
  | nil => rfl
  | cons entry rest ih =>
    obtain ⟨key, s⟩ := entry
    change List.lookup id ((if key = scan then (key, change s) else (key, s)) :: _) = _
    by_cases same : id = key
    · split <;> simp [*]
    · have missed : (id == key) = false := beq_false_of_ne same
      split <;> simp only [List.lookup_cons, missed] <;> exact ih

theorem owner?_congr (b : Pushdown) (same : v.id = w.id) : b.owner? v = b.owner? w := by
  unfold owner?
  rw [same]

theorem owner?_cons (schemas : Schemas) (owners : List (Var × OpId)) (v w : Var) (scan : OpId) :
    owner? { schemas, owners := (v, scan) :: owners } w =
      if w.id = v.id then some scan else owner? { schemas, owners } w := by
  unfold owner?
  rw [List.find?_cons]
  by_cases same : w.id = v.id
  · simp [same]
  · have apart : (v.id == w.id) = false := beq_false_of_ne (Ne.symm same)
    rw [if_neg same]
    simp only [apart]

/-- Schemas are known of operators that were met only, and a variable that leads into the records of
a schema belongs to its scan. -/
structure Tracks (b : Pushdown) (ids : List OpId) (vars : List Var) : Prop where
  met : ∀ id s, b.schemas.lookup id = some s → id ∈ ids
  leads : ∀ id s w, b.schemas.lookup id = some s → s.Leads w → b.owner? w = some id
  owned : ∀ w id, b.owner? w = some id → w.Of vars

theorem Tracks.fresh (tracks : b.Tracks ids vars) (isNew : ¬ v.Of vars)
    (found : b.schemas.lookup id = some s) : ¬ s.Leads v := fun leads =>
  isNew (tracks.owned v id (tracks.leads id s v found leads))

theorem Tracks.mono (tracks : b.Tracks ids vars) (sub : ∀ v ∈ vars, v ∈ more) : b.Tracks ids more :=
  { tracks with owned := fun w id isOwner => (tracks.owned w id isOwner).mono sub }

theorem Tracks.meets (tracks : b.Tracks ids vars) (id : OpId) : b.Tracks (id :: ids) vars :=
  { tracks with met := fun i s found => .tail _ (tracks.met i s found) }

/-- Every schema of a later state is one of an earlier state that has grown. -/
def After (grown : OpId → Schema → Schema → Prop) (b b' : Pushdown) : Prop :=
  ∀ id s', b'.schemas.lookup id = some s' → ∃ s, b.schemas.lookup id = some s ∧ grown id s s'

theorem foldl_use (e : Expr) : ∀ (vs : List Var) (b : Pushdown),
    (vs.foldl (fun b v => match b.owner? v with
      | none => b
      | some scan => { b with schemas := b.schemas.modify scan (Schema.register e) }) b).owners =
      b.owners ∧
    After (fun id s s' => s.Grows s' ∧ ((∃ v ∈ vs, b.owner? v = some id) → s'.Registers e)) b
      (vs.foldl (fun b v => match b.owner? v with
        | none => b
        | some scan => { b with schemas := b.schemas.modify scan (Schema.register e) }) b)
  | [], b => ⟨rfl, fun id s' found => ⟨s', found, .refl s', nofun⟩⟩
  | v :: rest, b => by
    rw [List.foldl_cons]
    cases owner : b.owner? v with
    | none =>
      obtain ⟨owners, after⟩ := foldl_use e rest b
      refine ⟨owners, fun id s' found => ?_⟩
      obtain ⟨s, isBefore, grows, registers⟩ := after id s' found
      refine ⟨s, isBefore, grows, fun ⟨w, member, isOwner⟩ => ?_⟩
      rcases List.mem_cons.mp member with rfl | later
      · rw [owner] at isOwner
        cases isOwner
      · exact registers ⟨w, later, isOwner⟩
    | some scan =>
      obtain ⟨owners, after⟩ :=
        foldl_use e rest { b with schemas := b.schemas.modify scan (Schema.register e) }
      refine ⟨owners, fun id s' found => ?_⟩
      obtain ⟨middle, isMiddle, grows, registers⟩ := after id s' found
      rw [lookup_modify] at isMiddle
      obtain ⟨s, isBefore, isChanged⟩ := Option.map_eq_some_iff.mp isMiddle
      by_cases same : id = scan
      · rw [if_pos same] at isChanged
        subst isChanged
        exact ⟨s, isBefore, (Schema.grows_register e s).trans grows,
          fun _ => (Schema.registers_register e s).grows grows⟩
      · rw [if_neg same] at isChanged
        subst isChanged
        refine ⟨s, isBefore, grows, fun ⟨w, member, isOwner⟩ => ?_⟩
        rcases List.mem_cons.mp member with rfl | later
        · exact absurd (Option.some.inj (isOwner.symm.trans owner)) same
        · exact registers ⟨w, later, isOwner⟩

/-- Registering paths changes no variable. -/
theorem Tracks.grown (tracks : b.Tracks ids vars) (owners : b'.owners = b.owners)
    (after : After (fun _ s s' => s.Grows s') b b') : b'.Tracks ids vars := by
  have sameOwner : ∀ w, b'.owner? w = b.owner? w := by
    intro w
    unfold owner?
    rw [owners]
  refine ⟨?_, ?_, fun w id isOwner => tracks.owned w id ((sameOwner w).symm.trans isOwner)⟩
  · intro id s' found
    obtain ⟨s, isBefore, _⟩ := after id s' found
    exact tracks.met id s isBefore
  · intro id s' w found leads
    obtain ⟨s, isBefore, grows⟩ := after id s' found
    rw [sameOwner]
    exact tracks.leads id s w isBefore (grows.leads.mp leads)

theorem Tracks.use (tracks : b.Tracks ids vars) (e : Expr) :
    (b.use e).Tracks ids vars ∧ After (fun _ s s' => s.Grows s' ∧ s'.Registers e) b (b.use e) := by
  obtain ⟨owners, after⟩ := foldl_use e e.vars b
  refine ⟨tracks.grown owners fun id s' found => ?_, fun id s' found => ?_⟩
  · obtain ⟨s, isBefore, grows, _⟩ := after id s' found
    exact ⟨s, isBefore, grows⟩
  · obtain ⟨s, isBefore, grows, registers⟩ := after id s' found
    refine ⟨s, isBefore, grows, fun q member => ?_⟩
    obtain ⟨w, isVar, leads⟩ := Schema.leads_of_reads e member
    obtain ⟨v, isListed, same⟩ := Expr.exists_mem_vars isVar
    refine registers ⟨v, isListed, ?_⟩ q member
    rw [b.owner?_congr same]
    exact tracks.leads id s w isBefore (grows.leads.mp leads)

theorem Tracks.useAll (tracks : b.Tracks ids vars) : ∀ es : List Expr,
    (es.foldl Pushdown.use b).Tracks ids vars ∧
      After (fun _ s s' => s.Grows s' ∧ ∀ e ∈ es, s'.Registers e) b (es.foldl Pushdown.use b) := by
  intro es
  induction es generalizing b with
  | nil => exact ⟨tracks, fun id s' found => ⟨s', found, .refl s', nofun⟩⟩
  | cons e rest ih =>
    obtain ⟨tracks', first⟩ := tracks.use e
    obtain ⟨tracks'', others⟩ := ih tracks'
    refine ⟨tracks'', fun id s' found => ?_⟩
    obtain ⟨middle, isMiddle, grows', registers'⟩ := others id s' found
    obtain ⟨s, isBefore, grows, registers⟩ := first id middle isMiddle
    refine ⟨s, isBefore, grows.trans grows', fun e' member => ?_⟩
    rcases List.mem_cons.mp member with rfl | later
    · exact registers.grows grows'
    · exact registers' e' later

/-- A new variable that stands for a path of a scan. -/
theorem Tracks.bind (tracks : b.Tracks ids vars) (isNew : ¬ v.Of vars) (scan : OpId) (p : Path) :
    (b.bind v scan p).Tracks ids (v :: vars) ∧
      After (fun id s s' => s.Keeps vars s' ∧ (∀ q, s'.has q = s.has q) ∧
        s'.varPath? v = if id = scan then some p else none) b (b.bind v scan p) := by
  have apart : ∀ w : Var, w.Of vars → w.id ≠ v.id := by
    rintro w ⟨u, member, same⟩ isThis
    exact isNew ⟨u, member, same.trans isThis⟩
  have before : ∀ id s', (b.bind v scan p).schemas.lookup id = some s' →
      ∃ s, b.schemas.lookup id = some s ∧ s' = if id = scan then s.bind v p else s := by
    intro id s' found
    unfold Pushdown.bind at found
    rw [lookup_modify] at found
    obtain ⟨s, isBefore, same⟩ := Option.map_eq_some_iff.mp found
    exact ⟨s, isBefore, same.symm⟩
  refine ⟨⟨?_, ?_, ?_⟩, ?_⟩
  · intro id s' found
    obtain ⟨s, isBefore, _⟩ := before id s' found
    exact tracks.met id s isBefore
  · intro id s' w found leads
    obtain ⟨s, isBefore, rfl⟩ := before id s' found
    have owner := owner?_cons (b.schemas.modify scan fun s => s.bind v p) b.owners v w scan
    change (b.bind v scan p).owner? w = _ at owner
    rw [owner]
    by_cases isThis : w.id = v.id
    · rw [if_pos isThis]
      have notOld : ¬ s.Leads w := fun old => by
        have isOwner := tracks.leads id s w isBefore old
        exact apart w (tracks.owned w id isOwner) isThis
      by_cases same : id = scan
      · rw [same]
      · rw [if_neg same] at leads
        exact absurd leads notOld
    · rw [if_neg isThis]
      refine tracks.leads id s w isBefore ?_
      by_cases same : id = scan
      · rw [if_pos same] at leads
        unfold Schema.Leads at leads ⊢
        rw [Schema.varPath?_bind, if_neg isThis] at leads
        exact leads
      · rw [if_neg same] at leads
        exact leads
  · intro w id isOwner
    have owner := owner?_cons (b.schemas.modify scan fun s => s.bind v p) b.owners v w scan
    change (b.bind v scan p).owner? w = _ at owner
    rw [owner] at isOwner
    split at isOwner
    · next isThis => exact ⟨v, .head _, isThis.symm⟩
    · exact .mono (tracks.owned w id isOwner) fun _ => .tail _
  · intro id s' found
    obtain ⟨s, isBefore, rfl⟩ := before id s' found
    refine ⟨s, isBefore, ?_⟩
    dsimp only
    by_cases same : id = scan
    · rw [if_pos same, if_pos same]
      refine ⟨⟨rfl, fun w isVar => ?_, fun _ held => held⟩, fun _ => rfl, ?_⟩
      · rw [Schema.varPath?_bind, if_neg (apart w isVar)]
      · rw [Schema.varPath?_bind, if_pos rfl]
    · rw [if_neg same, if_neg same]
      refine ⟨.refl vars s, fun _ => rfl, ?_⟩
      cases isPath : s.varPath? v with
      | none => rfl
      | some q => exact absurd (.inl ⟨q, isPath⟩) (tracks.fresh isNew isBefore)

/-- The scan that an expression reads from has a schema. -/
theorem lookup_of_source? (found : b.source? e = some (scan, s)) : b.schemas.lookup scan = some s := by
  obtain ⟨owner, _, rest⟩ := Option.bind_eq_some_iff.mp found
  obtain ⟨s₀, isSchema, same⟩ := Option.bind_eq_some_iff.mp rest
  cases same
  exact isSchema

theorem Tracks.assign (tracks : b.Tracks ids vars) (isNew : ¬ v.Of vars) (reads : e.ReadsOnly vars) :
    (b.assign v e).Tracks ids (v :: vars) ∧
      After (fun _ s s' => s.Keeps vars s' ∧ (∀ q, s'.has q = s.has q) ∧
        ∀ p, s'.varPath? v = some p → s'.pathOf? e = some p) b (b.assign v e) := by
  have unchanged : b.Tracks ids (v :: vars) ∧
      After (fun _ s s' => s.Keeps vars s' ∧ (∀ q, s'.has q = s.has q) ∧
        ∀ p, s'.varPath? v = some p → s'.pathOf? e = some p) b b := by
    refine ⟨tracks.mono fun _ => .tail _, fun id s found => ?_⟩
    exact ⟨s, found, .refl vars s, fun _ => rfl,
      fun p isPath => absurd (.inl ⟨p, isPath⟩) (tracks.fresh isNew found)⟩
  unfold Pushdown.assign
  split
  · exact unchanged
  · next scan s₀ source =>
    split
    · next p₀ isPath₀ =>
      obtain ⟨tracks', after⟩ := tracks.bind isNew scan p₀
      refine ⟨tracks', fun id s' found => ?_⟩
      obtain ⟨s, isBefore, keeps, has, isPath⟩ := after id s' found
      refine ⟨s, isBefore, keeps, has, fun p isPath' => ?_⟩
      rw [isPath] at isPath'
      split at isPath'
      · next same =>
        obtain rfl := same
        cases isBefore.symm.trans (lookup_of_source? source)
        rw [keeps.pathOf? reads]
        exact isPath₀.trans isPath'
      · cases isPath'
    · exact unchanged

theorem not_of_cons (isNew : ¬ w.Of vars) (distinct : v.id ∉ more.map Var.id) (member : w ∈ more) :
    ¬ w.Of (v :: vars) := by
  rintro ⟨u, isVar, same⟩
  rcases List.mem_cons.mp isVar with rfl | isOld
  · exact distinct (List.mem_map.mpr ⟨w, member, same.symm⟩)
  · exact isNew ⟨u, isOld, same⟩

theorem Tracks.assignAll : ∀ (more : List Var) (exprs : List Expr) {vars : List Var}
    {b b' : Pushdown}, b.Tracks ids vars → b.assignAll more exprs = .ok b' →
    (∀ v ∈ more, ¬ v.Of vars) → (more.map Var.id).Nodup → AssignScoped vars more exprs →
    exprs.length ≤ more.length ∧ b'.Tracks ids (more ++ vars) ∧
      After (fun _ s s' => s.Keeps vars s' ∧ ∀ binding ∈ more.zip exprs, s'.Registers binding.2 ∧
        ∀ p, s'.varPath? binding.1 = some p → s'.pathOf? binding.2 = some p) b b'
  | more, [], vars, b, b', tracks, assigned, _, _, _ => by
    rw [Pushdown.assignAll.eq_def] at assigned
    cases assigned
    refine ⟨Nat.zero_le _, tracks.mono fun _ => List.mem_append_right _, fun id s' found =>
      ⟨s', found, .refl vars s', ?_⟩⟩
    rw [List.zip_nil_right]
    exact nofun
  | [], _ :: _, _, _, _, _, assigned, _, _, _ => by
    cases assigned
  | v :: more, e :: exprs, vars, b, b', tracks, assigned, isNew, distinct, ⟨reads, isScoped⟩ => by
    rw [List.map_cons, List.nodup_cons] at distinct
    obtain ⟨used, isUsed⟩ := tracks.use e
    obtain ⟨tracks', isAssigned⟩ := used.assign (isNew v (.head _)) reads
    have isNew' (w : Var) (member : w ∈ more) : ¬ w.Of (v :: vars) :=
      not_of_cons (isNew w (.tail _ member)) distinct.1 member
    obtain ⟨even, tracks'', others⟩ :=
      Tracks.assignAll more exprs tracks' assigned isNew' distinct.2 isScoped
    refine ⟨Nat.succ_le_succ even, tracks''.mono fun u member => ?_, fun id s' found => ?_⟩
    · exact List.perm_middle.subset member
    · obtain ⟨s₂, isSecond, keeps₂, bindings⟩ := others id s' found
      obtain ⟨s₁, isFirst, keeps₁, has, denotes⟩ := isAssigned id s₂ isSecond
      obtain ⟨s, isBefore, grows, registers⟩ := isUsed id s₁ isFirst
      have keeps₂' : s₂.Keeps vars s' := keeps₂.mono fun _ => .tail _
      refine ⟨s, isBefore, ((grows.keeps vars).trans keeps₁).trans keeps₂', ?_⟩
      intro binding member
      rcases List.mem_cons.mp member with rfl | later
      · refine ⟨(registers.kept keeps₁ reads).kept keeps₂' reads, fun p isPath => ?_⟩
        rw [keeps₂.varPath v ⟨v, .head _, rfl⟩] at isPath
        rw [keeps₂'.pathOf? reads]
        exact denotes p isPath
      · exact bindings binding later

/-- What one operator does to the state of the pass. -/
structure Visited (b : Pushdown) (id : OpId) (body : Body) (vars : List Var) (ids : List OpId)
    (b' : Pushdown) : Prop where
  tracks : b'.Tracks (id :: ids) (body.produces ++ vars)
  matched : body.Matched
  fits : ∀ i s, b'.schemas.lookup i = some s → s.Fits body
  before : ∀ i s', b'.schemas.lookup i = some s' →
    (∃ s, b.schemas.lookup i = some s ∧ s.Keeps vars s') ∨
      (i = id ∧ ∃ dataset record more function outputs,
        body = .scan dataset (record :: more) function outputs ∧ s' = { record := record })

theorem Tracks.apart (tracks : b.Tracks ids vars) (isNew : ∀ v ∈ more, ¬ v.Of vars)
    (found : b.schemas.lookup id = some s) :
    (∀ v ∈ more, s.varPath? v = none) ∧ ∀ v ∈ more, v.id ≠ s.record.id := by
  refine ⟨fun v member => ?_, fun v member isRecord => ?_⟩
  · cases isPath : s.varPath? v with
    | none => rfl
    | some p => exact absurd (.inl ⟨p, isPath⟩) (tracks.fresh (isNew v member) found)
  · exact absurd (.inr isRecord) (tracks.fresh (isNew v member) found)

theorem Tracks.visited_uses (tracks : b.Tracks ids vars) (isNew : ∀ v ∈ body.produces, ¬ v.Of vars)
    (denotes : ∀ s : Schema, (∀ v ∈ body.produces, s.varPath? v = none) → s.Denotes body)
    (matched : body.Matched) : Visited b id body vars ids (body.uses.foldl Pushdown.use b) := by
  obtain ⟨tracks', after⟩ := tracks.useAll body.uses
  refine ⟨(tracks'.meets id).mono fun _ => List.mem_append_right _, matched, ?_, ?_⟩
  · intro i s found
    obtain ⟨s₀, isBefore, grows, registers⟩ := after i s found
    obtain ⟨noPath, notRecord⟩ := tracks.apart isNew isBefore
    refine ⟨registers, denotes s fun v member => ?_, fun _ v member => ?_⟩
    · rw [grows.varPath?]
      exact noPath v member
    · rw [grows.record]
      exact notRecord v member
  · intro i s found
    obtain ⟨s₀, isBefore, grows, _⟩ := after i s found
    exact .inl ⟨s₀, isBefore, grows.keeps vars⟩

theorem Tracks.visited_unnest {added : Pushdown} {pos : Option Var} (tracks : b.Tracks ids vars)
    (owners : added.owners = b.owners) (grown : After (fun _ s s' => s.Grows s') b added)
    (source : b.source? (unnestSource e) = some (scan, s)) (isPath : s.pathOf? (unnestSource e) = some p)
    (isNew : ∀ w ∈ v :: pos.toList, ¬ w.Of vars) (distinct : ((v :: pos.toList).map Var.id).Nodup)
    (reads : (Body.unnest v pos e).ReadsFrom vars) :
    Visited b id (.unnest v pos e) vars ids (added.bind v scan p.elements) := by
  obtain ⟨tracks', bound⟩ :=
    (tracks.grown owners grown).bind (isNew v (.head _)) scan p.elements
  have after : ∀ i s', (added.bind v scan p.elements).schemas.lookup i = some s' →
      ∃ s₀, b.schemas.lookup i = some s₀ ∧ s₀.Keeps vars s' ∧
        s'.varPath? v = if i = scan then some p.elements else none := by
    intro i s' found
    obtain ⟨s₁, isMiddle, keeps, _, isElement⟩ := bound i s' found
    obtain ⟨s₀, isBefore, grows⟩ := grown i s₁ isMiddle
    exact ⟨s₀, isBefore, (grows.keeps vars).trans keeps, isElement⟩
  refine ⟨(tracks'.meets id).mono ?_, trivial, ?_, ?_⟩
  · exact List.forall_mem_cons.mpr ⟨.head _, fun _ => List.mem_append_right _⟩
  · intro i s' found
    obtain ⟨s₀, isBefore, keeps, isElement⟩ := after i s' found
    refine ⟨nofun, ⟨fun q isThere => ?_, fun w isPos => ?_⟩, fun _ => ?_⟩
    · rw [isElement] at isThere
      split at isThere
      · next same =>
        obtain rfl := same
        cases isBefore.symm.trans (lookup_of_source? source)
        refine ⟨p, ?_, (Option.some.inj isThere).symm⟩
        rw [keeps.pathOf? fun w member => reads e (List.mem_singleton_self e) w
          (occurrences_unnestSource member)]
        exact isPath
      · cases isThere
    · rw [List.map_cons, List.nodup_cons] at distinct
      have member := Option.mem_toList.mpr isPos
      have isOther := not_of_cons (isNew w (.tail _ member)) distinct.1 member
      cases isThere : s'.varPath? w with
      | none => rfl
      | some q => exact absurd (.inl ⟨q, isThere⟩) (tracks'.fresh isOther found)
    · rw [keeps.record]
      exact (tracks.apart isNew isBefore).2
  · intro i s' found
    obtain ⟨s₀, isBefore, keeps, _⟩ := after i s' found
    exact .inl ⟨s₀, isBefore, keeps⟩

theorem lookup_append_new (schemas : Schemas) (id i : OpId) (s : Schema) :
    (schemas ++ [(id, s)]).lookup i =
      match schemas.lookup i with
      | some found => some found
      | none => if i = id then some s else none := by
  induction schemas with
  | nil =>
    rw [List.nil_append, List.lookup_cons]
    by_cases same : i = id
    · simp [same]
    · rw [beq_false_of_ne same]
      simp [same]
  | cons entry rest ih =>
    rw [List.cons_append, List.lookup_cons, List.lookup_cons]
    split
    · rfl
    · exact ih

theorem Tracks.visit (tracks : b.Tracks ids vars) (isVisited : b.visit id body = .ok b')
    (unmet : id ∉ ids) (isNew : ∀ v ∈ body.produces, ¬ v.Of vars)
    (distinct : (body.produces.map Var.id).Nodup) (reads : body.ReadsFrom vars) :
    Visited b id body vars ids b' := by
  cases body with
  | scan dataset scanVars function outputs =>
    cases scanVars with
    | nil =>
      cases isVisited
      exact tracks.visited_uses isNew (fun _ noPath => noPath) trivial
    | cons record more =>
      cases isVisited
      have isRecord : ¬ record.Of vars := isNew record (.head _)
      have before : ∀ i s', (b.schemas ++ [(id, ({ record := record } : Schema))]).lookup i = some s' →
          b.schemas.lookup i = some s' ∨ (i = id ∧ s' = { record := record }) := by
        intro i s' found
        rw [lookup_append_new] at found
        split at found
        · next s isBefore =>
          cases found
          exact .inl isBefore
        · split at found
          · next same => exact .inr ⟨same, (Option.some.inj found).symm⟩
          · cases found
      have owner := owner?_cons (b.schemas ++ [(id, { record := record })]) b.owners record
      refine ⟨⟨?_, ?_, ?_⟩, trivial, ?_, ?_⟩
      · intro i s' found
        rcases before i s' found with isBefore | ⟨rfl, _⟩
        · exact .tail _ (tracks.met i s' isBefore)
        · exact .head _
      · intro i s' w found leads
        rw [owner w id]
        rcases before i s' found with isBefore | ⟨rfl, rfl⟩
        · have isOwner := tracks.leads i s' w isBefore leads
          rw [if_neg]
          · exact isOwner
          · intro same
            obtain ⟨v, member, isVar⟩ := tracks.owned w i isOwner
            exact isRecord ⟨v, member, isVar.trans same⟩
        · rcases leads with ⟨p, isPath⟩ | same
          · cases isPath
          · exact if_pos same
      · intro w i isOwner
        rw [owner w id] at isOwner
        split at isOwner
        · next same => exact ⟨record, List.mem_append_left _ (.head _), same.symm⟩
        · exact .mono (tracks.owned w i isOwner) fun _ => List.mem_append_right _
      · intro i s' found
        refine ⟨nofun, ?_, fun notScan => absurd trivial notScan⟩
        rcases before i s' found with isBefore | ⟨_, rfl⟩
        · exact (tracks.apart isNew isBefore).1
        · exact fun _ _ => rfl
      · intro i s' found
        rcases before i s' found with isBefore | ⟨rfl, rfl⟩
        · exact .inl ⟨s', isBefore, .refl vars s'⟩
        · exact .inr ⟨rfl, dataset, record, more, function, outputs, rfl, rfl⟩
  | assign more exprs =>
    obtain ⟨even, tracks', after⟩ := Tracks.assignAll more exprs tracks isVisited isNew distinct reads
    refine ⟨tracks'.meets id, even, ?_, ?_⟩
    · intro i s' found
      obtain ⟨s, isBefore, keeps, bindings⟩ := after i s' found
      refine ⟨fun e member => ?_, fun binding member => (bindings binding member).2, fun _ => ?_⟩
      · obtain ⟨v, isBinding⟩ := exists_zip_of_mem even member
        exact (bindings (v, e) isBinding).1
      · rw [keeps.record]
        exact (tracks.apart isNew isBefore).2
    · intro i s' found
      obtain ⟨s, isBefore, keeps, _⟩ := after i s' found
      exact .inl ⟨s, isBefore, keeps⟩
  | unnest v pos e =>
    have unchanged : Visited b id (.unnest v pos e) vars ids b :=
      tracks.visited_uses isNew (fun s noPath =>
        ⟨fun p isPath => absurd ((noPath v (.head _)).symm.trans isPath) nofun,
          fun w isPos => noPath w (.tail _ (Option.mem_toList.mpr isPos))⟩) trivial
    unfold Pushdown.visit at isVisited
    dsimp only at isVisited
    split at isVisited
    · cases isVisited
      exact unchanged
    · next scan s₀ source =>
      split at isVisited
      · cases isVisited
        exact unchanged
      · next p isPath =>
        cases isVisited
        refine tracks.visited_unnest rfl (fun i s' found => ?_) source isPath isNew distinct reads
        rw [lookup_modify] at found
        obtain ⟨s, isBefore, rfl⟩ := Option.map_eq_some_iff.mp found
        refine ⟨s, isBefore, ?_⟩
        split
        · exact Schema.grows_add _ _ _
        · exact .refl s
  | _ =>
    cases isVisited
    exact tracks.visited_uses isNew (fun _ noPath => noPath) trivial

/-- Operators that come one after the other read variables that were produced before. -/
def Flows (vars : List Var) : List (OpId × Body) → Prop
  | [] => True
  | op :: rest => op.2.ReadsFrom vars ∧ Flows (op.2.produces ++ vars) rest

/-- Every operator met can rely on every schema, and the schema of a scan is that of its record. -/
structure Follows (ops : List (OpId × Body)) (vars : List Var) (b : Pushdown) : Prop where
  tracks : b.Tracks (ops.map Prod.fst) vars
  produced : ∀ op ∈ ops, ∀ v ∈ op.2.produces, v ∈ vars
  reads : ∀ op ∈ ops, op.2.Matched ∧ op.2.ReadsFrom vars
  fits : ∀ op ∈ ops, ∀ id s, b.schemas.lookup id = some s → s.Fits op.2
  record : ∀ op ∈ ops, ∀ dataset record more function outputs,
    op.2 = .scan dataset (record :: more) function outputs →
    ∀ s, b.schemas.lookup op.1 = some s → s.record = record

theorem follows_start : Follows [] [] {} :=
  ⟨⟨nofun, nofun, nofun⟩, nofun, nofun, nofun, nofun⟩

/-- One more operator. -/
theorem Follows.visit (follows : Follows ops vars b) (isVisited : b.visit id body = .ok b')
    (unmet : id ∉ ops.map Prod.fst) (isNew : ∀ v ∈ body.produces, ¬ v.Of vars)
    (distinct : (body.produces.map Var.id).Nodup) (reads : body.ReadsFrom vars) :
    Follows ((id, body) :: ops) (body.produces ++ vars) b' := by
  have visited := follows.tracks.visit isVisited unmet isNew distinct reads
  have wider : ∀ v ∈ vars, v ∈ body.produces ++ vars := fun _ => List.mem_append_right _
  have own : ∀ op ∈ ops, ∀ v ∈ op.2.produces ++ vars, v ∈ vars := by
    intro op member v isVar
    rcases List.mem_append.mp isVar with isOwn | isOld
    · exact follows.produced op member v isOwn
    · exact isOld
  refine ⟨visited.tracks, ?_, ?_, ?_, ?_⟩
  · intro op member v isVar
    rcases List.mem_cons.mp member with rfl | earlier
    · exact List.mem_append_left _ isVar
    · exact wider v (follows.produced op earlier v isVar)
  · intro op member
    rcases List.mem_cons.mp member with rfl | earlier
    · exact ⟨visited.matched, reads.mono fun v isOld => ⟨v, wider v isOld, rfl⟩⟩
    · obtain ⟨matched, readsFrom⟩ := follows.reads op earlier
      exact ⟨matched, readsFrom.mono fun v isOld => ⟨v, wider v isOld, rfl⟩⟩
  · intro op member i s' found
    rcases List.mem_cons.mp member with rfl | earlier
    · exact visited.fits i s' found
    · obtain ⟨matched, reads'⟩ := follows.reads op earlier
      rcases visited.before i s' found with ⟨s, isBefore, keeps⟩ | ⟨_, _, record, more, _, _, rfl, rfl⟩
      · exact (follows.fits op earlier i s isBefore).kept (keeps.mono (own op earlier)) reads' matched
      · refine Schema.fits_new (fun isOld => ?_) reads' matched
        exact isNew record (.head _) (isOld.mono (own op earlier))
  · intro op member dataset record more function outputs isScan s' found
    rcases visited.before op.1 s' found with
      ⟨s, isBefore, keeps⟩ | ⟨same, _, record', _, _, _, isBody, rfl⟩
    · rcases List.mem_cons.mp member with rfl | earlier
      · exact absurd (follows.tracks.met id s isBefore) unmet
      · rw [keeps.record]
        exact follows.record op earlier dataset record more function outputs isScan s isBefore
    · rcases List.mem_cons.mp member with rfl | earlier
      · obtain ⟨_, isRecord, _⟩ := Body.scan.inj (isBody.symm.trans isScan)
        exact (List.cons.inj isRecord).1
      · exact absurd (List.mem_map.mpr ⟨op, earlier, same⟩) unmet

/-- All operators of a pass. -/
theorem Follows.visitAll : ∀ (rest : List (OpId × Body)) {ops : List (OpId × Body)} {vars : List Var}
    {b b' : Pushdown}, Follows ops vars b →
    rest.foldlM (fun (b : Pushdown) op => b.visit op.1 op.2) b = .ok b' → Flows vars rest →
    ((rest.map Prod.fst).reverse ++ ops.map Prod.fst).Nodup →
    (∀ op ∈ rest, ∀ v ∈ op.2.produces, ¬ v.Of vars) →
    ((rest.flatMap fun op => op.2.produces).map Var.id).Nodup →
    ∃ all, Follows (rest.reverse ++ ops) all b'
  | [], ops, vars, b, b', follows, visited, _, _, _, _ => by
    cases visited
    exact ⟨vars, follows⟩
  | op :: rest, ops, vars, b, b', follows, visited, ⟨reads, flows⟩, ids, isNew, distinct => by
    obtain ⟨middle, first, others⟩ := Except.bind_eq_ok.mp visited
    rw [List.flatMap_cons, List.map_append, List.nodup_append] at distinct
    rw [List.map_cons, List.reverse_cons, List.append_assoc] at ids
    have unmet : op.1 ∉ ops.map Prod.fst :=
      (List.nodup_cons.mp (List.nodup_append.mp ids).2.1).1
    have follows' := follows.visit first unmet (isNew op (.head _)) distinct.1 reads
    have isNew' : ∀ next ∈ rest, ∀ v ∈ next.2.produces, ¬ v.Of (op.2.produces ++ vars) := by
      rintro next member v isVar ⟨u, isOld, same⟩
      rcases List.mem_append.mp isOld with isOwn | isOld
      · refine distinct.2.2 u.id (List.mem_map_of_mem isOwn) v.id ?_ same
        exact List.mem_map_of_mem (List.mem_flatMap.mpr ⟨next, member, isVar⟩)
      · exact isNew next (.tail _ member) v isVar ⟨u, isOld, same⟩
    obtain ⟨all, whole⟩ := Follows.visitAll rest follows' others flows ids isNew' distinct.2.1
    refine ⟨all, ?_⟩
    rw [List.reverse_cons, List.append_assoc]
    exact whole

end Pushdown

/-- The operators of a walk. -/
def Lists (plan : Plan) (ids : List OpId) (ops : List (OpId × Body)) : Prop :=
  ops.map Prod.fst = ids ∧ ∀ op ∈ ops, ∃ o, plan.ops[op.1]? = some o ∧ o.body = op.2

theorem foldlM_visit : ∀ {ops : List (OpId × Body)} {b : Pushdown},
    (∀ op ∈ ops, ∃ o, plan.ops[op.1]? = some o ∧ o.body = op.2) →
    (ops.map Prod.fst).foldlM (fun (b : Pushdown) id => do
      let op ← plan.get id
      b.visit id op.body) b = ops.foldlM (fun b op => b.visit op.1 op.2) b
  | [], _, _ => rfl
  | op :: rest, b, lists => by
    obtain ⟨o, here, isBody⟩ := lists op (.head _)
    have found : plan.get op.1 = .ok o := by
      unfold Plan.get
      rw [here]
      rfl
    rw [List.map_cons, List.foldlM_cons, List.foldlM_cons, found]
    change ((b.visit op.1 o.body) >>= _) = _
    rw [isBody]
    cases b.visit op.1 op.2 with
    | error fault => rfl
    | ok b' => exact foldlM_visit (List.forall_mem_cons.mp lists).2

theorem expectedSchemas_fit {root : OpId} {schemas : Schemas}
    (found : expectedSchemas plan root = .ok schemas) (walked : plan.walk root = .ok ids)
    (lists : plan.Lists ids ops) (distinctIds : ids.Nodup) (flows : Pushdown.Flows [] ops)
    (distinct : ((ops.flatMap fun op => op.2.produces).map Var.id).Nodup) :
    ∀ op ∈ ops, ∀ id s, schemas.lookup id = some s → s.Fits op.2 ∧
      ∀ dataset record more function outputs, id = op.1 →
        op.2 = .scan dataset (record :: more) function outputs → s.record = record := by
  obtain ⟨_, isWalk, rest⟩ := Except.bind_eq_ok.mp found
  cases walked.symm.trans isWalk
  obtain ⟨b, passed, same⟩ := Except.bind_eq_ok.mp rest
  cases same
  rw [← lists.1, foldlM_visit lists.2] at passed
  obtain ⟨all, follows⟩ := Pushdown.follows_start.visitAll ops passed flows (by
    rw [List.map_nil, List.append_nil, lists.1]
    exact List.pairwise_reverse.mpr (distinctIds.imp Ne.symm)) (fun _ _ _ _ ⟨_, isOld, _⟩ =>
      nomatch isOld)
    distinct
  intro op member id s isSchema
  have isOp : op ∈ ops.reverse ++ [] := by
    rw [List.append_nil]
    exact List.mem_reverse.mpr member
  refine ⟨follows.fits op isOp id s isSchema, ?_⟩
  rintro dataset record more function outputs rfl isScan
  exact follows.record op isOp dataset record more function outputs isScan s isSchema

end QueryFusion.Plan

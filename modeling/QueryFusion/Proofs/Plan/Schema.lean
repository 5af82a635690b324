import QueryFusion.Plan.Schema
import QueryFusion.Proofs.Plan.Tuples

/-!
# Schemas that operators rely on

An operator relies on a schema if the schema has every path that the operator reads and its variables
stand for the paths that they were assigned or for none. What an expression reads depends on what the
schema knows of its variables only, so an operator relies on a later schema that knows the same of
them.
-/

namespace QueryFusion

/-- A variable is one of some variables. -/
def Var.Of (vars : List Var) (w : Var) : Prop := ∃ v ∈ vars, v.id = w.id

theorem Var.Of.mono {vars more : List Var} {w : Var} (isVar : w.Of vars)
    (sub : ∀ v ∈ vars, v ∈ more) : w.Of more := by
  obtain ⟨v, member, same⟩ := isVar
  exact ⟨v, sub v member, same⟩

namespace Expr

theorem ReadsOnly.mono {e : Expr} {vars wider : List Var} (reads : e.ReadsOnly vars)
    (sub : ∀ v ∈ vars, v.Of wider) : e.ReadsOnly wider := by
  intro w isVar
  obtain ⟨v, member, same⟩ := reads w isVar
  exact same ▸ sub v member

theorem root_mem_occurrences {e : Expr} {fields all : List String} {root : Var}
    (isChain : e.chainFrom fields = some (root, all)) : root ∈ e.occurrences := by
  fun_induction Expr.chainFrom e fields with
  | case1 fields v =>
    cases isChain
    exact List.mem_singleton_self _
  | case2 fields e name loc ih => exact List.mem_append_left _ (ih isChain)
  | case3 => cases isChain

theorem root_mem_of_fieldChain? {e : Expr} {fields : List String} {root : Var}
    (isChain : e.fieldChain? = some (root, fields)) : root ∈ e.occurrences := by
  unfold fieldChain? at isChain
  split at isChain
  · next found =>
    split at isChain
    · cases isChain
    · cases isChain
      exact root_mem_occurrences found
  · cases isChain

theorem exists_mem_vars {e : Expr} {w : Var} (member : w ∈ e.occurrences) :
    ∃ v ∈ e.vars, v.id = w.id := by
  have each : ∀ (occurrences seen : List Var),
      (w ∈ occurrences ∨ ∃ v ∈ seen, v.id = w.id) →
      ∃ v ∈ occurrences.foldl
        (fun seen v => if seen.any (·.id == v.id) then seen else seen ++ [v]) seen, v.id = w.id := by
    intro occurrences
    induction occurrences with
    | nil => exact fun seen found => found.resolve_left nofun
    | cons v rest ih =>
      intro seen found
      rw [List.foldl_cons]
      refine ih _ ?_
      rcases found with here | ⟨u, isSeen, same⟩
      · rcases List.mem_cons.mp here with rfl | later
        · right
          split
          · next isSeen =>
            obtain ⟨u, member, same⟩ := List.any_eq_true.mp isSeen
            exact ⟨u, member, eq_of_beq same⟩
          · exact ⟨_, List.mem_append_right _ (List.mem_singleton_self _), rfl⟩
        · exact .inl later
      · refine .inr ⟨u, ?_, same⟩
        split
        · exact isSeen
        · exact List.mem_append_left _ isSeen
  exact each e.occurrences [] (.inl member)

end Expr

namespace Plan

/-! ## Schemas -/

namespace Schema

variable {s s' s'' : Schema} {vars : List Var} {e : Expr} {p : Path} {v w : Var}

theorem varPath?_bind (s : Schema) (v w : Var) (p : Path) :
    (s.bind v p).varPath? w = if w.id = v.id then some p else s.varPath? w := by
  unfold varPath? bind
  rw [List.find?_cons]
  by_cases same : w.id = v.id
  · rw [if_pos same, same]
    simp
  · have apart : (v.id == w.id) = false := beq_false_of_ne (Ne.symm same)
    rw [if_neg same]
    simp only [apart]
    congr 1
    induction s.bound with
    | nil => rfl
    | cons entry rest ih =>
      rw [List.filter_cons, List.find?_cons]
      by_cases isThis : entry.1.id = w.id
      · have kept : (entry.1.id != v.id) = true := by
          rw [isThis]
          exact bne_iff_ne.mpr same
        rw [if_pos kept, List.find?_cons]
        simp [isThis]
      · have missed : (entry.1.id == w.id) = false := beq_false_of_ne isThis
        split
        · rw [List.find?_cons]
          simp only [missed]
          exact ih
        · simp only [missed]
          exact ih

/-- A later schema of the same scan: it knows the same about some variables and may have more
paths. -/
structure Keeps (vars : List Var) (s s' : Schema) : Prop where
  record : s'.record = s.record
  varPath : ∀ w : Var, w.Of vars → s'.varPath? w = s.varPath? w
  has : ∀ p, s.has p = true → s'.has p = true

theorem Keeps.refl (vars : List Var) (s : Schema) : s.Keeps vars s := ⟨rfl, fun _ _ => rfl, fun _ => id⟩

theorem Keeps.trans (first : s.Keeps vars s') (second : s'.Keeps vars s'') : s.Keeps vars s'' where
  record := second.record.trans first.record
  varPath := fun w isVar => (second.varPath w isVar).trans (first.varPath w isVar)
  has := fun p isThere => second.has p (first.has p isThere)

theorem Keeps.mono {fewer : List Var} (keeps : s.Keeps vars s') (sub : ∀ v ∈ fewer, v ∈ vars) :
    s.Keeps fewer s' where
  record := keeps.record
  varPath := fun w isVar => keeps.varPath w (isVar.mono sub)
  has := keeps.has

theorem Keeps.pathOf? (keeps : s.Keeps vars s') (reads : e.ReadsOnly vars) :
    s'.pathOf? e = s.pathOf? e := by
  cases e with
  | var v => exact keeps.varPath v (reads v (List.mem_singleton_self v))
  | _ =>
    unfold Schema.pathOf?
    dsimp only
    split
    · rfl
    · next root fields isChain =>
      rw [keeps.record, keeps.varPath root (reads root (Expr.root_mem_of_fieldChain? isChain))]

mutual

theorem Keeps.reads (keeps : s.Keeps vars s') : ∀ e : Expr, e.ReadsOnly vars →
    s'.reads e = s.reads e
  | .absent, _ => by rw [Schema.reads, Schema.reads]
  | .const _, _ => by rw [Schema.reads, Schema.reads]
  | .var v, reads => by
    rw [Schema.reads, Schema.reads, keeps.varPath v (reads v (List.mem_singleton_self v))]
  | .call fn args loc, reads => by
    rw [Schema.reads, Schema.reads, keeps.pathOf? reads, keeps.readsArgs args reads]

theorem Keeps.readsArgs (keeps : s.Keeps vars s') : ∀ es : List Expr,
    (∀ w ∈ Expr.occurrencesArgs es, ∃ v ∈ vars, v.id = w.id) → s'.readsArgs es = s.readsArgs es
  | [], _ => by rw [Schema.readsArgs, Schema.readsArgs]
  | e :: rest, reads => by
    rw [Schema.readsArgs, Schema.readsArgs,
      keeps.reads e fun w member => reads w (List.mem_append_left _ member),
      keeps.readsArgs rest fun w member => reads w (List.mem_append_right _ member)]

end

/-- A variable leads into the records of a schema: it stands for a path or is the record. -/
def Leads (s : Schema) (w : Var) : Prop := (∃ p, s.varPath? w = some p) ∨ w.id = s.record.id

theorem leads_of_pathOf? (isPath : s.pathOf? e = some p) : ∃ w ∈ e.occurrences, s.Leads w := by
  cases e with
  | var v => exact ⟨v, List.mem_singleton_self v, .inl ⟨p, isPath⟩⟩
  | _ =>
    unfold Schema.pathOf? at isPath
    dsimp only at isPath
    split at isPath
    · cases isPath
    · next root fields isChain =>
      refine ⟨root, Expr.root_mem_of_fieldChain? isChain, ?_⟩
      split at isPath
      · next isRecord => exact .inr isRecord
      · obtain ⟨q, found, _⟩ := Option.map_eq_some_iff.mp isPath
        exact .inl ⟨q, found⟩

mutual

theorem leads_of_reads : ∀ (e : Expr) {q : Path × Location}, q ∈ s.reads e →
    ∃ w ∈ e.occurrences, s.Leads w
  | .absent, _, member => by
    cases member
  | .const _, _, member => by
    cases member
  | .var v, _, member => by
    obtain ⟨p, isPath, _⟩ := List.mem_map.mp member
    exact ⟨v, List.mem_singleton_self v, .inl ⟨p, Option.mem_toList.mp isPath⟩⟩
  | .call fn args loc, q, member => by
    rw [Schema.reads] at member
    split at member
    · next p isPath =>
      split at isPath
      · exact leads_of_pathOf? isPath
      · cases isPath
    · exact leads_of_readsArgs args member

theorem leads_of_readsArgs : ∀ (es : List Expr) {q : Path × Location}, q ∈ s.readsArgs es →
    ∃ w ∈ Expr.occurrencesArgs es, s.Leads w
  | [], _, member => by
    cases member
  | e :: rest, q, member => by
    rcases List.mem_append.mp member with here | later
    · obtain ⟨w, isVar, leads⟩ := leads_of_reads e here
      exact ⟨w, List.mem_append_left _ isVar, leads⟩
    · obtain ⟨w, isVar, leads⟩ := leads_of_readsArgs rest later
      exact ⟨w, List.mem_append_right _ isVar, leads⟩

end

/-- Every path that an expression reads is registered. -/
def Registers (s : Schema) (e : Expr) : Prop := ∀ q ∈ s.reads e, s.has q.1 = true

theorem Registers.kept (registers : s.Registers e) (keeps : s.Keeps vars s')
    (reads : e.ReadsOnly vars) : s'.Registers e := by
  intro q member
  rw [keeps.reads e reads] at member
  exact keeps.has q.1 (registers q member)

theorem has_add (s : Schema) (p q : Path) (site : CallSite) :
    (s.add q site).has p = true ↔ s.has p = true ∨ q.text = p.text := by
  unfold add
  split
  · next isThere =>
    refine ⟨.inl, ?_⟩
    rintro (held | same)
    · exact held
    · unfold has at isThere ⊢
      rw [← same]
      exact isThere
  · unfold has
    simp

theorem add_bound (s : Schema) (q : Path) (site : CallSite) :
    (s.add q site).bound = s.bound ∧ (s.add q site).record = s.record := by
  unfold add
  split <;> exact ⟨rfl, rfl⟩

/-- A schema that differs in the registered paths only, of which it has all the other one has. -/
structure Grows (s s' : Schema) : Prop where
  record : s'.record = s.record
  bound : s'.bound = s.bound
  has : ∀ p, s.has p = true → s'.has p = true

theorem Grows.refl (s : Schema) : s.Grows s := ⟨rfl, rfl, fun _ => id⟩

theorem Grows.trans (first : s.Grows s') (second : s'.Grows s'') : s.Grows s'' where
  record := second.record.trans first.record
  bound := second.bound.trans first.bound
  has := fun p isThere => second.has p (first.has p isThere)

theorem Grows.varPath? (grows : s.Grows s') (w : Var) : s'.varPath? w = s.varPath? w := by
  unfold Schema.varPath?
  rw [grows.bound]

theorem Grows.keeps (grows : s.Grows s') (vars : List Var) : s.Keeps vars s' :=
  ⟨grows.record, fun w _ => grows.varPath? w, grows.has⟩

theorem Grows.reads (grows : s.Grows s') (e : Expr) : s'.reads e = s.reads e :=
  (grows.keeps e.occurrences).reads e fun w member => ⟨w, member, rfl⟩

theorem Grows.leads (grows : s.Grows s') {w : Var} : s'.Leads w ↔ s.Leads w := by
  unfold Leads
  rw [grows.varPath? w, grows.record]

theorem grows_add (s : Schema) (q : Path) (site : CallSite) : s.Grows (s.add q site) :=
  ⟨(add_bound s q site).2, (add_bound s q site).1, fun p isThere =>
    (has_add s p q site).mpr (.inl isThere)⟩

/-- Registers everything that an expression reads. -/
def register (e : Expr) (s : Schema) : Schema :=
  (s.reads e).foldl (fun s (p, loc) => s.add p ⟨Func.fieldAccess.name, loc⟩) s

theorem foldl_add (fn : String) : ∀ (reads : List (Path × Location)) (s : Schema),
    s.Grows (reads.foldl (fun s (p, loc) => s.add p ⟨fn, loc⟩) s) ∧
      ∀ q ∈ reads, (reads.foldl (fun s (p, loc) => s.add p ⟨fn, loc⟩) s).has q.1 = true
  | [], s => ⟨.refl s, nofun⟩
  | (p, loc) :: rest, s => by
    obtain ⟨grows, there⟩ := foldl_add fn rest (s.add p ⟨fn, loc⟩)
    refine ⟨(grows_add s p _).trans grows, fun q member => ?_⟩
    rcases List.mem_cons.mp member with rfl | later
    · exact grows.has p ((has_add s p p _).mpr (.inr rfl))
    · exact there q later

theorem grows_register (e : Expr) (s : Schema) : s.Grows (s.register e) := (foldl_add _ _ s).1

theorem registers_register (e : Expr) (s : Schema) : (s.register e).Registers e := by
  intro q member
  rw [(grows_register e s).reads] at member
  exact (foldl_add _ _ s).2 q member

theorem Registers.grows (registers : s.Registers e) (grows : s.Grows s') : s'.Registers e :=
  registers.kept (grows.keeps e.occurrences) fun w member => ⟨w, member, rfl⟩

section reads

variable {D : Path → Prop} {schema : Schema}

/-- Every path that an expression reads is one of some paths and registered. -/
def Reads (D : Path → Prop) (schema : Schema) (e : Expr) : Prop :=
  ∀ q ∈ schema.reads e, D q.1 ∧ schema.has q.1 = true

/-- Every path that some expressions read is one of some paths and registered. -/
def ReadsArgs (D : Path → Prop) (schema : Schema) (es : List Expr) : Prop :=
  ∀ q ∈ schema.readsArgs es, D q.1 ∧ schema.has q.1 = true

theorem readsArgs_cons {e : Expr} {rest : List Expr} :
    schema.ReadsArgs D (e :: rest) ↔ schema.Reads D e ∧ schema.ReadsArgs D rest := by
  constructor
  · intro reads
    exact ⟨fun q member => reads q (List.mem_append_left _ member),
      fun q member => reads q (List.mem_append_right _ member)⟩
  · rintro ⟨first, others⟩ q member
    rcases List.mem_append.mp member with left | right
    · exact first q left
    · exact others q right

theorem reads_call {fn : Func} {args : List Expr} {loc : Location}
    (reads : schema.Reads D (.call fn args loc)) :
    (∃ p, fn = .fieldAccess ∧ schema.pathOf? (.call fn args loc) = some p ∧ D p ∧
      schema.has p = true) ∨
    ((fn = .fieldAccess → schema.pathOf? (.call fn args loc) = none) ∧
      schema.ReadsArgs D args) := by
  unfold Reads at reads
  rw [Schema.reads] at reads
  by_cases isAccess : fn = .fieldAccess
  · rw [if_pos isAccess] at reads
    cases found : schema.pathOf? (.call fn args loc) with
    | some p =>
      rw [found] at reads
      exact .inl ⟨p, isAccess, rfl, reads (p, loc) (List.mem_singleton_self _)⟩
    | none =>
      rw [found] at reads
      exact .inr ⟨fun _ => rfl, reads⟩
  · rw [if_neg isAccess] at reads
    exact .inr ⟨fun same => absurd same isAccess, reads⟩

theorem ReadsArgs.each : ∀ {es : List Expr}, schema.ReadsArgs D es → ∀ e ∈ es, schema.Reads D e
  | _ :: _, reads, e, member => by
    obtain ⟨first, others⟩ := readsArgs_cons.mp reads
    rcases List.mem_cons.mp member with rfl | later
    · exact first
    · exact others.each e later

theorem Registers.reads {D : Path → Prop} {schema : Schema} {e : Expr} (registers : schema.Registers e)
    (known : ∀ q ∈ schema.reads e, D q.1) : schema.Reads D e :=
  fun q member => ⟨known q member, registers q member⟩

end reads

end Schema

/-! ## Operators -/

namespace Body

/-- The variables that an operator produces. -/
def produces : Body → List Var
  | scan _ vars _ _ => vars
  | assign vars _ => vars
  | unnest v pos _ => v :: pos.toList
  | aggregate vars _ _ => vars
  | groupBy keys _ _ => keys.map Binding.var
  | boundary _ vars => vars
  | _ => []

/-- The expressions whose paths an operator registers. -/
def uses : Body → List Expr
  | unnest .. => []
  | body => body.exprs

theorem mem_exprs {body : Body} {e : Expr} (member : e ∈ body.uses) : e ∈ body.exprs := by
  cases body <;> first | exact member | cases member

/-- Every variable that an operator reads is one of some variables, or bound by an earlier binding of
the same assign. -/
def ReadsFrom (vars : List Var) : Body → Prop
  | assign more exprs => AssignScoped vars more exprs
  | body => ∀ e ∈ body.exprs, e.ReadsOnly vars

/-- Whether an operator scans a dataset. -/
def IsScan : Body → Prop
  | scan .. => True
  | _ => False

/-- The bindings of an assign all have a variable. -/
def Matched : Body → Prop
  | assign vars exprs => exprs.length ≤ vars.length
  | _ => True

end Body

namespace Schema

variable {s s' : Schema} {vars : List Var} {body : Body}

/-- What the variables of an operator stand for. -/
def Denotes (s : Schema) : Body → Prop
  | .assign vars exprs => ∀ binding ∈ vars.zip exprs, ∀ p, s.varPath? binding.1 = some p →
      s.pathOf? binding.2 = some p
  | .unnest v pos e => (∀ p, s.varPath? v = some p →
      ∃ q, s.pathOf? (Pushdown.unnestSource e) = some q ∧ p = q.elements) ∧
      ∀ w ∈ pos, s.varPath? w = none
  | body => ∀ v ∈ body.produces, s.varPath? v = none

/-- An operator can rely on a schema. -/
structure Fits (s : Schema) (body : Body) : Prop where
  registers : ∀ e ∈ body.uses, s.Registers e
  denotes : s.Denotes body
  apart : ¬ body.IsScan → ∀ v ∈ body.produces, v.id ≠ s.record.id

end Schema

theorem AssignScoped.readsOnly : ∀ {vars more : List Var} {exprs : List Expr},
    AssignScoped vars more exprs → ∀ binding ∈ more.zip exprs, binding.2.ReadsOnly (more ++ vars)
  | _, [], _, _, _, member => nomatch member
  | _, _ :: _, [], _, _, member => nomatch member
  | vars, v :: more, e :: exprs, ⟨first, others⟩, binding, member => by
    rcases List.mem_cons.mp member with rfl | later
    · exact fun w isVar => Var.Of.mono (first w isVar) fun u isOld => List.mem_append_right _ isOld
    · intro w isVar
      refine Var.Of.mono (AssignScoped.readsOnly others binding later w isVar) fun u member => ?_
      exact List.perm_middle.subset member

theorem AssignScoped.mono : ∀ {vars wider more : List Var} {exprs : List Expr},
    AssignScoped vars more exprs → (∀ v ∈ vars, v.Of wider) → AssignScoped wider more exprs
  | _, _, [], _, _, _ => by
    trivial
  | _, _, _ :: _, [], _, _ => trivial
  | _, _, v :: more, e :: exprs, ⟨first, others⟩, sub =>
    ⟨first.mono sub, others.mono fun u member =>
      (List.mem_cons.mp member).elim (fun same => ⟨v, .head _, same ▸ rfl⟩)
        fun isOld => .mono (sub u isOld) fun _ => .tail _⟩

theorem Body.ReadsFrom.mono {vars wider : List Var} {body : Body} (reads : body.ReadsFrom vars)
    (sub : ∀ v ∈ vars, v.Of wider) : body.ReadsFrom wider := by
  cases body with
  | assign more exprs => exact AssignScoped.mono reads sub
  | _ => exact fun e member => (reads e member).mono sub

theorem exists_zip_of_mem {vars : List Var} {exprs : List Expr} (matched : exprs.length ≤ vars.length)
    {e : Expr} (member : e ∈ exprs) : ∃ v, (v, e) ∈ vars.zip exprs := by
  obtain ⟨i, here⟩ := List.mem_iff_getElem?.mp member
  have below := Nat.lt_of_lt_of_le (List.getElem?_eq_some_iff.mp here).1 matched
  refine ⟨vars[i], List.mem_of_getElem? (i := i) ?_⟩
  rw [List.getElem?_zip_eq_some]
  exact ⟨List.getElem?_eq_getElem below, here⟩

theorem occurrences_unnestSource {e : Expr} {w : Var}
    (member : w ∈ (Pushdown.unnestSource e).occurrences) : w ∈ e.occurrences := by
  unfold Pushdown.unnestSource at member
  split at member
  · exact List.mem_append_left _ member
  · exact member

theorem Body.ReadsFrom.within {vars : List Var} {body : Body} (reads : body.ReadsFrom vars)
    (matched : body.Matched) : ∀ e ∈ body.exprs, e.ReadsOnly (body.produces ++ vars) := by
  intro e member
  cases body with
  | assign more exprs =>
    obtain ⟨v, isBinding⟩ := exists_zip_of_mem matched member
    exact AssignScoped.readsOnly reads (v, e) isBinding
  | _ =>
    exact fun w isVar => Var.Of.mono (reads e member w isVar) fun u isOld =>
      List.mem_append_right _ isOld

/-- An operator relies on what later schemas keep. -/
theorem Schema.Fits.kept {s s' : Schema} {vars : List Var} {body : Body} (fits : s.Fits body)
    (keeps : s.Keeps (body.produces ++ vars) s') (reads : body.ReadsFrom vars)
    (matched : body.Matched) : s'.Fits body := by
  have within := reads.within matched
  have own : ∀ v ∈ body.produces, s'.varPath? v = s.varPath? v := fun v member =>
    keeps.varPath v ⟨v, List.mem_append_left _ member, rfl⟩
  refine ⟨?_, ?_, ?_⟩
  · intro e member
    exact (fits.registers e member).kept keeps (within e (Body.mem_exprs member))
  · cases body with
    | assign more exprs =>
      intro binding member p isPath
      have isVar := (List.of_mem_zip member).1
      rw [own _ isVar] at isPath
      rw [keeps.pathOf? (AssignScoped.readsOnly reads binding member)]
      exact fits.denotes binding member p isPath
    | unnest v pos e =>
      refine ⟨fun p isPath => ?_, fun w isPos => ?_⟩
      · rw [own v (.head _)] at isPath
        obtain ⟨q, isSource, same⟩ := fits.denotes.1 p isPath
        refine ⟨q, ?_, same⟩
        rw [keeps.pathOf? fun w member => within e (List.mem_singleton_self e) w
          (occurrences_unnestSource member)]
        exact isSource
      · rw [own w (.tail _ (Option.mem_toList.mpr isPos))]
        exact fits.denotes.2 w isPos
    | _ => exact fun v member => (own v member).trans (fits.denotes v member)
  · intro notScan v member
    rw [keeps.record]
    exact fits.apart notScan v member

theorem Schema.fits_new {record : Var} {vars : List Var} {body : Body}
    (isNew : ¬ record.Of (body.produces ++ vars)) (reads : body.ReadsFrom vars)
    (matched : body.Matched) : Schema.Fits { record } body := by
  have apart : ∀ w : Var, w.Of (body.produces ++ vars) → w.id ≠ record.id := by
    rintro w ⟨v, member, same⟩ isRecord
    exact isNew ⟨v, member, same.trans isRecord⟩
  have unread : ∀ e : Expr, e.ReadsOnly (body.produces ++ vars) → ∀ w ∈ e.occurrences,
      ¬ Schema.Leads { record } w := by
    rintro e reads w member (⟨p, isPath⟩ | isRecord)
    · cases isPath
    · exact apart w (reads w member) isRecord
  refine ⟨?_, ?_, fun _ v member => apart v ⟨v, List.mem_append_left _ member, rfl⟩⟩
  · intro e member q isRead
    obtain ⟨w, isVar, leads⟩ := Schema.leads_of_reads e isRead
    exact absurd leads (unread e (reads.within matched e (Body.mem_exprs member)) w isVar)
  · cases body with
    | assign more exprs => exact fun binding member p isPath => nomatch isPath
    | unnest v pos e => exact ⟨nofun, fun _ _ => rfl⟩
    | _ => exact fun v member => rfl

end Plan

end QueryFusion

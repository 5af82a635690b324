import QueryFusion.Document.Decode
import QueryFusion.Proofs.Plan.Forest
import QueryFusion.Proofs.Plan.Sturdy

/-!
# Decoded plans are well formed

Decoding an operator adds its tree at the end of the table of operators and changes nothing that was
there before. Every name is one variable: a variable is added under a name and a number that no other
one has. So the plan of a document is a tree of well-made operators whose live variables can be
computed.

An absent element of a list of inputs is the only part that decoding relies on without looking: absent
single inputs, nested plans, expressions and arguments are all reported. The refusal of a binding quotes
its expression, which has a text because it was decoded, and the root of a nested plan is looked up
among the operators that were just added.
-/

namespace QueryFusion.Document

open Plan (OpId Operator Body)

mutual

/-- Whether no list of inputs of an operator, or of one below it, has an absent element. -/
def OpSpec.isComplete : OpSpec → Bool
  | ⟨_, input, inputs, _, _, _, _, _, _, _, _, _, _, _, _, _, nested⟩ =>
    isCompletePart input && areComplete inputs && isCompletePart nested

/-- Whether an operator is absent or has complete inputs. -/
def isCompletePart : Option OpSpec → Bool
  | none => true
  | some spec => spec.isComplete

/-- Whether inputs are there and complete. -/
def areComplete : List (Option OpSpec) → Bool
  | [] => true
  | none :: _ => false
  | some spec :: rest => spec.isComplete && areComplete rest

end

/-! ## Steps -/

/-- Whatever a decoding step gives out from a state, with the state it leaves. If what it decodes is
complete, it gives out an answer or an error. -/
def Decodes {α : Type} (complete : Prop) (step : Decoding α) (s : DecodeState)
    (holds : α → DecodeState → Prop) : Prop :=
  (∀ a s', step s = .ok (a, s') → holds a s') ∧ (complete → ∀ fault, step s ≠ .error (.fault fault))

variable {complete : Prop}

section steps

variable {α β : Type} {s : DecodeState} {holds : α → DecodeState → Prop}

theorem Decodes.bind {step : Decoding α} {next : α → Decoding β} {more : β → DecodeState → Prop}
    (first : Decodes complete step s holds)
    (second : ∀ a middle, holds a middle → Decodes complete (next a) middle more) :
    Decodes complete (step >>= next) s more := by
  refine ⟨fun b last done => ?_, fun whole fault failed => ?_⟩
  · obtain ⟨⟨a, middle⟩, one, rest⟩ := Except.bind_eq_ok.mp done
    exact (second a middle (first.1 a middle one)).1 b last rest
  · change (step s >>= fun p => next p.1 p.2) = _ at failed
    cases ran : step s with
    | error failure =>
      rw [ran] at failed
      cases failed
      exact first.2 whole fault ran
    | ok answer =>
      rw [ran] at failed
      exact (second _ _ (first.1 answer.1 answer.2 ran)).2 whole fault failed

theorem Decodes.pure {a : α} (held : holds a s) : Decodes complete (Pure.pure a) s holds := by
  refine ⟨fun b last done => ?_, fun _ _ => nofun⟩
  cases done
  exact held

theorem Decodes.refuse {place : Place} {cause : OpError} :
    Decodes complete (refuseOp place cause : Decoding α) s holds := ⟨fun _ _ => nofun, fun _ _ => nofun⟩

theorem Decodes.get {next : DecodeState → Decoding α} (held : Decodes complete (next s) s holds) :
    Decodes complete (MonadState.get >>= next) s holds := held

theorem Decodes.set {new : DecodeState} {next : PUnit → Decoding α}
    (held : Decodes complete (next ⟨⟩) new holds) :
    Decodes complete (MonadStateOf.set new >>= next) s holds := held

theorem Decodes.mono {step : Decoding α} {more : α → DecodeState → Prop}
    (decodes : Decodes complete step s holds) (weaker : ∀ a s', holds a s' → more a s') :
    Decodes complete step s more := ⟨fun a s' done => weaker a s' (decodes.1 a s' done), decodes.2⟩

end steps

/-! ## Variables -/

/-- Variables of which each has a name and a number of its own, the latest first. -/
structure Numbered (vars : List Var) : Prop where
  apart : vars.Pairwise fun v w => v.name ≠ w.name ∧ w.id < v.id
  bound : ∀ v ∈ vars, v.id ≤ vars.length

variable {vars : List Var}

theorem Numbered.eq (numbered : Numbered vars) {v w : Var} (isIn : v ∈ vars)
    (isIn' : w ∈ vars) (same : v.name = w.name ∨ v.id = w.id) : v = w := by
  have apart := numbered.apart
  clear numbered
  induction apart with
  | nil => cases isIn
  | @cons first rest before _ ih =>
    rcases List.mem_cons.mp isIn with rfl | later <;> rcases List.mem_cons.mp isIn' with rfl | later'
    · rfl
    · have := before w later'
      rcases same with name | id
      · exact absurd name this.1
      · omega
    · have := before v later
      rcases same with name | id
      · exact absurd name.symm this.1
      · omega
    · exact ih later later'

/-- A step that at most adds variables. -/
structure Names (s s' : DecodeState) : Prop where
  plan : s'.plan = s.plan
  vars : s.vars <:+ s'.vars
  numbered : Numbered s.vars → Numbered s'.vars

theorem Names.refl (s : DecodeState) : Names s s := ⟨rfl, List.suffix_refl _, fun numbered => numbered⟩

variable {middle s' : DecodeState}

theorem Names.trans {s : DecodeState} (first : Names s middle) (second : Names middle s') :
    Names s s' :=
  ⟨second.plan.trans first.plan, first.vars.trans second.vars,
    fun numbered => second.numbered (first.numbered numbered)⟩

/-- The variable of a name is known from then on. -/
theorem decodes_varNamed (name : String) (s : DecodeState) :
    Decodes complete (varNamed name) s fun v s' => Names s s' ∧ v ∈ s'.vars := by
  refine .get ?_
  split
  · next found => exact .pure ⟨.refl s, List.mem_of_find?_eq_some found⟩
  · next found =>
    have fresh : ∀ w ∈ s.vars, name ≠ w.name := by
      intro w member same
      have := List.find?_eq_none.mp found w member
      rw [same] at this
      exact this (beq_self_eq_true _)
    refine .set (.pure ?_)
    refine ⟨⟨rfl, List.suffix_cons _ _, fun numbered => ⟨?_, ?_⟩⟩, .head _⟩
    · exact .cons (fun w member => ⟨fresh w member, Nat.lt_succ_of_le (numbered.bound w member)⟩)
        numbered.apart
    · intro w member
      rcases List.mem_cons.mp member with rfl | earlier
      · exact le_rfl
      · exact Nat.le_succ_of_le (numbered.bound w earlier)

theorem decodes_varsNamed : ∀ (names : List String) (s : DecodeState),
    Decodes complete (names.mapM varNamed) s fun vars s' => Names s s' ∧ ∀ v ∈ vars, v ∈ s'.vars
  | [], s => .pure ⟨.refl s, by simp⟩
  | name :: names, s => by
    rw [List.mapM_cons]
    refine .bind (decodes_varNamed name s) fun v middle ⟨first, member⟩ => ?_
    refine .bind (decodes_varsNamed names middle) fun vars last ⟨second, members⟩ => ?_
    refine .pure ⟨first.trans second, fun w isIn => ?_⟩
    rcases List.mem_cons.mp isIn with rfl | later
    · exact second.vars.subset member
    · exact members w later

/-! ## Expressions -/

/-- An expression over variables of a list, with nothing absent in it. -/
structure Known (vars : List Var) (e : Expr) : Prop where
  vars : ∀ v ∈ e.occurrences, v ∈ vars
  text : e.Whole

theorem Known.mono {more : List Var} {e : Expr} (known : Known vars e) (fewer : vars ⊆ more) :
    Known more e := ⟨fun v member => fewer (known.vars v member), known.text⟩

theorem Known.var {v : Var} (member : v ∈ vars) : Known vars (.var v) :=
  ⟨by simpa [Expr.occurrences] using member, _, rfl⟩

theorem Known.const (vars : List Var) (c : Constant) : Known vars (.const c) :=
  ⟨by simp [Expr.occurrences], _, rfl⟩

theorem Known.call {args : List Expr} (fn : Func) (loc : Location)
    (each : ∀ e ∈ args, Known vars e) : Known vars (.call fn args loc) := by
  have all : (∀ v ∈ Expr.occurrencesArgs args, v ∈ vars) ∧ ∃ ts, Expr.textArgs args = .ok ts := by
    induction args with
    | nil => exact ⟨by simp [Expr.occurrencesArgs], _, rfl⟩
    | cons e rest ih =>
      obtain ⟨occurs, ts, texts⟩ := ih (List.forall_mem_cons.mp each).2
      obtain ⟨first, t, text⟩ := each e (.head _)
      refine ⟨fun v member => ?_, t :: ts, ?_⟩
      · exact (List.mem_append.mp member).elim (first v) (occurs v)
      · rw [Expr.textArgs, text, texts]
        rfl
  obtain ⟨occurs, ts, texts⟩ := all
  refine ⟨occurs, fn.name ++ "(" ++ ", ".intercalate ts ++ ")", ?_⟩
  rw [Expr.textWithin, texts]
  rfl

theorem Known.field {e : Expr} (known : Known vars e) (name : String) : Known vars (e.field name) :=
  .call _ _ fun arg member => by
    rcases List.mem_pair.mp member with rfl | rfl
    · exact known
    · exact .const vars _

theorem Known.fields : ∀ (names : List (List Char)) {e : Expr}, Known vars e →
    Known vars (names.foldl (fun e f => e.field (String.ofList f)) e)
  | [], _, known => known
  | _ :: names, _, known => .fields names (known.field _)

/-- What decoding a part of an expression gives out, if it is accepted. -/
def NamesIn {α : Type} (complete : Prop) (step : ExprDecoding α) (s : DecodeState)
    (holds : α → List Var → Prop) : Prop :=
  Decodes complete step.run s fun answer s' => Names s s' ∧ ∀ a, answer = .ok a → holds a s'.vars

section parts

variable {α β : Type} {s : DecodeState} {holds : α → List Var → Prop}

theorem NamesIn.bind {step : ExprDecoding α} {next : α → ExprDecoding β}
    {more : β → List Var → Prop} (first : NamesIn complete step s holds)
    (second : ∀ a s', Names s s' → holds a s'.vars → NamesIn complete (next a) s' more) :
    NamesIn complete (step >>= next) s more := by
  refine Decodes.bind first fun answer middle ⟨names, held⟩ => ?_
  cases answer with
  | error cause => exact .pure ⟨names, fun a same => by cases same⟩
  | ok a =>
    exact (second a middle names (held a rfl)).mono fun answer' last ⟨names', held'⟩ =>
      ⟨names.trans names', held'⟩

theorem NamesIn.pure {a : α} (held : holds a s.vars) : NamesIn complete (Pure.pure a) s holds :=
  Decodes.pure ⟨.refl s, fun b same => by cases same; exact held⟩

theorem NamesIn.throw {cause : ExprError} : NamesIn complete (MonadExcept.throw cause) s holds :=
  Decodes.pure ⟨.refl s, fun b same => by cases same⟩

theorem NamesIn.adapt {step : ExprDecoding α} (wrap : ExprError → ExprError)
    (names : NamesIn complete step s holds) : NamesIn complete (ExceptT.adapt wrap step) s holds := by
  refine Decodes.bind names fun inner s' ⟨names', held⟩ => Decodes.pure ⟨names', fun a same => ?_⟩
  cases inner with
  | error cause => cases same
  | ok =>
    cases same
    exact held a rfl

theorem namesIn_varNamed (name : String) (s : DecodeState) :
    NamesIn complete (liftM (varNamed name) : ExprDecoding Var) s fun v vars => v ∈ vars :=
  Decodes.bind (decodes_varNamed name s) fun v s' ⟨names, member⟩ =>
    .pure ⟨names, fun w same => by cases same; exact member⟩

end parts

mutual

theorem namesIn_decodeExpr : ∀ (spec : ExprSpec) (s : DecodeState),
    NamesIn complete (decodeExpr spec) s fun e vars => Known vars e
  | ⟨var, path, int, float, string, bool, isNull, isMissing, fn, args, loc⟩, s => by
    have constant (c : Constant) : NamesIn complete (Pure.pure (.const c) : ExprDecoding Expr) s
        fun e vars => Known vars e := .pure (.const _ c)
    rw [decodeExpr.eq_def]
    dsimp only
    split
    · exact .bind (namesIn_varNamed _ s) fun v s' _ member => .pure (.var member)
    · split
      · split
        · exact .throw
        · exact .bind (namesIn_varNamed _ s) fun v s' _ member =>
            .pure (.fields _ (.var member))
      · split
        · exact constant _
        · exact constant _
        · exact constant _
        · exact constant _
        · split
          · exact constant _
          · split
            · exact constant _
            · split
              · exact .throw
              · split
                · exact .throw
                · next f _ =>
                  refine .bind (namesIn_decodeArgs fn 0 args s) fun args s' _ known => ?_
                  split
                  · exact .pure (.call f _ known)
                  · split
                    · exact .pure (.call f _ known)
                    · exact .throw

theorem namesIn_decodeArgs (fn : String) : ∀ (i : Nat) (args : List (Option ExprSpec))
    (s : DecodeState), NamesIn complete (decodeArgs fn i args) s fun es vars => ∀ e ∈ es, Known vars e
  | _, [], s => by
    exact .pure (by simp)
  | i, none :: _, s => by
    exact .throw
  | i, some arg :: rest, s => by
    refine .bind (.adapt _ (namesIn_decodeExpr arg s)) fun first middle _ known => ?_
    refine .bind (namesIn_decodeArgs fn (i + 1) rest middle) fun others last names knowns => ?_
    refine .pure fun e member => ?_
    rcases List.mem_cons.mp member with rfl | later
    · exact known.mono names.vars.subset
    · exact knowns e later

end

theorem decodes_requireExpr (place : Place) (wrap : ExprError → OpError) (spec : Option ExprSpec)
    (s : DecodeState) :
    Decodes complete (requireExpr place wrap spec) s fun e s' => Names s s' ∧ Known s'.vars e := by
  unfold requireExpr
  split
  · exact .refuse
  · next spec =>
    refine .bind (namesIn_decodeExpr spec s) fun answer s' ⟨names, known⟩ => ?_
    split
    · exact .pure ⟨names, known _ rfl⟩
    · exact .refuse

/-! ## Parts of operators -/

theorem decodes_binds (place : Place) (list : BindingList) : ∀ (i : Nat) (specs : List BindSpec)
    (s : DecodeState), Decodes complete (decodeBinds place list i specs) s fun binds s' => Names s s' ∧
      (∀ v ∈ binds.map Plan.Binding.var, v ∈ s'.vars) ∧
      ∀ e ∈ binds.map Plan.Binding.expr, Known s'.vars e
  | _, [], s => .pure ⟨.refl s, by simp⟩
  | i, spec :: rest, s => by
    rw [decodeBinds]
    split
    · exact .refuse
    · refine .bind (decodes_requireExpr _ _ _ s) fun e s₁ ⟨first, known⟩ => ?_
      refine .bind (decodes_varNamed _ s₁) fun v s₂ ⟨second, member⟩ => ?_
      refine .bind (decodes_binds place list (i + 1) rest s₂)
        fun others s₃ ⟨third, vars, exprs⟩ => .pure ⟨first.trans (second.trans third), ?_, ?_⟩
      · exact List.forall_mem_cons.mpr ⟨third.vars.subset member, vars⟩
      · exact List.forall_mem_cons.mpr ⟨known.mono (second.trans third).vars.subset, exprs⟩

theorem decodes_aggregateCalls (place : Place) : ∀ (i : Nat) (binds : List Plan.Binding)
    (s : DecodeState), (∀ b ∈ binds, b.expr.Whole) →
    Decodes complete (aggregateCalls place i binds) s fun calls s' => s' = s ∧
      calls.map Call.expr = binds.map Plan.Binding.expr ∧
      ∀ call ∈ calls, call.fn.kind = .aggregate
  | _, [], s, _ => .pure ⟨rfl, rfl, by simp⟩
  | i, ⟨var, expr⟩ :: rest, s, whole => by
    have refuses : Decodes complete (aggregateCalls.refuseBinding place i expr) s
        fun calls s' => s' = s ∧ calls.map Call.expr = (⟨var, expr⟩ :: rest).map Plan.Binding.expr ∧
          ∀ call ∈ calls, call.fn.kind = .aggregate := by
      obtain ⟨text, isText⟩ := (whole _ (.head _)).text
      unfold aggregateCalls.refuseBinding
      rw [show expr.text = .ok text from isText]
      exact .refuse
    rw [aggregateCalls]
    split
    · next fn args loc isCall =>
      split
      · next isAggregate =>
        refine .bind (decodes_aggregateCalls place (i + 1) rest s
          (List.forall_mem_cons.mp whole).2) fun others s' ⟨same, exprs, each⟩ => ?_
        refine .pure ⟨same, ?_, fun call member => ?_⟩
        · change expr = _ at isCall
          rw [isCall, List.map_cons, List.map_cons, exprs]
          rfl
        · rcases List.mem_cons.mp member with rfl | later
          · exact isAggregate
          · exact each call later
      · exact refuses
    · exact refuses

theorem decodes_order (place : Place) : ∀ (i : Nat) (specs : List OrderSpec) (s : DecodeState),
    Decodes complete (decodeOrder place i specs) s fun keys s' => Names s s' ∧
      ∀ e ∈ keys.map (·.expr), Known s'.vars e
  | _, [], s => .pure ⟨.refl s, by simp⟩
  | i, spec :: rest, s => by
    refine .bind (decodes_requireExpr _ _ _ s) fun e s₁ ⟨first, known⟩ => ?_
    refine .bind (decodes_order place (i + 1) rest s₁) fun others s₂ ⟨second, each⟩ => ?_
    exact .pure ⟨first.trans second, List.forall_mem_cons.mpr ⟨known.mono second.vars.subset, each⟩⟩

/-! ## Operators -/

/-- An operator over variables of a list, with nothing absent in its expressions, whose live
variables are not computed. -/
structure Fresh (vars : List Var) (op : Operator) : Prop where
  own : ∀ v ∈ op.body.ownVars, v ∈ vars
  exprs : ∀ e ∈ op.body.exprs, Known vars e
  env : op.env = none

theorem Fresh.mono {op : Operator} {more : List Var} (fresh : Fresh vars op) (fewer : vars ⊆ more) :
    Fresh more op :=
  ⟨fun v member => fewer (fresh.own v member), fun e member => (fresh.exprs e member).mono fewer,
    fresh.env⟩

theorem Fresh.mentions {op : Operator} (fresh : Fresh vars op) :
    ∀ v ∈ op.body.mentions, v ∈ vars := by
  intro v member
  rcases List.mem_append.mp member with isOwn | isRead
  · exact fresh.own v isOwn
  · obtain ⟨e, isExpr, occurs⟩ := List.mem_flatMap.mp isRead
    exact (fresh.exprs e isExpr).vars v occurs

/-- A state of decoding in which the operators are over numbered variables. -/
structure Sound (s : DecodeState) : Prop where
  numbered : Numbered s.vars
  fresh : ∀ (i : OpId) op, s.plan.ops[i]? = some op → Fresh s.vars op

/-- A part of decoding that adds the trees of some operators at the end of the table. -/
structure Builds (outer : Option OpId) (ids : List Nat) (s s' : DecodeState) : Prop where
  vars : s.vars <:+ s'.vars
  kept : ∀ i : Nat, i < s.plan.ops.size → s'.plan.ops[i]? = s.plan.ops[i]?
  sound : Sound s → Sound s'
  forest : s'.plan.Forest outer ids s.plan.ops.size s'.plan.ops.size

theorem Names.builds {s : DecodeState} (names : Names s s') (outer : Option OpId) :
    Builds outer [] s s' where
  vars := names.vars
  kept := fun i _ => by rw [names.plan]
  sound := fun sound => ⟨names.numbered sound.numbered, fun i op found => by
    rw [names.plan] at found
    exact (sound.fresh i op found).mono names.vars.subset⟩
  forest := by
    rw [names.plan]
    exact .nil _ _

variable {outer : Option OpId}

theorem Builds.trans {ids more : List Nat} {s : DecodeState}
    (first : Builds outer ids s middle) (second : Builds outer more middle s') :
    Builds outer (ids ++ more) s s' where
  vars := first.vars.trans second.vars
  kept := fun i low => by
    rw [second.kept i (low.trans_le first.forest.le), first.kept i low]
  sound := fun sound => second.sound (first.sound sound)
  forest := (first.forest.congr fun i _ high => second.kept i high).append second.forest

theorem Builds.named {ids : List Nat} {s last : DecodeState} (built : Builds outer ids s s')
    (names : Names s' last) : Builds outer ids s last := by
  have both := built.trans (names.builds outer)
  rwa [List.append_nil] at both

theorem decodes_addOp (body : Body) (inputs : List OpId) (s : DecodeState) :
    Decodes complete (addOp body inputs) s fun id last => id = s.plan.ops.size ∧
      last = { s with plan := { ops := s.plan.ops.push { body, inputs } } } :=
  .get (.set (.pure ⟨rfl, rfl⟩))

variable {body : Body}

theorem Builds.add {inputs : List Nat} {s : DecodeState}
    (built : Builds outer inputs s s') (own : ∀ v ∈ body.ownVars, v ∈ s'.vars)
    (exprs : ∀ e ∈ body.exprs, Known s'.vars e)
    (suits : ∀ plan, Operator.Suits plan outer { body, inputs }) (flat : body.nested? = none) :
    Decodes complete (addOp body inputs) s' fun id last => Builds outer [id] s last := by
  refine (decodes_addOp body inputs s').mono fun id last ⟨isId, isLast⟩ => ?_
  subst isId isLast
  have old : ∀ i : Nat, i < s'.plan.ops.size →
      (s'.plan.ops.push { body, inputs })[i]? = s'.plan.ops[i]? := fun i low => by
    rw [Array.getElem?_push, if_neg low.ne]
  refine ⟨built.vars, fun i low => ?_, fun sound => ?_, ?_⟩
  · exact (old i (low.trans_le built.forest.le)).trans (built.kept i low)
  · refine ⟨(built.sound sound).numbered, fun i op found => ?_⟩
    rw [Array.getElem?_push] at found
    split at found
    · cases found
      exact ⟨own, exprs, rfl⟩
    · exact (built.sound sound).fresh i op found
  · have nested (plan : Plan) : plan.Forest (some s'.plan.ops.size) body.nested?.toList
        (s'.plan.ops.size + 1) (s'.plan.ops.push { body, inputs }).size := by
      rw [flat, Array.size_push]
      exact .nil _ _
    exact .cons Array.getElem?_push_size (suits _) (built.forest.congr fun i _ high => old i high)
      (nested _) (.nil _ _)

theorem Builds.own {below top : Nat} {s nested : DecodeState}
    {bare : Body} {agg : Operator} (built : Builds outer [below] s middle)
    (inside : Builds (some middle.plan.ops.size) [top]
      { middle with plan := { ops := middle.plan.ops.push { body := bare, inputs := [below] } } } nested)
    (fresh : ∀ b, b = bare ∨ b = body → Fresh middle.vars { body := b, inputs := [below] })
    (suits : ∀ plan : Plan, plan.ops[top]? = some agg →
      Operator.Suits plan outer { body, inputs := [below] })
    (isNested : body.nested? = some top) (found : nested.plan.ops[top]? = some agg) :
    Decodes complete (setBody middle.plan.ops.size body) nested fun _ last =>
      Builds outer [middle.plan.ops.size] s last := by
  refine ⟨fun _ last done => ?_, fun _ _ => nofun⟩
  cases done
  have larger : middle.plan.ops.size + 1 ≤ nested.plan.ops.size := by
    have := inside.forest.le
    rwa [Array.size_push] at this
  have forest : nested.plan.Forest (some middle.plan.ops.size) [top] (middle.plan.ops.size + 1)
      nested.plan.ops.size := by
    have := inside.forest
    rwa [Array.size_push] at this
  have kept : ∀ i : Nat, i < middle.plan.ops.size + 1 →
      nested.plan.ops[i]? = (middle.plan.ops.push { body := bare, inputs := [below] })[i]? :=
    fun i low => inside.kept i (by rwa [Array.size_push])
  have old : ∀ i : Nat, i < middle.plan.ops.size → nested.plan.ops[i]? = middle.plan.ops[i]? :=
    fun i low => by
      rw [kept i (Nat.lt_succ_of_lt low), Array.getElem?_push, if_neg low.ne]
  have here : nested.plan.ops[middle.plan.ops.size]? = some { body := bare, inputs := [below] } :=
    (kept _ (Nat.lt_succ_self _)).trans Array.getElem?_push_size
  let ended := nested.plan.modify middle.plan.ops.size fun op => { op with body }
  have others : ∀ i : Nat, i ≠ middle.plan.ops.size → ended.ops[i]? = nested.plan.ops[i]? :=
    fun i apart => by rw [Plan.getElem?_modify, if_neg (Ne.symm apart)]
  have now : ended.ops[middle.plan.ops.size]? = some { body, inputs := [below] } := by
    rw [Plan.getElem?_modify, if_pos rfl, here]
    rfl
  have size : ended.ops.size = nested.plan.ops.size := Array.size_modify
  have spot := forest.root_mem top (.head _)
  refine ⟨built.vars.trans inside.vars, fun i low => ?_, fun sound => ?_, ?_⟩
  · have low' := low.trans_le built.forest.le
    rw [← built.kept i low, ← old i low']
    exact others i low'.ne
  · have soundMiddle := built.sound sound
    have soundNested : Sound nested := inside.sound ⟨soundMiddle.numbered, fun i op foundOp => by
      rw [Array.getElem?_push] at foundOp
      split at foundOp
      · cases foundOp
        exact fresh bare (.inl rfl)
      · exact soundMiddle.fresh i op foundOp⟩
    refine ⟨soundNested.numbered, fun i op foundOp => ?_⟩
    by_cases same : i = middle.plan.ops.size
    · rw [same, now] at foundOp
      cases foundOp
      exact (fresh body (.inr rfl)).mono inside.vars.subset
    · rw [others i same] at foundOp
      exact soundNested.fresh i op foundOp
  · rw [size]
    refine .cons now (suits ended ?_) (built.forest.congr fun i _ high => ?_) ?_ (.nil _ _)
    · rw [others top (by omega)]
      exact found
    · rw [others i high.ne, old i high]
    · rw [isNested]
      exact forest.congr fun i low _ => others i (by omega)

theorem decodes_kindOf {id : OpId} {s : DecodeState} (inside : id < s.plan.ops.size) :
    Decodes complete (kindOf id) s fun kind s' =>
      s' = s ∧ ∃ op, s.plan.ops[id]? = some op ∧ op.kind = kind := by
  have found := Array.getElem?_eq_getElem inside
  refine .get ?_
  rw [Plan.get_eq_ok.mpr found]
  exact .pure ⟨rfl, _, found, rfl⟩

theorem decodes_owner {below : Nat} {s : DecodeState} {nest : OpId → Decoding OpId}
    (owning : Option OpId → Body) (built : Builds outer [below] s s')
    (nested : ∀ owner t, Decodes complete (nest owner) t fun top t' => Builds (some owner) [top] t t' ∧
      ∃ agg, t'.plan.ops[top]? = some agg ∧ agg.kind = .aggregate)
    (fresh : ∀ top, Fresh s'.vars { body := owning top, inputs := [below] })
    (one : ∀ top, (owning top).kind.arity? = some 1) (aligned : ∀ top, (owning top).Aligned)
    (owned : ∀ top, (owning top).nested? = top) :
    Decodes complete (do
      let id ← addOp (owning none) [below]
      let top ← nest id
      setBody id (owning (some top))
      pure id) s' fun id last => Builds outer [id] s last := by
  refine .bind (decodes_addOp _ _ _) fun id last ⟨isId, isLast⟩ => ?_
  subst isId isLast
  refine .bind (nested _ _) fun top t ⟨inside, agg, found, isAggregate⟩ => ?_
  refine .bind (built.own inside ?_ (fun plan found' => ?_) (owned (some top)) found)
    fun _ last built' => .pure built'
  · rintro b (rfl | rfl) <;> exact fresh _
  · refine ⟨fun n isArity => ?_, aligned _, fun owner isLeaf => ?_,
      fun _ => ⟨top, agg, owned (some top), found', isAggregate⟩⟩
    · exact Option.some.inj ((one (some top)).symm.trans isArity)
    · have := one (some top)
      rw [show owning (some top) = .nestedSource owner from isLeaf] at this
      cases this

variable {plan : Plan}

theorem suits_plain {inputs : List OpId}
    (arity : ∀ n, body.kind.arity? = some n → inputs.length = n) (aligned : body.Aligned)
    (notLeaf : ∀ owner, body ≠ .nestedSource owner) (plain : body.isOwner = false) :
    Operator.Suits plan outer { body, inputs } where
  arity := arity
  aligned := aligned
  leaf := fun owner isLeaf => absurd isLeaf (notLeaf owner)
  nested := fun isOwner => by
    rw [plain] at isOwner
    cases isOwner

theorem suits_unary {input : OpId}
    (one : body.kind.arity? = some 1) (aligned : body.Aligned) (plain : body.isOwner = false) :
    Operator.Suits plan outer { body, inputs := [input] } := by
  refine suits_plain (fun n isArity => ?_) aligned (fun owner isLeaf => ?_) plain
  · exact Option.some.inj (one.symm.trans isArity)
  · rw [isLeaf] at one
    cases one

theorem suits_source (none : body.kind.arity? = some 0) (aligned : body.Aligned)
    (leaf : ∀ owner, body = .nestedSource owner → owner = outer ∧ owner.isSome) :
    Operator.Suits plan outer { body, inputs := [] } where
  arity := fun n isArity => Option.some.inj (none.symm.trans isArity)
  aligned := aligned
  leaf := leaf
  nested := fun isOwner => by cases body <;> cases isOwner <;> cases none

theorem decodes_unary (outer : Option OpId) (place : Place) (kind : Plan.OpKind) (spec : OpSpec)
    {input : Nat} {s : DecodeState} (built : Builds outer [input] s s') :
    Decodes complete (decodeUnary place kind spec input) s' fun id last => Builds outer [id] s last := by
  unfold decodeUnary
  split
  · refine .bind (decodes_requireExpr _ _ _ s') fun e t ⟨names, known⟩ => ?_
    exact (built.named names).add (by simp [Body.ownVars]) (by simpa [Body.exprs] using known)
      (fun _ => suits_unary rfl trivial rfl) rfl
  · refine .bind (decodes_varsNamed _ s') fun vars t ⟨names, known⟩ => ?_
    refine (built.named names).add known (fun e member => ?_) (fun _ => suits_unary rfl trivial rfl) rfl
    obtain ⟨v, isIn, rfl⟩ := List.mem_map.mp member
    exact .var (known v isIn)
  · refine .bind (decodes_binds _ _ _ _ s') fun binds t ⟨names, known⟩ => ?_
    exact (built.named names).add known.1 known.2
      (fun _ => suits_unary rfl (by simp [Body.Aligned]) rfl) rfl
  · split
    · exact .refuse
    · refine .bind (decodes_requireExpr _ _ _ s') fun e t₁ ⟨first, known⟩ => ?_
      refine .bind (decodes_varNamed _ t₁) fun v t₂ ⟨second, member⟩ => ?_
      have adds (pos : Option Var) (t₃ : DecodeState) (third : Names t₂ t₃)
          (isIn : ∀ w ∈ pos, w ∈ t₃.vars) : Decodes complete (addOp (.unnest v pos e) [input]) t₃
            fun id last => Builds outer [id] s last := by
        refine (built.named (first.trans (second.trans third))).add (fun w occurs => ?_)
          (fun e' member' => ?_) (fun _ => suits_unary rfl trivial rfl) rfl
        · rcases List.mem_cons.mp occurs with rfl | isPos
          · exact third.vars.subset member
          · exact isIn w (Option.mem_toList.mp isPos)
        · rw [List.mem_singleton.mp member']
          exact known.mono (second.trans third).vars.subset
      split
      · exact adds none t₂ (.refl t₂) (by simp)
      · rw [map_eq_pure_bind, bind_assoc]
        exact .bind (decodes_varNamed _ t₂) fun w t₃ ⟨third, isIn⟩ =>
          adds (some w) t₃ third (by simpa using isIn)
  · refine .bind (decodes_binds _ _ _ _ s') fun binds t ⟨names, known⟩ => ?_
    refine .bind (decodes_aggregateCalls _ _ binds t fun b isIn =>
      (known.2 _ (List.mem_map_of_mem isIn)).text) fun calls t' ⟨same, exprs, each⟩ => ?_
    subst same
    have length : binds.length = calls.length := by
      simpa using (congrArg List.length exprs).symm
    exact (built.named names).add known.1 (by rw [Body.exprs, exprs]; exact known.2)
      (fun _ => suits_unary rfl ⟨(List.length_map _).trans length, each⟩ rfl) rfl
  · refine .bind (decodes_order _ _ _ s') fun keys t ⟨names, known⟩ => ?_
    exact (built.named names).add (by simp [Body.ownVars]) known
      (fun _ => suits_unary rfl trivial rfl) rfl
  · exact built.add (by simp [Body.ownVars]) (by simp [Body.exprs])
      (fun _ => suits_unary rfl trivial rfl) rfl
  · exact built.add (by simp [Body.ownVars]) (by simp [Body.exprs])
      (fun _ => suits_unary rfl trivial rfl) rfl

mutual

theorem decodes_op (outer : Option OpId) (place : Place) : ∀ (spec : OpSpec) (s : DecodeState),
    (complete → spec.isComplete = true) →
    Decodes complete (decodeOp outer place spec) s fun id s' => Builds outer [id] s s'
  | ⟨op, input, inputs, dataset, vars, cond, bind, var, pos, expr, isGlobal, keys, order, topK, n,
      redistribute, nested⟩, s, whole => by
    simp only [OpSpec.isComplete, Bool.and_eq_true] at whole
    rw [decodeOp.eq_def]
    dsimp only
    split
    · exact .refuse
    · split
      · exact .refuse
      · split
        · exact .refuse
        · refine .bind (decodes_varsNamed _ s) fun vars t ⟨names, known⟩ => ?_
          exact (names.builds outer).add (by simpa [Body.ownVars] using known) (by simp [Body.exprs])
            (fun _ => suits_source rfl trivial fun _ => nofun) rfl
    · exact ((Names.refl s).builds outer).add (by simp [Body.ownVars]) (by simp [Body.exprs])
        (fun _ => suits_source rfl trivial fun _ => nofun) rfl
    · split
      · exact .refuse
      · next isSome =>
        refine ((Names.refl s).builds outer).add (by simp [Body.ownVars]) (by simp [Body.exprs])
          (fun _ => suits_source rfl trivial fun _ isLeaf => ?_) rfl
        cases isLeaf
        exact ⟨rfl, by simpa [Option.isNone_iff_eq_none, ← Option.isSome_iff_ne_none] using isSome⟩
    · next _ kind notScan notEmpty notLeaf isKind =>
      split
      · next isJoin =>
        split
        · exact .refuse
        · next two =>
          refine .bind (decodes_inputs outer place 0 inputs s fun all => (whole all).1.2)
            fun ids t ⟨built, length⟩ => ?_
          refine .bind (decodes_requireExpr _ _ _ t) fun e t' ⟨names, known⟩ => ?_
          refine (built.named names).add (by simp [Body.ownVars]) (by simpa [Body.exprs] using known)
            (fun _ => suits_plain (fun n isArity => ?_) trivial (fun _ => nofun) rfl) rfl
          have : some 2 = some n := by
            rw [← isArity, Body.kind]
            split <;> rfl
          cases this
          exact length.trans (not_not.mp two)
      · next notJoin =>
        split
        · refine .bind (decodes_input outer place op input s fun all => (whole all).1.1)
            fun below t built => ?_
          have nests (owner : OpId) (t : DecodeState) :=
            decodes_nested owner place nested t fun all => (whole all).2
          split
          · refine .bind (decodes_binds _ _ _ _ t) fun binds t' ⟨names, known⟩ => ?_
            exact decodes_owner (.groupBy binds · isGlobal) (built.named names) nests
              (fun _ => ⟨known.1, known.2, rfl⟩)
              (fun _ => rfl) (fun _ => trivial) fun _ => rfl
          · exact decodes_owner .subplan built nests
              (fun _ => ⟨by simp [Body.ownVars], by simp [Body.exprs], rfl⟩)
              (fun _ => rfl) (fun _ => trivial) fun _ => rfl
          · exact decodes_unary outer place _ _ built
        · next notUnary =>
          refine .bind (decodes_first outer place input s fun all => (whole all).1.1)
            fun first t built => ?_
          refine .bind (decodes_inputs outer place _ inputs t fun all => (whole all).1.2)
            fun others t₁ ⟨built₁, _⟩ => ?_
          refine .bind (decodes_varsNamed _ t₁) fun vars t₂ ⟨names, known⟩ => ?_
          have free : kind.arity? = none := by
            unfold Plan.OpKind.arity?
            unfold isUnary at notUnary
            cases kind <;> simp_all
          refine ((built.trans built₁).named names).add known (by simp [Body.exprs])
            (fun _ => suits_plain (fun n isArity => ?_) free (fun _ => nofun) rfl) rfl
          rw [Body.kind, free] at isArity
          cases isArity

theorem decodes_input (outer : Option OpId) (place : Place) (name : String) :
    ∀ (spec : Option OpSpec) (s : DecodeState), (complete → isCompletePart spec = true) →
    Decodes complete (decodeInput outer place name spec) s fun id s' => Builds outer [id] s s'
  | none, s, _ => by
    exact .refuse
  | some spec, s, whole => by
    exact decodes_op outer _ spec s whole

theorem decodes_first (outer : Option OpId) (place : Place) :
    ∀ (spec : Option OpSpec) (s : DecodeState), (complete → isCompletePart spec = true) →
    Decodes complete (decodeFirst outer place spec) s fun ids s' => Builds outer ids s s'
  | none, s, _ => by
    exact Decodes.pure ((Names.refl s).builds outer)
  | some spec, s, whole => by
    exact .bind (decodes_op outer _ spec s whole) fun id s' built => .pure built

theorem decodes_inputs (outer : Option OpId) (place : Place) :
    ∀ (i : Nat) (specs : List (Option OpSpec)) (s : DecodeState),
    (complete → areComplete specs = true) →
    Decodes complete (decodeInputs outer place i specs) s fun ids s' =>
      Builds outer ids s s' ∧ ids.length = specs.length
  | _, [], s, _ => by
    exact Decodes.pure ⟨(Names.refl s).builds outer, rfl⟩
  | _, none :: _, s, whole => by
    exact ⟨fun _ _ => nofun, fun all => nomatch whole all⟩
  | i, some spec :: rest, s, whole => by
    simp only [areComplete, Bool.and_eq_true] at whole
    refine .bind (decodes_op outer _ spec s fun all => (whole all).1) fun id middle first => ?_
    refine .bind (decodes_inputs outer place (i + 1) rest middle fun all => (whole all).2)
      fun ids last ⟨others, length⟩ => ?_
    exact .pure ⟨first.trans others, congrArg (· + 1) length⟩

theorem decodes_nested (owner : OpId) (place : Place) :
    ∀ (spec : Option OpSpec) (s : DecodeState), (complete → isCompletePart spec = true) →
    Decodes complete (decodeNested owner place spec) s fun id s' => Builds (some owner) [id] s s' ∧
      ∃ agg, s'.plan.ops[id]? = some agg ∧ agg.kind = .aggregate
  | none, s, _ => by
    exact .refuse
  | some spec, s, whole => by
    refine .bind (decodes_op (some owner) _ spec s whole) fun id s' built => ?_
    refine .bind (decodes_kindOf (built.forest.root_mem id (.head _)).2) fun kind t ⟨same, agg, found, isKind⟩ => ?_
    subst same
    split
    · next isAggregate => exact .pure ⟨built, agg, found, isKind.trans isAggregate⟩
    · exact .refuse

end

/-! ## Documents -/

/-- A document whose plan is a tree of well-made operators with their live variables, each leaf of a
nested plan knows its owner, and each variable has a name of its own. -/
structure WellFormed (doc : Document) : Prop where
  tree : doc.plan.IsTree doc.root
  made : doc.plan.WellMade
  owner : ∀ (leaf : OpId) op source, doc.plan.ops[leaf]? = some op →
    op.body = .nestedSource source →
    ∃ owner, source = some owner ∧ doc.plan.IsInnermost owner leaf
  live : ∀ id, id < doc.plan.ops.size → doc.plan.HasEnv id
  known : ∀ (id : OpId) op, doc.plan.ops[id]? = some op → ∀ v ∈ op.body.mentions, v ∈ doc.vars
  names : ∀ v ∈ doc.vars, ∀ w ∈ doc.vars, (v.id = w.id ↔ v.name = w.name) ∧
    (v.name = w.name → v = w)

theorem decodes_plan {spec : OpSpec} {root : OpId} {state : DecodeState}
    (decoded : (decodeOp none [] spec).run {} = .ok (root, state)) :
    Sound state ∧ state.plan.Forest none [root] 0 state.plan.ops.size := by
  have built := (decodes_op none [] spec {} False.elim).1 root state decoded
  exact ⟨built.sound ⟨⟨.nil, nofun⟩, nofun⟩, built.forest⟩

theorem Sound.computeEnv {state : DecodeState} {root : OpId} (sound : Sound state)
    (forest : state.plan.Forest none [root] 0 state.plan.ops.size) :
    ∃ plan, Plan.computeEnv root state.plan = .ok () plan ∧ state.plan.SameShape plan ∧
      ∀ id, id < plan.ops.size → plan.HasEnv id := by
  have tree := Plan.isTree_of_forest forest
  obtain ⟨plan, computed, computes, has⟩ := (Plan.wellMade_of_forest forest).computeEnv tree.acyclic
    (forest.root_mem root (.head _)).2
  have shape := computes.fills.sameShape
  have empty : state.plan.FilledBelow := by
    rintro id next ⟨op, found, isSome⟩
    rw [(sound.fresh id op found).env] at isSome
    cases isSome
  refine ⟨plan, computed, shape, fun id inside => ?_⟩
  have path := tree.reached id (shape.size ▸ inside)
  induction path with
  | refl => exact has
  | tail _ step ih =>
    exact computes.filled empty _ _ (ih (shape.size ▸ step.lt)) (shape.below step)

/-- A document is decoded from what its parts decode to. -/
theorem decodeSpec_parts {spec : PlanSpec} {doc : Document} (decoded : decodeSpec spec = .ok doc) :
    ∃ rootSpec state, (decodeOp none [] rootSpec).run {} = .ok (doc.root, state) ∧
      Plan.computeEnv doc.root state.plan = .ok () doc.plan ∧ doc.vars = state.vars.reverse := by
  obtain ⟨config, _, decoded⟩ := Except.bind_eq_ok.mp decoded
  obtain ⟨catalog, _, decoded⟩ := Except.bind_eq_ok.mp decoded
  split at decoded
  · cases decoded
  · next rootSpec _ =>
    obtain ⟨⟨root, state⟩, first, decoded⟩ := Except.bind_eq_ok.mp decoded
    dsimp only at decoded
    split at decoded
    · next computed =>
      cases decoded
      exact ⟨rootSpec, state, first, computed, rfl⟩
    · cases decoded
    · cases decoded

/-- Every accepted document has a well-formed plan, and the live variables of a plan that is
accepted as far as its operators go can always be computed. -/
theorem decodeSpec_wellFormed (spec : PlanSpec) :
    (∀ doc, decodeSpec spec = .ok doc → WellFormed doc) ∧
    ∀ rootSpec ∈ spec.plan, ∀ root state, (decodeOp none [] rootSpec).run {} = .ok (root, state) →
      ∃ plan, Plan.computeEnv root state.plan = .ok () plan := by
  refine ⟨fun doc decoded => ?_, fun rootSpec _ root state decoded => ?_⟩
  · obtain ⟨rootSpec, state, first, computed, vars⟩ := decodeSpec_parts decoded
    obtain ⟨sound, forest⟩ := decodes_plan first
    obtain ⟨plan, computed', shape, live⟩ := sound.computeEnv forest
    cases computed.symm.trans computed'
    have forest' : doc.plan.Forest none [doc.root] 0 doc.plan.ops.size :=
      shape.size ▸ forest.sameShape shape
    refine ⟨Plan.isTree_of_forest forest', Plan.wellMade_of_forest forest',
      fun leaf op source found isSource => Plan.innermost_of_forest forest' found isSource, live,
      fun id op found v member => ?_, fun v isIn w isIn' => ?_⟩
    · obtain ⟨old, foundOld, body, _⟩ := shape.symm.find found
      rw [vars, List.mem_reverse]
      exact (sound.fresh id old foundOld).mentions v (body ▸ member)
    · rw [vars, List.mem_reverse] at isIn isIn'
      have same := sound.numbered.eq isIn isIn'
      refine ⟨⟨fun id => ?_, fun name => ?_⟩, fun name => same (.inl name)⟩
      · rw [same (.inr id)]
      · rw [same (.inl name)]
  · obtain ⟨sound, forest⟩ := decodes_plan decoded
    obtain ⟨plan, computed, _⟩ := sound.computeEnv forest
    exact ⟨plan, computed⟩

/-- A group-by whose nested plan has a subplan with a nested plan of its own. -/
def nestedSpec : PlanSpec where
  plan := some {
    op := "group-by"
    keys := [{ var := "k", expr := some { path := "r.u" } }]
    input := some { op := "data-scan", dataset := "d", vars := ["r"] }
    nested := some {
      op := "aggregate"
      bind := [{ var := "c", expr := some { fn := "count", args := [some { var := some "f" }] } }]
      input := some {
        op := "subplan"
        input := some { op := "nested-tuple-source" }
        nested := some {
          op := "aggregate"
          bind := [{ var := "f", expr := some { fn := "non-empty-stream" } }]
          input := some { op := "nested-tuple-source" } } } } }

theorem decodeSpec_nestedSpec_wellFormed :
    ∃ doc, decodeSpec nestedSpec = .ok doc ∧ WellFormed doc := by
  have accepted : (decodeSpec nestedSpec).isOk = true := by decide +kernel
  match decoded : decodeSpec nestedSpec with
  | .ok doc => exact ⟨doc, rfl, (decodeSpec_wellFormed nestedSpec).1 doc decoded⟩
  | .error _ =>
    rw [decoded] at accepted
    cases accepted

/-! ## Refusals -/

/-- Decoding a document gives out a document or an error, if no list of inputs in it has an absent
element. -/
theorem decodeSpec_reports (spec : PlanSpec) (complete : isCompletePart spec.plan = true)
    (fault : Fault) : decodeSpec spec ≠ .error (.fault fault) := by
  intro failed
  unfold decodeSpec at failed
  cases isConfig : configOf spec.physical with
  | error cause =>
    rw [isConfig] at failed
    cases failed
  | ok config =>
    cases isCatalog : decodeDatasets 0 spec.datasets {} with
    | error cause =>
      rw [isConfig, isCatalog] at failed
      cases failed
    | ok catalog =>
      rw [isConfig, isCatalog] at failed
      change (match spec.plan with
        | none => _
        | some rootSpec => _ : Except DecodeFailure Document) = _ at failed
      split at failed
      · cases failed
      · next rootSpec isRoot =>
        rw [isRoot] at complete
        cases ran : (decodeOp none [] rootSpec).run {} with
        | error failure =>
          rw [ran] at failed
          cases failed
          exact (decodes_op none [] rootSpec {} fun _ => complete).2 trivial fault ran
        | ok decoded =>
          obtain ⟨root, state⟩ := decoded
          obtain ⟨sound, forest⟩ := decodes_plan ran
          obtain ⟨plan, computed, _⟩ := sound.computeEnv forest
          rw [ran] at failed
          dsimp only [bind, Except.bind] at failed
          rw [computed] at failed
          cases failed

/-- A join of two scans on a condition that is missing. -/
def conditionlessJoin : PlanSpec where
  plan := some {
    op := "inner-join"
    inputs := [some { op := "data-scan", dataset := "d", vars := ["r"] },
      some { op := "data-scan", dataset := "e", vars := ["s"] }] }

/-- The missing condition is reported. -/
theorem decodeSpec_conditionlessJoin_reports : isCompletePart conditionlessJoin.plan = true ∧
    ∀ fault, decodeSpec conditionlessJoin ≠ .error (.fault fault) :=
  ⟨by decide, decodeSpec_reports conditionlessJoin (by decide)⟩

/-- An absent element of a list of inputs is not reported. -/
example : (match decodeSpec { plan := some { op := "inner-join", inputs := [none, none] } } with
    | .error (.fault .outOfRange) => true
    | _ => false) = true := by decide +kernel

end QueryFusion.Document

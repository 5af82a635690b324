import QueryFusion.Engine.Run

/-!
# How runs end

A run has one of four outcomes: it answers, it fails for a cause, it meets a fault, or it does not
end. A run ends well if it answers with a state that is wanted or fails for an accepted cause; this
excludes faults and endless loops.

The rules below follow the shape of code: one statement after the other, branches, blocks, and loops
with a measure that every round lowers.
-/

namespace QueryFusion.Engine

open Code

/-- A step answers with a wanted answer and state, or fails for an accepted cause. -/
def Ends {α : Type} (step : Run α) (m : Machine) (wanted : α → Machine → Prop)
    (accepted : RunError → Prop) : Prop :=
  match step m with
  | some (.ok (a, m')) => wanted a m'
  | some (.error (.error cause)) => accepted cause
  | some (.error (.fault _)) => False
  | none => False

section rules

variable {α β : Type} {m : Machine} {wanted : α → Machine → Prop} {accepted : RunError → Prop}

/-- A step with a known answer. -/
theorem Ends.of_eq {step : Run α} {a : α} {m' : Machine} (same : step m = some (.ok (a, m')))
    (held : wanted a m') : Ends step m wanted accepted := by
  unfold Ends
  rw [same]
  exact held

theorem Ends.pure {a : α} (held : wanted a m) : Ends (Pure.pure a : Run α) m wanted accepted := held

theorem bind_apply (step : Run α) (next : α → Run β) (m : Machine) :
    (step >>= next) m = match step m with
      | some (.ok (a, m')) => next a m'
      | some (.error stop) => some (.error stop)
      | none => none := by
  change (step m >>= fun (a, m') => next a m' : ExceptT Stop Option (β × Machine)) = _
  cases step m with
  | none => rfl
  | some answer => cases answer <;> rfl

theorem get_bind_apply (next : Machine → Run α) (m : Machine) : (get >>= next) m = next m m := rfl

theorem Ends.bind {step : Run α} {next : α → Run β} {wanted : β → Machine → Prop}
    (first : Ends step m (fun a m' => Ends (next a) m' wanted accepted) accepted) :
    Ends (step >>= next) m wanted accepted := by
  unfold Ends at first ⊢
  rw [bind_apply]
  cases outcome : step m with
  | none => simp only [outcome] at first
  | some answer =>
    cases answer with
    | error stop =>
      cases stop with
      | error cause => simpa only [outcome] using first
      | fault fault => simp only [outcome] at first
    | ok answer => simpa only [outcome, Ends] using first

theorem Ends.mono {step : Run α} {more : α → Machine → Prop} {allowed : RunError → Prop}
    (ends : Ends step m wanted accepted) (weaker : ∀ a m', wanted a m' → more a m')
    (tolerant : ∀ cause, accepted cause → allowed cause) : Ends step m more allowed := by
  unfold Ends at ends ⊢
  split at ends
  · exact weaker _ _ ends
  · exact tolerant _ ends
  · exact ends.elim
  · exact ends.elim

end rules

/-! ## Statements -/

section statements

variable {fn : Function} {m : Machine} {wanted : Flow → Machine → Prop}
variable {accepted : RunError → Prop}

/-- The code went on to the next statement and reached a state with a property. -/
def Onward (holds : Machine → Prop) (flow : Flow) (m : Machine) : Prop := flow = .proceed ∧ holds m

theorem Ends.nil (held : wanted .proceed m) : Ends (execAll fn []) m wanted accepted := by
  rw [execAll]
  exact .pure held

theorem Ends.cons {n : Node} {rest : List Node}
    (first : Ends (exec fn n) m
      (Onward fun m' => Ends (execAll fn rest) m' wanted accepted) accepted) :
    Ends (execAll fn (n :: rest)) m wanted accepted := by
  rw [execAll]
  refine .bind (first.mono ?_ fun _ => id)
  rintro _ m' ⟨rfl, after⟩
  exact after

theorem Ends.followed {first second : List Node}
    (before : Ends (execAll fn first) m (fun flow m' =>
      (flow = .proceed ∧ Ends (execAll fn second) m' wanted accepted) ∨
      (flow ≠ .proceed ∧ wanted flow m')) accepted) :
    Ends (execAll fn (first ++ second)) m wanted accepted := by
  induction first generalizing m with
  | nil =>
    rw [execAll] at before
    rcases before with ⟨_, after⟩ | ⟨leaves, _⟩
    · exact after
    · exact absurd rfl leaves
  | cons n rest ih =>
    rw [execAll] at before
    rw [List.cons_append, execAll]
    unfold Ends at before ⊢
    rw [bind_apply] at before ⊢
    cases outcome : exec fn n m with
    | none => simp only [outcome] at before
    | some answer =>
      cases answer with
      | error stop =>
        cases stop with
        | error cause => simpa only [outcome] using before
        | fault fault => simp only [outcome] at before
      | ok answer =>
        obtain ⟨flow, m'⟩ := answer
        simp only [outcome] at before ⊢
        cases flow with
        | proceed => exact ih before
        | leave => exact before.resolve_left (fun stays => absurd stays.1 (by decide)) |>.2
        | finish => exact before.resolve_left (fun stays => absurd stays.1 (by decide)) |>.2

/-- Code that goes on is followed by what comes next. -/
theorem Ends.append {first second : List Node}
    (before : Ends (execAll fn first) m
      (Onward fun m' => Ends (execAll fn second) m' wanted accepted) accepted) :
    Ends (execAll fn (first ++ second)) m wanted accepted :=
  .followed (before.mono (fun _ _ => .inl) fun _ => id)

/-- Running one statement is running it alone. -/
theorem Ends.single {n : Node} (first : Ends (exec fn n) m wanted accepted) :
    Ends (execAll fn [n]) m wanted accepted := by
  rw [execAll]
  refine .bind (first.mono ?_ fun _ => id)
  intro flow m' held
  cases flow with
  | proceed => exact .nil held
  | leave => exact .pure held
  | finish => exact .pure held

theorem Ends.assign {target : String} {value : Node} {declares : Bool}
    (evaluated : Ends (eval value) m
      (fun v m' => Ends (store target declares v) m' (fun _ => wanted .proceed) accepted) accepted) :
    Ends (exec fn (.assign target value declares)) m wanted accepted := by
  rw [exec]
  exact .bind (evaluated.mono (fun _ _ stored => .bind (stored.mono
    (fun _ _ held => .pure held) fun _ => id)) fun _ => id)

theorem Ends.branch {cond : Node} {yes no : BlockId}
    (evaluated : Ends (eval cond) m
      (fun v m' => Ends (execBlock fn (if v.truth then yes else no)) m' wanted accepted) accepted) :
    Ends (exec fn (.branch cond yes no)) m wanted accepted := by
  rw [exec]
  exact .bind evaluated

/-- A call of a member as a statement. -/
theorem Ends.member {object : Node} {name : String} {args : List Node}
    (evaluated : Ends (eval (.member object name args)) m (fun _ => wanted .proceed) accepted) :
    Ends (exec fn (.member object name args)) m wanted accepted := by
  rw [exec]
  · exact .bind (evaluated.mono (fun _ _ held => .pure held) fun _ => id)
  all_goals simp

/-- A block runs its statements; the empty block has none. -/
theorem Ends.block {id : BlockId} {block : Block} (here : fn.arena.blocks[id]? = some block)
    (isProper : id ≠ emptyBlock)
    (statements : Ends (execAll fn block.statements) m wanted accepted) :
    Ends (execBlock fn id) m wanted accepted := by
  rw [execBlock, if_neg isProper]
  have found : fn.arena.get id = .ok block := by
    unfold Arena.get
    rw [here]
    rfl
  rw [found]
  exact .bind (.pure statements)

theorem Ends.emptyBlock (held : wanted .proceed m) :
    Ends (execBlock fn emptyBlock) m wanted accepted := by
  rw [execBlock, if_pos rfl]
  exact .pure held

theorem Ends.loop {cond : Node} {body : BlockId} {after : Machine → Prop}
    (invariant : Nat → Machine → Prop)
    (round : ∀ measure m, invariant measure m → Ends (eval cond) m
      (fun v m' =>
        if v.truth then
          Ends (execBlock fn body) m' (fun flow m'' =>
            (flow = .proceed ∧ ∃ less, less < measure ∧ invariant less m'') ∨
            (flow = .leave ∧ after m'')) accepted
        else after m') accepted) :
    ∀ measure m, invariant measure m →
      Ends (exec fn (.loop cond body)) m (Onward after) accepted := by
  intro measure
  induction measure using Nat.strongRecOn with
  | ind measure ih =>
    intro m held
    rw [exec]
    refine .bind ((round measure m held).mono (fun v m' goes => ?_) fun _ => id)
    split at goes
    · next isTrue =>
      rw [if_pos isTrue]
      refine .bind (goes.mono ?_ fun _ => id)
      rintro flow m'' (⟨rfl, less, isLess, held'⟩ | ⟨rfl, done⟩)
      · exact ih less isLess m'' held'
      · exact .pure ⟨rfl, done⟩
    · next isFalse =>
      rw [if_neg isFalse]
      exact .pure ⟨rfl, goes⟩

end statements

/-!
## Calls of scalar functions

A scalar function is called by its name. The names that code calls for itself are no names of scalar
functions, apart from two with the same meaning. A call that fails does so because there is no
function of that name or because the number of arguments is wrong.
-/

/-- The causes for which a call of a scalar function can fail. -/
def RunError.OfCall : RunError → Prop
  | .argumentCount .. | .unknownFunction _ => True
  | _ => False

/-- The functions of the engine that no expression calls. -/
def reserved : List String :=
  [Code.Builtin.oneOrZero, Code.Builtin.makeKey, Code.Builtin.newHashAggregator,
    Code.Builtin.newTopKAggregator]

theorem unnamed_head (code : Int) : (Func.unnamed code).name.toList.head? = some 'F' := by
  change (toString "Func(" ++ toString code ++ toString ")").toList.head? = _
  simp only [String.toList_append, List.head?_append]
  rfl

theorem name_notMem_reserved (fn : Func) : fn.name ∉ reserved := by
  cases fn with
  | unnamed code =>
    have others : ∀ s ∈ reserved, s.toList.head? ≠ some 'F' := by decide
    exact fun member => others _ member (unnamed_head code)
  | _ => decide

theorem callScalar_isUnknown (vs : List Value) (m : Machine) :
    (do
      ofAnswer (expectArgs Code.Builtin.isUnknown vs 1)
      pure (.bool (vs.getD 0 .null).isUnknown) : Run Value) m =
    ofAnswer (callScalar Code.Builtin.isUnknown vs) m := by
  match vs with
  | [] => rfl
  | [v] => cases v <;> rfl
  | _ :: _ :: _ => rfl

theorem callScalar_length (vs : List Value) (m : Machine) :
    (do
      ofAnswer (expectArgs Code.Builtin.length vs 1)
      pure (listLength (vs.getD 0 .null)) : Run Value) m =
    ofAnswer (callScalar Code.Builtin.length vs) m := by
  match vs with
  | [] => rfl
  | [v] => cases v <;> rfl
  | _ :: _ :: _ => rfl

theorem callBuiltin_name (fn : Func) (vs : List Value) (m : Machine) :
    callBuiltin fn.name vs m = ofAnswer (callScalar fn.name vs) m := by
  have free := name_notMem_reserved fn
  simp only [reserved, List.mem_cons, List.not_mem_nil, or_false, not_or] at free
  obtain ⟨noOne, noKey, noHash, noTop⟩ := free
  unfold callBuiltin
  split
  · next isUnknown =>
    rw [isUnknown]
    exact callScalar_isUnknown vs m
  · split
    · next isLength =>
      rw [isLength]
      exact callScalar_length vs m
    · rfl

/-- The scalar functions that can be called by name. -/
def isCallable : Func → Bool
  | .negate | .fieldAccess | .isMissing | .isNull | .isUnknown | .lowercase | .uppercase
  | .stringLength | .contains | .startsWith | .abs | .arrayLength | .unnamed _ => true
  | _ => false

theorem applyScalar_ok (fn : Func) (callable : isCallable fn = true) (isNamed : ∀ n, fn ≠ .unnamed n)
    (v w : Value) : ∃ u, applyScalar fn v w = .ok u := by
  cases fn <;> first
    | exact absurd callable (by decide)
    | exact absurd rfl (isNamed _)
    | exact ⟨_, rfl⟩
    | (cases v <;> exact ⟨_, rfl⟩)

theorem callScalar_ofCall (fn : Func) (callable : isCallable fn = true) (vs : List Value)
    (cause : RunError) (failed : callScalar fn.name vs = .error cause) : cause.OfCall := by
  by_cases isNamed : ∀ n, fn ≠ .unnamed n
  · have found : Func.ofName? fn.name = some fn := by
      cases fn <;> first | decide | exact absurd rfl (isNamed _)
    have isScalar : fn.kind = .scalar := by
      cases fn <;> first | rfl | exact absurd callable (by decide)
    unfold callScalar at failed
    rw [found] at failed
    dsimp only at failed
    rw [if_pos isScalar] at failed
    unfold expectArgs at failed
    split at failed
    · obtain ⟨u, isOk⟩ := applyScalar_ok fn callable isNamed (vs.getD 0 .missing) (vs.getD 1 .missing)
      have same : applyScalar fn (vs.getD 0 .missing) (vs.getD 1 .missing) = .error cause := failed
      rw [isOk] at same
      cases same
    · cases failed
      trivial
  · obtain ⟨n, rfl⟩ : ∃ n, fn = .unnamed n := Classical.byContradiction fun none =>
      isNamed fun n same => none ⟨n, same⟩
    cases failed
    trivial

end QueryFusion.Engine

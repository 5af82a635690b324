import QueryFusion.Fusion.ScalarCode

/-!
# Nested plans

A nested plan of selects, assigns, projects and unnests can be compiled into the current block. Its
result is then a flag that tells whether it has a tuple, or the only item of a list that is read no
further.
-/

namespace QueryFusion.Fusion

open Code (Node BlockId)

/-!
## Loops over lists

Unnesting a list of the record becomes a loop. Without a position the loop advances the reader of
the elements; with one it goes through a materialized copy by index. A list can be iterated if its
element path is in the schema and not already being iterated at the current block.
-/

/-- The element path of a list that can be iterated from the current block. -/
def iterable? (e : Expr) : Emit (Option Path) := do
  let scope ← get
  match scope.schema.pathOf? (Plan.Pushdown.unnestSource e) with
  | none => pure none
  | some p =>
    let element := p.elements
    if !scope.schema.has element then pure none
    else
      let busy ← match scope.reader? element with
        | some reader => askArena (·.isBound (some scope.current) reader)
        | none => pure false
      if busy then pure none
      else if ← isOverridden element then pure none
      else pure (some element)

/-- Makes the body of a loop over `element` the current block; `v` stands for the element. -/
def enterLoop (v : Var) (body : BlockId) (element : Path) : Emit Unit := do
  modify fun scope => { scope with loops := (body, element) :: scope.loops }
  bindMeaning v (.path element)
  putOutput v
  moveTo body

def loopByReader (v : Var) (element : Path) : Emit Unit := do
  let here := (← get).current
  let reader ← readerOf element
  touch reader
  let next := Node.member (.ident reader) Code.Member.next []
  emit next
  changeArena (·.bind here reader)
  let body ← openBlock here .unnest
  emit (.loop (.not (.member (.ident reader) Code.Member.isEndOfArray [])) body)
  changeArena (·.appendTail body next)
  changeArena (·.bind body reader)
  enterLoop v body element

/-- Opens a loop through a materialized copy by index, counted from zero. -/
def loopByPosition (v pos : Var) (element : Path) : Emit Unit := do
  let here := (← get).current
  let reader ← readerOf element
  touch reader
  let array ← declareHere (.member (.ident reader) Code.Member.materialize [])
  let index ← declareHere (.long 0)
  let body ← openBlock here .unnest
  emit (.loop (.binary .lt (.ident index) (.call Code.Builtin.length [.ident array])) body)
  changeArena (·.appendTail body (.set index (.binary .add (.ident index) (.long 1))))
  changeArena (·.setOverride body reader ⟨array, index⟩)
  changeArena (·.bind body reader)
  enterLoop v body element
  bindMeaning pos (.code (.ident index) [reader])
  putOutput pos

/-- Opens the loop of an unnest; `false` if the list cannot be iterated here. -/
def fuseUnnest (v : Var) (pos : Option Var) (e : Expr) : Emit Bool := do
  match ← iterable? e with
  | none => pure false
  | some element =>
    match pos with
    | some p => loopByPosition v p element
    | none => loopByReader v element
    pure true

/-! ## Nested plans -/

/-- Whether an operator of a nested plan can be compiled in place. `seen` holds the texts of the
element paths of the unnests above it. -/
def chainStep (seen : List String) : Plan.Body → Emit (Option (List String))
  | .select cond => pure (if isScalar cond then some seen else none)
  | .assign _ exprs => pure (if areScalar exprs then some seen else none)
  | .unnest _ _ e => do
    match ← iterable? e with
    | some element =>
      pure (if seen.contains element.text then none else some (element.text :: seen))
    | none => pure none
  | .project _ => pure (some seen)
  | _ => pure none

/-- The operators from `top` down to the leaf of the nested plan of `owner`, if all of them can be
compiled in place. They are collected the innermost first. -/
def chainFrom (plan : Plan) (owner : Plan.OpId) :
    Nat → List String → List Plan.Body → Option Plan.OpId → Emit (Option (List Plan.Body))
  | 0, _, _, _ => throw (.fault .outOfRange)
  | _ + 1, _, _, none => pure none
  | depth + 1, seen, chain, some top => do
    let op ← liftM (orAbort (plan.get top))
    match op.body with
    | .nestedSource outer => pure (if outer = some owner then some chain else none)
    | body =>
      match ← chainStep seen body with
      | none => pure none
      | some seen => chainFrom plan owner depth seen (body :: chain) op.input?

/-- The operators from `top` down to the leaf of the nested plan of `owner`, the innermost first, if
all of them can be compiled in place. -/
def nestedChain? (plan : Plan) (owner : Plan.OpId) (top : Option Plan.OpId) :
    Emit (Option (List Plan.Body)) :=
  chainFrom plan owner (plan.ops.size + 1) [] [] top

/-- Binds the variables of an assign; a variable without an expression is a fault. -/
def assignVars : List Var → List Expr → Emit Unit
  | [], _ => pure ()
  | _ :: _, [] => throw (.fault .outOfRange)
  | v :: vars, e :: exprs => do
    assignVar v e
    assignVars vars exprs

/-- Compiles an operator of a nested plan into the current block. -/
def compileStep : Plan.Body → Emit Unit
  | .select cond => selectOn cond
  | .assign vars exprs => assignVars vars exprs
  | .unnest v pos e => do
    unless ← fuseUnnest v pos e do
      failWith (.cannotIterate e (← textOf e))
  | _ => pure ()

/-- Compiles the operators of a nested plan and then a last step, in a nested scope. -/
def compileChain {α : Type} (chain : List Plan.Body) (last : Emit α) : Emit α :=
  nestedScope do
    chain.forM compileStep
    last

/-- A flag that is set if a nested plan has a tuple. With `leaves`, its innermost loop is left as
soon as the flag is set. -/
def existsFlag (chain : List Plan.Body) (leaves : Bool) : Emit String := do
  let outer := (← get).current
  let flag ← declare outer (.bool false)
  compileChain chain do
    emit (.set flag (.bool true))
    if leaves then
      let here := (← get).current
      let loop ← askArena (·.enclosing (some here) Code.Tag.isLoop)
      let outerLoop ← askArena (·.enclosing (some outer) Code.Tag.isLoop)
      if loop ≠ outerLoop then emit .leave
  pure flag

/-- A variable that holds the item of the tuple of a nested plan that sorts first. -/
def firstItem (chain : List Plan.Body) (key : Plan.OrderKey) (item : Expr) : Emit String := do
  let outer := (← get).current
  let best ← declare outer .null
  let payload ← declare outer .missing
  compileChain chain do
    let k ← temp (← codeOf key.expr)
    let p ← temp (← codeOf item)
    let here := (← get).current
    let yes ← openBlock here .subplan
    let sorted := Node.binary (if key.descending then .gt else .lt) (.ident k) (.ident best)
    let unknown := Node.call Code.Builtin.isUnknown [.ident best]
    emit (.branch (.binary .or unknown sorted) yes Code.emptyBlock)
    changeArena (·.appendHead yes (.set best (.ident k)))
    changeArena (·.appendHead yes (.set payload (.ident p)))
  pure payload

def keepItem (v : Var) (item : String) : Emit Unit :=
  modify fun scope =>
    { scope with live := { scope.live with items := scope.live.items.insert v item } }

/-- Fuses a list that is only indexed at constant positions: over the first tuple of an ordering, or
over an aggregate. -/
def fuseList (plan : Plan) (owner : Plan.OpId) (below : Option Plan.OpId) (item : Expr) (out : Var) :
    Emit Bool := do
  match below with
  | none => pure false
  | some id =>
    let op ← liftM (orAbort (plan.get id))
    match op.body with
    | .limit count =>
      match op.input? with
      | none => pure false
      | some orderId =>
        let order ← liftM (orAbort (plan.get orderId))
        match order.body with
        | .order [key] _ =>
          if count ≠ 1 || !isScalar key.expr || !isScalar item then pure false
          else
            match ← nestedChain? plan owner order.input? with
            | none => pure false
            | some chain =>
              keepItem out (← firstItem chain key item)
              pure true
        | _ => pure false
    | .aggregate vars [call] _ =>
      if !isAccumulable call then pure false
      else
        match item with
        | .var v =>
          match vars with
          | [] => throw (.fault .outOfRange)
          | w :: _ =>
            if v.id ≠ w.id then pure false
            else
              match ← nestedChain? plan owner op.input? with
              | none => pure false
              | some chain =>
                let outer := (← get).current
                keepItem out (← compileChain chain (accumulate call outer))
                pure true
        | _ => pure false
    | _ => pure false

end QueryFusion.Fusion

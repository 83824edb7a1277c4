import TypedSsa.Flow.Check
import TypedSsa.Tree.View

/-!
Lowering of structured statements to a block graph. In a protected region each statement gets a
block of its own, so that an exception edge carries the values from before the statement.
-/

namespace TypedSsa

/-- Where a `break` and a `continue` lead. -/
structure LoopTargets where
  breakTo : BlockId
  continueTo : BlockId
deriving DecidableEq, Repr

/-- What is around the statement at hand. -/
structure Scope where
  construct : Option NodeId := none
  loop : Option LoopTargets := none
  depth : Nat := 0
  guarded : Bool := false
deriving DecidableEq, Repr

/-- The graph so far; no current block means that control does not come this far. -/
structure Lowering where
  graph : FlowGraph
  current : Option BlockId

abbrev LowerM := StateT Lowering (Except Fault)

namespace LowerM

def change (step : FlowGraph → Except Fault FlowGraph) : LowerM Unit := do
  let s ← get
  let graph ← step s.graph
  set { s with graph }

def setCurrent (block : Option BlockId) : LowerM Unit :=
  modify (fun s => { s with current := block })

def newBlock (scope : Scope) (role : BlockRole) : LowerM BlockId := do
  let s ← get
  let (id, graph) := s.graph.createBlock role scope.construct scope.depth
  set { s with graph }
  return id

/-- The current block. Statements that control does not reach go into a detached one. -/
def ensureBlock (scope : Scope) : LowerM BlockId := do
  match (← get).current with
  | some block => return block
  | none =>
    let block ← newBlock scope .detached
    setCurrent block
    return block

def endBlock (block : BlockId) (t : Terminator) : LowerM Unit :=
  change (·.setTerminator block t)

def pushSlot (block : BlockId) (slot : Slot) : LowerM Unit :=
  change (·.pushSlot block slot)

/-- Ends the current block for good. -/
def terminate (scope : Scope) (t : Terminator) : LowerM Unit := do
  let block ← ensureBlock scope
  endBlock block t
  setCurrent none

/-- Goes on at `target` if control reaches the end of the current block. -/
def fallTo (target : BlockId) : LowerM Unit := do
  if let some block := (← get).current then
    endBlock block (.jump target .normal)
    setCurrent none

def peekBlock : LowerM Nat :=
  return (← get).graph.nextBlock

/-- The blocks made since the counter stood at `first`. -/
def blocksSince (first : Nat) : LowerM (List BlockId) := do
  return (← get).graph.blockIds.filter (fun id => first ≤ id.raw)

def illegal (node : NodeId) (reason : String) : LowerM α := do
  throw (.illegal (← get).graph.function node reason)

def simple (scope : Scope) (id : NodeId) : LowerM Unit := do
  let block ← ensureBlock scope
  pushSlot block (.node id)
  if scope.guarded then
    let next ← newBlock scope .tryBody
    fallTo next
    setCurrent next

def leaveLoop (scope : Scope) (id : NodeId) (reason : String) (kind : EdgeKind)
    (target : LoopTargets → BlockId) : LowerM Unit := do
  match scope.loop with
  | some targets => terminate scope (.jump (target targets) kind)
  | none => illegal id reason

def ifElse (lower : Scope → List NodeId → LowerM Unit) (scope : Scope) (id test : NodeId)
    (body orelse : List NodeId) : LowerM Unit := do
  let head ← ensureBlock scope
  let join ← newBlock scope .join
  let inner := { scope with construct := some id }
  let thenBlock ← newBlock inner .thenPart
  let elseBlock ← if orelse.isEmpty then pure none else some <$> newBlock inner .elsePart
  endBlock head (.branch (.expr test) thenBlock (elseBlock.getD join))
  setCurrent thenBlock
  lower inner body
  fallTo join
  if let some block := elseBlock then
    setCurrent block
    lower inner orelse
    fallTo join
  setCurrent join

def whileLoop (lower : Scope → List NodeId → LowerM Unit) (scope : Scope) (id test : NodeId)
    (body : List NodeId) : LowerM Unit := do
  let preheader ← ensureBlock scope
  let exit ← newBlock scope .loopExit
  let inner := { scope with construct := some id, depth := scope.depth + 1 }
  let header ← newBlock inner .loopHeader
  let first ← peekBlock
  let bodyBlock ← newBlock inner .loopBody
  endBlock preheader (.jump header .normal)
  endBlock header (.branch (.expr test) bodyBlock exit)
  setCurrent bodyBlock
  lower { inner with loop := some ⟨exit, header⟩ } body
  fallTo header
  let blocks ← blocksSince first
  change (fun g => .ok (g.addLoop {
    construct := id, header, latch := none, exit, body := blocks, parallel := false,
    depth := inner.depth }))
  setCurrent exit

def forLoop (lower : Scope → List NodeId → LowerM Unit) (scope : Scope) (id : NodeId)
    (body : List NodeId) (parallel : Bool) : LowerM Unit := do
  let preheader ← ensureBlock scope
  pushSlot preheader (.loopInit id)
  let exit ← newBlock scope .loopExit
  let inner := { scope with construct := some id, depth := scope.depth + 1 }
  let header ← newBlock inner .loopHeader
  let first ← peekBlock
  let bodyBlock ← newBlock inner .loopBody
  let latch ← newBlock inner .loopLatch
  endBlock preheader (.jump header .normal)
  endBlock header (.branch (.loopTest id) bodyBlock exit)
  pushSlot latch (.loopStep id)
  endBlock latch (.jump header .normal)
  setCurrent bodyBlock
  lower { inner with loop := some ⟨exit, latch⟩ } body
  fallTo latch
  let blocks ← blocksSince first
  change (fun g => .ok (g.addLoop {
    construct := id, header, latch := some latch, exit, body := blocks, parallel,
    depth := inner.depth }))
  setCurrent exit

def tryCatch (a : Arena) (lower : Scope → List NodeId → LowerM Unit) (scope : Scope)
    (id : NodeId) (body handlers : List NodeId) : LowerM Unit := do
  let preheader ← ensureBlock scope
  let after ← newBlock scope .afterTry
  let inner := { scope with construct := some id }
  let tryBlock ← newBlock inner .tryBody
  let entries ← handlers.mapM (fun handler => return (handler, ← newBlock inner .handler))
  endBlock preheader (.jump tryBlock .normal)
  let first ← peekBlock
  setCurrent tryBlock
  lower { inner with guarded := true } body
  fallTo after
  let nested ← blocksSince first
  (tryBlock :: nested).forM (fun block =>
    entries.forM (fun (_, entry) => change (·.addExceptionEdge block entry)))
  entries.forM (fun (handler, entry) => do
    let body ← (a.handlerBody handler : Except Fault _)
    setCurrent entry
    lower inner body
    fallTo after)
  setCurrent after

/-- Lowers statements nested to a depth of `fuel`. -/
def statement (a : Arena) : Nat → Scope → NodeId → LowerM Unit
  | 0, _, id => throw (.schema ((a.kindName? id).getD Arena.unknown) Reason.nestedInItself)
  | fuel + 1, scope, id => do
    let lower (scope : Scope) (body : List NodeId) : LowerM Unit :=
      body.forM (statement a fuel scope)
    match ← (a.statement id : Except Fault _) with
    | .assign _ _ _ _ | .expr _ => simple scope id
    | .ifElse test body orelse => ifElse lower scope id test body orelse
    | .whileLoop test body => whileLoop lower scope id test body
    | .forLoop loop => forLoop lower scope id loop.body loop.parallel
    | .tryCatch body handlers => tryCatch a lower scope id body handlers
    | .breakStmt => leaveLoop scope id Reason.breakOutsideLoop .breakOut (·.breakTo)
    | .continueStmt => leaveLoop scope id Reason.continueOutsideLoop .continueOn (·.continueTo)
    | .returnStmt value => terminate scope (.returnWith value)
    | .raise value => terminate scope (.raise value)

end LowerM

/-- The whole graph of a function's body, unreachable blocks included. A statement is nested in no
more statements than there are nodes, unless it is nested in itself. -/
def FlowGraph.lower (a : Arena) (view : FunctionView) : Except Fault FlowGraph := do
  let start := FlowGraph.new view.name
  let ((), s) ← (view.body.forM (LowerM.statement a a.nodes.size {})).run ⟨start, start.entry⟩
  match s.current with
  | some block => s.graph.setTerminator block (.returnWith none)
  | none => .ok s.graph

/-- The pruned and checked graph of a function. -/
def FlowGraph.ofFunction (a : Arena) (function : NodeId) : Except Fault FlowGraph := do
  let g ← FlowGraph.lower a (← a.function function)
  let g := g.prune.2
  g.validate
  g.checkConstructs
  .ok g

end TypedSsa

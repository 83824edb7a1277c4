import TypedSsa.Ssa.Form
import TypedSsa.Typing.Graph

/-!
The type graph of one function: a node for every definition, for every expression in every block
that evaluates it, and for the result. Calls of other functions are applications until the program
is linked.
-/

namespace TypedSsa

structure CallSite where
  callee : String
  block : BlockId
  node : NodeId
  apply : TypeNodeId
  args : List TypeNodeId
deriving DecidableEq, Repr

structure FunctionTypes where
  function : String
  graph : TypeGraph
  defs : Array (DefId × TypeNodeId)
  params : List TypeNodeId
  result : TypeNodeId
  calls : List CallSite
deriving DecidableEq, Repr

def FunctionTypes.defNode? (t : FunctionTypes) (id : DefId) : Option TypeNodeId :=
  (findNear? Prod.fst id.raw t.defs id).map (·.2)

/-- The graph so far, with the nodes of the expressions that are in it, and the uses of the form by
their places. -/
structure Typing where
  graph : TypeGraph
  defs : Array (DefId × TypeNodeId)
  reads : Std.HashMap (UseSite × BlockId) Use
  exprs : Std.HashMap (BlockId × NodeId) TypeNodeId := {}
  calls : List CallSite := []
  /-- The node that stands for every missing result. -/
  unitNode : Option TypeNodeId := none

abbrev TypingM := StateT Typing (Except Fault)

namespace TypingM

def addNode (rule : TypeRule) (origin : TypeOrigin) : TypingM TypeNodeId :=
  modifyGet (fun s =>
    let (id, graph) := s.graph.add rule origin
    (id, { s with graph }))

def setRule (id : TypeNodeId) (rule : TypeRule) : TypingM Unit :=
  modify (fun s => { s with graph := s.graph.setRule id rule })

def malformed (f : SsaForm) (block : Option BlockId) (reason : String) : TypingM α :=
  throw (.malformedGraph f.function block reason)

def defNode (f : SsaForm) (id : DefId) : TypingM TypeNodeId := do
  match findNear? Prod.fst id.raw (← get).defs id with
  | some (_, node) => return node
  | none => malformed f none (Reason.noTypeNode id)

def useNode (f : SsaForm) (id : UseId) : TypingM TypeNodeId := do
  match f.use? id with
  | some u => defNode f u.definition
  | none => malformed f none (Reason.missingUse id)

def unit : TypingM TypeNodeId := do
  match (← get).unitNode with
  | some node => return node
  | none =>
    let node ← addNode (.constant .unit) .synthetic
    modify (fun s => { s with unitNode := some node })
    return node

def addCall (callee : String) (block : BlockId) (node : NodeId) (args : List TypeNodeId) :
    TypingM TypeNodeId := do
  let apply ← addNode (.apply callee args) (.expr node)
  modify (fun s => { s with calls := s.calls ++ [⟨callee, block, node, apply, args⟩] })
  return apply

/-- A new node for an expression whose parts are typed by `part`. -/
def newExpr (a : Arena) (f : SsaForm) (block : BlockId) (part : NodeId → TypingM TypeNodeId)
    (node : NodeId) : TypingM TypeNodeId := do
  match ← (a.expression node : Except Fault _) with
  | .name name =>
    match (← get).reads[(UseSite.name node, block)]? with
    | some u => addNode (.copy (← defNode f u.definition)) (.expr node)
    | none => malformed f block (Reason.readWithoutUse name)
  | .const ty => addNode (.constant ty) (.expr node)
  | .call callee args => addCall callee block node (← args.mapM part)
  | .binary op left right =>
    let left ← part left
    let right ← part right
    addNode (.apply op [left, right]) (.expr node)
  | .cast value ty =>
    discard (part value)
    addNode (.constant ty) (.expr node)
  | .other _ => addNode (.constant .dynamic) (.expr node)

def exprWithin (a : Arena) (f : SsaForm) (block : BlockId) : Nat → NodeId → TypingM TypeNodeId
  | 0, node => throw (.schema ((a.kindName? node).getD Arena.unknown) Reason.nestedInItself)
  | fuel + 1, node => do
    match (← get).exprs[(block, node)]? with
    | some known => return known
    | none =>
      let id ← newExpr a f block (exprWithin a f block fuel) node
      modify (fun s => { s with exprs := s.exprs.insert (block, node) id })
      return id

/-- The node of an expression in a block, the same one every time. An expression is nested in no
more expressions than there are nodes, unless it is nested in itself. -/
def expr (a : Arena) (f : SsaForm) (block : BlockId) (node : NodeId) : TypingM TypeNodeId :=
  exprWithin a f block a.nodes.size node

/-- The operands of a phi, without undefined values and repetitions. -/
def phiInputs (f : SsaForm) (incoming : List UseId) : TypingM (List TypeNodeId) := do
  let sources := (incoming.filterMap f.definitionOf?).filter (·.kind != .undefined)
  return distinct (← sources.mapM (fun d => defNode f d.id))

/-- The rule of a definition without a declared type. -/
def inferredRule (a : Arena) (f : SsaForm) (d : Def) : TypingM TypeRule := do
  match d.kind with
  | .param _ _ => return .join []
  | .assign _ value | .loopInit _ value => return .copy (← expr a f d.block value)
  | .loopStep _ step previous =>
    let previous ← useNode f previous
    let step ← match step with
      | some step => expr a f d.block step
      | none => addNode (.constant .int64) .synthetic
    return .apply "+" [previous, step]
  | .phi incoming => return .join (← phiInputs f incoming)
  | .promotion source _ => return .copy (← useNode f source)
  | .undefined => return .undefined

/-- A declared type counts; the parts of a phi or a promotion then need no look. -/
def ruleOf (a : Arena) (f : SsaForm) (d : Def) : TypingM TypeRule := do
  match d.declared, d.kind with
  | _, .undefined => return .undefined
  | some ty, .phi _ | some ty, .promotion _ _ => return .constant ty
  | declared, _ =>
    let inferred ← inferredRule a f d
    return (declared.map .constant).getD inferred

def fillDef (a : Arena) (f : SsaForm) (d : Def) : TypingM Unit := do
  let node ← defNode f d.id
  setRule node (← ruleOf a f d)

/-- A declared signature types the parameters that carry no type of their own. -/
def applySignature (f : SsaForm) (signature : List Ty) : TypingM Unit :=
  (f.params.zip signature).forM (fun (param, ty) => do
    if ((f.definition? param).map (·.declared.isNone)).getD false then
      setRule (← defNode f param) (.constant ty))

def visitSlot (a : Arena) (f : SsaForm) (block : BlockId) : Slot → TypingM Unit
  | .node id => do
    match ← (a.statement id : Except Fault _) with
    | .expr value => discard (expr a f block value)
    | _ => return ()
  | _ => return ()

/-- Visits what ends a block; the nodes of the values that it returns. -/
def visitEnd (a : Arena) (f : SsaForm) (block : BlockId) :
    Option Terminator → TypingM (List TypeNodeId)
  | some (.branch (.expr test) _ _) => do
    discard (expr a f block test)
    return []
  | some (.branch (.loopTest construct) _ _) => do
    match ← (a.statement construct : Except Fault _) with
    | .forLoop loop => discard (expr a f block loop.stop)
    | _ => pure ()
    return []
  | some (.returnWith (some value)) => return [← expr a f block value]
  | some (.returnWith none) => return [← unit]
  | some (.raise (some value)) => do
    discard (expr a f block value)
    return []
  | _ => return []

def visitBlock (a : Arena) (f : SsaForm) (b : Block) : TypingM (List TypeNodeId) := do
  b.slots.forM (visitSlot a f b.id)
  visitEnd a f b.id b.terminator

/-- The declared result type, or else the join of what is returned. -/
def resultRule (declared : Option Ty) (returns : List TypeNodeId) : TypeRule :=
  match declared with
  | some ty => .constant ty
  | none => if returns.isEmpty then .constant .unit else .join (distinct returns)

def function (a : Arena) (g : FlowGraph) (f : SsaForm) (view : FunctionView) :
    TypingM (TypeNodeId × List TypeNodeId) := do
  f.defs.forM (fillDef a f)
  if let some signature := view.signature then applySignature f signature
  let returns ← g.blocks.mapM (visitBlock a f)
  let result ← addNode (resultRule view.returnType returns.flatten) .result
  return (result, ← f.params.mapM (defNode f))

end TypingM

/-- Definitions refer to each other, so all of them get their nodes before any gets its rule. -/
def Typing.start (f : SsaForm) : Typing :=
  { graph := ⟨f.defs.map (fun d => { rule := .undefined, origin := .definition d.id })⟩
    defs := f.defs.zipIdx.map (fun (d, i) => (d.id, ⟨i⟩))
    reads := indexBy (fun u => (u.site, u.block)) f.uses.toList }

def FunctionTypes.ofForm (a : Arena) (g : FlowGraph) (f : SsaForm) :
    Except Fault FunctionTypes := do
  let view ← a.function f.node
  let ((result, params), s) ← (TypingM.function a g f view).run (Typing.start f)
  .ok {
    function := view.name
    graph := s.graph
    defs := s.defs
    params
    result
    calls := s.calls }

end TypedSsa

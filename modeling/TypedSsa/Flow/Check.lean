import TypedSsa.Flow.Graph

/-!
Checks of finished graphs: that edges and predecessor lists agree, and that no parallel loop is
left early.
-/

namespace TypedSsa.FlowGraph

def malformed (g : FlowGraph) (block : BlockId) (reason : String) : Except Fault Unit :=
  .error (.malformedGraph g.function block reason)

def validateBlock (g : FlowGraph) (b : Block) : Except Fault Unit :=
  if b.terminator.isNone then g.malformed b.id (Reason.noTerminator b.id)
  else
    match b.successors.find? (fun e => !g.contains e.target) with
    | some e => g.malformed b.id (Reason.edgeToNowhere b.id e.target)
    | none => .ok ()

/-- The entry exists, every block ends, and every edge leads to a block. -/
def validate (g : FlowGraph) : Except Fault Unit :=
  if g.contains g.entry then g.blocks.forM g.validateBlock
  else .error (.malformedGraph g.function none Reason.noEntry)

def checkBlockEdges (g : FlowGraph) (b : Block) : Except Fault Unit :=
  if b.terminatorEdges ≠ b.successors.filter (·.kind != .exception) then
    g.malformed b.id Reason.edgesDisagree
  else
    match b.targets.find? (fun t => !(g.predecessors t).contains b.id) with
    | some t => g.malformed t (Reason.predecessorMissing b.id t)
    | none =>
      match b.predecessors.find? (fun p => !(g.targets p).contains b.id) with
      | some p => g.malformed b.id (Reason.predecessorWithoutEdge p)
      | none => .ok ()

/-- Successors follow from the terminators, and predecessors from the successors. -/
def checkEdges (g : FlowGraph) : Except Fault Unit :=
  g.blocks.forM g.checkBlockEdges

/-- Puts a graph together again. Of two blocks with one id the later counts. -/
def ofParts (function : String) (entry : BlockId) (blocks : List Block) (loops : List LoopInfo) :
    Except Fault FlowGraph := do
  let next := (blocks.map (fun b => min (b.id.raw + 1) Ident.invalidRaw)).foldl max 0
  let g : FlowGraph := {
    function
    entry
    blocks := blocks.foldl (putBy Block.id) []
    loops := loops.foldl (putBy LoopInfo.construct) []
    nextBlock := next }
  g.validate
  g.checkEdges
  .ok g

def insertByDepth (l : LoopInfo) : List LoopInfo → List LoopInfo
  | [] => [l]
  | m :: rest => if m.depth < l.depth then l :: m :: rest else m :: insertByDepth l rest

/-- The loops whose body holds a block, the deepest first. -/
def enclosingLoops (g : FlowGraph) (block : BlockId) : List LoopInfo :=
  (g.loops.filter (·.body.contains block)).foldl (fun sorted l => insertByDepth l sorted) []

/-- The loop that a block was made for. -/
def owningLoop? (g : FlowGraph) (block : BlockId) : Option LoopInfo :=
  ((g.block? block).bind (·.origin.construct)).bind g.loop?

/-- The parallel loop that a block's terminator leaves early, and how. -/
def leaves? (g : FlowGraph) (b : Block) : Option (NodeId × String) :=
  match b.terminator with
  | some (.jump target .breakOut) =>
    ((g.enclosingLoops b.id).find? (fun l => l.exit == target && l.parallel)).map
      (fun l => (l.construct, Reason.breakOutOfParallel))
  | some (.returnWith _) =>
    ((g.enclosingLoops b.id).find? (·.parallel)).map
      (fun l => (l.construct, Reason.returnInParallel))
  | _ => none

def checkConstructs (g : FlowGraph) : Except Fault Unit :=
  match g.blocks.findSome? g.leaves? with
  | some (construct, reason) => .error (.illegal g.function construct reason)
  | none => .ok ()

end TypedSsa.FlowGraph

import TypedSsa.Flow.Block
import TypedSsa.Flow.Dominance

/-!
The block graph of one function. Predecessor lists follow every change of edges, and a computed
dominator tree is kept until the edges change.
-/

namespace TypedSsa

/-- Blocks and loops stand in the order in which they were made. -/
structure FlowGraph where
  function : String
  entry : BlockId
  blocks : List Block
  loops : List LoopInfo := []
  nextBlock : Nat
  dominance : Option DominatorTree := none
deriving Repr

/-- A step from one block to another, and whether it may be taken by an exception. -/
structure Way where
  source : BlockId
  target : BlockId
  raised : Bool
deriving DecidableEq, Repr

/-- The blocks of a graph by id, for many lookups. -/
abbrev BlockIndex := Std.HashMap BlockId Block

namespace BlockIndex

def predecessors (x : BlockIndex) (id : BlockId) : List BlockId :=
  ((x[id]?).map (·.predecessors)).getD []

def successors (x : BlockIndex) (id : BlockId) : List Edge :=
  ((x[id]?).map (·.successors)).getD []

def targets (x : BlockIndex) (id : BlockId) : List BlockId :=
  ((x[id]?).map (·.targets)).getD []

/-- Whether control may go from one block to another by an exception. -/
def raisesInto (x : BlockIndex) (source target : BlockId) : Bool :=
  (x.successors source).contains ⟨target, .exception⟩

end BlockIndex

namespace FlowGraph

def block? (g : FlowGraph) (id : BlockId) : Option Block :=
  g.blocks.find? (·.id == id)

def contains (g : FlowGraph) (id : BlockId) : Bool :=
  g.blocks.any (·.id == id)

def blockIds (g : FlowGraph) : List BlockId :=
  g.blocks.map (·.id)

def index (g : FlowGraph) : BlockIndex :=
  indexBy Block.id g.blocks

theorem getElem?_index (g : FlowGraph) (id : BlockId) : g.index[id]? = g.block? id :=
  getElem?_indexBy Block.id g.blocks id

def predecessors (g : FlowGraph) (id : BlockId) : List BlockId :=
  ((g.block? id).map (·.predecessors)).getD []

def successors (g : FlowGraph) (id : BlockId) : List Edge :=
  ((g.block? id).map (·.successors)).getD []

def targets (g : FlowGraph) (id : BlockId) : List BlockId :=
  ((g.block? id).map (·.targets)).getD []

/-- The ways from each block to the next. -/
def ways (g : FlowGraph) : List Way :=
  g.blocks.flatMap (fun b => b.targets.map (fun t => ⟨b.id, t, b.exceptionTargets.contains t⟩))

def missing (g : FlowGraph) (id : BlockId) : Fault :=
  .malformedGraph g.function id (Reason.noBlock id)

/-- Block ids are 32-bit words. -/
def createBlock (g : FlowGraph) (role : BlockRole) (construct : Option NodeId) (depth : Nat) :
    BlockId × FlowGraph :=
  let id : BlockId := ⟨g.nextBlock⟩
  (id, { g with
    blocks := putBy Block.id g.blocks { id := id, origin := ⟨role, depth, construct⟩ }
    nextBlock := (g.nextBlock + 1) % (Ident.invalidRaw + 1)
    dominance := none })

/-- A graph of its entry block alone. -/
def new (function : String) : FlowGraph :=
  { function
    entry := ⟨0⟩
    blocks := [{ id := ⟨0⟩, origin := { role := .entry, depth := 0, construct := none } }]
    nextBlock := 1 }

def updateBlock (g : FlowGraph) (id : BlockId) (change : Block → Block) : FlowGraph :=
  { g with blocks := g.blocks.map (fun b => if b.id == id then change b else b) }

def pushSlot (g : FlowGraph) (id : BlockId) (slot : Slot) : Except Fault FlowGraph :=
  if g.contains id then .ok (g.updateBlock id (fun b => { b with slots := b.slots ++ [slot] }))
  else .error (g.missing id)

/-- Brings one block's predecessor list in line when a source loses some targets and gains
others. -/
def relinked (source : BlockId) (lost gained : List BlockId) (b : Block) : Block :=
  if lost.contains b.id then { b with predecessors := b.predecessors.filter (· != source) }
  else if gained.contains b.id && !b.predecessors.contains source then
    { b with predecessors := b.predecessors ++ [source] }
  else b

/-- Gives a block new successors. -/
def setSuccessors (g : FlowGraph) (id : BlockId) (terminator : Option Terminator)
    (successors : List Edge) (lost gained : List BlockId) : FlowGraph :=
  let changed := g.updateBlock id (fun b => { b with terminator, successors })
  { changed with
    blocks := changed.blocks.map (relinked id lost gained)
    dominance := none }

/-- Replaces a block's terminator; its exception edges stay. -/
def setTerminator (g : FlowGraph) (id : BlockId) (t : Terminator) : Except Fault FlowGraph :=
  match t.edges.find? (fun e => !g.contains e.target), g.block? id with
  | some e, _ => .error (g.missing e.target)
  | none, none => .error (g.missing id)
  | none, some b =>
    let successors := t.edges ++ b.exceptionEdges
    let old := b.targets
    let new := distinct (successors.map (·.target))
    .ok (g.setSuccessors id (some t) successors (old.filter (!new.contains ·))
      (new.filter (!old.contains ·)))

/-- Adds an edge that may be taken from anywhere inside a block; a second like it changes
nothing. -/
def addExceptionEdge (g : FlowGraph) (source handler : BlockId) : Except Fault FlowGraph :=
  if !g.contains handler then .error (g.missing handler)
  else
    match g.block? source with
    | none => .error (g.missing source)
    | some b =>
      let edge : Edge := ⟨handler, .exception⟩
      if b.successors.contains edge then .ok g
      else
        let gained := if b.successors.any (·.target == handler) then [] else [handler]
        .ok (g.setSuccessors source b.terminator (b.successors ++ [edge]) [] gained)

def addLoop (g : FlowGraph) (l : LoopInfo) : FlowGraph :=
  { g with loops := putBy LoopInfo.construct g.loops l }

def loop? (g : FlowGraph) (construct : NodeId) : Option LoopInfo :=
  g.loops.find? (·.construct == construct)

def exitBlocks (g : FlowGraph) : List BlockId :=
  (g.blocks.filter (·.isExit)).map (·.id)

/-- The blocks that the entry reaches. -/
def reversePostorder (g : FlowGraph) : List BlockId :=
  Digraph.reversePostorder g.blockIds g.index.targets [g.entry]

/-- Drops the ids that are not kept from a loop. -/
def LoopInfo.restrict (keep : BlockId → Bool) (l : LoopInfo) : LoopInfo :=
  { l with latch := l.latch.filter keep, body := l.body.filter keep }

/-- Drops the blocks that the entry does not reach, and the loops whose header is gone. -/
def prune (g : FlowGraph) : List BlockId × FlowGraph :=
  let reached : Std.HashSet BlockId := .ofList g.reversePostorder
  let keep (id : BlockId) : Bool := reached.contains id
  let removed := g.blockIds.filter (fun id => !keep id)
  if removed.isEmpty then ([], g)
  else
    (removed, { g with
      blocks := (g.blocks.filter (fun b => keep b.id)).map (fun b =>
        { b with predecessors := b.predecessors.filter keep })
      loops := (g.loops.filter (fun l => keep l.header)).map (LoopInfo.restrict keep)
      dominance := none })

def buildDominance (g : FlowGraph) : Except Fault DominatorTree :=
  if g.contains g.entry then
    DominatorTree.build g.function g.reversePostorder.toArray g.index.predecessors
  else .error (.malformedGraph g.function none Reason.dominanceWithoutEntry)

/-- The dominator tree, computed if it is not kept already. -/
def ensureDominance (g : FlowGraph) : Except Fault (DominatorTree × FlowGraph) :=
  match g.dominance with
  | some tree => .ok (tree, g)
  | none => g.buildDominance.map (fun tree => (tree, { g with dominance := some tree }))

structure Stats where
  blocks : Nat
  edges : Nat
  exceptionEdges : Nat
  loops : Nat
  maxDepth : Nat
deriving DecidableEq, Repr

def stats (g : FlowGraph) : Stats :=
  { blocks := g.blocks.length
    edges := (g.blocks.flatMap (·.successors)).length
    exceptionEdges := (g.blocks.flatMap (·.exceptionEdges)).length
    loops := g.loops.length
    maxDepth := (g.blocks.map (·.origin.depth)).foldl max 0 }

def blockText (b : Block) : String :=
  "  " ++ b.id.text ++ " " ++ b.origin.role.text ++ " preds=[" ++
    ", ".intercalate (b.predecessors.map Ident.text) ++ "] ->" ++
    String.join (b.successors.map (fun e => " " ++ e.target.text ++ "(" ++ e.kind.text ++ ")")) ++
    "\n"

def text (g : FlowGraph) : String :=
  "cfg " ++ g.function ++ " (entry " ++ g.entry.text ++ ")\n" ++
    String.join (g.blocks.map blockText)

end FlowGraph

end TypedSsa

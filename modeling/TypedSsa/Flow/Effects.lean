import TypedSsa.Flow.Graph
import TypedSsa.Tree.Traversal

/-!
The reads and writes of variables in each block, in the order of execution.
-/

namespace TypedSsa

/-- Where a variable is read. -/
inductive UseSite where
  | name (node : NodeId)
  | loopTest (construct : NodeId)
  | loopStep (construct : NodeId)
  | phiIncoming (phi : DefId) (predecessor : BlockId)
  | promotion (definition : DefId)
deriving DecidableEq, Repr, Hashable

/-- What assigns a variable. -/
inductive WriteOrigin where
  | assign (stmt value : NodeId)
  | loopInit (construct start : NodeId)
  | loopStep (construct : NodeId) (step : Option NodeId)
deriving DecidableEq, Repr

inductive Effect where
  | read (name : String) (site : UseSite)
  | write (name : String) (origin : WriteOrigin)
deriving DecidableEq, Repr

def Effect.name : Effect → String
  | read name _ => name
  | write name _ => name

def Effect.isRead : Effect → Bool
  | read _ _ => true
  | write _ _ => false

namespace Arena

def reads (a : Arena) (root : NodeId) : Except Fault (List Effect) :=
  (a.namesRead root).map (fun found => found.map (fun (name, id) => .read name (.name id)))

def readsIn (a : Arena) : Option NodeId → Except Fault (List Effect)
  | some root => a.reads root
  | none => .ok []

def loopOf (a : Arena) (construct : NodeId) : Except Fault CountedLoop := do
  match ← a.statement construct with
  | .forLoop loop => .ok loop
  | _ => .error (.schema ((a.kindName? construct).getD unknown) Reason.notACountedLoop)

def slotEffects (a : Arena) : Slot → Except Fault (List Effect)
  | .node id => do
    match ← a.statement id with
    | .assign _ name value _ => return (← a.reads value) ++ [.write name (.assign id value)]
    | .expr value => a.reads value
    | _ => return []
  | .loopInit construct => do
    let loop ← a.loopOf construct
    return (← a.reads loop.start) ++ [.write loop.name (.loopInit construct loop.start)]
  | .loopStep construct => do
    let loop ← a.loopOf construct
    return .read loop.name (.loopStep construct) :: (← a.readsIn loop.step) ++
      [.write loop.name (.loopStep construct loop.step)]

def terminatorEffects (a : Arena) : Option Terminator → Except Fault (List Effect)
  | some (.branch (.expr test) _ _) => a.reads test
  | some (.branch (.loopTest construct) _ _) => do
    let loop ← a.loopOf construct
    return .read loop.name (.loopTest construct) :: (← a.reads loop.stop)
  | some (.returnWith value) | some (.raise value) => a.readsIn value
  | _ => .ok []

def blockEffects (a : Arena) (b : Block) : Except Fault (List Effect) := do
  let slots ← b.slots.mapM a.slotEffects
  return slots.flatten ++ (← a.terminatorEffects b.terminator)

end Arena

/-- The effects of every block. -/
abbrev EffectMap := List (BlockId × List Effect)

def EffectMap.of (effects : EffectMap) (block : BlockId) : List Effect :=
  ((effects.find? (·.1 == block)).map (·.2)).getD []

def FlowGraph.effects (g : FlowGraph) (a : Arena) : Except Fault EffectMap :=
  g.blocks.mapM (fun b => do return (b.id, ← a.blockEffects b))

end TypedSsa

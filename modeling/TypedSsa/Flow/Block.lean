import TypedSsa.Ident
import TypedSsa.Keyed

/-!
Basic blocks: statement slots, the way out at their end, and the edges in and out.
-/

namespace TypedSsa

inductive EdgeKind where
  | normal
  | onTrue
  | onFalse
  | exception
  | breakOut
  | continueOn
deriving DecidableEq, Repr

def EdgeKind.text : EdgeKind → String
  | .normal => "normal"
  | .onTrue => "true"
  | .onFalse => "false"
  | .exception => "exception"
  | .breakOut => "break"
  | .continueOn => "continue"

structure Edge where
  target : BlockId
  kind : EdgeKind
deriving DecidableEq, Repr

/-- A statement node, or the start or step of a counted loop. -/
inductive Slot where
  | node (id : NodeId)
  | loopInit (construct : NodeId)
  | loopStep (construct : NodeId)
deriving DecidableEq, Repr

/-- A test expression, or the comparison that a counted loop makes. -/
inductive Condition where
  | expr (id : NodeId)
  | loopTest (construct : NodeId)
deriving DecidableEq, Repr

inductive Terminator where
  | jump (target : BlockId) (kind : EdgeKind)
  | branch (condition : Condition) (onTrue onFalse : BlockId)
  | returnWith (value : Option NodeId)
  | raise (value : Option NodeId)
  | unreachable
deriving DecidableEq, Repr

namespace Terminator

def edges : Terminator → List Edge
  | jump target kind => [⟨target, kind⟩]
  | branch _ onTrue onFalse => [⟨onTrue, .onTrue⟩, ⟨onFalse, .onFalse⟩]
  | _ => []

def isExit : Terminator → Bool
  | returnWith _ | raise _ => true
  | _ => false

end Terminator

/-- The part of a construct that a block was made for. -/
inductive BlockRole where
  | entry | thenPart | elsePart | join
  | loopHeader | loopBody | loopLatch | loopExit
  | tryBody | handler | afterTry
  | detached
deriving DecidableEq, Repr

def BlockRole.text : BlockRole → String
  | .entry => "Entry"
  | .thenPart => "Then"
  | .elsePart => "Else"
  | .join => "Join"
  | .loopHeader => "LoopHeader"
  | .loopBody => "LoopBody"
  | .loopLatch => "LoopLatch"
  | .loopExit => "LoopExit"
  | .tryBody => "TryBody"
  | .handler => "Handler"
  | .afterTry => "AfterTry"
  | .detached => "Detached"

structure BlockOrigin where
  role : BlockRole
  /-- The number of loops around the block. -/
  depth : Nat
  construct : Option NodeId
deriving DecidableEq, Repr

/-- Successors are the edges of the terminator and then the exception edges. Each predecessor is
listed once, in the order in which the edges came. -/
structure Block where
  id : BlockId
  slots : List Slot := []
  terminator : Option Terminator := none
  predecessors : List BlockId := []
  successors : List Edge := []
  origin : BlockOrigin
deriving DecidableEq, Repr

namespace Block

def targets (b : Block) : List BlockId :=
  distinct (b.successors.map (·.target))

def exceptionEdges (b : Block) : List Edge :=
  b.successors.filter (·.kind == .exception)

def exceptionTargets (b : Block) : List BlockId :=
  b.exceptionEdges.map (·.target)

def isExit (b : Block) : Bool :=
  (b.terminator.map (·.isExit)).getD false

def terminatorEdges (b : Block) : List Edge :=
  (b.terminator.map (·.edges)).getD []

end Block

/-- A loop as it was lowered: the block that tests, the block that steps, the block after it, and
every block made for its body. -/
structure LoopInfo where
  construct : NodeId
  header : BlockId
  latch : Option BlockId
  exit : BlockId
  body : List BlockId
  parallel : Bool
  /-- One for a loop that no other is around. -/
  depth : Nat
deriving DecidableEq, Repr

end TypedSsa

import TypedSsa.Flow.Effects
import TypedSsa.Tree.Encoding

/-!
Blocks, loops and the sites of reads as JSON.
-/

namespace TypedSsa

namespace EdgeKind

def title : EdgeKind → String
  | normal => "Normal"
  | onTrue => "True"
  | onFalse => "False"
  | exception => "Exception"
  | breakOut => "Break"
  | continueOn => "Continue"

def ofJson? : Json → Option EdgeKind :=
  Json.named? ([normal, onTrue, onFalse, exception, breakOut, continueOn].map
    (fun k => (k.title, k)))

end EdgeKind

def BlockRole.ofJson? : Json → Option BlockRole :=
  Json.named? ([entry, thenPart, elsePart, join, loopHeader, loopBody, loopLatch, loopExit, tryBody,
    handler, afterTry, detached].map (fun r => (r.text, r)))

namespace Edge

def toJson (e : Edge) : Json :=
  .obj [("target", e.target.toJson), ("kind", .str e.kind.title)]

def ofFields? (j : Json) : Option Edge := do
  some ⟨← Ident.ofJson? (j.get "target"), ← EdgeKind.ofJson? (j.get "kind")⟩

def names : List String :=
  ["target", "kind"]

def ofJson? (j : Json) : Option Edge :=
  (j.record? names 2).bind ofFields?

end Edge

/-- The case of a construct of the tree. -/
def constructJson (name : String) (construct : NodeId) : Json :=
  .tagged name (.obj [("construct", construct.toJson)])

def constructOf? (style : Json.CaseStyle) (j : Json) : Option NodeId :=
  (j.fields? style ["construct"]).bind (fun j => Ident.ofJson? (j.get "construct"))

namespace Slot

def toJson : Slot → Json
  | node id => .tagged "Node" id.toJson
  | loopInit construct => constructJson "LoopInit" construct
  | loopStep construct => constructJson "LoopStep" construct

def ofJson? (style : Json.CaseStyle) (j : Json) : Option Slot :=
  match j.case? with
  | some ("Node", some c) => (Ident.ofJson? c).map node
  | some ("LoopInit", some c) => (constructOf? style c).map loopInit
  | some ("LoopStep", some c) => (constructOf? style c).map loopStep
  | _ => none

end Slot

namespace Condition

def toJson : Condition → Json
  | expr id => .tagged "Expr" id.toJson
  | loopTest construct => constructJson "LoopTest" construct

def ofJson? (style : Json.CaseStyle) (j : Json) : Option Condition :=
  match j.case? with
  | some ("Expr", some c) => (Ident.ofJson? c).map expr
  | some ("LoopTest", some c) => (constructOf? style c).map loopTest
  | _ => none

end Condition

namespace Terminator

def toJson : Terminator → Json
  | jump target kind => .tagged "Jump" (Edge.toJson ⟨target, kind⟩)
  | branch condition onTrue onFalse =>
    .tagged "Branch" (.obj [("condition", condition.toJson), ("true_target", onTrue.toJson),
      ("false_target", onFalse.toJson)])
  | returnWith value => .tagged "Return" (.obj [("value", .ofOption Ident.toJson value)])
  | raise value => .tagged "Raise" (.obj [("value", .ofOption Ident.toJson value)])
  | unreachable => .str "Unreachable"

/-- The value that a terminator may carry. -/
def valueOf? (style : Json.CaseStyle) (j : Json) : Option (Option NodeId) :=
  (j.fields? style ["value"]).bind (fun j => (j.get "value").optionOf? Ident.ofJson?)

def branchOf? (style : Json.CaseStyle) (j : Json) : Option Terminator := do
  let j ← j.fields? style ["condition", "true_target", "false_target"]
  some (branch (← Condition.ofJson? style (j.get "condition"))
    (← Ident.ofJson? (j.get "true_target")) (← Ident.ofJson? (j.get "false_target")))

def ofJson? (style : Json.CaseStyle) (j : Json) : Option Terminator :=
  match j.case? with
  | some ("Unreachable", none) | some ("Unreachable", some .null) => some unreachable
  | some ("Jump", some c) =>
    ((c.fields? style Edge.names).bind Edge.ofFields?).map (fun e => jump e.target e.kind)
  | some ("Branch", some c) => branchOf? style c
  | some ("Return", some c) => (valueOf? style c).map returnWith
  | some ("Raise", some c) => (valueOf? style c).map raise
  | _ => none

end Terminator

namespace BlockOrigin

def toJson (o : BlockOrigin) : Json :=
  .obj [("role", .str o.role.text), ("loop_depth", .ofNat o.depth),
    ("construct", .ofOption Ident.toJson o.construct)]

def ofJson? (j : Json) : Option BlockOrigin := do
  let j ← j.record? ["role", "loop_depth", "construct"] 3
  some ⟨← BlockRole.ofJson? (j.get "role"), ← (j.get "loop_depth").nat? 32,
    ← (j.get "construct").optionOf? Ident.ofJson?⟩

end BlockOrigin

namespace Block

def toJson (b : Block) : Json :=
  .obj [("id", b.id.toJson), ("statements", .ofList Slot.toJson b.slots),
    ("terminator", .ofOption Terminator.toJson b.terminator),
    ("predecessors", .ofList Ident.toJson b.predecessors),
    ("successors", .ofList Edge.toJson b.successors), ("metadata", b.origin.toJson)]

def ofJson? (style : Json.CaseStyle) (j : Json) : Option Block := do
  let j ← j.record?
    ["id", "statements", "terminator", "predecessors", "successors", "metadata"] 6
  some {
    id := ← Ident.ofJson? (j.get "id")
    slots := ← (j.get "statements").listOf? (Slot.ofJson? style)
    terminator := ← (j.get "terminator").optionOf? (Terminator.ofJson? style)
    predecessors := ← (j.get "predecessors").listOf? Ident.ofJson?
    successors := ← (j.get "successors").listOf? Edge.ofJson?
    origin := ← BlockOrigin.ofJson? (j.get "metadata") }

end Block

namespace LoopInfo

def toJson (l : LoopInfo) : Json :=
  .obj [("construct", l.construct.toJson), ("header", l.header.toJson),
    ("latch", .ofOption Ident.toJson l.latch), ("exit", l.exit.toJson),
    ("body", .ofList Ident.toJson l.body), ("parallel", .bool l.parallel),
    ("depth", .ofNat l.depth)]

def ofJson? (j : Json) : Option LoopInfo := do
  let j ← j.record?
    ["construct", "header", "latch", "exit", "body", "parallel", "depth"] 7
  some {
    construct := ← Ident.ofJson? (j.get "construct")
    header := ← Ident.ofJson? (j.get "header")
    latch := ← (j.get "latch").optionOf? Ident.ofJson?
    exit := ← Ident.ofJson? (j.get "exit")
    body := ← (j.get "body").listOf? Ident.ofJson?
    parallel := ← (j.get "parallel").bool?
    depth := ← (j.get "depth").nat? 32 }

end LoopInfo

namespace UseSite

def toJson : UseSite → Json
  | name node => .tagged "Name" node.toJson
  | loopTest construct => constructJson "LoopTest" construct
  | loopStep construct => constructJson "LoopStep" construct
  | phiIncoming phi predecessor =>
    .tagged "PhiIncoming" (.obj [("phi", phi.toJson), ("predecessor", predecessor.toJson)])
  | promotion definition => .tagged "Promotion" (.obj [("def", definition.toJson)])

def ofJson? (style : Json.CaseStyle) (j : Json) : Option UseSite :=
  match j.case? with
  | some ("Name", some c) => (Ident.ofJson? c).map name
  | some ("LoopTest", some c) => (constructOf? style c).map loopTest
  | some ("LoopStep", some c) => (constructOf? style c).map loopStep
  | some ("PhiIncoming", some c) => do
    let c ← c.fields? style ["phi", "predecessor"]
    some (phiIncoming (← Ident.ofJson? (c.get "phi")) (← Ident.ofJson? (c.get "predecessor")))
  | some ("Promotion", some c) => do
    let c ← c.fields? style ["def"]
    (Ident.ofJson? (c.get "def")).map promotion
  | _ => none

end UseSite

namespace FlowGraph

def Stats.toJson (s : Stats) : Json :=
  .obj [("blocks", .ofNat s.blocks), ("edges", .ofNat s.edges),
    ("exception_edges", .ofNat s.exceptionEdges), ("loops", .ofNat s.loops),
    ("max_loop_depth", .ofNat s.maxDepth)]

/-- The parts that a graph is put together from. -/
def toJson (g : FlowGraph) : Json :=
  .obj [("function", .str g.function), ("entry", g.entry.toJson),
    ("blocks", .ofList Block.toJson g.blocks), ("loops", .ofList LoopInfo.toJson g.loops)]

/-- A block's place in the tree, and those of the given blocks that it dominates. -/
def dominanceOf (t : DominatorTree) (blocks : List BlockId) (b : BlockId) : Json :=
  .obj [("block", b.toJson), ("idom", .ofOption Ident.toJson (t.immediateDominator? b)),
    ("children", .ofList Ident.toJson (t.children b)),
    ("frontier", .ofList Ident.toJson (t.frontier b)), ("reachable", .bool (t.isReachable b)),
    ("rpo", .ofOption .ofNat (t.position? b)),
    ("dominates", .ofList Ident.toJson (blocks.filter (t.dominates b))),
    ("strictly", .ofNat (blocks.countP (t.strictlyDominates b)))]

/-- A dominator tree of the graph's blocks. -/
def dominanceJson (g : FlowGraph) (t : DominatorTree) : Json :=
  .obj [("entry", .ofOption Ident.toJson t.order[0]?),
    ("preorder", .ofList Ident.toJson t.preorder), ("rpo", .ofList Ident.toJson t.order.toList),
    ("stats", .arr [.ofNat t.passes, .ofNat t.order.size, .ofNat t.edges]),
    ("blocks", .ofList (dominanceOf t g.blockIds) g.blockIds)]

end FlowGraph

end TypedSsa

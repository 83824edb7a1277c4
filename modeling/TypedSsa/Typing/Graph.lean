import TypedSsa.Fault.Basic

/-!
Type dependency graphs: each node's type is computed from the types of other nodes.
-/

namespace TypedSsa

inductive TypeRule where
  | constant (ty : Ty)
  | copy (source : TypeNodeId)
  | join (inputs : List TypeNodeId)
  | apply (rule : String) (args : List TypeNodeId)
  | undefined
deriving DecidableEq, Repr, Inhabited

namespace TypeRule

def dependencies : TypeRule → List TypeNodeId
  | constant _ | undefined => []
  | copy source => [source]
  | join inputs => inputs
  | apply _ args => args

def shift (offset : Nat) : TypeRule → TypeRule
  | copy source => copy ⟨source.raw + offset⟩
  | join inputs => join (inputs.map (⟨·.raw + offset⟩))
  | apply rule args => apply rule (args.map (⟨·.raw + offset⟩))
  | rule => rule

def list (ids : List TypeNodeId) : String :=
  ", ".intercalate (ids.map Ident.text)

def text : TypeRule → String
  | constant ty => ty.text
  | copy source => "copy " ++ source.text
  | join inputs => "join(" ++ list inputs ++ ")"
  | apply rule args => rule ++ "(" ++ list args ++ ")"
  | undefined => "undefined"

end TypeRule

/-- What a node's type is the type of. -/
inductive TypeOrigin where
  | definition (id : DefId)
  | expr (id : NodeId)
  | result
  | synthetic
deriving DecidableEq, Repr

structure TypeNode where
  rule : TypeRule
  origin : TypeOrigin
  function : Option String := none
deriving DecidableEq, Repr

/-- The id of a node is its position. -/
structure TypeGraph where
  nodes : Array TypeNode := #[]
deriving DecidableEq, Repr, Inhabited

namespace TypeGraph

def size (g : TypeGraph) : Nat :=
  g.nodes.size

def add (g : TypeGraph) (rule : TypeRule) (origin : TypeOrigin) : TypeNodeId × TypeGraph :=
  (⟨g.nodes.size⟩, ⟨g.nodes.push { rule := rule, origin := origin }⟩)

/-- A node whose rule is set later. -/
def reserve (g : TypeGraph) (origin : TypeOrigin) : TypeNodeId × TypeGraph :=
  g.add .undefined origin

def node? (g : TypeGraph) (id : TypeNodeId) : Option TypeNode :=
  g.nodes[id.raw]?

def rule? (g : TypeGraph) (id : TypeNodeId) : Option TypeRule :=
  (g.node? id).map (·.rule)

def change (g : TypeGraph) (id : TypeNodeId) (f : TypeNode → TypeNode) : TypeGraph :=
  ⟨g.nodes.modify id.raw f⟩

def setRule (g : TypeGraph) (id : TypeNodeId) (rule : TypeRule) : TypeGraph :=
  g.change id (fun n => { n with rule })

def dependencies (g : TypeGraph) (id : TypeNodeId) : List TypeNodeId :=
  ((g.rule? id).map TypeRule.dependencies).getD []

def edgeCount (g : TypeGraph) : Nat :=
  (g.nodes.toList.flatMap (·.rule.dependencies)).length

/-- Appends another graph, whose ids move up by this one's size. -/
def append (g other : TypeGraph) (function : String) : TypeGraph :=
  ⟨g.nodes ++ other.nodes.map (fun n =>
    { n with rule := n.rule.shift g.size, function := some function })⟩

def text (g : TypeGraph) : String :=
  String.join (g.nodes.toList.mapIdx (fun i n =>
    (⟨i⟩ : TypeNodeId).text ++ " = " ++ n.rule.text ++ "\n"))

end TypeGraph

end TypedSsa

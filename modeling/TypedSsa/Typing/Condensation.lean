import TypedSsa.Digraph.Components
import TypedSsa.Keyed
import TypedSsa.Typing.Graph

/-!
Type nodes grouped into components that depend on each other, and the order to resolve them in.
-/

namespace TypedSsa

structure Component where
  id : ComponentId
  members : List TypeNodeId
  /-- Whether a member depends on itself, directly or not. -/
  cyclic : Bool
  dependencies : List ComponentId
  /-- The longest chain of dependencies below. -/
  level : Nat
deriving DecidableEq, Repr

structure Condensation where
  components : Array Component := #[]
  /-- For each node the component it is in. -/
  owners : Array ComponentId := #[]
deriving DecidableEq, Repr, Inhabited

namespace Condensation

/-- For each of `n` nodes the group it is in. -/
def ownersOf (n : Nat) (groups : List (List Nat)) : Array ComponentId :=
  groups.zipIdx.foldl
    (fun owners (members, i) => members.foldl (·.setIfInBounds · ⟨i⟩) owners)
    (Array.replicate n .invalid)

/-- The component of a group, whose dependencies are among the components before it. -/
def describe (owners : Array ComponentId) (next : Nat → List Nat) (done : Array Component)
    (members : List Nat) : Component :=
  let id : ComponentId := ⟨done.size⟩
  let targets := members.flatMap (fun m => (next m).filterMap (owners[·]?))
  let others := (firstsBy Ident.raw targets).filter (· != id)
  let levels := others.filterMap (fun d => (done[d.raw]?).map (·.level + 1))
  { id
    members := members.map (⟨·⟩)
    cyclic := 1 < members.length || targets.contains id
    dependencies := others.mergeSort (fun a b => a.raw ≤ b.raw)
    level := levels.foldl max 0 }

/-- The condensation of a dependency graph, dependencies first. -/
def build (n : Nat) (next : Nat → List Nat) : Condensation :=
  let groups := Digraph.components n next
  let owners := ownersOf n groups
  ⟨groups.foldl (fun done members => done.push (describe owners next done members)) #[], owners⟩

def size (c : Condensation) : Nat :=
  c.components.size

def componentOf? (c : Condensation) (node : TypeNodeId) : Option ComponentId :=
  c.owners[node.raw]?

def component? (c : Condensation) (id : ComponentId) : Option Component :=
  c.components[id.raw]?

def cyclicCount (c : Condensation) : Nat :=
  c.components.countP (·.cyclic)

def depth (c : Condensation) : Nat :=
  (c.components.map (·.level + 1)).foldl max 0

/-- Components by level; a wave depends on earlier waves only. -/
def waves (c : Condensation) : List (List ComponentId) :=
  let byLevel := groupBy Component.level c.components.toList
  (List.range c.depth).map (fun level => (byLevel.getD level []).map (·.id))

end Condensation

def TypeGraph.condense (g : TypeGraph) : Condensation :=
  let targets := g.nodes.map (fun n => n.rule.dependencies.map (·.raw))
  .build g.size (targets.getD · [])

end TypedSsa

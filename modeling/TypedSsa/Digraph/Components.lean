import TypedSsa.Digraph.Search

/-!
Strongly connected components of the graph on the numbers below `n`. A component comes after every
other component that it has an edge into.
-/

namespace TypedSsa.Digraph

/-- The components found so far, the last one first, and the vertices in none of them. -/
structure Split where
  found : List (List Nat) := []
  left : Std.HashSet Nat

/-- Splits off the component of a vertex: of what reaches it, the part that it reaches. The rest of
what reaches it is left. -/
def Split.step (next previous : Nat → List Nat) (s : Split) (v : Nat) : Split :=
  if v ∈ s.left then
    let before := search previous [.enter v] { unseen := s.left }
    let both := search next [.enter v] { unseen := .ofList before.seen }
    { found := both.seen.mergeSort :: s.found
      left := before.unseen.insertMany both.unseen.toList }
  else s

/-- Components are split off in reverse postorder, so what a component leads to is found after it
and stands before it. Edges out of range are ignored. -/
def components (n : Nat) (next : Nat → List Nat) : List (List Nat) :=
  let vertices := List.range n
  let into := sources vertices next
  let order := reversePostorder vertices next vertices
  (order.foldl (Split.step next (into.getD · [])) { left := .ofList vertices }).found

end TypedSsa.Digraph

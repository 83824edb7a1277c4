import TypedSsa.Digraph.Search
import TypedSsa.Tree.Arena

/-!
Structural equality of nodes, and the check that value nodes form no cycle.
-/

namespace TypedSsa.Arena

/-- Compares value nodes to a depth of `fuel`. -/
def equalsWithin (a : Arena) : Nat → NodeId → NodeId → Bool
  | 0, x, y => x == y
  | fuel + 1, x, y =>
    x == y ||
      match a.find? x, a.find? y with
      | some m, some n =>
        m.mode == .value && n.mode == .value && m.kind == n.kind &&
          FieldValue.agreeAll (a.equalsWithin fuel) m.fields n.fields
      | _, _ => false

/-- Identity nodes equal only themselves; value nodes compare by kind and fields. No chain of
distinct value nodes is longer than the arena. -/
def equals (a : Arena) (x y : NodeId) : Bool :=
  a.equalsWithin a.nodes.size x y

def checkValuesAcyclic (a : Arena) : Except Fault Unit :=
  let values := (a.nodes.toList.filter (·.mode == .value)).map (·.id)
  match Digraph.firstOnCycle? values a.valueChildren with
  | some id => .error (.schema ((a.kindName? id).getD unknown) (Reason.valueCycle id))
  | none => .ok ()

end TypedSsa.Arena

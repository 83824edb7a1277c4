import TypedSsa.Tree.View

/-!
Preorder traversal with a handler for each kind. Identity nodes are handled once, value nodes as
often as they are referred to.
-/

namespace TypedSsa

inductive VisitAction where
  | descend
  | skip
  | stop
deriving DecidableEq, Repr

abbrev Handler (σ : Type) := Node → σ → VisitAction × σ

/-- The newest handler of a kind stands first. -/
structure Dispatch (σ : Type) where
  handlers : List (KindId × Handler σ) := []
  fallback : Option (Handler σ) := none

namespace Dispatch

def on (d : Dispatch σ) (registry : Registry) (kind : String) (handle : Handler σ) :
    Except Fault (Dispatch σ) :=
  match registry.kindId? kind with
  | some id => .ok { d with handlers := (id, handle) :: d.handlers }
  | none => .error (.schema kind Reason.noDispatch)

/-- A node without a handler is passed through. -/
def run (d : Dispatch σ) (n : Node) (state : σ) : VisitAction × σ :=
  match d.handlers.find? (·.1 == n.kind), d.fallback with
  | some (_, handle), _ => handle n state
  | none, some handle => handle n state
  | none, none => (.descend, state)

end Dispatch

/-- How far a traversal has come. -/
structure Walk (σ : Type) where
  seen : List NodeId := []
  visited : Nat := 0
  stopped : Bool := false
  state : σ

/-- A node was handed to its handler. Of value nodes nothing is kept. -/
def Walk.after (w : Walk σ) (id : NodeId) (n : Node) (state : σ) : Walk σ :=
  { w with
    seen := if n.mode = .identity then id :: w.seen else w.seen
    visited := w.visited + 1
    state }

namespace Arena

/-- Takes node after node from a stack, and puts the children of a node on top in its place. -/
def walk (a : Arena) (d : Dispatch σ) : Nat → List NodeId → Walk σ → Except Fault (Walk σ)
  | _, [], w => .ok w
  | 0, id :: _, _ => .error (.schema ((a.kindName? id).getD unknown) Reason.nestedInItself)
  | fuel + 1, id :: stack, w => do
    let n ← a.node id
    if n.mode = .identity ∧ id ∈ w.seen then a.walk d fuel stack w
    else
      let (action, state) := d.run n w.state
      let w := w.after id n state
      match action with
      | .descend => a.walk d fuel (n.children ++ stack) w
      | .skip => a.walk d fuel stack w
      | .stop => .ok { w with stopped := true }

/-- All that the nodes refer to. -/
def references (a : Arena) : List NodeId :=
  a.nodes.toList.flatMap (·.children)

/-- As many turns as a traversal can take. A value node is visited once for each way down to it,
and a way down passes no value node twice. -/
def turns (a : Arena) : Nat :=
  (a.references.length + 1).pow (a.nodes.size + 1)

/-- Handles what `root` refers to, directly or not. -/
def visit (a : Arena) (root : NodeId) (d : Dispatch σ) (state : σ) : Except Fault (Walk σ) :=
  a.walk d a.turns [root] { state := state }

/-- The reads of variables in an expression, in the order of evaluation. -/
def namesRead (a : Arena) (root : NodeId) : Except Fault (List (String × NodeId)) := do
  let d ← ({} : Dispatch (List NodeId)).on a.registry Kind.name
    (fun n found => (.skip, n.id :: found))
  let w ← a.visit root d []
  let named ← w.state.reverse.mapM (fun id => do
    match ← a.expression id with
    | .name name => .ok [(name, id)]
    | _ => .ok [])
  .ok named.flatten

end Arena

end TypedSsa

import Std.Data.HashMap
import Std.Data.HashSet

/-!
Depth-first search. A vertex is entered once and left after everything entered from it, so the
vertices last left first are a reverse postorder. Vertices outside the given list are passed over.
-/

namespace TypedSsa.Digraph

inductive Step (α : Type) where
  | enter (v : α)
  | leave (v : α)

variable {α : Type} [DecidableEq α] [Hashable α]

/-- `seen` and `left` hold the vertices that were entered and left, the last one first; `path` holds
those that are still open, and `back` those that an edge led to while they were open, the last one
first. -/
structure Search (α : Type) [DecidableEq α] [Hashable α] where
  unseen : Std.HashSet α
  seen : List α := []
  path : Std.HashSet α := {}
  left : List α := []
  back : List α := []

/-- Fewer vertices are left once one is taken out. -/
theorem size_erase_lt {s : Std.HashSet α} {v : α} (mem : v ∈ s) : (s.erase v).size < s.size := by
  have pos : s.size ≠ 0 := by
    intro zero
    have empty : s.isEmpty = true := by
      rw [Std.HashSet.isEmpty_eq_size_eq_zero]
      simp [zero]
    exact Std.HashSet.isEmpty_iff_forall_not_mem.mp empty v mem
  rw [Std.HashSet.size_erase, if_pos mem]
  omega

def search (next : α → List α) : List (Step α) → Search α → Search α
  | [], s => s
  | .leave v :: rest, s =>
    search next rest { s with path := s.path.erase v, left := v :: s.left }
  | .enter v :: rest, s =>
    if h : v ∈ s.unseen then
      search next ((next v).map .enter ++ .leave v :: rest)
        { s with unseen := s.unseen.erase v, seen := v :: s.seen, path := s.path.insert v }
    else if v ∈ s.path then search next rest { s with back := v :: s.back }
    else search next rest s
termination_by stack s => (s.unseen.size, stack.length)
decreasing_by
  all_goals first
    | exact Prod.Lex.right _ (by simp)
    | exact Prod.Lex.left _ _ (size_erase_lt h)

/-- The search that enters the roots in their order. -/
def searchFrom (vertices : List α) (next : α → List α) (roots : List α) : Search α :=
  search next (roots.map .enter) { unseen := .ofList vertices }

/-- What the roots reach, in reverse postorder. -/
def reversePostorder (vertices : List α) (next : α → List α) (roots : List α) : List α :=
  (searchFrom vertices next roots).left

/-- The first vertex that the search finds on a cycle. -/
def firstOnCycle? (vertices : List α) (next : α → List α) : Option α :=
  (searchFrom vertices next vertices).back.getLast?

/-- The sources of the edges into each vertex. -/
def sources (vertices : List α) (next : α → List α) : Std.HashMap α (List α) :=
  vertices.foldl (fun m v =>
    (next v).foldl (fun m w => m.insert w (v :: m.getD w [])) m) {}

end TypedSsa.Digraph

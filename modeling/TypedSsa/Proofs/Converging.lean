import Mathlib.Order.Bounds.Defs
import TypedSsa.Proofs.Bordering
import TypedSsa.Proofs.Preceding

/-!
Where ways from some blocks come together. Main statement: `Consistent.iteratedFrontier_least`. The
iterated frontier of the blocks is the least set that has what the blocks border and what it borders
itself. So it has every block where two ways from the blocks meet for the first time: if it did not,
then each way would go through a block that dominates the place where they meet, and of these two
each would dominate the other.
-/

namespace TypedSsa.FlowGraph

variable {g : FlowGraph} {t : DominatorTree} {a b d x y z : BlockId} {before : List BlockId}
  {blocks : List BlockId}

/-- A path from a block, the block it ends at first. -/
abbrev PathFrom (g : FlowGraph) (x : BlockId) (path : List BlockId) : Prop :=
  Digraph.Walk (fun v w => w ∈ g.targets v) x path

/-- Two ways that take an edge at least, to one block, and that have no other block in common. -/
def Converges (g : FlowGraph) (x y z : BlockId) : Prop :=
  ∃ before before', before ≠ [] ∧ before' ≠ [] ∧
    g.PathFrom x (z :: before) ∧ g.PathFrom y (z :: before') ∧
    ∀ b ∈ before, b ∈ before' → b = z

/-- What some blocks border, or those of a set. -/
def bordered (g : FlowGraph) (blocks : List BlockId) (R : Set BlockId) : Set BlockId :=
  {b | ∃ x, (x ∈ blocks ∨ x ∈ R) ∧ g.Borders x b}

/-- What dominates a predecessor of a block that it does not border dominates the block. -/
theorem Dominates.step (h : g.Dominates a x) (consistent : Consistent g) (hedge : b ∈ g.targets x)
    (hnot : ¬g.Borders a b) : a ≠ b ∧ g.Dominates a b := by
  by_contra hstrict
  exact hnot ⟨⟨x, consistent.sources.mpr hedge, h.2.1, h⟩, hstrict⟩

/-- If every way to `b` passes through `a`, then so does every way to a block from which a way leads
to `b` past `a`. -/
theorem Dominates.of_avoiding {later earlier : List BlockId} (h : g.Dominates a b)
    (hd : g.Reachable d) (hwalk : g.PathFrom x (b :: later ++ d :: earlier))
    (havoid : a ∉ b :: later) : g.Dominates a d := by
  refine ⟨h.1, hd, fun before hpath => ?_⟩
  have hmem : a ∈ b :: later ++ d :: before := h.2.2 _ (hwalk.regraft hpath)
  exact (List.mem_append.mp hmem).resolve_left havoid

section
variable {joins : Set BlockId} (consistent : Consistent g) (hx : g.Reachable x)
  (hjoins : ∀ u b, u = x ∨ u ∈ joins → g.Borders u b → b ∈ joins)
include consistent hx hjoins

/-- The last block of a way that is a join, or else the first of all, dominates its end. -/
theorem exists_dominator_on_walk (hwalk : g.PathFrom x (b :: before)) :
    ∃ d ∈ b :: before, (d = x ∨ d ∈ joins) ∧ g.Dominates d b := by
  generalize hpath : b :: before = path at hwalk
  induction hwalk generalizing b before with
  | start =>
    cases hpath
    exact ⟨x, List.mem_cons_self, .inl rfl, hx, hx, fun _ _ => List.mem_cons_self⟩
  | @step v w earlier hwalk hedge ih =>
    cases hpath
    obtain ⟨d, hd, hfrom, hdom⟩ := ih rfl
    by_cases hw : w ∈ joins
    · have hreach := hdom.2.1.tail hedge
      exact ⟨w, List.mem_cons_self, .inr hw, hreach, hreach, fun _ _ => List.mem_cons_self⟩
    · have hnot : ¬g.Borders d w := fun hborders => hw (hjoins d w hfrom hborders)
      exact ⟨d, List.mem_cons_of_mem w hd, hfrom, (hdom.step consistent hedge hnot).2⟩

/-- On the way to a block that is no join something dominates it strictly. -/
theorem exists_strict_dominator_on_walk (hwalk : g.PathFrom x (z :: before))
    (hne : before ≠ []) (hz : z ∉ joins) : ∃ d ∈ before, d ≠ z ∧ g.Dominates d z := by
  cases hwalk with
  | start => exact absurd rfl hne
  | step hwalk hedge =>
    obtain ⟨d, hd, hfrom, hdom⟩ := exists_dominator_on_walk consistent hx hjoins hwalk
    exact ⟨d, hd, hdom.step consistent hedge (fun hborders => hz (hjoins d z hfrom hborders))⟩

end

/-- Of two ways with no block in common but the last, what is on one of them and dominates the last
dominates what is on the other. -/
theorem Dominates.across {path path' : List BlockId} (hwalk : g.PathFrom x (z :: path))
    (hd : d ∈ path) (hreach : g.Reachable d) (ha : a ∈ path') (hne : a ≠ z)
    (h : g.Dominates a z) (hapart : ∀ b ∈ path, b ∈ path' → b = z) : g.Dominates a d := by
  obtain ⟨later, earlier, rfl⟩ := List.append_of_mem hd
  refine h.of_avoiding hreach hwalk ?_
  rw [List.mem_cons, not_or]
  exact ⟨hne, fun hlater => hne (hapart a (List.mem_append_left _ hlater) ha)⟩

namespace Exact

/-- Where two ways come together there is a join. -/
theorem mem_of_converges (h : g.Exact t) (consistent : Consistent g) {joins : Set BlockId}
    (hjoins : g.bordered blocks joins ⊆ joins) (hx : x ∈ blocks) (hy : y ∈ blocks)
    (hreach : g.Reachable x) (hreach' : g.Reachable y) (hconverges : g.Converges x y z) :
    z ∈ joins := by
  obtain ⟨path, path', hne, hne', hwalk, hwalk', hapart⟩ := hconverges
  have closed : ∀ w ∈ blocks, ∀ u b, u = w ∨ u ∈ joins → g.Borders u b → b ∈ joins := by
    rintro w hw u b (rfl | hu) hborders
    · exact hjoins ⟨u, .inl hw, hborders⟩
    · exact hjoins ⟨u, .inr hu, hborders⟩
  by_contra hz
  obtain ⟨d, hd, hdz, hdom⟩ :=
    exists_strict_dominator_on_walk consistent hreach (closed x hx) hwalk hne hz
  obtain ⟨d', hd', hdz', hdom'⟩ :=
    exists_strict_dominator_on_walk consistent hreach' (closed y hy) hwalk' hne' hz
  have hup : g.Dominates d' d := Dominates.across hwalk hd hdom.1 hd' hdz' hdom' hapart
  have hdown : g.Dominates d d' :=
    Dominates.across hwalk' hd' hdom'.1 hd hdz hdom (fun b hb hb' => hapart b hb' hb)
  obtain rfl := h.dominates_antisymm hup hdown
  exact hdz (hapart d' hd hd')

theorem iterates_iff (h : g.Exact t) {j : Nat} : t.Iterates blocks j ↔
    ∃ x, t.order[j]? = some x ∧ (x ∈ blocks ∨ x ∈ t.iteratedFrontier blocks) := by
  constructor
  · intro hj
    cases hj with
    | seed hj =>
      obtain ⟨x, hx, hpos⟩ := List.mem_filterMap.mp hj
      exact ⟨x, h.position?_eq.mp hpos, .inl hx⟩
    | @join _ i hi hj hlt =>
      have hat := Array.getElem?_eq_getElem hlt
      exact ⟨_, hat, .inr (DominatorTree.mem_iteratedFrontier.mpr ⟨j, hat, i, hi, hj⟩)⟩
  · rintro ⟨x, hj, hx | hx⟩
    · exact DominatorTree.iterates_of_mem hx (h.position?_eq.mpr hj)
    · obtain ⟨k, hk, i, hi, hfrontier⟩ := DominatorTree.mem_iteratedFrontier.mp hx
      obtain rfl : k = j := h.position_unique hk hj
      exact .join hi hfrontier (Array.getElem?_eq_some_iff.mp hk).1

/-- An iterated frontier has the frontiers of the blocks that it is taken of, and its own. -/
theorem mem_iteratedFrontier_iff (h : g.Exact t) : b ∈ t.iteratedFrontier blocks ↔
    ∃ x, (x ∈ blocks ∨ x ∈ t.iteratedFrontier blocks) ∧ b ∈ t.frontier x := by
  rw [DominatorTree.mem_iteratedFrontier]
  constructor
  · rintro ⟨k, hk, j, hj, hfrontier⟩
    obtain ⟨x, hx, hfrom⟩ := h.iterates_iff.mp hj
    exact ⟨x, hfrom, (DominatorTree.mem_frontier (h.position?_eq.mpr hx)).mpr ⟨k, hk, hfrontier⟩⟩
  · rintro ⟨x, hfrom, hb⟩
    cases hpos : t.position? x with
    | none =>
      rw [DominatorTree.frontier, hpos] at hb
      cases hb
    | some j =>
      obtain ⟨k, hk, hfrontier⟩ := (DominatorTree.mem_frontier hpos).mp hb
      exact ⟨k, hk, j, h.iterates_iff.mpr ⟨x, h.position?_eq.mp hpos, hfrom⟩, hfrontier⟩

theorem iteratedFrontier_sublist (h : g.Exact t) (blocks : List BlockId) :
    (t.iteratedFrontier blocks).Sublist g.reversePostorder := by
  rw [← h.order, ← DominatorTree.blocksAt_range]
  exact List.filter_sublist.filterMap _

/-- Turn by turn no more is found than has to be in a set with what it borders. -/
theorem iteratedFrontier_subset (h : g.Exact t) {R : Set BlockId}
    (hborders : ∀ x b, b ∈ t.frontier x ↔ g.Borders x b) (hR : g.bordered blocks R ⊆ R) :
    ∀ b ∈ t.iteratedFrontier blocks, b ∈ R := by
  have turned : ∀ j, t.Iterates blocks j → ∀ x, t.order[j]? = some x → x ∈ blocks ∨ x ∈ R := by
    intro j hj
    induction hj with
    | seed hj =>
      intro x hx
      obtain ⟨y, hy, hpos⟩ := List.mem_filterMap.mp hj
      obtain rfl := Option.some.inj ((h.position?_eq.mp hpos).symm.trans hx)
      exact .inl hy
    | @join k j hj hk _ ih =>
      intro x hx
      obtain ⟨y, hy, -⟩ := h.iterates_iff.mp hj
      have hmem := (DominatorTree.mem_frontier (h.position?_eq.mpr hy)).mpr ⟨k, hx, hk⟩
      exact .inr (hR ⟨y, ih y hy, (hborders y x).mp hmem⟩)
  intro b hb
  obtain ⟨k, hk, j, hj, hfrontier⟩ := DominatorTree.mem_iteratedFrontier.mp hb
  obtain ⟨x, hx, -⟩ := h.iterates_iff.mp hj
  have hmem := (DominatorTree.mem_frontier (h.position?_eq.mpr hx)).mpr ⟨k, hk, hfrontier⟩
  exact hR ⟨x, turned j hj x hx, (hborders x b).mp hmem⟩

end Exact

/-- Where no way leads back to the entry, the iterated frontier of any blocks lists in reverse
postorder the least set that has just what they and itself border. It has every block at which ways
from two of them come together. -/
theorem Consistent.iteratedFrontier_least (h : Consistent g)
    (hentry : ∀ p ∈ g.predecessors g.entry, ¬g.Reachable p) :
    ∃ t, g.buildDominance = .ok t ∧ ∀ blocks,
      (t.iteratedFrontier blocks).Nodup ∧
      (t.iteratedFrontier blocks).Sublist g.reversePostorder ∧
      IsLeast {R | R = g.bordered blocks R} {b | b ∈ t.iteratedFrontier blocks} ∧
      ∀ x ∈ blocks, ∀ y ∈ blocks, g.Reachable x → g.Reachable y →
        ∀ z, g.Converges x y z → z ∈ t.iteratedFrontier blocks := by
  obtain ⟨t, heq, -, exact⟩ := h.buildDominance
  have hborders : ∀ x b, b ∈ t.frontier x ↔ g.Borders x b :=
    fun x b => exact.mem_frontier_of_entry h hentry
  refine ⟨t, heq, fun blocks => ?_⟩
  have hsub := exact.iteratedFrontier_sublist blocks
  have hfixed : {b | b ∈ t.iteratedFrontier blocks} =
      g.bordered blocks {b | b ∈ t.iteratedFrontier blocks} := by
    ext b
    exact exact.mem_iteratedFrontier_iff.trans
      (exists_congr (fun x => and_congr_right (fun _ => hborders x b)))
  refine ⟨hsub.nodup (exact.order ▸ exact.inOrder.nodup), hsub, ⟨hfixed, ?_⟩, ?_⟩
  · exact fun R hR => exact.iteratedFrontier_subset hborders hR.symm.subset
  · exact fun x hx y hy hreach hreach' z hz =>
      exact.mem_of_converges h hfixed.symm.subset hx hy hreach hreach' hz

/-- One way goes past the block that the other begins at. -/
theorem iteratedFrontier_least_forked :
    Consistent forked ∧ (∀ p ∈ forked.predecessors forked.entry, ¬forked.Reachable p) ∧
      ∃ t, forked.buildDominance = .ok t ∧ ⟨3⟩ ∈ t.iteratedFrontier [⟨0⟩, ⟨1⟩] := by
  have hentry : ∀ p ∈ forked.predecessors forked.entry, ¬forked.Reachable p := by
    intro p hp
    cases hp
  obtain ⟨t, heq, hleast⟩ := consistent_forked.iteratedFrontier_least hentry
  obtain ⟨-, -, -, hmeet⟩ := hleast [⟨0⟩, ⟨1⟩]
  have past : forked.PathFrom ⟨0⟩ [⟨3⟩, ⟨2⟩, ⟨0⟩] :=
    (Digraph.Walk.start.step (by decide)).step (by decide)
  have straight : forked.PathFrom ⟨1⟩ [⟨3⟩, ⟨1⟩] := Digraph.Walk.start.step (by decide)
  have one : forked.Reachable ⟨1⟩ := .tail .refl (by decide)
  refine ⟨consistent_forked, hentry, t, heq, ?_⟩
  exact hmeet ⟨0⟩ (by simp) ⟨1⟩ (by simp) .refl one ⟨3⟩
    ⟨_, _, by simp, by simp, past, straight, by decide⟩

end TypedSsa.FlowGraph

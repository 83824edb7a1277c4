import TypedSsa.Proofs.Frontiers

/-!
What a dominance frontier is. Main statement: `Produced.frontier_borders`. The frontier of a block
has the blocks that border what it dominates, save that it has the entry only as the walks towards
the entry find it: so frontiers are what they are defined to be just if no edge leads to the entry.
-/

namespace TypedSsa
open Digraph

theorem exists_ne_of_two_le_length {α : Type} {xs : List α} (h : xs.Nodup)
    (hlong : 2 ≤ xs.length) : ∃ x ∈ xs, ∃ y ∈ xs, x ≠ y := by
  match xs, h with
  | x :: y :: rest, h =>
    refine ⟨x, by simp, y, by simp, ?_⟩
    rintro rfl
    simp at h

namespace DominatorTree

variable {t : DominatorTree} {b x : BlockId} {i : Nat}

/-- A frontier keeps the order of the positions. -/
theorem frontiersOf_sublist (predecessors : Array (List Nat)) (parents : Array Nat) (i : Nat) :
    ((frontiersOf predecessors parents).getD i []).Sublist (List.range parents.size) := by
  by_cases hi : i < parents.size
  · have hjoins : ∀ joins : List Nat, (joins.map (fun b =>
        (b, belowParent predecessors parents b))).map (·.1) = joins := by
      intro joins
      simp [Function.comp_def]
    simp only [frontiersOf, Array.getD_eq_getD_getElem?, Array.getElem?_map, Array.getElem?_range,
      hi, if_true, Option.map_some, Option.getD_some]
    refine (List.filter_sublist.map _).trans ?_
    rw [hjoins]
    exact List.filter_sublist
  · simp [frontiersOf, hi]

theorem blocksAt_range : t.blocksAt (List.range t.order.size) = t.order.toList := by
  have total : ∀ k ∈ List.range t.order.size, (t.order[k]?).isSome = true := by
    intro k hk
    simpa using List.mem_range.mp hk
  refine List.ext_getElem? (fun k => ?_)
  have hk : t.order.toList[k]? = t.order[k]? := Array.getElem?_toList
  rw [blocksAt, getElem?_filterMap total, hk]
  by_cases hlt : k < t.order.size
  · rw [List.getElem?_range hlt, Option.bind_some]
  · rw [List.getElem?_eq_none (by simpa using hlt), Option.bind_none,
      Array.getElem?_eq_none (by omega)]

theorem mem_frontier (hi : t.position? x = some i) :
    b ∈ t.frontier x ↔ ∃ k, t.order[k]? = some b ∧ k ∈ t.frontierAt i := by
  rw [frontier, hi, Option.map_some, Option.getD_some, blocksAt, List.mem_filterMap]
  simp only [and_comm]

end DominatorTree

namespace FlowGraph

variable {g : FlowGraph} {t : DominatorTree} {b c d p x y : BlockId}

/-- `x` dominates a predecessor of `b`, yet not `b` strictly. -/
def Borders (g : FlowGraph) (x b : BlockId) : Prop :=
  (∃ p ∈ g.predecessors b, g.Reachable p ∧ g.Dominates x p) ∧ ¬(x ≠ b ∧ g.Dominates x b)

/-- Ways from the entry come to `b` from two blocks. -/
def Meeting (g : FlowGraph) (b : BlockId) : Prop :=
  ∃ p ∈ g.predecessors b, g.Reachable p ∧ ∃ q ∈ g.predecessors b, g.Reachable q ∧ p ≠ q

theorem entry_dominates (hb : g.Reachable b) : g.Dominates g.entry b :=
  ⟨.refl, hb, fun _ hpath => hpath.root_mem⟩

/-- What strictly dominates a block dominates each predecessor that the entry leads to. -/
theorem Dominates.predecessor (h : g.Dominates d c) (hne : d ≠ c) (hp : g.Reachable p)
    (hedge : c ∈ g.targets p) : g.Dominates d p :=
  ⟨h.1, hp, fun _ hpath =>
    (List.mem_cons.mp (h.2.2 _ (Walk.step hpath hedge))).resolve_left hne⟩

theorem Borders.reachable (consistent : Consistent g) (h : g.Borders x b) : g.Reachable b := by
  obtain ⟨⟨p, hp, hreach, -⟩, -⟩ := h
  exact hreach.tail (consistent.sources.mp hp)

open DominatorTree (parentAt)

namespace Exact

variable {i k : Nat}

theorem into_iff (h : g.Exact t) (consistent : Consistent g) (hk : t.order[k]? = some c) :
    DominatorTree.Into (g.positions t.order.toList) i k ↔
      ∃ p, t.order[i]? = some p ∧ c ∈ g.targets p := by
  rw [h.inOrder.into_iff consistent]
  simp [hk]

theorem joins_of_meeting (h : g.Exact t) (consistent : Consistent g) (hk : t.order[k]? = some c)
    (hmeeting : g.Meeting c) : 2 ≤ ((g.positions t.order.toList).getD k []).length := by
  obtain ⟨p, hp, hreach, q, hq, hreach', hne⟩ := hmeeting
  obtain ⟨i, hi⟩ := h.exists_position.mpr hreach
  obtain ⟨j, hj⟩ := h.exists_position.mpr hreach'
  have hik := (h.into_iff consistent hk).mpr ⟨p, hi, consistent.sources.mp hp⟩
  have hjk := (h.into_iff consistent hk).mpr ⟨q, hj, consistent.sources.mp hq⟩
  by_contra hshort
  rw [eq_of_length_lt_two (by omega) hik hjk] at hi
  exact hne (Option.some.inj (hi.symm.trans hj))

theorem meeting_iff (h : g.Exact t) (linked : Linked g) (hk : t.order[k]? = some c) :
    2 ≤ ((g.positions t.order.toList).getD k []).length ↔ g.Meeting c := by
  refine ⟨fun hlong => ?_, h.joins_of_meeting linked.consistent hk⟩
  have hnodup : ((g.positions t.order.toList).getD k []).Nodup := by
    simp only [positions, Array.getD_eq_getD_getElem?, Array.getElem?_map, hk, Option.map_some,
      Option.getD_some]
    refine (linked.once c).filterMap (fun p q j hp hq => ?_)
    rw [Option.mem_def, DominatorTree.getElem?_numbered h.inOrder.nodup] at hp hq
    exact Option.some.inj (hp.symm.trans hq)
  have into := fun i => h.into_iff (i := i) linked.consistent hk
  simp only [DominatorTree.Into] at into
  obtain ⟨i, hi, j, hj, hne⟩ := exists_ne_of_two_le_length hnodup hlong
  obtain ⟨p, hp, hedge⟩ := (into i).mp hi
  obtain ⟨q, hq, hedge'⟩ := (into j).mp hj
  refine ⟨p, linked.sources.mpr hedge, h.exists_position.mp ⟨i, hp⟩, q,
    linked.sources.mpr hedge', h.exists_position.mp ⟨j, hq⟩, ?_⟩
  rintro rfl
  exact hne (h.position_unique hp hq)

/-- A join is in the frontier of what dominates a predecessor of it, yet not the block that the
walk up from there ends at. -/
theorem mem_frontier_iff (h : g.Exact t) (consistent : Consistent g) (hx : g.Reachable x)
    (hk : t.order[k]? = some c) (hd : t.order[parentAt t.parents k]? = some d)
    (hup : ∀ p, g.Reachable p → c ∈ g.targets p → g.Dominates d p) :
    c ∈ t.frontier x ↔ 2 ≤ ((g.positions t.order.toList).getD k []).length ∧
      ∃ p ∈ g.predecessors c, g.Reachable p ∧ g.Dominates x p ∧ ¬g.Dominates x d := by
  obtain ⟨i, hi⟩ := h.exists_position.mpr hx
  have climbs : ∀ {p j}, t.order[j]? = some p → c ∈ g.targets p →
      (i ∈ DominatorTree.climbBelow t.parents j (parentAt t.parents k) ↔
        g.Dominates x p ∧ ¬g.Dominates x d) := by
    intro p j hj hedge
    have hdp := hup p (h.exists_position.mp ⟨j, hj⟩) hedge
    rw [DominatorTree.mem_climbBelow h.tree (h.lt_size hj) ((h.above_iff hd hj).mpr hdp),
      h.above_iff hi hj, h.above_iff hi hd]
  have hpos : c ∈ t.frontier x ↔ k ∈ t.frontierAt i := by
    rw [DominatorTree.mem_frontier (h.position?_eq.mpr hi)]
    constructor
    · rintro ⟨k', hk', hmem⟩
      obtain rfl : k' = k := h.position_unique hk' hk
      exact hmem
    · exact fun hmem => ⟨k, hk, hmem⟩
  rw [hpos, DominatorTree.frontierAt, h.frontiers, DominatorTree.mem_frontiersOf (h.lt_size hi)]
  constructor
  · rintro ⟨-, hjoins, j, hj, hclimb⟩
    obtain ⟨p, hp, hedge⟩ := (h.into_iff consistent hk).mp hj
    exact ⟨hjoins, p, consistent.sources.mpr hedge, h.exists_position.mp ⟨j, hp⟩,
      (climbs hp hedge).mp hclimb⟩
  · rintro ⟨hjoins, p, hp, hreach, hdom⟩
    have hedge := consistent.sources.mp hp
    obtain ⟨j, hj⟩ := h.exists_position.mpr hreach
    exact ⟨h.lt_size hk, hjoins, j, (h.into_iff consistent hk).mpr ⟨p, hj, hedge⟩,
      (climbs hj hedge).mpr hdom⟩

/-- A block that is no join has its predecessor as its immediate dominator, and borders nothing. -/
theorem meeting_of_borders (h : g.Exact t) (consistent : Consistent g) (hne : b ≠ g.entry)
    (hborders : g.Borders x b) : g.Meeting b := by
  obtain ⟨⟨p, hp, hreach, hxp⟩, hnot⟩ := hborders
  have hedge := consistent.sources.mp hp
  by_contra hmeeting
  have heq := h.single_predecessor hreach hedge hne (fun q hq hedge' => by
    by_contra hdiff
    exact hmeeting ⟨q, consistent.sources.mpr hedge', hq, p, hp, hreach, hdiff⟩)
  obtain ⟨d, heq', hdom, hdne, -⟩ := h.immediateDominator?_some (hreach.tail hedge) hne
  obtain rfl : d = p := Option.some.inj (heq'.symm.trans heq)
  refine hnot ⟨?_, hxp.trans hdom⟩
  rintro rfl
  exact hdne (h.dominates_antisymm hdom hxp)

/-- Below the entry, the walks from the predecessors of a join up to its immediate dominator meet
just the blocks that it borders. -/
theorem mem_frontier_inner (h : g.Exact t) (consistent : Consistent g) (hx : g.Reachable x)
    (hb : g.Reachable b) (hne : b ≠ g.entry) : b ∈ t.frontier x ↔ g.Borders x b := by
  obtain ⟨k, hk⟩ := h.exists_position.mpr hb
  obtain ⟨-, d, hd, heq⟩ := h.immediateDominator?_eq hk hne
  obtain ⟨d', heq', hdom, hdne, hleast⟩ := h.immediateDominator?_some hb hne
  obtain rfl : d' = d := Option.some.inj (heq'.symm.trans heq)
  have hstrict : g.Dominates x d' ↔ x ≠ b ∧ g.Dominates x b := by
    constructor
    · intro hxd
      refine ⟨?_, hxd.trans hdom⟩
      rintro rfl
      exact hdne (h.dominates_antisymm hdom hxd)
    · rintro ⟨hxb, hxdom⟩
      exact hleast x hxdom hxb
  rw [h.mem_frontier_iff consistent hx hk hd (fun p hp hedge => hdom.predecessor hdne hp hedge),
    hstrict]
  constructor
  · rintro ⟨-, p, hp, hreach, hxp, hnot⟩
    exact ⟨⟨p, hp, hreach, hxp⟩, hnot⟩
  · intro hborders
    obtain ⟨⟨p, hp, hreach, hxp⟩, hnot⟩ := id hborders
    have hmeeting := h.meeting_of_borders consistent hne hborders
    exact ⟨h.joins_of_meeting consistent hk hmeeting, p, hp, hreach, hxp, hnot⟩

/-- The walks up to the entry end before it, whose parent it is. -/
theorem mem_frontier_entry (h : g.Exact t) (consistent : Consistent g) (hx : g.Reachable x) :
    g.entry ∈ t.frontier x ↔ g.Borders x g.entry ∧ x ≠ g.entry ∧
      2 ≤ ((g.positions t.order.toList).getD 0 []).length := by
  rw [h.mem_frontier_iff consistent hx h.first (by rw [h.root]; exact h.first)
    (fun p hp _ => entry_dominates hp)]
  have hstrict : g.Dominates x g.entry ↔ x = g.entry := by
    refine ⟨fun hdom => h.dominates_antisymm hdom (entry_dominates hx), ?_⟩
    rintro rfl
    exact entry_dominates hx
  rw [Borders, hstrict]
  constructor
  · rintro ⟨hjoins, p, hp, hreach, hxp, hnot⟩
    exact ⟨⟨⟨p, hp, hreach, hxp⟩, fun hback => hback.1 hback.2⟩, hnot, hjoins⟩
  · rintro ⟨⟨⟨p, hp, hreach, hxp⟩, -⟩, hnot, hjoins⟩
    exact ⟨hjoins, p, hp, hreach, hxp, hnot⟩

theorem frontier_sublist (h : g.Exact t) (x : BlockId) :
    (t.frontier x).Sublist g.reversePostorder := by
  rw [← h.order, ← DominatorTree.blocksAt_range, DominatorTree.frontier]
  cases t.position? x with
  | none => exact List.nil_sublist _
  | some i =>
    rw [Option.map_some, Option.getD_some, DominatorTree.frontierAt, h.frontiers, ← h.size]
    exact (DominatorTree.frontiersOf_sublist _ _ i).filterMap _

/-- A frontier has what borders the block, but the entry only as the walks up to it find it. -/
theorem mem_frontier_iff_joins (h : g.Exact t) (consistent : Consistent g) :
    b ∈ t.frontier x ↔ g.Borders x b ∧ (b = g.entry →
      x ≠ g.entry ∧ 2 ≤ ((g.positions t.order.toList).getD 0 []).length) := by
  by_cases hx : g.Reachable x
  · by_cases hne : b = g.entry
    · rw [hne, h.mem_frontier_entry consistent hx]
      simp
    · simp only [hne, false_implies, and_true]
      by_cases hb : g.Reachable b
      · exact h.mem_frontier_inner consistent hx hb hne
      · refine iff_of_false (fun hmem => hb ?_) fun hborders => hb (hborders.reachable consistent)
        exact (h.inOrder.mem_iff b).mp (h.order ▸ (h.frontier_sublist x).subset hmem)
  · refine iff_of_false (fun hmem => ?_) (fun hborders => hx ?_)
    · rw [DominatorTree.frontier, h.position?_none.mpr hx] at hmem
      cases hmem
    · obtain ⟨⟨⟨p, -, -, hdom⟩, -⟩, -⟩ := hborders
      exact hdom.1

/-- Where the entry leads to nothing that leads back to it, frontiers are what they are defined to
be. -/
theorem mem_frontier_of_entry (h : g.Exact t) (consistent : Consistent g)
    (hentry : ∀ p ∈ g.predecessors g.entry, ¬g.Reachable p) : b ∈ t.frontier x ↔ g.Borders x b := by
  rw [h.mem_frontier_iff_joins consistent, and_iff_left_iff_imp]
  rintro ⟨⟨p, hp, hreach, -⟩, -⟩ rfl
  exact absurd hreach (hentry p hp)

theorem mem_frontier_iff_borders (h : g.Exact t) (linked : Linked g) :
    b ∈ t.frontier x ↔ g.Borders x b ∧ (b = g.entry → x ≠ g.entry ∧ g.Meeting g.entry) := by
  rw [h.mem_frontier_iff_joins linked.consistent, h.meeting_iff linked h.first]

end Exact

/-- Whatever graph was made, the frontier of a block lists in reverse postorder what borders it,
the entry only for another block and where two blocks lead back to the entry. So frontiers are what
they are defined to be just if nothing that the entry leads to leads back to it. -/
theorem Produced.frontier_borders (h : Produced g) :
    ∃ t, g.buildDominance = .ok t ∧
      (∀ x, (t.frontier x).Nodup ∧ (t.frontier x).Sublist g.reversePostorder) ∧
      (∀ x b, b ∈ t.frontier x ↔
        g.Borders x b ∧ (b = g.entry → x ≠ g.entry ∧ g.Meeting g.entry)) ∧
      ((∀ x, g.Reachable x → ∀ b, b ∈ t.frontier x ↔ g.Borders x b) ↔
        ∀ p ∈ g.predecessors g.entry, ¬g.Reachable p) := by
  obtain ⟨t, heq, -, exact⟩ := h.linked.consistent.buildDominance
  have hmem := fun x b => exact.mem_frontier_iff_borders (x := x) (b := b) h.linked
  have hsub := exact.frontier_sublist
  refine ⟨t, heq, fun x => ⟨?_, hsub x⟩, hmem, ?_, ?_⟩
  · exact (hsub x).nodup (exact.order ▸ exact.inOrder.nodup)
  · intro hborders p hp hreach
    have hback : g.Borders g.entry g.entry :=
      ⟨⟨p, hp, hreach, entry_dominates hreach⟩, fun hback => hback.1 rfl⟩
    have hin := (hborders g.entry .refl g.entry).mpr hback
    exact (((hmem _ _).mp hin).2 rfl).1 rfl
  · exact fun hnone x _ b => exact.mem_frontier_of_entry h.linked.consistent hnone

/-- Of the two that lead to each other one is in the frontier of the other. The entry, which it
leads back to alone, borders it and is not. -/
theorem frontier_borders_crossed : Produced crossed ∧ ∃ t, crossed.buildDominance = .ok t ∧
    ⟨1⟩ ∈ t.frontier ⟨2⟩ ∧ crossed.Borders ⟨2⟩ ⟨0⟩ ∧ ⟨0⟩ ∉ t.frontier ⟨2⟩ := by
  obtain ⟨t, heq, -, hmem, -⟩ := produced_crossed.frontier_borders
  have one : crossed.Path [⟨1⟩, ⟨0⟩] := Walk.start.step (by decide)
  have two : crossed.Path [⟨2⟩, ⟨0⟩] := Walk.start.step (by decide)
  have hself : crossed.Dominates ⟨2⟩ ⟨2⟩ :=
    ⟨two.reaches, two.reaches, fun _ _ => List.mem_cons_self⟩
  have hone : crossed.Borders ⟨2⟩ ⟨1⟩ := by
    refine ⟨⟨⟨2⟩, by decide, two.reaches, hself⟩, fun hdom => ?_⟩
    exact absurd (hdom.2.2.2 _ one) (by decide)
  have hzero : crossed.Borders ⟨2⟩ ⟨0⟩ := by
    refine ⟨⟨⟨2⟩, by decide, two.reaches, hself⟩, fun hdom => ?_⟩
    exact absurd (hdom.2.2.2 _ .start) (by decide)
  refine ⟨produced_crossed, t, heq, (hmem _ _).mpr ⟨hone, fun he => ?_⟩, hzero, fun hin => ?_⟩
  · exact absurd he (by decide)
  · obtain ⟨-, p, hp, -, q, hq, -, hne⟩ := ((hmem _ _).mp hin).2 rfl
    have hsingle : crossed.predecessors crossed.entry = [⟨2⟩] := by decide
    rw [hsingle, List.mem_singleton] at hp hq
    exact hne (hp.trans hq.symm)

end FlowGraph

end TypedSsa

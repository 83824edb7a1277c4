import Mathlib.Data.List.TakeWhile
import TypedSsa.Proofs.Dominance

/-!
Iterated dominance frontiers. Main statement: `Exact.not_between`. If a block is not in the
iterated frontier of some others, then none of these, and no block in their frontier, lies between
its immediate dominator and a predecessor of it.
-/

namespace TypedSsa
open Digraph

theorem mem_takeWhile_ne {R : Nat → Nat → Prop} {xs : List Nat} (h : xs.Pairwise R) {stop y : Nat}
    (hy : y ∈ xs) (hbefore : ¬R stop y) (hne : y ≠ stop) : y ∈ xs.takeWhile (· != stop) := by
  induction xs with
  | nil => cases hy
  | cons x xs ih =>
    obtain ⟨hx, htail⟩ := List.pairwise_cons.mp h
    have hstop : x ≠ stop := by
      rintro rfl
      exact hbefore (hx y (List.mem_of_ne_of_mem hne hy))
    rw [List.takeWhile_cons_of_pos (by simpa using hstop)]
    rcases List.mem_cons.mp hy with rfl | hy
    · exact List.mem_cons_self
    · exact List.mem_cons_of_mem x (ih htail hy)

theorem rel_of_mem_takeWhile_ne {R : Nat → Nat → Prop} {xs : List Nat} (h : xs.Pairwise R)
    {stop y : Nat} (hstop : stop ∈ xs) (hy : y ∈ xs.takeWhile (· != stop)) : R y stop := by
  rw [← List.takeWhile_append_dropWhile (p := (· != stop)) (l := xs)] at h hstop
  refine (List.pairwise_append.mp h).2.2 y hy stop ((List.mem_append.mp hstop).resolve_left ?_)
  intro hmem
  simpa using List.mem_takeWhile_imp hmem

theorem eq_of_length_lt_two {α : Type} {xs : List α} {x y : α} (h : xs.length < 2) (hx : x ∈ xs)
    (hy : y ∈ xs) : x = y := by
  match xs, h with
  | [z], _ => rw [List.mem_singleton.mp hx, List.mem_singleton.mp hy]

namespace DominatorTree

/-! What is found turn by turn. -/

/-- The positions that come to have a turn: the given ones, and those in the frontier of others. -/
inductive Spreads (frontier : Nat → List Nat) (size : Nat) (seeds : List Nat) : Nat → Prop
  | seed {i : Nat} : i ∈ seeds → Spreads frontier size seeds i
  | join {i j : Nat} : Spreads frontier size seeds j → i ∈ frontier j → i < size →
      Spreads frontier size seeds i

namespace Spread

/-- What it comes to when the joins of one frontier are found one after the other. -/
structure Finds (ks : List Nat) (s s' : Spread) : Prop where
  mem_joins : ∀ k, k ∈ s'.joins ↔ k ∈ s.joins ∨ k ∈ ks
  fresh : ∀ k ∈ s'.fresh, k ∈ s.fresh ∧ k ∉ ks
  kept : ∀ k ∈ s.waiting, k ∈ s'.waiting
  queued : ∀ k ∈ s.fresh, k ∉ s'.fresh → k ∈ s'.waiting
  found : ∀ k ∈ s'.waiting, k ∈ s.waiting ∨ (k ∈ ks ∧ k ∈ s.fresh)

variable {frontier : Nat → List Nat} {size : Nat} {seeds ks : List Nat} {s s' : Spread}

theorem Finds.apart (h : Finds ks s s') (hs : ∀ k ∈ s.joins, k ∉ s.fresh) :
    ∀ k ∈ s'.joins, k ∉ s'.fresh := by
  intro k hk hfresh
  obtain ⟨hold, hnew⟩ := h.fresh k hfresh
  exact ((h.mem_joins k).mp hk).elim (fun hjoin => hs k hjoin hold) hnew

theorem finds_one (hs : ∀ k ∈ s.joins, k ∉ s.fresh) (k : Nat) : Finds [k] s (s.find k) := by
  unfold find
  split
  · rename_i hjoin
    refine ⟨fun i => ?_, fun i hi => ⟨hi, ?_⟩, fun _ hi => hi, fun _ hi hnot => absurd hi hnot,
      fun _ hi => .inl hi⟩
    · rw [List.mem_singleton, iff_self_or]
      rintro rfl
      exact hjoin
    · rw [List.mem_singleton]
      rintro rfl
      exact hs i hjoin hi
  · split
    · rename_i hfresh
      refine ⟨fun i => ?_, fun i hi => ?_, fun _ hi => List.mem_cons_of_mem k hi,
        fun i hi hnot => ?_, fun i hi => ?_⟩
      · rw [Std.HashSet.mem_insert, beq_iff_eq, List.mem_singleton]
        exact ⟨fun hi => hi.symm.imp_right Eq.symm, fun hi => hi.symm.imp_left Eq.symm⟩
      · simp only [Std.HashSet.mem_erase, beq_eq_false_iff_ne] at hi
        exact ⟨hi.2, by simpa using hi.1.symm⟩
      · simp only [Std.HashSet.mem_erase, beq_eq_false_iff_ne] at hnot
        by_contra hwait
        rw [List.mem_cons, not_or] at hwait
        exact hnot ⟨Ne.symm hwait.1, hi⟩
      · rcases List.mem_cons.mp hi with rfl | hi
        · exact .inr ⟨List.mem_singleton_self _, hfresh⟩
        · exact .inl hi
    · rename_i hfresh
      refine ⟨fun i => ?_, fun i hi => ⟨hi, ?_⟩, fun _ hi => hi, fun _ hi hnot => absurd hi hnot,
        fun _ hi => .inl hi⟩
      · rw [Std.HashSet.mem_insert, beq_iff_eq, List.mem_singleton]
        exact ⟨fun hi => hi.symm.imp_right Eq.symm, fun hi => hi.symm.imp_left Eq.symm⟩
      · rw [List.mem_singleton]
        rintro rfl
        exact hfresh hi

theorem finds (hs : ∀ k ∈ s.joins, k ∉ s.fresh) (ks : List Nat) :
    Finds ks s (ks.foldl find s) := by
  induction ks generalizing s with
  | nil => exact ⟨by simp, by simp, fun _ hi => hi, fun _ hi hnot => absurd hi hnot,
      fun _ hi => .inl hi⟩
  | cons k ks ih =>
    have first := finds_one hs k
    have rest := ih (first.apart hs)
    rw [List.foldl_cons]
    refine ⟨fun i => ?_, fun i hi => ?_, fun i hi => rest.kept i (first.kept i hi),
      fun i hi hnot => ?_, fun i hi => ?_⟩
    · rw [rest.mem_joins, first.mem_joins, List.mem_singleton, List.mem_cons, or_assoc]
    · obtain ⟨hmid, hks⟩ := rest.fresh i hi
      obtain ⟨hold, hk⟩ := first.fresh i hmid
      exact ⟨hold, by simpa using ⟨by simpa using hk, hks⟩⟩
    · by_cases hmid : i ∈ (s.find k).fresh
      · exact rest.queued i hmid hnot
      · exact rest.kept i (first.queued i hi hmid)
    · rcases rest.found i hi with hi | ⟨hks, hmid⟩
      · refine (first.found i hi).imp_right (fun ⟨hk, hold⟩ => ⟨?_, hold⟩)
        rw [List.mem_singleton.mp hk]
        exact List.mem_cons_self
      · exact .inr ⟨List.mem_cons_of_mem k hks, (first.fresh i hmid).1⟩

/-- What holds while turns are taken. A position that is not fresh waits, or all of its frontier is
found. -/
structure Going (frontier : Nat → List Nat) (size : Nat) (seeds : List Nat) (s : Spread) :
    Prop where
  apart : ∀ k ∈ s.joins, k ∉ s.fresh
  inside : ∀ k ∈ s.fresh, k < size
  seeded : ∀ i ∈ seeds, i ∉ s.fresh
  waits : ∀ i ∈ s.waiting, Spreads frontier size seeds i
  joined : ∀ k ∈ s.joins, ∃ j, Spreads frontier size seeds j ∧ k ∈ frontier j
  done : ∀ i, i < size ∨ i ∈ seeds → i ∉ s.fresh →
    i ∈ s.waiting ∨ ∀ k ∈ frontier i, k ∈ s.joins

theorem going_start : Going frontier size seeds (start size seeds) := by
  have mem_fresh : ∀ k, k ∈ (start size seeds).fresh ↔ k < size ∧ k ∉ seeds := by
    simp [start]
  refine ⟨by simp [start], fun k hk => ((mem_fresh k).mp hk).1,
    fun i hi hfresh => ((mem_fresh i).mp hfresh).2 hi,
    fun i hi => .seed (by simpa [start] using hi), by simp [start], fun i hi hfresh => .inl ?_⟩
  rw [mem_fresh, not_and_not_right] at hfresh
  simpa [start] using hi.elim hfresh id

theorem Going.turn {joins fresh : Std.HashSet Nat} {i : Nat} {rest : List Nat}
    (h : Going frontier size seeds ⟨joins, fresh, i :: rest⟩) :
    Going frontier size seeds ((frontier i).foldl find ⟨joins, fresh, rest⟩) := by
  have found := finds (s := ⟨joins, fresh, rest⟩) h.apart (frontier i)
  have hi : Spreads frontier size seeds i := h.waits i List.mem_cons_self
  refine ⟨found.apart h.apart, fun k hk => h.inside k (found.fresh k hk).1,
    fun k hk hfresh => h.seeded k hk (found.fresh k hfresh).1, fun k hk => ?_, fun k hk => ?_,
    fun j hj hnot => ?_⟩
  · rcases found.found k hk with hk | ⟨hk, hfresh⟩
    · exact h.waits k (List.mem_cons_of_mem i hk)
    · exact hi.join hk (h.inside k hfresh)
  · exact ((found.mem_joins k).mp hk).elim (h.joined k) (fun hk => ⟨i, hi, hk⟩)
  · by_cases hfresh : j ∈ fresh
    · exact .inl (found.queued j hfresh hnot)
    rcases h.done j hj hfresh with hwait | hdone
    · rcases List.mem_cons.mp hwait with rfl | hwait
      · exact .inr (fun k hk => (found.mem_joins k).mpr (.inr hk))
      · exact .inl (found.kept j hwait)
    · exact .inr (fun k hk => (found.mem_joins k).mpr (.inl (hdone k hk)))

theorem Going.run (h : Going frontier size seeds s) :
    Going frontier size seeds (s.run frontier) ∧ (s.run frontier).waiting = [] := by
  fun_induction Spread.run frontier s with
  | case1 joins fresh => exact ⟨h, rfl⟩
  | case2 joins fresh i rest ih => exact ih h.turn

/-- Found are just the joins in the frontiers of what has its turn. -/
theorem mem_joins_run {k : Nat} : k ∈ ((start size seeds).run frontier).joins ↔
    ∃ j, Spreads frontier size seeds j ∧ k ∈ frontier j := by
  have begun : Going frontier size seeds (start size seeds) := going_start
  obtain ⟨h, hnone⟩ := begun.run
  have closed : ∀ j, (j < size ∨ j ∈ seeds) → j ∉ ((start size seeds).run frontier).fresh →
      ∀ k ∈ frontier j, k ∈ ((start size seeds).run frontier).joins := by
    intro j hj hfresh
    refine (h.done j hj hfresh).resolve_left ?_
    rw [hnone]
    exact List.not_mem_nil
  have turned : ∀ j, Spreads frontier size seeds j →
      (j < size ∨ j ∈ seeds) ∧ j ∉ ((start size seeds).run frontier).fresh := by
    intro j hj
    induction hj with
    | seed hi => exact ⟨.inr hi, h.seeded _ hi⟩
    | join hj hi hlt ih => exact ⟨.inl hlt, h.apart _ (closed _ ih.1 ih.2 _ hi)⟩
  refine ⟨h.joined k, fun ⟨j, hj, hk⟩ => ?_⟩
  exact closed j (turned j hj).1 (turned j hj).2 k hk

end Spread

section
variable {t : DominatorTree} {blocks : List BlockId} {b : BlockId} {i j : Nat}

/-- What the frontiers are taken of: the given blocks and those in the frontiers of others. -/
def Iterates (t : DominatorTree) (blocks : List BlockId) : Nat → Prop :=
  Spreads t.frontierAt t.order.size (blocks.filterMap t.position?)

theorem mem_iteratedFrontier : b ∈ t.iteratedFrontier blocks ↔
    ∃ i, t.order[i]? = some b ∧ ∃ j, t.Iterates blocks j ∧ i ∈ t.frontierAt j := by
  rw [iteratedFrontier, blocksAt, List.mem_filterMap]
  constructor
  · rintro ⟨i, hi, hb⟩
    exact ⟨i, hb, Spread.mem_joins_run.mp (List.mem_filter.mp hi).2⟩
  · rintro ⟨i, hb, hj⟩
    have hlt : i < t.order.size := (Array.getElem?_eq_some_iff.mp hb).1
    exact ⟨i, List.mem_filter.mpr ⟨List.mem_range.mpr hlt, Spread.mem_joins_run.mpr hj⟩, hb⟩

theorem iterates_of_mem (hb : b ∈ blocks) (hi : t.position? b = some i) : t.Iterates blocks i :=
  .seed (List.mem_filterMap.mpr ⟨b, hb, hi⟩)

end

theorem mem_frontiersOf {predecessors : Array (List Nat)} {parents : Array Nat} {y c : Nat}
    (hy : y < parents.size) : c ∈ (frontiersOf predecessors parents).getD y [] ↔
      c < parents.size ∧ 2 ≤ (predecessors.getD c []).length ∧
        ∃ p, Into predecessors p c ∧ y ∈ climbBelow parents p (parentAt parents c) := by
  simp [frontiersOf, belowParent, hy, Into, parentAt, and_assoc]

/-- What lies on the way up from a position to another that is above it, itself not above that. -/
theorem mem_climbBelow {parents : Array Nat} (tree : Tree (parentAt parents) (· < parents.size))
    {p stop y : Nat} (hp : p < parents.size) (hstop : Above (parentAt parents) stop p) :
    y ∈ climbBelow parents p stop ↔
      Above (parentAt parents) y p ∧ ¬Above (parentAt parents) y stop := by
  obtain ⟨hmem, hpairwise⟩ := FlowGraph.Exact.climb_above tree p p (Nat.le_refl p) hp
  constructor
  · intro hy
    have above := (hmem y).mp ((List.takeWhile_sublist _).subset hy)
    refine ⟨above, fun hback => ?_⟩
    have hne : y ≠ stop := by simpa using List.mem_takeWhile_imp hy
    have hlater := rel_of_mem_takeWhile_ne hpairwise ((hmem stop).mpr hstop) hy
    have hle := hback.le tree (hstop.stays tree hp)
    have hle' := hlater.le tree (above.stays tree hp)
    omega
  · rintro ⟨above, hnot⟩
    exact mem_takeWhile_ne hpairwise ((hmem y).mpr above) hnot (fun he => hnot (he ▸ .refl))

end DominatorTree

namespace FlowGraph

variable {g : FlowGraph} {t : DominatorTree} {a b c d y : BlockId}

theorem Dominates.trans (hab : g.Dominates a b) (hbc : g.Dominates b c) : g.Dominates a c :=
  ⟨hab.1, hbc.2.1, Digraph.Dominates.trans hab.2.2 hbc.2.2⟩

namespace Exact

theorem dominates_antisymm (h : g.Exact t) (hab : g.Dominates a b) (hba : g.Dominates b a) :
    a = b := by
  obtain ⟨i, hi⟩ := h.exists_position.mpr hab.1
  obtain ⟨j, hj⟩ := h.exists_position.mpr hab.2.1
  have hle := ((h.above_iff hi hj).mpr hab).le h.tree (h.lt_size hj)
  have hle' := ((h.above_iff hj hi).mpr hba).le h.tree (h.lt_size hi)
  obtain rfl : i = j := by omega
  exact Option.some.inj (hi.symm.trans hj)

/-- A block with a single predecessor has it as its immediate dominator. -/
theorem single_predecessor (h : g.Exact t) (hb : g.Reachable b) (hc : c ∈ g.targets b)
    (hne : c ≠ g.entry) (hsingle : ∀ a, g.Reachable a → c ∈ g.targets a → a = b) :
    t.immediateDominator? c = some b := by
  have hreach : g.Reachable c := hb.tail hc
  have hdominates : g.Dominates b c := by
    refine ⟨hb, hreach, fun before hpath => ?_⟩
    cases hpath with
    | start => exact absurd rfl hne
    | step hpath hedge =>
      rw [hsingle _ hpath.reaches hedge]
      simp
  have hself : b ≠ c := by
    intro he
    obtain ⟨before, hpath⟩ := reachable_iff.mp hreach
    obtain ⟨before', hpath', hnodup, -⟩ := hpath.simple
    cases hpath' with
    | start => exact hne rfl
    | step hpath' hedge =>
      rw [hsingle _ hpath'.reaches hedge, he] at hnodup
      simp at hnodup
  obtain ⟨d, heq, hdom, hdne, hleast⟩ := h.immediateDominator?_some hreach hne
  have hdb : g.Dominates d b := ⟨hdom.1, hb, fun before hpath =>
    (List.mem_cons.mp (hdom.2.2 _ (hpath.step hc))).resolve_left hdne⟩
  rw [heq, h.dominates_antisymm hdb (hleast b hdominates hself)]

/-- A block that is not in an iterated frontier keeps whatever it is taken of, and whatever is in
it, from the ways between its immediate dominator and its predecessors. -/
theorem not_between (h : g.Exact t) (consistent : Consistent g) {blocks : List BlockId}
    (hb : g.Reachable b) (hc : c ∈ g.targets b) (hne : c ≠ g.entry)
    (heq : t.immediateDominator? c = some d) (hjoin : c ∉ t.iteratedFrontier blocks)
    (hdy : g.Dominates d y) (hyb : g.Dominates y b) (hyd : y ≠ d) :
    y ∉ blocks ∧ y ∉ t.iteratedFrontier blocks := by
  obtain ⟨p, hp⟩ := h.exists_position.mpr hb
  obtain ⟨k, hk⟩ := h.exists_position.mpr (hb.tail hc)
  obtain ⟨i, hi⟩ := h.exists_position.mpr hyb.1
  obtain ⟨hzero, d', hd, heq'⟩ := h.immediateDominator?_eq hk hne
  obtain rfl : d' = d := Option.some.inj (heq'.symm.trans heq)
  have into : ∀ j, DominatorTree.Into (g.positions t.order.toList) j k ↔
      ∃ a, t.order[j]? = some a ∧ c ∈ g.targets a := by
    intro j
    rw [h.inOrder.into_iff consistent]
    simp only [Array.getElem?_toList]
    constructor
    · rintro ⟨a, c', ha, hc', hedge⟩
      rw [hk] at hc'
      cases hc'
      exact ⟨a, ha, hedge⟩
    · rintro ⟨a, ha, hedge⟩
      exact ⟨a, c, ha, hk, hedge⟩
  have hfrontier : k ∈ t.frontierAt i := by
    rw [DominatorTree.frontierAt, h.frontiers, DominatorTree.mem_frontiersOf (h.lt_size hi)]
    refine ⟨h.lt_size hk, ?_, p, (into p).mpr ⟨b, hp, hc⟩, ?_⟩
    · by_contra hshort
      have hsingle : ∀ a, g.Reachable a → c ∈ g.targets a → a = b := by
        intro a ha hedge
        obtain ⟨j, hj⟩ := h.exists_position.mpr ha
        have hjk := (into j).mpr ⟨a, hj, hedge⟩
        have hpk := (into p).mpr ⟨b, hp, hc⟩
        rw [eq_of_length_lt_two (by omega) hjk hpk, hp] at hj
        exact (Option.some.inj hj).symm
      rw [h.single_predecessor hb hc hne hsingle] at heq
      cases heq
      exact hyd (h.dominates_antisymm hyb hdy)
    · have hdb := (h.above_iff hd hp).mpr (hdy.trans hyb)
      rw [DominatorTree.mem_climbBelow h.tree (h.lt_size hp) hdb, h.above_iff hi hp,
        h.above_iff hi hd]
      exact ⟨hyb, fun hback => hyd (h.dominates_antisymm hback hdy)⟩
  have hlt : i < t.order.size := (Array.getElem?_eq_some_iff.mp hi).1
  have hspread : ¬t.Iterates blocks i := fun hmem =>
    hjoin (DominatorTree.mem_iteratedFrontier.mpr ⟨k, hk, i, hmem, hfrontier⟩)
  refine ⟨fun hy => hspread (DominatorTree.iterates_of_mem hy (h.position?_eq.mpr hi)), ?_⟩
  intro hy
  obtain ⟨i', hi', j, hj, hmem⟩ := DominatorTree.mem_iteratedFrontier.mp hy
  obtain rfl : i' = i := h.position_unique hi' hi
  exact hspread (.join hj hmem hlt)

end Exact

end FlowGraph

end TypedSsa

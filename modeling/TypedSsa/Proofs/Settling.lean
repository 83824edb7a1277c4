import Mathlib.Logic.Function.Iterate
import TypedSsa.Flow.Dominance
import TypedSsa.Proofs.Walks

/-!
The passes that find immediate dominators, over positions in a reverse postorder. Main statement:
`settle_settled`: the passes end, and what is above a position then are its dominators.
-/

namespace TypedSsa.DominatorTree
open Digraph

/-- From `b` towards the entry, which stands at the first position. -/
inductive Above (up : Nat → Nat) (a : Nat) : Nat → Prop
  | refl : Above up a a
  | step {b : Nat} : b ≠ 0 → Above up a (up b) → Above up a b

/-- Some positions, each but the first with another below its own position. -/
structure Tree (up : Nat → Nat) (known : Nat → Prop) : Prop where
  earlier : ∀ {b : Nat}, known b → b ≠ 0 → up b < b
  stays : ∀ {b : Nat}, known b → b ≠ 0 → known (up b)

namespace Above

variable {up : Nat → Nat} {known : Nat → Prop} {a b c : Nat}

theorem le (h : Above up a b) (tree : Tree up known) (hb : known b) : a ≤ b := by
  induction h with
  | refl => exact Nat.le_refl a
  | step hne _ ih =>
    exact Nat.le_trans (ih (tree.stays hb hne)) (Nat.le_of_lt (tree.earlier hb hne))

theorem stays (h : Above up a b) (tree : Tree up known) (hb : known b) : known a := by
  induction h with
  | refl => exact hb
  | step hne _ ih => exact ih (tree.stays hb hne)

theorem trans (hab : Above up a b) (hbc : Above up b c) : Above up a c := by
  induction hbc with
  | refl => exact hab
  | step hne _ ih => exact .step hne ih

/-- What is above, but not the position itself, is above its parent. -/
theorem up_of_ne (h : Above up a b) (hne : a ≠ b) : b ≠ 0 ∧ Above up a (up b) := by
  cases h with
  | refl => exact absurd rfl hne
  | step hb h => exact ⟨hb, h⟩

end Above

/-! Two positions meet at the nearest one above both. -/

/-- The parent of a position in a table that may lack it. -/
def parentIn (parents : Array (Option Nat)) (b : Nat) : Nat :=
  (parents.getD b none).getD 0

def Known (parents : Array (Option Nat)) (b : Nat) : Prop :=
  (parents.getD b none).isSome = true

structure Meets (up : Nat → Nat) (m : Nat) (ps : List Nat) : Prop where
  above : ∀ p ∈ ps, Above up m p
  nearest : ∀ x, (∀ p ∈ ps, Above up x p) → Above up x m

variable {parents : Array (Option Nat)}

theorem meet_succ (fuel a b : Nat) : meet parents (fuel + 1) a b =
    if a = b then a
    else if b < a then meet parents fuel (parentIn parents a) b
    else meet parents fuel a (parentIn parents b) := rfl

theorem forall_pair {P : Nat → Prop} {a b : Nat} : (∀ p ∈ [a, b], P p) ↔ P a ∧ P b := by
  simp

theorem meet_meets (tree : Tree (parentIn parents) (Known parents)) (fuel a b : Nat)
    (ha : Known parents a) (hb : Known parents b) (enough : a + b ≤ fuel) :
    Meets (parentIn parents) (meet parents fuel a b) [a, b] := by
  induction fuel generalizing a b with
  | zero =>
    obtain ⟨rfl, rfl⟩ : a = 0 ∧ b = 0 := by omega
    exact ⟨by simp [meet, Above.refl], fun x hx => hx 0 (by simp)⟩
  | succ fuel ih =>
    rw [meet_succ]
    by_cases heq : a = b
    · subst heq
      rw [if_pos rfl]
      exact ⟨by simp [Above.refl], fun x hx => hx a (by simp)⟩
    · rw [if_neg heq]
      by_cases hlt : b < a
      · rw [if_pos hlt]
        have hne : a ≠ 0 := by omega
        have hup := tree.earlier ha hne
        have met := ih (parentIn parents a) b (tree.stays ha hne) hb (by omega)
        obtain ⟨mup, mb⟩ := forall_pair.mp met.above
        refine ⟨forall_pair.mpr ⟨.step hne mup, mb⟩, fun x hx => met.nearest x ?_⟩
        obtain ⟨hxa, hxb⟩ := forall_pair.mp hx
        have hle := hxb.le tree hb
        exact forall_pair.mpr ⟨(hxa.up_of_ne (by omega)).2, hxb⟩
      · rw [if_neg hlt]
        have hne : b ≠ 0 := by omega
        have hup := tree.earlier hb hne
        have met := ih a (parentIn parents b) ha (tree.stays hb hne) (by omega)
        obtain ⟨ma, mup⟩ := forall_pair.mp met.above
        refine ⟨forall_pair.mpr ⟨ma, .step hne mup⟩, fun x hx => met.nearest x ?_⟩
        obtain ⟨hxa, hxb⟩ := forall_pair.mp hx
        have hle := hxa.le tree ha
        exact forall_pair.mpr ⟨hxa, (hxb.up_of_ne (by omega)).2⟩

theorem foldl_meet_meets (tree : Tree (parentIn parents) (Known parents)) (ps : List Nat) :
    ∀ a, (∀ p ∈ a :: ps, Known parents p) →
      Meets (parentIn parents) (ps.foldl (fun a p => meet parents (a + p) a p) a) (a :: ps) := by
  induction ps with
  | nil =>
    intro a _
    exact ⟨by simp [Above.refl], fun x hx => hx a (by simp)⟩
  | cons p ps ih =>
    intro a known
    have first := meet_meets tree (a + p) a p (known a (by simp)) (known p (by simp))
      (Nat.le_refl _)
    have hknown : Known parents (meet parents (a + p) a p) :=
      (first.above a (by simp)).stays tree (known a (by simp))
    have rest := ih (meet parents (a + p) a p)
      (List.forall_mem_cons.mpr ⟨hknown, fun q hq => known q (by simp [hq])⟩)
    have low := rest.above (meet parents (a + p) a p) (by simp)
    refine ⟨?_, fun x hx => rest.nearest x ?_⟩
    · refine List.forall_mem_cons.mpr ⟨low.trans (first.above a (by simp)), ?_⟩
      refine List.forall_mem_cons.mpr ⟨low.trans (first.above p (by simp)), ?_⟩
      exact fun q hq => rest.above q (by simp [hq])
    · refine List.forall_mem_cons.mpr ⟨first.nearest x ?_, fun q hq => hx q (by simp [hq])⟩
      exact forall_pair.mpr ⟨hx a (by simp), hx p (by simp)⟩

/-! Passes over all positions. -/

/-- An edge between positions. -/
def Into (predecessors : Array (List Nat)) (p b : Nat) : Prop :=
  p ∈ predecessors.getD b []

/-- Each position but the first has an edge from an earlier one, as in a reverse postorder. -/
structure Ordered (predecessors : Array (List Nat)) : Prop where
  inside : ∀ {p b : Nat}, Into predecessors p b → p < predecessors.size
  early : ∀ b, b ≠ 0 → b < predecessors.size → ∃ p, p < b ∧ Into predecessors p b

variable {predecessors : Array (List Nat)}

theorem Into.target_lt {p b : Nat} (h : Into predecessors p b) : b < predecessors.size := by
  refine Nat.lt_of_not_le (fun hle => ?_)
  rw [Into, Array.getD_eq_getD_getElem?, Array.getElem?_eq_none hle] at h
  cases h

theorem walk_lt (pos : 0 < predecessors.size) {path : List Nat}
    (h : Walk (Into predecessors) 0 path) : ∀ b ∈ path, b < predecessors.size := by
  induction h with
  | start => simpa using pos
  | step _ hedge ih => exact List.forall_mem_cons.mpr ⟨hedge.target_lt, ih⟩

/-- A walk that comes to no position twice is short, so every dominator is missed on a short walk
if on any. -/
theorem short_walk (pos : 0 < predecessors.size) {b : Nat}
    {before : List Nat} (h : Walk (Into predecessors) 0 (b :: before)) :
    ∃ before', Walk (Into predecessors) 0 (b :: before') ∧ before'.length < predecessors.size ∧
      before' ⊆ before := by
  obtain ⟨before', hwalk, hnodup, hsubset⟩ := h.simple
  refine ⟨before', hwalk, ?_, hsubset⟩
  have hrange : (b :: before') ⊆ List.range predecessors.size :=
    fun x hx => List.mem_range.mpr (walk_lt pos hwalk x hx)
  have hlength := (List.subperm_of_subset hnodup hrange).length_le
  rw [List.length_range] at hlength
  exact hlength

/-- What holds in a pass after `rounds` whole ones, with the positions below `done` passed. A strict
dominator dominates the parent too, and each walk that is short enough goes through the parent. -/
structure Settling (predecessors : Array (List Nat)) (rounds done : Nat)
    (parents : Array (Option Nat)) : Prop where
  size : parents.size = predecessors.size
  root : parents.getD 0 none = some 0
  tree : Tree (parentIn parents) (Known parents)
  filled : ∀ b, b < done → Known parents b
  covers : ∀ a b, Known parents b → b ≠ 0 → a ≠ b → Dominates (Into predecessors) 0 a b →
    Dominates (Into predecessors) 0 a (parentIn parents b)
  passed : ∀ b before, b ≠ 0 → Walk (Into predecessors) 0 (b :: before) →
    before.length ≤ (if b < done then rounds + 1 else rounds) →
    Known parents b ∧ parentIn parents b ∈ before

namespace Settling

variable {rounds done : Nat}

theorem above_of_dominates (h : Settling predecessors rounds done parents) {a : Nat} :
    ∀ b, Known parents b → Dominates (Into predecessors) 0 a b →
      Above (parentIn parents) a b := by
  intro b
  induction b using Nat.strongRecOn with
  | ind b ih =>
    intro hb hdom
    by_cases hne : a = b
    · exact hne ▸ .refl
    · have hzero : b ≠ 0 := by
        rintro rfl
        exact hne (by simpa using hdom [] .start)
      exact .step hzero (ih _ (h.tree.earlier hb hzero) (h.tree.stays hb hzero)
        (h.covers a b hb hzero hne hdom))

theorem dominates_above (h : Settling predecessors rounds done parents) {a m q : Nat}
    (hq : Known parents q) (hm : Above (parentIn parents) m q) (hle : a ≤ m)
    (hdom : Dominates (Into predecessors) 0 a q) : Dominates (Into predecessors) 0 a m := by
  induction hm with
  | refl => exact hdom
  | @step q hzero hm ih =>
    have hup := h.tree.stays hq hzero
    have hlt : m < q := Nat.lt_of_le_of_lt (hm.le h.tree hup) (h.tree.earlier hq hzero)
    exact ih hup (h.covers a q hq hzero (by omega) hdom)

theorem mem_of_above (h : Settling predecessors rounds done parents) {x q : Nat}
    (hx : Above (parentIn parents) x q) :
    ∀ before, Walk (Into predecessors) 0 (q :: before) → before.length ≤ rounds →
      x ∈ q :: before := by
  induction hx with
  | refl => exact fun _ _ _ => List.mem_cons_self
  | @step q hzero _ ih =>
    intro before hwalk hlength
    have hround : before.length ≤ if q < done then rounds + 1 else rounds := by
      split <;> omega
    obtain ⟨-, hmem⟩ := h.passed q before hzero hwalk hround
    obtain ⟨later, earlier, he, hshort⟩ :=
      (hwalk.tail (List.ne_nil_of_mem hmem)).start_of_mem hmem
    have hlater : before.length = later.length + (earlier.length + 1) := by
      simp [he]
    have hx := ih earlier hshort (by omega)
    rw [he]
    exact List.mem_cons_of_mem q (List.mem_append_right later hx)

end Settling

theorem known_set {b c : Nat} {m : Nat} (hb : b < parents.size) :
    Known (parents.setIfInBounds b (some m)) c ↔ c = b ∨ Known parents c := by
  unfold Known
  by_cases hc : c = b
  · subst hc
    simp [hb]
  · simp [hc, Ne.symm hc]

theorem parentIn_set {b c : Nat} {m : Nat} (hb : b < parents.size) :
    parentIn (parents.setIfInBounds b (some m)) c = if c = b then m else parentIn parents c := by
  unfold parentIn
  by_cases hc : c = b
  · subst hc
    simp [hb]
  · simp [hc, Ne.symm hc]

/-- A position is given the nearest one above all its predecessors with a parent. -/
theorem refine_meets (tree : Tree (parentIn parents) (Known parents)) {p b : Nat}
    (hp : Into predecessors p b) (hknown : Known parents p) :
    ∃ m, DominatorTree.refine predecessors parents b = parents.setIfInBounds b (some m) ∧
      (∀ q, Into predecessors q b → Known parents q → Above (parentIn parents) m q) ∧
      ∀ x, (∀ q, Into predecessors q b → Known parents q → Above (parentIn parents) x q) →
        Above (parentIn parents) x m := by
  have hmem : ∀ q, q ∈ (predecessors.getD b []).filter (fun p => (parents.getD p none).isSome) ↔
      Into predecessors q b ∧ Known parents q := fun q => List.mem_filter
  unfold DominatorTree.refine
  split
  · rename_i hnil
    have := (hmem p).mpr ⟨hp, hknown⟩
    rw [hnil] at this
    cases this
  · rename_i q qs hcons
    rw [hcons] at hmem
    have met := foldl_meet_meets tree qs q (fun r hr => ((hmem r).mp hr).2)
    refine ⟨_, rfl, fun r hr hk => met.above r ((hmem r).mpr ⟨hr, hk⟩), ?_⟩
    intro x hx
    exact met.nearest x (fun r hr => hx r ((hmem r).mp hr).1 ((hmem r).mp hr).2)

namespace Settling

variable {rounds b m : Nat}

theorem tree_set (h : Settling predecessors rounds b parents) (hb : b < parents.size)
    (hmb : m < b) (hm : Known parents m) :
    Tree (parentIn (parents.setIfInBounds b (some m)))
      (Known (parents.setIfInBounds b (some m))) := by
  refine ⟨?_, ?_⟩
  · intro c hc hne
    rw [parentIn_set hb]
    split
    · rename_i hcb
      exact hcb ▸ hmb
    · rename_i hcb
      exact h.tree.earlier (((known_set hb).mp hc).resolve_left hcb) hne
  · intro c hc hne
    rw [parentIn_set hb, known_set hb]
    split
    · exact .inr hm
    · rename_i hcb
      exact .inr (h.tree.stays (((known_set hb).mp hc).resolve_left hcb) hne)

/-- A strict dominator is above every predecessor, so above where they meet. -/
theorem covers_meet (h : Settling predecessors rounds b parents) {a p : Nat}
    (hp : Into predecessors p b) (hknown : Known parents p) (hmp : Above (parentIn parents) m p)
    (nearest : ∀ x, (∀ q, Into predecessors q b → Known parents q →
      Above (parentIn parents) x q) → Above (parentIn parents) x m)
    (hab : a ≠ b) (hdom : Dominates (Into predecessors) 0 a b) :
    Dominates (Into predecessors) 0 a m := by
  have above : Above (parentIn parents) a m := by
    refine nearest a (fun q hedge hq => ?_)
    exact h.above_of_dominates q hq (hdom.of_edge hab hedge)
  have hm := hmp.stays h.tree hknown
  exact h.dominates_above hknown hmp (above.le h.tree hm) (hdom.of_edge hab hp)

/-- A walk comes to a position from a predecessor, and passes all that is above that one. -/
theorem passed_meet (h : Settling predecessors rounds b parents)
    (above : ∀ q, Into predecessors q b → Known parents q → Above (parentIn parents) m q)
    (hzero : b ≠ 0) {before : List Nat} (hwalk : Walk (Into predecessors) 0 (b :: before))
    (hlength : before.length ≤ rounds + 1) : m ∈ before := by
  cases hwalk with
  | start => exact absurd rfl hzero
  | @step q _ rest hwalk hedge =>
    have hrest : rest.length ≤ rounds := by simpa using hlength
    have hknown : Known parents q := by
      by_cases hq : q = 0
      · exact h.filled q (by omega)
      · exact (h.passed q rest hq hwalk (by split <;> omega)).1
    exact h.mem_of_above (above q hedge hknown) rest hwalk hrest

/-- The step of a pass at one position. -/
theorem refine (h : Settling predecessors rounds b parents) (order : Ordered predecessors)
    (hzero : b ≠ 0) (hb : b < predecessors.size) :
    Settling predecessors rounds (b + 1) (DominatorTree.refine predecessors parents b) := by
  obtain ⟨p, hpb, hp⟩ := order.early b hzero hb
  have hsize : b < parents.size := h.size ▸ hb
  have hknown := h.filled p hpb
  obtain ⟨m, heq, above, nearest⟩ := refine_meets h.tree hp hknown
  have hmp := above p hp hknown
  have hmb : m < b := Nat.lt_of_le_of_lt (hmp.le h.tree hknown) hpb
  rw [heq]
  refine {
    size := by simpa using h.size
    root := by simpa [Array.getElem?_setIfInBounds, hzero] using h.root
    tree := h.tree_set hsize hmb (hmp.stays h.tree hknown)
    filled := ?_
    covers := ?_
    passed := ?_ }
  · intro c hc
    rw [known_set hsize]
    rcases Nat.lt_succ_iff_lt_or_eq.mp hc with hc | hc
    · exact .inr (h.filled c hc)
    · exact .inl hc
  · intro a c hc hne hac hdom
    rw [parentIn_set hsize]
    split
    · rename_i hcb
      subst hcb
      exact h.covers_meet hp hknown hmp nearest hac hdom
    · rename_i hcb
      exact h.covers a c (((known_set hsize).mp hc).resolve_left hcb) hne hac hdom
  · intro c before hne hwalk hlength
    rw [known_set hsize, parentIn_set hsize]
    by_cases hcb : c = b
    · subst hcb
      rw [if_pos (Nat.lt_succ_self c)] at hlength
      rw [if_pos rfl]
      exact ⟨.inl rfl, h.passed_meet above hzero hwalk hlength⟩
    · rw [if_neg hcb]
      have hlength' : before.length ≤ if c < b then rounds + 1 else rounds := by
        split at hlength <;> split <;> omega
      obtain ⟨hknown, hparent⟩ := h.passed c before hne hwalk hlength'
      exact ⟨.inr hknown, hparent⟩

end Settling

theorem Settling.foldl_refine {rounds : Nat} (order : Ordered predecessors) (count : Nat) :
    ∀ first parents, Settling predecessors rounds first parents → first ≠ 0 →
      first + count ≤ predecessors.size → Settling predecessors rounds (first + count)
        ((List.range' first count).foldl (DominatorTree.refine predecessors) parents) := by
  induction count with
  | zero => exact fun _ _ h _ _ => h
  | succ count ih =>
    intro first parents h hne hle
    rw [List.range'_succ, List.foldl_cons, ← Nat.succ_add_eq_add_succ]
    exact ih (first + 1) _ (h.refine order hne (by omega)) (by omega) (by omega)

/-- A whole pass, after which every position has a parent. -/
theorem Settling.pass {rounds : Nat} (h : Settling predecessors rounds 1 parents)
    (order : Ordered predecessors) (pos : 0 < predecessors.size) :
    Settling predecessors rounds predecessors.size (DominatorTree.pass predecessors parents) := by
  have hrange : (List.range parents.size).tail = List.range' 1 (predecessors.size - 1) := by
    rw [h.size, List.range_eq_range', List.tail_range']
  rw [DominatorTree.pass, hrange]
  have := Settling.foldl_refine order (predecessors.size - 1) 1 parents h (by omega) (by omega)
  rwa [Nat.add_sub_cancel' pos] at this

theorem Settling.again {rounds : Nat}
    (h : Settling predecessors rounds predecessors.size parents)
    (pos : 0 < predecessors.size) : Settling predecessors (rounds + 1) 1 parents := by
  refine ⟨h.size, h.root, h.tree, fun b hb => h.filled b (by omega), h.covers, ?_⟩
  intro b before hne hwalk hlength
  have hb := walk_lt pos hwalk b (by simp)
  refine h.passed b before hne hwalk ?_
  rw [if_pos hb]
  rwa [if_neg (by omega)] at hlength

/-! The end of the passes. -/

/-- Every position has a parent, and what is above it is what dominates it. -/
structure Settled (predecessors : Array (List Nat)) (parents : Array (Option Nat)) : Prop where
  size : parents.size = predecessors.size
  root : parents.getD 0 none = some 0
  tree : Tree (parentIn parents) (Known parents)
  known : ∀ b, b < predecessors.size → Known parents b
  above_iff : ∀ a b, b < predecessors.size →
    (Above (parentIn parents) a b ↔ Dominates (Into predecessors) 0 a b)

/-- Dominance leaves no choice of parents. -/
theorem Settled.parent_le {others : Array (Option Nat)} (h : Settled predecessors parents)
    (h' : Settled predecessors others) {b : Nat} (hzero : b ≠ 0) (hb : b < predecessors.size) :
    parentIn parents b ≤ parentIn others b := by
  have hlt := h.tree.earlier (h.known b hb) hzero
  have above : Above (parentIn parents) (parentIn parents b) b := .step hzero .refl
  have above' := (h'.above_iff _ b hb).mpr ((h.above_iff _ b hb).mp above)
  exact (above'.up_of_ne (by omega)).2.le h'.tree (h'.tree.stays (h'.known b hb) hzero)

theorem Settled.getElem? (h : Settled predecessors parents) {b : Nat}
    (hb : b < predecessors.size) : parents[b]? = some (some (parentIn parents b)) := by
  have hsize : b < parents.size := h.size ▸ hb
  have hknown := h.known b hb
  unfold Known at hknown
  unfold parentIn
  rw [Array.getD_eq_getD_getElem?, Array.getElem?_eq_getElem hsize, Option.getD_some] at hknown ⊢
  obtain ⟨y, hy⟩ := Option.isSome_iff_exists.mp hknown
  rw [hy, Option.getD_some]

theorem Settled.unique {others : Array (Option Nat)} (h : Settled predecessors parents)
    (h' : Settled predecessors others) : parents = others := by
  refine Array.ext_getElem? (fun b => ?_)
  by_cases hb : b < predecessors.size
  · rw [h.getElem? hb, h'.getElem? hb]
    by_cases hzero : b = 0
    · subst hzero
      unfold parentIn
      rw [h.root, h'.root]
    · rw [Nat.le_antisymm (h.parent_le h' hzero hb) (h'.parent_le h hzero hb)]
  · rw [Array.getElem?_eq_none (by rw [h.size]; omega),
      Array.getElem?_eq_none (by rw [h'.size]; omega)]

/-- Once the rounds are as many as a walk can need, nothing but the dominators is above. -/
theorem Settling.settled {rounds : Nat}
    (h : Settling predecessors rounds predecessors.size parents) (pos : 0 < predecessors.size)
    (enough : predecessors.size ≤ rounds + 1) : Settled predecessors parents := by
  refine ⟨h.size, h.root, h.tree, h.filled,
    fun a b hb => ⟨?_, h.above_of_dominates b (h.filled b hb)⟩⟩
  intro above before hwalk
  obtain ⟨before', hshort, hlength, hsubset⟩ := short_walk pos hwalk
  exact List.cons_subset_cons b hsubset (h.mem_of_above above before' hshort (by omega))

theorem Settling.iterate {rounds : Nat} (h : Settling predecessors rounds 1 parents)
    (order : Ordered predecessors) (pos : 0 < predecessors.size) (k : Nat) :
    Settling predecessors (rounds + k) 1 ((DominatorTree.pass predecessors)^[k] parents) := by
  induction k with
  | zero => exact h
  | succ k ih =>
    rw [Function.iterate_succ_apply']
    exact (ih.pass order pos).again pos

/-- The passes end as soon as one more changes nothing. -/
theorem settle_eq (fuel : Nat) : ∀ parents count last,
    pass predecessors ((pass predecessors)^[last] parents) = (pass predecessors)^[last] parents →
    last < fuel →
    ∃ k, k ≤ last ∧
      settle predecessors fuel parents count = ((pass predecessors)^[k] parents, count + k + 1) ∧
      pass predecessors ((pass predecessors)^[k] parents) = (pass predecessors)^[k] parents := by
  induction fuel with
  | zero => exact fun _ _ _ _ h => absurd h (Nat.not_lt_zero _)
  | succ fuel ih =>
    intro parents count last hlast hfuel
    by_cases hfixed : pass predecessors parents = parents
    · exact ⟨0, Nat.zero_le _, by simp [settle, hfixed], hfixed⟩
    · cases last with
      | zero => exact absurd hlast hfixed
      | succ last =>
        obtain ⟨k, hk, heq, hend⟩ :=
          ih (pass predecessors parents) (count + 1) last hlast (by omega)
        refine ⟨k + 1, by omega, ?_, hend⟩
        rw [settle]
        simp only [hfixed, if_false, heq]
        rw [Function.iterate_succ_apply, Nat.add_right_comm count 1 k]
        rfl

theorem settling_started (pos : 0 < predecessors.size) :
    Settling predecessors 0 1 (started predecessors.size) := by
  have known : ∀ b, Known (started predecessors.size) b → b = 0 := by
    intro b hb
    rw [started, known_set (by simpa using pos)] at hb
    refine hb.resolve_right (fun hb => ?_)
    rw [Known, Array.getD_eq_getD_getElem?, Array.getElem?_replicate] at hb
    split at hb <;> cases hb
  refine ⟨by simp [started], by simp [started, pos], ⟨?_, ?_⟩, ?_, ?_, ?_⟩
  · exact fun hb hne => absurd (known _ hb) hne
  · exact fun hb hne => absurd (known _ hb) hne
  · intro b hb
    rw [started, known_set (by simpa using pos)]
    exact .inl (by omega)
  · exact fun a b hb hne => absurd (known b hb) hne
  · intro b before hne hwalk hlength
    rw [if_neg (by omega)] at hlength
    cases hwalk with
    | start => exact absurd rfl hne
    | step => simp at hlength

/-- The passes end, after no more of them than there are positions and one, with the immediate
dominators. -/
theorem settle_settled (order : Ordered predecessors) (pos : 0 < predecessors.size) :
    ∃ parents count, settle predecessors (predecessors.size * predecessors.size + 1)
        (started predecessors.size) 0 = (parents, count) ∧
      count ≤ predecessors.size + 1 ∧ Settled predecessors parents := by
  generalize hn : predecessors.size = n at pos
  have late : ∀ k, n ≤ k → Settled predecessors ((pass predecessors)^[k] (started n)) := by
    intro k hk
    obtain ⟨k, rfl⟩ : ∃ j, k = j + 1 := ⟨k - 1, by omega⟩
    rw [Function.iterate_succ_apply']
    have := ((settling_started (hn ▸ pos)).iterate order (hn ▸ pos) k).pass order (hn ▸ pos)
    exact hn ▸ this.settled (hn ▸ pos) (by omega)
  have hfixed : pass predecessors ((pass predecessors)^[n] (started n)) =
      (pass predecessors)^[n] (started n) := by
    rw [← Function.iterate_succ_apply' (pass predecessors)]
    exact (late (n + 1) (by omega)).unique (late n (Nat.le_refl n))
  have hfuel : n < n * n + 1 := Nat.lt_succ_of_le (Nat.le_mul_self n)
  obtain ⟨k, hk, heq, hend⟩ := settle_eq (n * n + 1) (started n) 0 n hfixed hfuel
  refine ⟨_, _, heq, by omega, ?_⟩
  have hsame := Function.iterate_fixed hend n
  rw [← Function.iterate_add_apply] at hsame
  rw [← hsame]
  exact late (n + k) (by omega)

end TypedSsa.DominatorTree

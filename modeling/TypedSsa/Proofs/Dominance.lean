import Mathlib.Data.List.NodupEquivFin
import TypedSsa.Proofs.Links
import TypedSsa.Proofs.Settling

/-!
The dominator tree of a graph tells dominance by paths. Main statements: `Consistent.buildDominance`
makes the tree, and `Exact.dominates_iff`, `Exact.immediateDominator?`, `Exact.preorder` and
`Exact.lowestCommon?` say what it answers.
-/

namespace TypedSsa
open Digraph

/-! Places in a list. -/

theorem getElem?_inj_of_nodup {α : Type} {xs : List α} (h : xs.Nodup) {i j : Nat} {x : α}
    (hi : xs[i]? = some x) (hj : xs[j]? = some x) : i = j := by
  obtain ⟨hi', rfl⟩ := List.getElem?_eq_some_iff.mp hi
  obtain ⟨hj', he⟩ := List.getElem?_eq_some_iff.mp hj
  exact ((h.getElem_inj_iff).mp he).symm

theorem lt_of_pair_sublist {α : Type} {xs : List α} (h : xs.Nodup) {i j : Nat} {x y : α}
    (hpair : [x, y].Sublist xs) (hi : xs[i]? = some x) (hj : xs[j]? = some y) : i < j := by
  obtain ⟨f, hf⟩ := List.sublist_iff_exists_orderEmbedding_getElem?_eq.mp hpair
  have hx : i = f 0 := getElem?_inj_of_nodup h hi ((hf 0).symm.trans rfl)
  have hy : j = f 1 := getElem?_inj_of_nodup h hj ((hf 1).symm.trans rfl)
  rw [hx, hy]
  exact f.strictMono Nat.zero_lt_one

theorem pair_sublist_of_lt {α : Type} {xs : List α} {i j : Nat} {x y : α}
    (hi : xs[i]? = some x) (hj : xs[j]? = some y) (hlt : i < j) : [x, y].Sublist xs := by
  induction xs generalizing i j with
  | nil => simp at hi
  | cons z zs ih =>
    obtain ⟨j, rfl⟩ : ∃ k, j = k + 1 := ⟨j - 1, by omega⟩
    rw [List.getElem?_cons_succ] at hj
    cases i with
    | zero =>
      rw [List.getElem?_cons_zero, Option.some.injEq] at hi
      rw [hi]
      exact (List.singleton_sublist.mpr (List.mem_of_getElem? hj)).cons_cons x
    | succ i =>
      rw [List.getElem?_cons_succ] at hi
      exact (ih hi hj (by omega)).cons z

theorem getElem?_filterMap {α β : Type} {f : α → Option β} {xs : List α}
    (h : ∀ x ∈ xs, (f x).isSome = true) (k : Nat) : (xs.filterMap f)[k]? = xs[k]?.bind f := by
  induction xs generalizing k with
  | nil => simp
  | cons x xs ih =>
    obtain ⟨y, hy⟩ := Option.isSome_iff_exists.mp (h x (by simp))
    rw [List.filterMap_cons_some hy]
    cases k with
    | zero => simp [hy]
    | succ k => simpa using ih (fun z hz => h z (by simp [hz])) k

namespace DominatorTree

theorem getElem?_numbered {blocks : List BlockId} (h : blocks.Nodup) {b : BlockId} {i : Nat} :
    (numbered blocks)[b]? = some i ↔ blocks[i]? = some b := by
  have distinct : blocks.zipIdx.Pairwise (fun x y => (x.1 == y.1) = false) := by
    rw [List.pairwise_iff_getElem]
    intro i j hi hj hij
    rw [List.getElem_zipIdx, List.getElem_zipIdx]
    simp only [beq_eq_false_iff_ne, ne_eq]
    rw [h.getElem_inj_iff]
    omega
  have found : ∀ i, blocks[i]? = some b → (numbered blocks)[b]? = some i := by
    intro i hb
    have hmem : (b, i) ∈ blocks.zipIdx := List.mk_mem_zipIdx_iff_getElem?.mpr hb
    exact Std.HashMap.getElem?_ofList_of_mem (by simp) distinct hmem
  refine ⟨fun hb => ?_, found i⟩
  have hmem : b ∈ numbered blocks := by
    rw [Std.HashMap.mem_iff_isSome_getElem?, hb]
    rfl
  rw [numbered, Std.HashMap.mem_ofList, List.zipIdx_map_fst, List.contains_iff_mem] at hmem
  obtain ⟨j, hj⟩ := List.mem_iff_getElem?.mp hmem
  rw [found j hj, Option.some.injEq] at hb
  exact hb ▸ hj

theorem mem_numbered {blocks : List BlockId} {b : BlockId} :
    b ∈ numbered blocks ↔ b ∈ blocks := by
  rw [numbered, Std.HashMap.mem_ofList, List.zipIdx_map_fst, List.contains_iff_mem]

theorem nodup_blocksAt {t : DominatorTree} {xs : List Nat} (horder : t.order.toList.Nodup)
    (h : xs.Nodup) : (t.blocksAt xs).Nodup := by
  refine h.filterMap ?_
  intro i j b hi hj
  rw [Option.mem_def, ← Array.getElem?_toList] at hi hj
  exact getElem?_inj_of_nodup horder hi hj

/-! The walk over the tree. -/

/-- The parent of a position in a finished table. -/
def parentAt (parents : Array Nat) (b : Nat) : Nat :=
  parents.getD b 0

theorem mem_childrenOf {parents : Array Nat} {b c : Nat} :
    c ∈ childrenOf parents b ↔ c < parents.size ∧ c ≠ 0 ∧ parentAt parents c = b := by
  simp [childrenOf, parentAt]

theorem above_of_reaches {parents : Array Nat} {a b : Nat}
    (h : Reaches (childrenOf parents) a b) : Above (parentAt parents) a b := by
  induction h with
  | refl => exact .refl
  | tail _ hchild ih =>
    obtain ⟨-, hne, rfl⟩ := mem_childrenOf.mp hchild
    exact .step hne ih

/-- What is known of the walk over a tree of all positions. -/
structure Walked (parents : Array Nat) (entered left : List Nat) : Prop where
  nodup : entered.Nodup
  nodup_left : left.Nodup
  mem_iff : ∀ b, b ∈ entered ↔ b < parents.size
  perm : left.Perm entered
  child : ∀ b ∈ entered, b ≠ 0 →
    [parentAt parents b, b].Sublist entered ∧ [b, parentAt parents b].Sublist left
  nested : ∀ a b, [a, b].Sublist entered → [b, a].Sublist left → Above (parentAt parents) a b

variable {parents : Array Nat} (tree : Tree (parentAt parents) (· < parents.size))

include tree in
theorem walk_walked (pos : 0 < parents.size) :
    Walked parents (walk parents).seen.reverse (walk parents).left.reverse := by
  have explored := searchFrom_explored (childrenOf parents) (List.range parents.size) [0]
  rw [← walk] at explored
  have all : ∀ b, b < parents.size → b ∈ (walk parents).seen := by
    intro b
    induction b using Nat.strongRecOn with
    | ind b ih =>
      intro hb
      by_cases hzero : b = 0
      · exact hzero ▸ explored.rooted 0 (by simp) (by simpa using pos)
      · have hup := ih (parentAt parents b) (tree.earlier hb hzero) (tree.stays hb hzero)
        exact explored.closed _ hup b (mem_childrenOf.mpr ⟨hb, hzero, rfl⟩) (by simpa using hb)
  exact {
    nodup := List.nodup_reverse.mpr explored.nodup
    nodup_left := List.nodup_reverse.mpr explored.left_nodup
    mem_iff := by
      intro b
      rw [List.mem_reverse]
      exact ⟨fun hb => List.mem_range.mp (explored.inside b hb), all b⟩
    perm := (List.reverse_perm _).trans (explored.perm.trans (List.reverse_perm _).symm)
    child := by
      intro b hb hzero
      rcases explored.source b (List.mem_reverse.mp hb) with hroot | ⟨p, hp, hseen, hleft⟩
      · exact absurd (List.mem_singleton.mp hroot) hzero
      · obtain ⟨-, -, rfl⟩ := mem_childrenOf.mp hp
        exact ⟨by simpa using hseen.reverse, by simpa using hleft.reverse⟩
    nested := by
      intro a b hentered hleft
      refine above_of_reaches (explored.nested a b ?_ ?_)
      · simpa using hentered.reverse
      · simpa using hleft.reverse }

/-- The numbers from the walk tell what is above what. -/
theorem Walked.above_iff {entered left : List Nat} (h : Walked parents entered left)
    {a b enteredA leftA enteredB leftB : Nat}
    (hea : entered[enteredA]? = some a) (hla : left[leftA]? = some a)
    (heb : entered[enteredB]? = some b) (hlb : left[leftB]? = some b) :
    Above (parentAt parents) a b ↔ enteredA ≤ enteredB ∧ leftB ≤ leftA := by
  constructor
  · intro above
    induction above generalizing enteredB leftB with
    | refl =>
      rw [getElem?_inj_of_nodup h.nodup hea heb, getElem?_inj_of_nodup h.nodup_left hla hlb]
      exact ⟨Nat.le_refl _, Nat.le_refl _⟩
    | @step b hzero _ ih =>
      obtain ⟨hentered, hleft⟩ := h.child b (List.mem_of_getElem? heb) hzero
      obtain ⟨i, hi⟩ := List.mem_iff_getElem?.mp
        (hentered.subset (by simp : parentAt parents b ∈ [parentAt parents b, b]))
      obtain ⟨j, hj⟩ := List.mem_iff_getElem?.mp
        (hleft.subset (by simp : parentAt parents b ∈ [b, parentAt parents b]))
      have hib := lt_of_pair_sublist h.nodup hentered hi heb
      have hbj := lt_of_pair_sublist h.nodup_left hleft hlb hj
      obtain ⟨hai, hja⟩ := ih hi hj
      exact ⟨by omega, by omega⟩
  · rintro ⟨hentered, hleft⟩
    by_cases hab : a = b
    · exact hab ▸ .refl
    · have hne : enteredA ≠ enteredB := by
        rintro rfl
        exact hab (Option.some.inj (hea.symm.trans heb))
      have hne' : leftB ≠ leftA := by
        rintro rfl
        exact hab (Option.some.inj (hla.symm.trans hlb))
      exact h.nested a b (pair_sublist_of_lt hea heb (by omega))
        (pair_sublist_of_lt hlb hla (by omega))

theorem parentAt_map (parents : Array (Option Nat)) :
    parentAt (parents.map (·.getD 0)) = parentIn parents := by
  funext b
  simp only [parentAt, parentIn, Array.getD_eq_getD_getElem?, Array.getElem?_map]
  cases parents[b]? <;> rfl

/-- With a parent for every position there is nothing to report. -/
theorem build_eq (function : String) {order : Array BlockId}
    {predecessors : BlockId → List BlockId} {positions : Array (List Nat)}
    {parents : Array (Option Nat)} {count : Nat}
    (hpositions : positions =
      order.map (fun b => (predecessors b).filterMap ((numbered order.toList)[·]?)))
    (hsettle : settle positions (order.size * order.size + 1) (started order.size) 0 =
      (parents, count))
    (known : ∀ b, b < order.size → Known parents b) :
    build function order predecessors =
      .ok (ofParents order positions (parents.map (·.getD 0)) count) := by
  have complete : (order.zip parents).find? (fun x => x.2.isNone) = none := by
    rw [Array.find?_eq_none]
    intro x hx
    obtain ⟨i, hi, rfl⟩ := Array.mem_iff_getElem.mp hx
    rw [Array.size_zip] at hi
    have hknown := known i (by omega)
    rw [Known, Array.getD_eq_getD_getElem?, Array.getElem?_eq_getElem (by omega)] at hknown
    rw [Array.getElem_zip]
    simpa [← Option.isSome_iff_ne_none] using hknown
  subst hpositions
  simp only [build, hsettle, complete]

end DominatorTree

/-! Positions for blocks. -/

namespace FlowGraph

variable {g : FlowGraph}

/-- A path from the entry, the block it ends at first. -/
abbrev Path (g : FlowGraph) (path : List BlockId) : Prop :=
  Walk (fun v w => w ∈ g.targets v) g.entry path

/-- Every path from the entry to `b` passes through `a`, and there is one to each. -/
def Dominates (g : FlowGraph) (a b : BlockId) : Prop :=
  g.Reachable a ∧ g.Reachable b ∧ ∀ before, g.Path (b :: before) → a ∈ b :: before

theorem reachable_iff {b : BlockId} : g.Reachable b ↔ ∃ before, g.Path (b :: before) :=
  ⟨Walk.of_reaches, fun ⟨_, h⟩ => h.reaches⟩

/-- What is known of the order of the blocks. -/
structure InOrder (g : FlowGraph) (order : List BlockId) : Prop where
  nodup : order.Nodup
  mem_iff : ∀ b, b ∈ order ↔ g.Reachable b
  first : order[0]? = some g.entry
  earlier : ∀ b ∈ order, b ≠ g.entry → ∃ p, b ∈ g.targets p ∧ [p, b].Sublist order

theorem inOrder_of_closed (hentry : g.contains g.entry = true)
    (hclosed : ∀ s t, t ∈ g.targets s → g.contains t = true) : g.InOrder g.reversePostorder := by
  obtain ⟨s, hs, explored⟩ := g.reversePostorder_explored
  have mem_iff : ∀ b, b ∈ s.left ↔ g.Reachable b :=
    fun b => hs ▸ mem_reversePostorder_of_closed hentry hclosed
  have earlier : ∀ b ∈ s.left, b ≠ g.entry →
      ∃ p, b ∈ g.targets p ∧ [p, b].Sublist s.left := by
    intro b hb hne
    rcases explored.source b (explored.mem_left.mp hb) with hroot | ⟨p, hp, -, hleft⟩
    · exact absurd (List.mem_singleton.mp hroot) hne
    · exact ⟨p, hp, hleft⟩
  rw [hs]
  refine ⟨explored.left_nodup, mem_iff, ?_, earlier⟩
  cases hleft : s.left with
  | nil =>
    have hentry := (mem_iff g.entry).mpr .refl
    rw [hleft] at hentry
    cases hentry
  | cons b rest =>
    rw [List.getElem?_cons_zero, Option.some.injEq]
    by_contra hne
    obtain ⟨p, -, hpair⟩ := earlier b (by rw [hleft]; simp) hne
    have hp : p ∈ s.left := hpair.subset (by simp)
    obtain ⟨i, hi⟩ := List.mem_iff_getElem?.mp hp
    have hzero : s.left[0]? = some b := by
      rw [hleft]
      rfl
    have := lt_of_pair_sublist explored.left_nodup hpair hi hzero
    omega

theorem Consistent.inOrder (h : Consistent g) : g.InOrder g.reversePostorder :=
  inOrder_of_closed h.entry (fun _ _ => h.closed)

/-- The predecessors of each block by their positions. -/
def positions (g : FlowGraph) (order : List BlockId) : Array (List Nat) :=
  order.toArray.map (fun b => (g.predecessors b).filterMap ((DominatorTree.numbered order)[·]?))

namespace InOrder

variable {order : List BlockId}

theorem getElem?_some (h : g.InOrder order) {b : BlockId} :
    (∃ i : Nat, order[i]? = some b) ↔ g.Reachable b := by
  rw [← h.mem_iff, List.mem_iff_getElem?]

theorem into_iff (h : g.InOrder order) (consistent : Consistent g) {i j : Nat} :
    DominatorTree.Into (g.positions order) i j ↔
      ∃ a b, order[i]? = some a ∧ order[j]? = some b ∧ b ∈ g.targets a := by
  rw [DominatorTree.Into, positions, Array.getD_eq_getD_getElem?, Array.getElem?_map,
    List.getElem?_toArray]
  cases hj : order[j]? with
  | none => simp
  | some b =>
    simp only [Option.map_some, Option.getD_some, List.mem_filterMap,
      DominatorTree.getElem?_numbered h.nodup, Option.some.injEq]
    constructor
    · rintro ⟨a, ha, hi⟩
      exact ⟨a, b, hi, rfl, consistent.sources.mp ha⟩
    · rintro ⟨a, _, hi, rfl, ha⟩
      exact ⟨a, consistent.sources.mpr ha, hi⟩

theorem size_positions (g : FlowGraph) (order : List BlockId) :
    (g.positions order).size = order.length := by
  simp [positions]

theorem pos (h : g.InOrder order) : 0 < order.length :=
  (List.getElem?_eq_some_iff.mp h.first).1

theorem ordered (h : g.InOrder order) (consistent : Consistent g) :
    DominatorTree.Ordered (g.positions order) := by
  refine ⟨?_, ?_⟩
  · intro i j hij
    obtain ⟨a, -, hi, -, -⟩ := (h.into_iff consistent).mp hij
    rw [size_positions]
    exact (List.getElem?_eq_some_iff.mp hi).1
  · intro j hj hlt
    rw [size_positions] at hlt
    have hb : order[j]? = some order[j] := List.getElem?_eq_getElem hlt
    have hne : order[j] ≠ g.entry := by
      intro he
      exact hj (getElem?_inj_of_nodup h.nodup (he ▸ hb) h.first)
    obtain ⟨p, hp, hpair⟩ := h.earlier _ (List.getElem_mem hlt) hne
    obtain ⟨i, hi⟩ := List.mem_iff_getElem?.mp (hpair.subset (by simp : p ∈ [p, order[j]]))
    have hinto := (h.into_iff consistent).mpr ⟨p, _, hi, hb, hp⟩
    exact ⟨i, lt_of_pair_sublist h.nodup hpair hi hb, hinto⟩

/-! A walk over positions is a path over blocks. -/

theorem path_of_walk (h : g.InOrder order) (consistent : Consistent g) {walk : List Nat}
    (hwalk : Walk (DominatorTree.Into (g.positions order)) 0 walk) :
    ∃ path, g.Path path ∧ walk.map (order[·]?) = path.map some := by
  induction hwalk with
  | start => exact ⟨[g.entry], .start, by simp [h.first]⟩
  | @step i j before _ hedge ih =>
    obtain ⟨path, hpath, hmap⟩ := ih
    obtain ⟨a, b, hi, hj, hb⟩ := (h.into_iff consistent).mp hedge
    cases path with
    | nil => cases hpath
    | cons c rest =>
      simp only [List.map_cons, List.cons.injEq, hi, Option.some.injEq] at hmap
      obtain ⟨rfl, hrest⟩ := hmap
      exact ⟨b :: a :: rest, hpath.step hb, by simp [hi, hj, hrest]⟩

theorem walk_of_path (h : g.InOrder order) (consistent : Consistent g) {path : List BlockId}
    (hpath : g.Path path) :
    ∃ walk, Walk (DominatorTree.Into (g.positions order)) 0 walk ∧
      walk.map (order[·]?) = path.map some := by
  induction hpath with
  | start => exact ⟨[0], .start, by simp [h.first]⟩
  | @step a b before hbefore hedge ih =>
    obtain ⟨walk, hwalk, hmap⟩ := ih
    obtain ⟨j, hj⟩ := h.getElem?_some.mpr (hbefore.step hedge).reaches
    cases walk with
    | nil => cases hwalk
    | cons i rest =>
      rw [List.map_cons, List.map_cons, List.cons.injEq] at hmap
      obtain ⟨hi, hrest⟩ := hmap
      refine ⟨j :: i :: rest, hwalk.step ((h.into_iff consistent).mpr ⟨a, b, hi, hj, hedge⟩), ?_⟩
      simp [hi, hj, hrest]

theorem dominates_iff (h : g.InOrder order) (consistent : Consistent g) {i j : Nat} {a b : BlockId}
    (hi : order[i]? = some a) (hj : order[j]? = some b) :
    Digraph.Dominates (DominatorTree.Into (g.positions order)) 0 i j ↔ g.Dominates a b := by
  constructor
  · intro hdom
    refine ⟨h.getElem?_some.mp ⟨i, hi⟩, h.getElem?_some.mp ⟨j, hj⟩, ?_⟩
    intro before hpath
    obtain ⟨walk, hwalk, hmap⟩ := h.walk_of_path consistent hpath
    cases walk with
    | nil => cases hwalk
    | cons k rest =>
      have hk : order[k]? = some b := (List.cons.inj hmap).1
      obtain rfl := getElem?_inj_of_nodup h.nodup hk hj
      have hmem : some a ∈ (k :: rest).map (order[·]?) :=
        List.mem_map.mpr ⟨i, hdom rest hwalk, hi⟩
      rw [hmap] at hmem
      simpa using hmem
  · rintro ⟨-, -, hdom⟩ before hwalk
    obtain ⟨path, hpath, hmap⟩ := h.path_of_walk consistent hwalk
    cases path with
    | nil => cases hpath
    | cons c rest =>
      have hc : order[j]? = some c := (List.cons.inj hmap).1
      obtain rfl : c = b := Option.some.inj (hc.symm.trans hj)
      have hmem : some a ∈ (c :: rest).map some := List.mem_map.mpr ⟨a, hdom rest hpath, rfl⟩
      rw [← hmap] at hmem
      obtain ⟨k, hk, hka⟩ := List.mem_map.mp hmem
      exact getElem?_inj_of_nodup h.nodup hka hi ▸ hk

end InOrder

/-! What the tree of a graph answers. -/

open DominatorTree (parentAt Above Tree)

/-- A tree whose positions are those of an order of the blocks, whose parents are the immediate
dominators, and whose numbers are those of the walk. -/
structure Exact (g : FlowGraph) (t : DominatorTree) : Prop where
  inOrder : g.InOrder t.order.toList
  order : t.order.toList = g.reversePostorder
  places : t.places = DominatorTree.numbered t.order.toList
  size : t.parents.size = t.order.size
  root : parentAt t.parents 0 = 0
  tree : Tree (parentAt t.parents) (· < t.parents.size)
  above_iff : ∀ {i j : Nat} {a b : BlockId}, t.order[i]? = some a → t.order[j]? = some b →
    (Above (parentAt t.parents) i j ↔ g.Dominates a b)
  frontiers : t.frontiers = DominatorTree.frontiersOf (g.positions t.order.toList) t.parents
  preorder : t.preorder = t.blocksAt (DominatorTree.walk t.parents).seen.reverse
  entered : t.entered = DominatorTree.numbered t.preorder
  left : t.left = DominatorTree.numbered (t.blocksAt (DominatorTree.walk t.parents).left.reverse)

/-- The passes over a graph end with its tree. -/
theorem Consistent.buildDominance (h : Consistent g) :
    ∃ t, g.buildDominance = .ok t ∧ t.passes ≤ t.order.size + 1 ∧ g.Exact t := by
  have inOrder := h.inOrder
  obtain ⟨parents, count, heq, hcount, settled⟩ := DominatorTree.settle_settled
    (inOrder.ordered h) (by rw [InOrder.size_positions]; exact inOrder.pos)
  have hsize : parents.size = g.reversePostorder.length := by
    rw [settled.size, InOrder.size_positions]
  simp only [InOrder.size_positions] at heq hcount
  have known : ∀ b, b < g.reversePostorder.toArray.size → DominatorTree.Known parents b := by
    intro b hb
    exact settled.known b (by simpa [InOrder.size_positions] using hb)
  have built := DominatorTree.build_eq g.function (by rfl) heq known
  rw [FlowGraph.buildDominance, if_pos h.entry, predecessors_index]
  refine ⟨_, built, hcount, ?_⟩
  exact {
    inOrder := inOrder
    order := rfl
    places := rfl
    size := by simpa [DominatorTree.ofParents] using hsize
    root := by
      change parentAt (parents.map (·.getD 0)) 0 = 0
      rw [DominatorTree.parentAt_map, DominatorTree.parentIn, settled.root]
      rfl
    tree := by
      change Tree (parentAt (parents.map (·.getD 0))) (· < (parents.map (·.getD 0)).size)
      rw [DominatorTree.parentAt_map, Array.size_map, hsize]
      have early : ∀ {b}, b < g.reversePostorder.length → b ≠ 0 →
          DominatorTree.parentIn parents b < b :=
        fun hb hne => settled.tree.earlier (known _ (by simpa using hb)) hne
      exact ⟨early, fun hb hne => Nat.lt_trans (early hb hne) hb⟩
    above_iff := by
      intro i j a b hi hj
      change g.reversePostorder.toArray[i]? = some a at hi
      change g.reversePostorder.toArray[j]? = some b at hj
      change Above (parentAt (parents.map (·.getD 0))) i j ↔ g.Dominates a b
      rw [List.getElem?_toArray] at hi hj
      rw [DominatorTree.parentAt_map, ← inOrder.dominates_iff h hi hj]
      refine settled.above_iff i j ?_
      rw [InOrder.size_positions]
      exact (List.getElem?_eq_some_iff.mp hj).1
    frontiers := rfl
    preorder := rfl
    entered := rfl
    left := rfl }

namespace Exact

variable {t : DominatorTree} {a b : BlockId} {i j : Nat}

theorem position?_eq (h : g.Exact t) : t.position? b = some i ↔ t.order[i]? = some b := by
  rw [DominatorTree.position?, h.places, DominatorTree.getElem?_numbered h.inOrder.nodup,
    Array.getElem?_toList]

theorem position_unique (h : g.Exact t) (hi : t.order[i]? = some b) (hj : t.order[j]? = some b) :
    i = j :=
  Option.some.inj ((h.position?_eq.mpr hi).symm.trans (h.position?_eq.mpr hj))

theorem first (h : g.Exact t) : t.order[0]? = some g.entry :=
  Array.getElem?_toList ▸ h.inOrder.first

theorem position?_none (h : g.Exact t) : t.position? b = none ↔ ¬g.Reachable b := by
  rw [DominatorTree.position?, h.places, ← h.inOrder.mem_iff, ← DominatorTree.mem_numbered,
    ← Option.not_isSome_iff_eq_none, ← Std.HashMap.mem_iff_isSome_getElem?]

theorem exists_position (h : g.Exact t) : (∃ i : Nat, t.order[i]? = some b) ↔ g.Reachable b := by
  rw [← h.inOrder.getElem?_some]
  simp only [Array.getElem?_toList]

theorem isReachable_iff (h : g.Exact t) : t.isReachable b = true ↔ g.Reachable b := by
  rw [DominatorTree.isReachable, h.places, Std.HashMap.contains_iff_mem,
    DominatorTree.mem_numbered, h.inOrder.mem_iff]

theorem lt_size (h : g.Exact t) (hi : t.order[i]? = some b) : i < t.parents.size :=
  h.size ▸ (Array.getElem?_eq_some_iff.mp hi).1

theorem walked (h : g.Exact t) : DominatorTree.Walked t.parents
    (DominatorTree.walk t.parents).seen.reverse (DominatorTree.walk t.parents).left.reverse := by
  refine DominatorTree.walk_walked h.tree ?_
  rw [h.size]
  exact (Array.getElem?_eq_some_iff.mp (Array.getElem?_toList ▸ h.inOrder.first)).1

theorem getElem?_blocksAt (h : g.Exact t) {xs : List Nat} (hxs : ∀ x ∈ xs, x < t.parents.size)
    (hi : t.order[i]? = some b) {k : Nat} (hk : xs[k]? = some i) :
    (t.blocksAt xs)[k]? = some b := by
  have total : ∀ x ∈ xs, (t.order[x]?).isSome = true := by
    intro x hx
    have hlt := hxs x hx
    rw [h.size] at hlt
    simp [hlt]
  rw [DominatorTree.blocksAt, getElem?_filterMap total, hk]
  exact hi

/-- The numbers of a block are those of its position. -/
theorem numbers (h : g.Exact t) (hi : t.order[i]? = some b) : ∃ entered left,
    t.entered[b]? = some entered ∧ t.left[b]? = some left ∧
    (DominatorTree.walk t.parents).seen.reverse[entered]? = some i ∧
    (DominatorTree.walk t.parents).left.reverse[left]? = some i := by
  have walked := h.walked
  have hentered := (walked.mem_iff i).mpr (h.lt_size hi)
  obtain ⟨entered, he⟩ := List.mem_iff_getElem?.mp hentered
  obtain ⟨left, hl⟩ := List.mem_iff_getElem?.mp (walked.perm.mem_iff.mpr hentered)
  refine ⟨entered, left, ?_, ?_, he, hl⟩
  · rw [h.entered, h.preorder, DominatorTree.getElem?_numbered
      (DominatorTree.nodup_blocksAt h.inOrder.nodup walked.nodup)]
    exact h.getElem?_blocksAt (fun x hx => (walked.mem_iff x).mp hx) hi he
  · rw [h.left, DominatorTree.getElem?_numbered
      (DominatorTree.nodup_blocksAt h.inOrder.nodup walked.nodup_left)]
    exact h.getElem?_blocksAt
      (fun x hx => (walked.mem_iff x).mp (walked.perm.mem_iff.mp hx)) hi hl

theorem mem_preorder (h : g.Exact t) : b ∈ t.preorder ↔ g.Reachable b := by
  rw [h.preorder, DominatorTree.blocksAt, List.mem_filterMap, ← h.exists_position]
  constructor
  · rintro ⟨i, -, hi⟩
    exact ⟨i, hi⟩
  · rintro ⟨i, hi⟩
    exact ⟨i, (h.walked.mem_iff i).mpr (h.lt_size hi), hi⟩

theorem dominates_iff (h : g.Exact t) : t.dominates a b = true ↔ g.Dominates a b := by
  have unnumbered : ∀ {c}, ¬g.Reachable c → t.entered[c]? = none := by
    intro c hc
    rw [h.entered, ← Option.not_isSome_iff_eq_none, ← Std.HashMap.mem_iff_isSome_getElem?,
      DominatorTree.mem_numbered, h.mem_preorder]
    exact hc
  by_cases ha : g.Reachable a
  · by_cases hb : g.Reachable b
    · obtain ⟨i, hi⟩ := h.exists_position.mpr ha
      obtain ⟨j, hj⟩ := h.exists_position.mpr hb
      obtain ⟨enteredA, leftA, hea, hla, hi', hi''⟩ := h.numbers hi
      obtain ⟨enteredB, leftB, heb, hlb, hj', hj''⟩ := h.numbers hj
      rw [← h.above_iff hi hj, h.walked.above_iff hi' hi'' hj' hj'']
      simp [DominatorTree.dominates, hea, hla, heb, hlb]
    · refine iff_of_false ?_ (fun hdom => hb hdom.2.1)
      rw [DominatorTree.dominates, unnumbered hb]
      split <;> simp_all
  · refine iff_of_false ?_ (fun hdom => ha hdom.1)
    rw [DominatorTree.dominates, unnumbered ha]
    split <;> simp_all

/-- The parent of a position stands for the immediate dominator. -/
theorem immediateDominator?_eq (h : g.Exact t) (hi : t.order[i]? = some b) (hne : b ≠ g.entry) :
    i ≠ 0 ∧ ∃ d, t.order[parentAt t.parents i]? = some d ∧ t.immediateDominator? b = some d := by
  have hzero : i ≠ 0 := by
    rintro rfl
    have := h.inOrder.first
    rw [Array.getElem?_toList, hi] at this
    exact hne (Option.some.inj this)
  have hlt := h.tree.stays (h.lt_size hi) hzero
  rw [h.size] at hlt
  have hd : t.order[parentAt t.parents i]? = some t.order[parentAt t.parents i] :=
    Array.getElem?_eq_getElem hlt
  refine ⟨hzero, _, hd, ?_⟩
  rw [DominatorTree.immediateDominator?, h.position?_eq.mpr hi]
  cases i with
  | zero => exact absurd rfl hzero
  | succ i => exact hd

/-- The immediate dominator is the strict dominator that all others dominate. -/
theorem immediateDominator?_some (h : g.Exact t) (hb : g.Reachable b) (hne : b ≠ g.entry) :
    ∃ d, t.immediateDominator? b = some d ∧ g.Dominates d b ∧ d ≠ b ∧
      ∀ a, g.Dominates a b → a ≠ b → g.Dominates a d := by
  obtain ⟨i, hi⟩ := h.exists_position.mpr hb
  obtain ⟨hzero, d, hd, heq⟩ := h.immediateDominator?_eq hi hne
  refine ⟨d, heq, (h.above_iff hd hi).mp (.step hzero .refl), ?_, ?_⟩
  · rintro rfl
    have hsame : parentAt t.parents i = i := h.position_unique hd hi
    have := h.tree.earlier (h.lt_size hi) hzero
    omega
  · intro a hdom hab
    obtain ⟨j, hj⟩ := h.exists_position.mpr hdom.1
    have hji : j ≠ i := by
      rintro rfl
      exact hab (Option.some.inj (hj.symm.trans hi))
    exact (h.above_iff hj hd).mp (((h.above_iff hj hi).mpr hdom).up_of_ne hji).2

theorem immediateDominator?_none (h : g.Exact t) :
    t.immediateDominator? b = none ↔ b = g.entry ∨ ¬g.Reachable b := by
  by_cases hb : g.Reachable b
  · by_cases hne : b = g.entry
    · have hzero : t.position? b = some 0 := by
        rw [h.position?_eq, hne, ← Array.getElem?_toList]
        exact h.inOrder.first
      rw [DominatorTree.immediateDominator?, hzero]
      simp [hne]
    · obtain ⟨d, heq, -⟩ := h.immediateDominator?_some hb hne
      simp [heq, hne, hb]
  · rw [DominatorTree.immediateDominator?, h.position?_none.mpr hb]
    simp [hb]

theorem preorder_nodup (h : g.Exact t) : t.preorder.Nodup :=
  h.preorder ▸ DominatorTree.nodup_blocksAt h.inOrder.nodup h.walked.nodup

/-- The walk enters a block after its immediate dominator. -/
theorem preorder_pair (h : g.Exact t) {d : BlockId} (heq : t.immediateDominator? b = some d) :
    [d, b].Sublist t.preorder := by
  have hb : g.Reachable b := by
    by_contra hb
    rw [h.immediateDominator?_none.mpr (.inr hb)] at heq
    cases heq
  have hne : b ≠ g.entry := by
    intro hne
    rw [h.immediateDominator?_none.mpr (.inl hne)] at heq
    cases heq
  obtain ⟨i, hi⟩ := h.exists_position.mpr hb
  obtain ⟨hzero, d', hd, heq'⟩ := h.immediateDominator?_eq hi hne
  obtain rfl : d' = d := Option.some.inj (heq'.symm.trans heq)
  have hpair := (h.walked.child i ((h.walked.mem_iff i).mpr (h.lt_size hi)) hzero).1
  have := hpair.filterMap (t.order[·]?)
  rwa [List.filterMap_cons_some hd, List.filterMap_cons_some hi, List.filterMap_nil,
    ← DominatorTree.blocksAt, ← h.preorder] at this

/-! Climbing from a block. -/

theorem climb_above {parents : Array Nat} (tree : Tree (parentAt parents) (· < parents.size)) :
    ∀ fuel b, b ≤ fuel → b < parents.size →
      (∀ x, x ∈ DominatorTree.climb parents fuel b ↔ Above (parentAt parents) x b) ∧
      (DominatorTree.climb parents fuel b).Pairwise (fun y x => Above (parentAt parents) x y) := by
  intro fuel
  induction fuel with
  | zero =>
    intro b hb hlt
    obtain rfl : b = 0 := by omega
    refine ⟨fun x => ?_, by simp [DominatorTree.climb]⟩
    rw [DominatorTree.climb, List.mem_singleton]
    refine ⟨fun hx => hx ▸ .refl, fun hx => ?_⟩
    have := hx.le tree hlt
    omega
  | succ fuel ih =>
    intro b hb hlt
    rw [DominatorTree.climb]
    by_cases hzero : b = 0
    · subst hzero
      rw [if_pos rfl]
      refine ⟨fun x => ?_, by simp⟩
      rw [List.mem_singleton]
      refine ⟨fun hx => hx ▸ .refl, fun hx => ?_⟩
      have := hx.le tree hlt
      omega
    · rw [if_neg hzero]
      have hup := tree.earlier hlt hzero
      obtain ⟨hmem, hpairwise⟩ := ih (parentAt parents b) (by omega) (tree.stays hlt hzero)
      refine ⟨fun x => ?_, List.pairwise_cons.mpr ⟨fun x hx => ?_, hpairwise⟩⟩
      · rw [List.mem_cons, ← parentAt, hmem]
        constructor
        · rintro (rfl | hx)
          · exact .refl
          · exact .step hzero hx
        · intro hx
          by_cases hxb : x = b
          · exact .inl hxb
          · exact .inr (hx.up_of_ne hxb).2
      · exact .step hzero ((hmem x).mp hx)

end Exact

/-- Two blocks that lead to each other, both of which the entry leads to. -/
def crossed : FlowGraph :=
  let branch (t f : Nat) : Terminator := .branch (.expr ⟨0⟩) ⟨t⟩ ⟨f⟩
  { function := "crossed"
    entry := ⟨0⟩
    blocks := [
      { id := ⟨0⟩, terminator := some (branch 1 2), origin := ⟨.entry, 0, none⟩
        predecessors := [⟨2⟩], successors := (branch 1 2).edges },
      { id := ⟨1⟩, terminator := some (.jump ⟨2⟩ .normal), origin := ⟨.thenPart, 0, none⟩
        predecessors := [⟨0⟩, ⟨2⟩], successors := [⟨⟨2⟩, .normal⟩] },
      { id := ⟨2⟩, terminator := some (branch 1 0), origin := ⟨.elsePart, 0, none⟩
        predecessors := [⟨0⟩, ⟨1⟩], successors := (branch 1 0).edges }]
    nextBlock := 3 }

theorem produced_crossed : Produced crossed := by
  have made := ((Produced.new "crossed").createBlock .thenPart none 0 rfl).createBlock
    .elsePart none 0 rfl
  have entry := @Produced.setTerminator _ _ ⟨0⟩ (.branch (.expr ⟨0⟩) ⟨1⟩ ⟨2⟩) made rfl
  have first := @Produced.setTerminator _ _ ⟨1⟩ (.jump ⟨2⟩ .normal) entry rfl
  exact @Produced.setTerminator _ crossed ⟨2⟩ (.branch (.expr ⟨0⟩) ⟨1⟩ ⟨0⟩) first rfl

end FlowGraph

end TypedSsa

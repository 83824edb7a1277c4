import Mathlib.Data.List.Nodup
import TypedSsa.Proofs.Components
import TypedSsa.Proofs.Keys
import TypedSsa.Typing.Condensation

/-!
A dependency graph is resolved component by component in an order that its dependencies allow. Main
statement: `TypeGraph.condense_schedule`. Every node is in one component of the order, and whatever
a member depends on is in the same component or in an earlier one.
-/

namespace TypedSsa

/-! Lists in which each item is made with a look at those before it. -/

section

variable {α β : Type} (make : Array β → α → β)

theorem size_foldl_push (xs : List α) (made : Array β) :
    (xs.foldl (fun made x => made.push (make made x)) made).size = made.size + xs.length := by
  induction xs generalizing made with
  | nil => rfl
  | cons x xs ih =>
    rw [List.foldl_cons, ih, Array.size_push, List.length_cons]
    omega

theorem getElem?_foldl_push (xs : List α) {made : Array β} {j : Nat} (hj : j < made.size) :
    (xs.foldl (fun made x => made.push (make made x)) made)[j]? = made[j]? := by
  induction xs generalizing made with
  | nil => rfl
  | cons x xs ih =>
    rw [List.foldl_cons, ih (by rw [Array.size_push]; omega), Array.getElem?_push_lt hj,
      Array.getElem?_eq_getElem hj]

/-- What stands at a place was made from what stands before it. -/
theorem foldl_push_split {xs : List α} {i : Nat} {x : α} (hx : xs[i]? = some x) :
    ∃ made : Array β, made.size = i ∧
      (xs.foldl (fun made x => made.push (make made x)) #[])[i]? = some (make made x) ∧
      ∀ j < i, (xs.foldl (fun made x => made.push (make made x)) #[])[j]? = made[j]? := by
  obtain ⟨before, after, rfl, rfl⟩ : ∃ before after, xs = before ++ x :: after ∧
      before.length = i := by
    obtain ⟨hi, rfl⟩ := List.getElem?_eq_some_iff.mp hx
    exact ⟨xs.take i, xs.drop (i + 1), by simp,
      by rw [List.length_take, Nat.min_eq_left (Nat.le_of_lt hi)]⟩
  have hsize := size_foldl_push make before #[]
  rw [Array.size_empty, Nat.zero_add] at hsize
  refine ⟨_, hsize, ?_⟩
  simp only [List.foldl_append, List.foldl_cons]
  generalize before.foldl (fun made x => made.push (make made x)) #[] = made at hsize ⊢
  rw [← hsize]
  constructor
  · rw [getElem?_foldl_push make _ (by simp), Array.getElem?_push_size]
  · intro j hj
    rw [getElem?_foldl_push make _ (by rw [Array.size_push]; omega), Array.getElem?_push_lt hj,
      Array.getElem?_eq_getElem hj]

end

namespace Condensation

/-! The group of a node. -/

theorem getElem?_foldl_set (members : List Nat) (x : ComponentId) (owners : Array ComponentId)
    {v : Nat} (hv : v < owners.size) :
    (members.foldl (·.setIfInBounds · x) owners)[v]? =
      if v ∈ members then some x else owners[v]? := by
  induction members generalizing owners with
  | nil => simp
  | cons m members ih =>
    rw [List.foldl_cons, ih _ (by simpa using hv), Array.getElem?_setIfInBounds]
    by_cases hm : m = v
    · subst hm
      simp [hv]
    · have hvm : v ≠ m := fun he => hm he.symm
      simp [hm, hvm]

theorem size_foldl_set (members : List Nat) (x : ComponentId) (owners : Array ComponentId) :
    (members.foldl (·.setIfInBounds · x) owners).size = owners.size := by
  induction members generalizing owners with
  | nil => rfl
  | cons m members ih => rw [List.foldl_cons, ih, Array.size_setIfInBounds]

theorem getElem?_ownersOf {n v i : Nat} {groups : List (List Nat)} {c : List Nat}
    (hnodup : groups.flatten.Nodup) (hc : groups[i]? = some c) (hv : v ∈ c) (hvn : v < n) :
    (ownersOf n groups)[v]? = some ⟨i⟩ := by
  -- `k` groups went before; once the group of `v` has passed, no later one has `v`
  suffices ∀ (groups : List (List Nat)) (k : Nat) (owners : Array ComponentId), v < owners.size →
      groups.flatten.Nodup →
      ((groups.zipIdx k).foldl (fun owners group =>
        group.1.foldl (·.setIfInBounds · ⟨group.2⟩) owners) owners)[v]? =
      (groups.findIdx? (v ∈ ·)).elim owners[v]? (fun i => some ⟨k + i⟩) by
    have hidx : groups.findIdx? (v ∈ ·) = some i := by
      obtain ⟨hi, rfl⟩ := List.getElem?_eq_some_iff.mp hc
      rw [List.findIdx?_eq_some_iff_getElem]
      refine ⟨hi, by simpa using hv, fun j hj => ?_⟩
      have hdisjoint := (List.nodup_flatten.mp hnodup).2
      have := List.pairwise_iff_getElem.mp hdisjoint j i (by omega) hi hj
      simpa using fun hvj => this hvj hv
    have h := this groups 0 (Array.replicate n .invalid) (by simpa using hvn) hnodup
    rw [hidx, Option.elim_some, Nat.zero_add] at h
    exact h
  intro groups
  induction groups with
  | nil => simp
  | cons c groups ih =>
    intro k owners hsize hnodup
    have hflat : groups.flatten.Nodup := (List.nodup_append.mp (List.flatten_cons ▸ hnodup)).2.1
    rw [List.zipIdx_cons, List.foldl_cons,
      ih (k + 1) _ (by rw [size_foldl_set]; exact hsize) hflat, List.findIdx?_cons]
    by_cases hvc : v ∈ c
    · have hlater : groups.findIdx? (v ∈ ·) = none := by
        rw [List.findIdx?_eq_none_iff]
        intro d hd
        have hdisjoint := (List.nodup_append.mp (List.flatten_cons ▸ hnodup)).2.2
        simpa using fun hvd => hdisjoint v hvc v (List.mem_flatten.mpr ⟨d, hd, hvd⟩) rfl
      simp [hlater, hvc, getElem?_foldl_set c ⟨k⟩ owners hsize]
    · cases groups.findIdx? (v ∈ ·) with
      | none => simp [hvc, getElem?_foldl_set c ⟨k⟩ owners hsize]
      | some i =>
        simp only [hvc, decide_false, Bool.false_eq_true, if_false, Option.map_some,
          Option.elim_some]
        congr 2
        omega

theorem size_ownersOf (n : Nat) (groups : List (List Nat)) : (ownersOf n groups).size = n := by
  suffices ∀ (groups : List (List Nat)) (k : Nat) (owners : Array ComponentId),
      ((groups.zipIdx k).foldl (fun owners group =>
        group.1.foldl (·.setIfInBounds · ⟨group.2⟩) owners) owners).size = owners.size from
    (this groups 0 (Array.replicate n .invalid)).trans Array.size_replicate
  intro groups
  induction groups with
  | nil => exact fun _ _ => rfl
  | cons c groups ih =>
    intro k owners
    rw [List.zipIdx_cons, List.foldl_cons, ih, size_foldl_set]

theorem lt_of_ownersOf {n w : Nat} {groups : List (List Nat)} {x : ComponentId}
    (h : (ownersOf n groups)[w]? = some x) : w < n :=
  size_ownersOf n groups ▸ (Array.getElem?_eq_some_iff.mp h).1

/-! What a component says. -/

theorem le_foldl_max {xs : List Nat} {x : Nat} (hx : x ∈ xs) (least : Nat) :
    x ≤ xs.foldl max least := by
  have hleast : ∀ (xs : List Nat) (least : Nat), least ≤ xs.foldl max least := by
    intro xs
    induction xs with
    | nil => exact fun _ => Nat.le_refl _
    | cons y ys ih => exact fun least => Nat.le_trans (Nat.le_max_left least y) (ih _)
  induction xs generalizing least with
  | nil => cases hx
  | cons y ys ih =>
    rcases List.mem_cons.mp hx with rfl | hx
    · exact Nat.le_trans (Nat.le_max_right least x) (hleast ys _)
    · exact ih hx _

theorem foldl_max_mem (xs : List Nat) (least : Nat) :
    xs.foldl max least = least ∨ xs.foldl max least ∈ xs := by
  induction xs generalizing least with
  | nil => exact .inl rfl
  | cons x xs ih =>
    rw [List.foldl_cons, List.mem_cons]
    rcases ih (max least x) with hsame | hmem
    · rw [hsame]
      rcases Nat.le_total least x with hle | hle
      · exact .inr (.inl (Nat.max_eq_right hle))
      · exact .inl (Nat.max_eq_left hle)
    · exact .inr (.inr hmem)

/-- A component stands for a class of nodes. What its members depend on is among them or in a
component of a lower level, and one of these is just below. -/
structure Describes (n : Nat) (next : Nat → List Nat) (comps : Array Component) (i : Nat)
    (c : List Nat) (k : Component) : Prop where
  at_place : comps[i]? = some k
  id : k.id = ⟨i⟩
  members : k.members = c.map (⟨·⟩)
  cyclic : k.cyclic = true ↔ ∃ v ∈ c, Relation.TransGen (fun v w => w ∈ Digraph.within n next v) v v
  below : ∀ v ∈ c, ∀ w ∈ next v, w < n →
    w ∈ c ∨ ∃ b ∈ comps, ⟨w⟩ ∈ b.members ∧ b.level < k.level
  attained : 0 < k.level → ∃ v ∈ c, ∃ w ∈ next v, w < n ∧ w ∉ c ∧
    ∃ b ∈ comps, ⟨w⟩ ∈ b.members ∧ b.level + 1 = k.level

variable {n : Nat} {next : Nat → List Nat} {cs : List (List Nat)}

/-- What a member of a component leads to is in this component or in an earlier one. -/
theorem owner_of_next (h : Digraph.Decomposes n next cs) {i : Nat} {c : List Nat}
    (hc : cs[i]? = some c) {v w : Nat} (hv : v ∈ c) (hw : w ∈ next v) (hwn : w < n) :
    ∃ j d, cs[j]? = some d ∧ w ∈ d ∧ j ≤ i ∧ (ownersOf n cs)[w]? = some ⟨j⟩ := by
  obtain ⟨d, hd, hwd⟩ := List.mem_flatten.mp ((h.covered w).mpr hwn)
  obtain ⟨j, hj⟩ := List.getElem?_of_mem hd
  refine ⟨j, d, hj, hwd, ?_, getElem?_ownersOf h.nodup hj hwd hwn⟩
  by_contra hlate
  obtain ⟨hi, rfl⟩ := List.getElem?_eq_some_iff.mp hc
  obtain ⟨hj', rfl⟩ := List.getElem?_eq_some_iff.mp hj
  exact List.pairwise_iff_getElem.mp h.order i j hi hj' (by omega) v hv w hwd
    (.single (Digraph.mem_within.mpr ⟨hw, hwn⟩))

/-- A component is among the owners of what its members lead to if a member leads to a member. -/
theorem mem_owners_iff (h : Digraph.Decomposes n next cs) {i : Nat} {c : List Nat}
    (hc : cs[i]? = some c) :
    ⟨i⟩ ∈ c.flatMap (fun v => (next v).filterMap ((ownersOf n cs)[·]?)) ↔
      ∃ v ∈ c, ∃ w ∈ next v, w ∈ c := by
  rw [List.mem_flatMap]
  refine exists_congr fun v => and_congr_right fun hv => ?_
  rw [List.mem_filterMap]
  refine exists_congr fun w => and_congr_right fun hw => ⟨fun hown => ?_, fun hwc => ?_⟩
  · obtain ⟨j, d, hj, hwd, -, hown'⟩ := owner_of_next h hc hv hw (lt_of_ownersOf hown)
    obtain rfl : j = i := by simpa [hown'] using hown
    exact Option.some.inj (hj.symm.trans hc) ▸ hwd
  · exact getElem?_ownersOf h.nodup hc hwc ((h.classes c (List.mem_of_getElem? hc)).below w hwc)

theorem describes (h : Digraph.Decomposes n next cs) {i : Nat} {c : List Nat}
    (hc : cs[i]? = some c) :
    ∃ k, Describes n next (cs.foldl (fun done members =>
      done.push (describe (ownersOf n cs) next done members)) #[]) i c k := by
  obtain ⟨done, hsize, hplace, hbefore⟩ := foldl_push_split (describe (ownersOf n cs) next) hc
  refine ⟨_, hplace, by rw [describe, hsize], rfl, ?_, ?_, ?_⟩
  · rw [describe, Bool.or_eq_true, hsize, List.contains_iff_mem, mem_owners_iff h hc,
      decide_eq_true_eq]
    exact (h.classes c (List.mem_of_getElem? hc)).cycle_iff
  · intro v hv w hw hwn
    obtain ⟨j, d, hj, hwd, hji, hown⟩ := owner_of_next h hc hv hw hwn
    rcases Nat.lt_or_eq_of_le hji with hji | rfl
    case inr => exact .inl (Option.some.inj (hj.symm.trans hc) ▸ hwd)
    right
    obtain ⟨done', -, hplace', -⟩ := foldl_push_split (describe (ownersOf n cs) next) hj
    refine ⟨_, Array.mem_of_getElem? hplace', List.mem_map.mpr ⟨w, hwd, rfl⟩, ?_⟩
    refine le_foldl_max (List.mem_filterMap.mpr ⟨⟨j⟩, ?_, ?_⟩) 0
    · rw [List.mem_filter, mem_firstsBy Ident.raw_inj, List.mem_flatMap, hsize]
      refine ⟨⟨v, hv, List.mem_filterMap.mpr ⟨w, hw, hown⟩⟩, ?_⟩
      simpa using Nat.ne_of_lt hji
    · rw [← hbefore j hji, hplace']
      rfl
  · intro hlevel
    rw [describe] at hlevel ⊢
    dsimp only at hlevel ⊢
    obtain ⟨d, hd, hbelow⟩ := List.mem_filterMap.mp
      ((foldl_max_mem _ 0).resolve_left (Nat.ne_of_gt hlevel))
    rw [List.mem_filter, mem_firstsBy Ident.raw_inj, List.mem_flatMap, hsize] at hd
    obtain ⟨⟨v, hv, htarget⟩, hother⟩ := hd
    obtain ⟨w, hw, hown⟩ := List.mem_filterMap.mp htarget
    have hwn := lt_of_ownersOf hown
    obtain ⟨j, d', hj, hwd, hji, hown'⟩ := owner_of_next h hc hv hw hwn
    obtain rfl : ⟨j⟩ = d := Option.some.inj (hown'.symm.trans hown)
    obtain ⟨b, hb, hsame⟩ := Option.map_eq_some_iff.mp hbelow
    have hji : j < i := Nat.lt_of_le_of_ne hji (by simpa using hother)
    obtain ⟨done', -, hplace', -⟩ := foldl_push_split (describe (ownersOf n cs) next) hj
    have hcomp := (hbefore j hji).trans hb
    refine ⟨v, hv, w, hw, hwn, fun hwc => ?_, b, Array.mem_of_getElem? hcomp, ?_, hsame⟩
    · have hown := getElem?_ownersOf h.nodup hc hwc hwn
      rw [hown'] at hown
      simp only [Option.some.injEq, Ident.mk.injEq] at hown
      omega
    · rw [Option.some.inj (hcomp.symm.trans hplace')]
      exact List.mem_map.mpr ⟨w, hwd, rfl⟩

theorem map_members {comps : Array Component} (hsize : comps.size = cs.length)
    (hdescribed : ∀ (i : Nat) (k : Component), comps[i]? = some k →
      ∃ c, cs[i]? = some c ∧ Describes n next comps i c k) :
    comps.toList.map (·.members) = cs.map (·.map Ident.mk) := by
  refine List.ext_getElem? fun i => ?_
  rw [List.getElem?_map, List.getElem?_map, Array.getElem?_toList]
  cases hi : comps[i]? with
  | none =>
    rw [List.getElem?_eq_none (by rw [← hsize]; exact Array.getElem?_eq_none_iff.mp hi)]
    rfl
  | some k =>
    obtain ⟨c, hc, hk⟩ := hdescribed i k hi
    rw [hc, Option.map_some, Option.map_some, hk.members]

theorem members_flatten {comps : Array Component} (hsize : comps.size = cs.length)
    (hdescribed : ∀ (i : Nat) (k : Component), comps[i]? = some k →
      ∃ c, cs[i]? = some c ∧ Describes n next comps i c k) :
    comps.toList.flatMap (·.members) = cs.flatten.map Ident.mk := by
  rw [List.flatMap_def, map_members hsize hdescribed, List.map_flatten]

/-! The condensation of a graph. -/

theorem size_build (n : Nat) (next : Nat → List Nat) :
    (build n next).components.size = (Digraph.components n next).length := by
  rw [build, size_foldl_push, Array.size_empty, Nat.zero_add]

theorem build_describes {i : Nat} {k : Component} (hk : (build n next).components[i]? = some k) :
    ∃ c, (Digraph.components n next)[i]? = some c ∧
      Describes n next (build n next).components i c k := by
  obtain ⟨hi, -⟩ := Array.getElem?_eq_some_iff.mp hk
  have hc := List.getElem?_eq_getElem (size_build n next ▸ hi)
  obtain ⟨k', hk'⟩ := describes (Digraph.components_decompose n next) hc
  obtain rfl := Option.some.inj (hk'.at_place.symm.trans hk)
  exact ⟨_, hc, hk'⟩

/-! Components by level. -/

/-- What is below an item comes before it where levels rise. -/
theorem mem_before {α : Type} {level : α → Nat} {before after : List α} {x y : α}
    (hsorted : (before ++ x :: after).Pairwise (level · ≤ level ·))
    (hy : y ∈ before ++ x :: after) (hlevel : level y < level x) : y ∈ before := by
  refine (List.mem_append.mp hy).resolve_right fun hlate => ?_
  rcases List.mem_cons.mp hlate with rfl | hlate
  · exact Nat.lt_irrefl _ hlevel
  · have hle := List.rel_of_pairwise_cons (List.pairwise_append.mp hsorted).2.1 hlate
    exact Nat.lt_irrefl _ (Nat.lt_of_lt_of_le hlevel hle)

theorem filter_levels_perm {α : Type} (level : α → Nat) (xs : List α) (depth : Nat) :
    ((List.range depth).flatMap (fun l => xs.filter (level · == l))).Perm
      (xs.filter (level · < depth)) := by
  induction depth with
  | zero => simp
  | succ depth ih =>
    rw [List.range_succ, List.flatMap_append, List.flatMap_singleton]
    have hsplit := List.filter_append_perm (level · < depth) (xs.filter (level · < depth + 1))
    rw [List.filter_filter, List.filter_filter] at hsplit
    have hbelow : xs.filter (fun x => (level x < depth) && (level x < depth + 1)) =
        xs.filter (level · < depth) := by
      refine List.filter_congr fun x _ => ?_
      rw [Bool.eq_iff_iff]
      simp
      omega
    have hat : xs.filter (fun x => !decide (level x < depth) && (level x < depth + 1)) =
        xs.filter (level · == depth) := by
      refine List.filter_congr fun x _ => ?_
      rw [Bool.eq_iff_iff]
      simp
      omega
    rw [hbelow, hat] at hsplit
    exact (ih.append_right _).trans hsplit

/-- The id of a component is its place. -/
def Numbered (c : Condensation) : Prop :=
  ∀ (i : Nat) (k : Component), c.components[i]? = some k → k.id = ⟨i⟩

/-- The components in the order in which they are resolved. -/
def order (c : Condensation) : List Component :=
  c.waves.flatten.filterMap c.component?

variable {c : Condensation}

theorem order_eq (hid : c.Numbered) :
    c.order = (List.range c.depth).flatMap
      (fun level => c.components.toList.filter (·.level == level)) := by
  rw [order, waves, ← List.flatMap_def, List.filterMap_flatMap]
  refine congrArg (fun f => (List.range c.depth).flatMap f) (funext fun level => ?_)
  rw [getD_groupBy, List.filterMap_map, List.filterMap_congr (g := some), List.filterMap_some]
  intro k hk
  obtain ⟨i, hi⟩ := Array.getElem?_of_mem (Array.mem_toList_iff.mp (List.mem_of_mem_filter hk))
  rw [Function.comp_apply, component?, hid i k hi]
  exact hi

theorem level_lt_depth {k : Component} (hk : k ∈ c.components.toList) : k.level < c.depth := by
  rw [depth, ← Array.foldl_toList, Array.toList_map]
  exact le_foldl_max (List.mem_map_of_mem (f := (·.level + 1)) hk) 0

/-- There is nothing on the levels from the depth on. -/
theorem order_eq_of_le (hid : c.Numbered) {depth : Nat} (h : c.depth ≤ depth) :
    c.order = (List.range depth).flatMap
      (fun level => c.components.toList.filter (·.level == level)) := by
  obtain ⟨more, rfl⟩ := Nat.exists_eq_add_of_le h
  have hnone : ((List.range more).map (c.depth + ·)).flatMap
      (fun level => c.components.toList.filter (·.level == level)) = [] := by
    rw [List.flatMap_eq_nil_iff]
    intro level hlevel
    obtain ⟨i, -, rfl⟩ := List.mem_map.mp hlevel
    rw [List.filter_eq_nil_iff]
    intro k hk hsame
    have hlt := level_lt_depth hk
    rw [eq_of_beq hsame] at hlt
    omega
  rw [List.range_add, List.flatMap_append, hnone, List.append_nil, order_eq hid]

theorem order_perm (hid : c.Numbered) :
    c.order.Perm c.components.toList := by
  rw [order_eq hid]
  refine (filter_levels_perm Component.level _ _).trans (List.filter_eq_self.mpr ?_ ▸ .refl _)
  exact fun k hk => decide_eq_true (level_lt_depth hk)

theorem order_sorted (hid : c.Numbered) :
    c.order.Pairwise (·.level ≤ ·.level) := by
  rw [order_eq hid, List.pairwise_flatMap]
  constructor
  · intro level _
    refine List.pairwise_of_forall_mem_list fun k hk b hb => ?_
    have hk := (List.mem_filter.mp hk).2
    have hb := (List.mem_filter.mp hb).2
    simp only [beq_iff_eq] at hk hb
    omega
  · refine List.pairwise_lt_range.imp fun {l m} hlm k hk b hb => ?_
    have hk := (List.mem_filter.mp hk).2
    have hb := (List.mem_filter.mp hb).2
    simp only [beq_iff_eq] at hk hb
    omega

end Condensation

namespace TypeGraph

def DependsOn (g : TypeGraph) (m d : TypeNodeId) : Prop :=
  d ∈ g.dependencies m ∧ d.raw < g.size

/-- The targets of a node's edges. -/
def targets (g : TypeGraph) (v : Nat) : List Nat :=
  (g.nodes.map (fun n => n.rule.dependencies.map (·.raw))).getD v []

theorem mem_targets {g : TypeGraph} {m d : TypeNodeId} :
    d.raw ∈ g.targets m.raw ↔ d ∈ g.dependencies m := by
  rw [targets, dependencies, rule?, node?]
  cases h : g.nodes[m.raw]? with
  | none => simp [Array.getD_eq_getD_getElem?, h]
  | some node =>
    simp only [Array.getD_eq_getD_getElem?, Array.getElem?_map, h, Option.map_some,
      Option.getD_some, List.mem_map]
    exact ⟨fun ⟨e, he, hed⟩ => Ident.raw_inj e d hed ▸ he, fun hd => ⟨d, hd, rfl⟩⟩

theorem dependsOn_iff {g : TypeGraph} {m d : TypeNodeId} :
    g.DependsOn m d ↔ d.raw ∈ Digraph.within g.size g.targets m.raw := by
  rw [Digraph.mem_within, mem_targets]
  rfl

theorem reaches_iff {g : TypeGraph} {m d : TypeNodeId} :
    Relation.ReflTransGen g.DependsOn m d ↔
      Digraph.Reaches (Digraph.within g.size g.targets) m.raw d.raw :=
  ⟨Relation.ReflTransGen.lift Ident.raw (fun _ _ => dependsOn_iff.mp) m d,
    Relation.ReflTransGen.lift (Ident.mk : Nat → TypeNodeId) (fun _ _ => dependsOn_iff.mpr)
      m.raw d.raw⟩

theorem cycle_iff {g : TypeGraph} {m : TypeNodeId} :
    Relation.TransGen g.DependsOn m m ↔
      Relation.TransGen (fun v w => w ∈ Digraph.within g.size g.targets v) m.raw m.raw :=
  ⟨Relation.TransGen.lift Ident.raw (fun _ _ => dependsOn_iff.mp) m m,
    Relation.TransGen.lift (Ident.mk : Nat → TypeNodeId) (fun _ _ => dependsOn_iff.mpr) m.raw m.raw⟩

/-- Components in an order in which nothing depends on what comes after it. -/
structure Schedule (g : TypeGraph) (order : List Component) : Prop where
  covered : ∀ m : TypeNodeId, m ∈ order.flatMap (·.members) ↔ m.raw < g.size
  nodup : (order.flatMap (·.members)).Nodup
  nonempty : ∀ c ∈ order, c.members ≠ []
  sorted : ∀ c ∈ order, c.members.Pairwise (·.raw < ·.raw)
  members : ∀ c ∈ order, ∀ m ∈ c.members, ∀ d, d ∈ c.members ↔
    Relation.ReflTransGen g.DependsOn m d ∧ Relation.ReflTransGen g.DependsOn d m
  cyclic : ∀ c ∈ order, c.cyclic = true ↔ ∃ m ∈ c.members, Relation.TransGen g.DependsOn m m
  ready : ∀ before c after, order = before ++ c :: after → ∀ m ∈ c.members, ∀ d,
    g.DependsOn m d → d ∈ c.members ∨ ∃ b ∈ before, d ∈ b.members

namespace Schedule

variable {g : TypeGraph} {order : List Component}

theorem acyclic_of_mem (h : g.Schedule order) {c : Component} (hc : c ∈ order)
    (hcyclic : c.cyclic = false) {m : TypeNodeId} (hm : m ∈ c.members) :
    ¬Relation.TransGen g.DependsOn m m := by
  intro hcycle
  rw [(h.cyclic c hc).mpr ⟨m, hm, hcycle⟩] at hcyclic
  cases hcyclic

/-- A component without a cycle is a node that does not depend on itself. -/
theorem single (h : g.Schedule order) {c : Component} (hc : c ∈ order)
    (hcyclic : c.cyclic = false) :
    ∃ m, c.members = [m] ∧ ¬g.DependsOn m m := by
  have hcycle : ∀ m ∈ c.members, ¬Relation.TransGen g.DependsOn m m :=
    fun m => h.acyclic_of_mem hc hcyclic
  match hmembers : c.members with
  | [] => exact absurd hmembers (h.nonempty c hc)
  | [m] => exact ⟨m, rfl, fun hm => hcycle m (by simp [hmembers]) (.single hm)⟩
  | m :: d :: rest =>
    have hm : m ∈ c.members := by simp [hmembers]
    have hne : m ≠ d := by
      have hsorted := h.sorted c hc
      rw [hmembers] at hsorted
      rintro rfl
      exact Nat.lt_irrefl _ (List.rel_of_pairwise_cons hsorted (by simp))
    obtain ⟨hmd, hdm⟩ := (h.members c hc m hm d).mp (by simp [hmembers])
    have hstep := (Relation.reflTransGen_iff_eq_or_transGen.mp hmd).resolve_left hne.symm
    exact absurd (hstep.trans_left hdm) (hcycle m hm)

/-- Nothing depends on what comes later. -/
theorem closed (h : g.Schedule order) {past rest : List Component} (hsplit : order = past ++ rest)
    {m d : TypeNodeId} (hm : m ∈ past.flatMap (·.members)) (hd : g.DependsOn m d) :
    d ∈ past.flatMap (·.members) := by
  obtain ⟨c, hc, hmc⟩ := List.mem_flatMap.mp hm
  obtain ⟨before, after, rfl⟩ := List.append_of_mem hc
  have hready := h.ready before c (after ++ rest) (by simpa using hsplit) m hmc d hd
  rw [List.flatMap_append, List.flatMap_cons, List.mem_append, List.mem_append]
  rcases hready with hdc | ⟨b, hb, hdb⟩
  · exact .inr (.inl hdc)
  · exact .inl (List.mem_flatMap.mpr ⟨b, hb, hdb⟩)

/-- Some nodes that reach each other are a component if the rest depends on nothing. -/
theorem members_eq (h : g.Schedule order) {c : Component} (hc : c ∈ order) {m : TypeNodeId}
    (hm : m ∈ c.members) {nodes : List TypeNodeId} (hsorted : nodes.Pairwise (·.raw < ·.raw))
    (hnodes : m ∈ nodes) (hreach : ∀ d ∈ nodes, Relation.ReflTransGen g.DependsOn m d ∧
      Relation.ReflTransGen g.DependsOn d m)
    (hrest : ∀ d ∉ nodes, g.dependencies d = []) : c.members = nodes := by
  have hmem : ∀ d, d ∈ c.members ↔ d ∈ nodes := by
    intro d
    rw [h.members c hc m hm]
    refine ⟨fun hd => ?_, hreach d⟩
    by_contra hout
    rcases Relation.ReflTransGen.cases_head hd.2 with rfl | ⟨e, he, -⟩
    · exact hout hnodes
    · have hnone := he.1
      rw [hrest d hout] at hnone
      cases hnone
  have hnodup : ∀ xs : List TypeNodeId, xs.Pairwise (·.raw < ·.raw) → xs.Nodup :=
    fun xs hxs => hxs.imp fun hlt he => Nat.ne_of_lt hlt (congrArg _ he)
  have hperm := (List.perm_ext_iff_of_nodup (hnodup _ (h.sorted c hc)) (hnodup _ hsorted)).mpr hmem
  exact hperm.eq_of_pairwise (fun a b _ _ hab hba => absurd hba (Nat.not_lt_of_lt hab))
    (h.sorted c hc) hsorted

/-- What holds of a component's members if it holds of what they depend on elsewhere holds of all
nodes. -/
theorem induct (h : g.Schedule order) {P : TypeNodeId → Prop}
    (hstep : ∀ c ∈ order, (∀ m ∈ c.members, ∀ d, g.DependsOn m d → d ∉ c.members → P d) →
      ∀ m ∈ c.members, P m) (m : TypeNodeId) (hm : m.raw < g.size) : P m := by
  suffices ∀ now past : List Component, order = past ++ now →
      (∀ m ∈ past.flatMap (·.members), P m) → ∀ m ∈ order.flatMap (·.members), P m from
    this order [] rfl (by simp) m ((h.covered m).mpr hm)
  intro now
  induction now with
  | nil =>
    intro past hsplit hpast
    rwa [hsplit, List.append_nil]
  | cons c now ih =>
    intro past hsplit hpast
    refine ih (past ++ [c]) (by simpa using hsplit) ?_
    rw [List.flatMap_append, List.flatMap_singleton]
    refine List.forall_mem_append.mpr ⟨hpast, hstep c (by simp [hsplit]) fun m hm d hd hout => ?_⟩
    obtain ⟨b, hb, hdb⟩ := (h.ready past c now hsplit m hm d hd).resolve_left hout
    exact hpast d (List.mem_flatMap.mpr ⟨b, hb, hdb⟩)

/-- A node that some component has is on a cycle if the component has one. -/
theorem cycle_of_mem (h : g.Schedule order) {c : Component} (hc : c ∈ order)
    (hcyclic : c.cyclic = true) {m : TypeNodeId} (hm : m ∈ c.members) :
    Relation.TransGen g.DependsOn m m := by
  obtain ⟨d, hd, hcycle⟩ := (h.cyclic c hc).mp hcyclic
  obtain ⟨hmd, hdm⟩ := (h.members c hc m hm d).mp hd
  exact (Relation.TransGen.trans_right hmd hcycle).trans_left hdm

theorem perm_range (h : g.Schedule order) :
    (order.flatMap (·.members)).Perm ((List.range g.size).map Ident.mk) := by
  have hrange : ((List.range g.size).map (Ident.mk : Nat → TypeNodeId)).Nodup :=
    List.nodup_range.map fun _ _ he => congrArg Ident.raw he
  refine (List.perm_ext_iff_of_nodup h.nodup hrange).mpr fun m => ?_
  rw [h.covered, List.mem_map]
  exact ⟨fun hm => ⟨m.raw, List.mem_range.mpr hm, rfl⟩, fun ⟨v, hv, hvm⟩ =>
    hvm ▸ List.mem_range.mp hv⟩

theorem length_le (h : g.Schedule order) {c : Component} (hc : c ∈ order) :
    c.members.length ≤ g.size := by
  have hlength := h.perm_range.length_eq
  rw [List.length_map, List.length_range] at hlength
  rw [← hlength]
  exact (List.sublist_flatten_of_mem (List.mem_map_of_mem hc)).length_le

theorem inside (h : g.Schedule order) {c : Component} (hc : c ∈ order) {m : TypeNodeId}
    (hm : m ∈ c.members) : m.raw < g.size :=
  (h.covered m).mp (List.mem_flatMap.mpr ⟨c, hc, hm⟩)

end Schedule

theorem size_condense (g : TypeGraph) :
    g.condense.components.size = (Digraph.components g.size g.targets).length :=
  Condensation.size_build g.size g.targets

theorem condense_describes {g : TypeGraph} {i : Nat} {k : Component}
    (hk : g.condense.components[i]? = some k) :
    ∃ c, (Digraph.components g.size g.targets)[i]? = some c ∧
      Condensation.Describes g.size g.targets g.condense.components i c k :=
  Condensation.build_describes hk

theorem condense_order_perm (g : TypeGraph) : g.condense.order.Perm g.condense.components.toList :=
  Condensation.order_perm fun _ _ hk => (condense_describes hk).choose_spec.2.id

theorem condense_order_sorted (g : TypeGraph) : g.condense.order.Pairwise (·.level ≤ ·.level) :=
  Condensation.order_sorted fun _ _ hk => (condense_describes hk).choose_spec.2.id

theorem condense_schedule (g : TypeGraph) : g.Schedule g.condense.order := by
  have h := Digraph.components_decompose g.size g.targets
  have hsize := size_condense g
  have hperm := condense_order_perm g
  have hsorted := condense_order_sorted g
  have hdescribed : ∀ (i : Nat) (k : Component), g.condense.components[i]? = some k →
      ∃ c, (Digraph.components g.size g.targets)[i]? = some c ∧
        Condensation.Describes g.size g.targets g.condense.components i c k :=
    fun i k => condense_describes
  generalize g.condense.components = comps at hsize hperm hdescribed
  generalize Digraph.components g.size g.targets = cs at h hsize hdescribed
  have hflat : (g.condense.order.flatMap (·.members)).Perm (cs.flatten.map Ident.mk) :=
    Condensation.members_flatten hsize hdescribed ▸ hperm.flatMap_right _
  have horder : ∀ k ∈ g.condense.order, ∃ (i : Nat) (c : List Nat), c ∈ cs ∧
      Condensation.Describes g.size g.targets comps i c k := by
    intro k hk
    obtain ⟨i, hi⟩ := List.getElem?_of_mem (hperm.mem_iff.mp hk)
    obtain ⟨c, hc, hk⟩ := hdescribed i k (by simpa using hi)
    exact ⟨i, c, List.mem_of_getElem? hc, hk⟩
  constructor
  case covered =>
    intro m
    rw [hflat.mem_iff, List.mem_map, ← h.covered]
    exact ⟨fun ⟨v, hv, hvm⟩ => hvm ▸ hv, fun hm => ⟨m.raw, hm, rfl⟩⟩
  case nodup =>
    exact hflat.nodup_iff.mpr (h.nodup.map fun v w he => congrArg Ident.raw he)
  case nonempty =>
    intro k hk
    obtain ⟨i, c, hc, hk⟩ := horder k hk
    rw [hk.members, Ne, List.map_eq_nil_iff]
    exact (h.classes c hc).nonempty
  case sorted =>
    intro k hk
    obtain ⟨i, c, hc, hk⟩ := horder k hk
    rw [hk.members, List.pairwise_map]
    exact (h.classes c hc).sorted
  case members =>
    intro k hk m hm d
    obtain ⟨i, c, hc, hk⟩ := horder k hk
    rw [hk.members] at hm ⊢
    obtain ⟨v, hv, rfl⟩ := List.mem_map.mp hm
    have hd : d ∈ c.map Ident.mk ↔ d.raw ∈ c := by
      rw [List.mem_map]
      exact ⟨fun ⟨w, hw, hwd⟩ => hwd ▸ hw, fun hd => ⟨d.raw, hd, rfl⟩⟩
    rw [hd, reaches_iff, reaches_iff]
    exact (h.classes c hc).members v hv d.raw
  case cyclic =>
    intro k hk
    obtain ⟨i, c, hc, hk⟩ := horder k hk
    rw [hk.cyclic, hk.members]
    constructor
    · exact fun ⟨v, hv, hcycle⟩ => ⟨⟨v⟩, List.mem_map.mpr ⟨v, hv, rfl⟩, cycle_iff.mpr hcycle⟩
    · rintro ⟨m, hm, hcycle⟩
      obtain ⟨v, hv, rfl⟩ := List.mem_map.mp hm
      exact ⟨v, hv, cycle_iff.mp hcycle⟩
  case ready =>
    intro before k after hsplit m hm d hd
    obtain ⟨i, c, hc, hk⟩ := horder k (by rw [hsplit]; simp)
    rw [hk.members] at hm ⊢
    obtain ⟨v, hv, rfl⟩ := List.mem_map.mp hm
    rcases hk.below v hv d.raw (mem_targets.mpr hd.1) hd.2 with hdc | ⟨b, hb, hdb, hlevel⟩
    · exact .inl (List.mem_map.mpr ⟨d.raw, hdc, rfl⟩)
    · have hmem : b ∈ before ++ k :: after :=
        hsplit ▸ hperm.mem_iff.mpr (Array.mem_toList_iff.mpr hb)
      exact .inr ⟨b, Condensation.mem_before (hsplit ▸ hsorted) hmem hlevel, hdb⟩

end TypeGraph

end TypedSsa

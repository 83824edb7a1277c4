import Mathlib.Data.PFun
import Mathlib.Order.Monotone.Basic
import TypedSsa.Proofs.Components
import TypedSsa.Proofs.Links

/-!
Graphs that are part of larger ones. Main statement: `Embeds.components`. A part that no edge leaves
and no edge enters has the components that it has by itself, in the same order, whatever else there
is; for a search of the whole comes to the vertices of the part as a search of the part does.
-/

namespace TypedSsa

/-! Lists. -/

/-- Lists that rise by some key and have the same items are the same. -/
theorem eq_of_rising {α : Type} {key : α → Nat} {xs ys : List α}
    (hx : xs.Pairwise fun x y => key x < key y) (hy : ys.Pairwise fun x y => key x < key y)
    (hmem : ∀ v, v ∈ xs ↔ v ∈ ys) : xs = ys := by
  have hnodup : ∀ {zs : List α}, zs.Pairwise (fun x y => key x < key y) → zs.Nodup :=
    fun h => h.imp fun hlt hsame => Nat.ne_of_lt hlt (congrArg key hsame)
  have hperm := (List.perm_ext_iff_of_nodup (hnodup hx) (hnodup hy)).mpr hmem
  exact hperm.eq_of_pairwise (fun x y _ _ hxy hyx => absurd hyx (Nat.lt_asymm hxy)) hx hy

/-- Folds over two lists go alike if the items that only the first list has make no difference. -/
theorem foldl_alike {α β σ τ : Type} {R : σ → τ → Prop} {M : α → β → Prop} {p : α → Bool}
    {step : σ → α → σ} {step' : τ → β → τ} {xs : List α} {ys : List β}
    (hxs : List.Forall₂ M (xs.filter p) ys)
    (hin : ∀ x ∈ xs, ∀ y ∈ ys, M x y → ∀ s t, R s t → R (step s x) (step' t y))
    (hout : ∀ x ∈ xs, p x = false → ∀ s t, R s t → R (step s x) t) {s : σ} {t : τ} (h : R s t) :
    R (xs.foldl step s) (ys.foldl step' t) := by
  induction xs generalizing ys s t with
  | nil =>
    cases hxs
    exact h
  | cons x xs ih =>
    have hout' : ∀ x ∈ xs, p x = false → ∀ s t, R s t → R (step s x) t :=
      fun x hx => hout x (List.mem_cons_of_mem _ hx)
    cases hp : p x with
    | false =>
      rw [List.filter_cons_of_neg (by simp [hp])] at hxs
      exact ih hxs (fun x hx => hin x (List.mem_cons_of_mem _ hx)) hout'
        (hout x List.mem_cons_self hp s t h)
    | true =>
      rw [List.filter_cons_of_pos hp] at hxs
      cases hxs with
      | @cons _ y _ ys hxy hrest =>
        refine ih hrest (fun x hx y hy => hin x (List.mem_cons_of_mem _ hx) y
          (List.mem_cons_of_mem _ hy)) hout' ?_
        exact hin x List.mem_cons_self y List.mem_cons_self hxy s t h

namespace Digraph

/-! The classes of vertices in the order in which they are found. -/

section
variable {n : Nat} {next : Nat → List Nat}

open Classical in
/-- The vertices that a vertex reaches and is reached from. -/
noncomputable def classOf (n : Nat) (next : Nat → List Nat) (v : Nat) : List Nat :=
  (List.range n).filter (fun u => Mutual (within n next) v u)

theorem mem_classOf {u v : Nat} :
    u ∈ classOf n next v ↔ u < n ∧ Mutual (within n next) v u := by
  simp [classOf]

theorem classOf_rising (v : Nat) : (classOf n next v).Pairwise (· < ·) :=
  List.pairwise_lt_range.filter _

theorem IsClass.eq_classOf {c : List Nat} (h : IsClass n next c) {v : Nat} (hv : v ∈ c) :
    c = classOf n next v := by
  refine eq_of_rising h.sorted (classOf_rising v) fun u => ?_
  rw [mem_classOf, h.members v hv, iff_and_self]
  exact fun hu => hu.1.below (h.below v hv)

/-- Components stand in the order in which reverse postorder comes to them, the last one first. -/
theorem components_eq (n : Nat) (next : Nat → List Nat) :
    components n next = (distinct ((reversePostorder (List.range n) next
      (List.range n)).map (classOf n next))).reverse := by
  have hnodup := nodup_reversePostorder_range n next
  suffices ∀ (rest past : List Nat) (s : Split), Splitting n next past s →
      reversePostorder (List.range n) next (List.range n) = past ++ rest →
      s.found = (distinct (past.map (classOf n next))).reverse →
      (rest.foldl (Split.step next ((sources (List.range n) next).getD · [])) s).found =
        (distinct ((past ++ rest).map (classOf n next))).reverse from
    this _ [] _ (.start n next) rfl rfl
  intro rest
  induction rest with
  | nil =>
    intro past s _ _ hfound
    rwa [List.append_nil]
  | cons v rest ih =>
    intro past s h hsplit hfound
    have hv : v < n := (mem_reversePostorder_range n next).mp (by simp [hsplit])
    have hstep := h.step mem_sources_range hsplit (hsplit ▸ hnodup) hv
    have hnow : (s.step next ((sources (List.range n) next).getD · []) v).found =
        (distinct ((past ++ [v]).map (classOf n next))).reverse := by
      rw [List.map_append, List.map_singleton]
      by_cases hleft : v ∈ s.left
      · obtain ⟨c, left', hsame, hc, hvc, -⟩ := split_class s.found
          (fun u hu => ((h.left u).mp hu).1) hleft mem_sources_range (fun u => h.whole hleft)
        have hnew : classOf n next v ∉ past.map (classOf n next) := by
          rw [← mem_distinct, ← List.mem_reverse, ← hfound]
          intro hold
          refine ((h.left v).mp hleft).2 (List.mem_flatten.mpr ⟨_, hold, ?_⟩)
          exact mem_classOf.mpr ⟨hv, .refl _ v⟩
        rw [distinct_new hnew, List.reverse_append, ← hfound]
        change (Split.step next _ ⟨s.found, s.left⟩ v).found = _
        rw [hsame, hc.eq_classOf hvc]
        rfl
      · have hsame : s.step next ((sources (List.range n) next).getD · []) v = s := if_neg hleft
        have hold : classOf n next v ∈ past.map (classOf n next) := by
          rw [← mem_distinct, ← List.mem_reverse, ← hfound]
          rw [h.left v, not_and_not_right] at hleft
          obtain ⟨c, hc, hvc⟩ := List.mem_flatten.mp (hleft hv)
          exact (h.classes c hc).eq_classOf hvc ▸ hc
        rw [distinct_known hold, hsame, hfound]
    have hrest := ih (past ++ [v]) _ hstep (by simpa using hsplit) hnow
    rwa [List.append_assoc] at hrest

end

/-! Parts. -/

/-- A graph is part of another one under new numbers, and no edge leads out of it or into it. -/
structure Embeds (e : Nat → Nat) (n n' : Nat) (next next' : Nat → List Nat) : Prop where
  mono : StrictMono e
  inside : ∀ v, e v < n ↔ v < n'
  edges : ∀ v < n', next (e v) = (next' v).map e
  apart : ∀ u < n, u ∉ Set.range e → ∀ w ∈ next u, w ∉ Set.range e

/-- The step on the vertex of the part that a step is on, if it is on one. -/
def Step.back (d : Nat → Option Nat) : Step Nat → Option (Step Nat)
  | .enter v => (d v).map .enter
  | .leave v => (d v).map .leave

namespace Embeds

variable {e : Nat → Nat} {n n' : Nat} {next next' : Nat → List Nat}

theorem filterMap_enter (d : Nat → Option Nat) (vs : List Nat) :
    (vs.map Step.enter).filterMap (Step.back d) = (vs.filterMap d).map .enter := by
  rw [List.filterMap_map, List.map_filterMap]
  rfl

section
variable (h : Embeds e n n' next next') {d : Nat → Option Nat} (hd : Function.IsPartialInv e d)

include hd in
theorem filterMap_map (vs : List Nat) : (vs.map e).filterMap d = vs := by
  rw [List.filterMap_map, show d ∘ e = some from funext fun v => (hd v (e v)).mpr rfl,
    List.filterMap_some]

include h

/-- What a search of the whole leaves in the part is what a search of the part leaves. -/
theorem search (hd : Function.IsPartialInv e d) {stack : List (Step Nat)} {s s' : Search Nat}
    (hbelow : ∀ v ∈ s.unseen, v < n) (hunseen : ∀ v, e v ∈ s.unseen ↔ v ∈ s'.unseen)
    (hleft : s.left.filterMap d = s'.left) :
    (Digraph.search next stack s).left.filterMap d =
      (Digraph.search next' (stack.filterMap (Step.back d)) s').left := by
  fun_induction Digraph.search next stack s generalizing s' with
  | case1 s => simpa [Digraph.search] using hleft
  | case2 v rest s ih =>
    rw [List.filterMap_cons, Step.back]
    cases hv : d v with
    | none => exact ih hbelow hunseen (by rwa [List.filterMap_cons_none hv])
    | some v' =>
      rw [Option.map_some, Digraph.search]
      exact ih hbelow hunseen (by rw [List.filterMap_cons_some hv, hleft])
  | case3 v rest s hv ih =>
    have hshrunk : ∀ w ∈ s.unseen.erase v, w < n :=
      fun w hw => hbelow w (Std.HashSet.mem_of_mem_erase hw)
    rw [List.filterMap_cons, Step.back]
    cases hback : d v with
    | none =>
      have hrange : v ∉ Set.range e := by
        rintro ⟨u, rfl⟩
        rw [(hd u (e u)).mpr rfl] at hback
        cases hback
      have hout : (next v).filterMap d = [] := by
        rw [List.filterMap_eq_nil_iff]
        intro w hw
        refine Option.eq_none_iff_forall_ne_some.mpr fun u hu => ?_
        exact h.apart v (hbelow v hv) hrange w hw ⟨u, (hd u w).mp hu⟩
      have hpushed : ((next v).map Step.enter ++ Step.leave v :: rest).filterMap (Step.back d) =
          rest.filterMap (Step.back d) := by
        rw [List.filterMap_append, filterMap_enter, hout, List.filterMap_cons, Step.back, hback]
        rfl
      rw [hpushed] at ih
      refine ih hshrunk (fun u => ?_) hleft
      rw [Std.HashSet.mem_erase, hunseen, beq_eq_false_iff_ne]
      exact and_iff_right fun hsame => hrange ⟨u, hsame.symm⟩
    | some v' =>
      obtain rfl := (hd v' v).mp hback
      have hpushed : ((next (e v')).map Step.enter ++ Step.leave (e v') :: rest).filterMap
          (Step.back d) = (next' v').map .enter ++ .leave v' :: rest.filterMap (Step.back d) := by
        rw [List.filterMap_append, filterMap_enter, h.edges v' ((h.inside v').mp (hbelow _ hv)),
          filterMap_map hd, List.filterMap_cons, Step.back, hback]
        rfl
      rw [hpushed] at ih
      rw [Option.map_some, Digraph.search, dif_pos ((hunseen v').mp hv)]
      refine ih hshrunk (fun u => ?_) hleft
      simp only [Std.HashSet.mem_erase, beq_eq_false_iff_ne, hunseen, ne_eq,
        h.mono.injective.eq_iff]
  | case4 v rest s hv hopen ih | case5 v rest s hv hopen ih =>
    rw [List.filterMap_cons, Step.back]
    cases hback : d v with
    | none => exact ih hbelow hunseen hleft
    | some v' =>
      obtain rfl := (hd v' v).mp hback
      rw [Option.map_some, Digraph.search, dif_neg (mt (hunseen v').mpr hv)]
      split
      · exact ih hbelow hunseen hleft
      · exact ih hbelow hunseen hleft

theorem filterMap_range (hd : Function.IsPartialInv e d) :
    (List.range n).filterMap d = List.range n' := by
  refine eq_of_rising ?_ List.pairwise_lt_range fun v => ?_
  · refine List.pairwise_lt_range.filterMap d fun u w huw u' hu' w' hw' => ?_
    rw [← (hd u' u).mp hu', ← (hd w' w).mp hw'] at huw
    exact h.mono.lt_iff_lt.mp huw
  · rw [List.mem_filterMap, List.mem_range, ← h.inside]
    constructor
    · rintro ⟨u, hu, hback⟩
      rw [(hd v u).mp hback]
      exact List.mem_range.mp hu
    · exact fun hv => ⟨e v, List.mem_range.mpr hv, (hd v (e v)).mpr rfl⟩

open Classical in
theorem reversePostorder :
    (Digraph.reversePostorder (List.range n) next (List.range n)).filter (· ∈ Set.range e) =
      (Digraph.reversePostorder (List.range n') next' (List.range n')).map e := by
  have hd : Function.IsPartialInv e (Function.partialInv e) :=
    h.mono.injective.isPartialInv
  have hunseen : ∀ v, e v ∈ Std.HashSet.ofList (List.range n) ↔
      v ∈ Std.HashSet.ofList (List.range n') := fun v => by
    simp only [Std.HashSet.mem_ofList, List.contains_iff_mem, List.mem_range, h.inside]
  have hleft : (Digraph.search next ((List.range n).map .enter)
      { unseen := .ofList (List.range n) }).left.filterMap (Function.partialInv e) =
        (Digraph.search next' (((List.range n).map .enter).filterMap
          (Step.back (Function.partialInv e))) { unseen := .ofList (List.range n') }).left :=
    h.search hd (by simp) hunseen rfl
  rw [filterMap_enter, h.filterMap_range hd] at hleft
  rw [Digraph.reversePostorder, Digraph.reversePostorder, searchFrom, searchFrom, ← hleft,
    List.map_filterMap, ← List.filterMap_eq_filter]
  refine List.filterMap_congr fun v _ => ?_
  rw [Option.guard]
  split
  · rename_i hv
    obtain ⟨u, rfl⟩ := of_decide_eq_true hv
    rw [(hd u (e u)).mpr rfl, Option.map_some]
  · rename_i hv
    cases hback : Function.partialInv e v with
    | none => rfl
    | some u => exact absurd (decide_eq_true ⟨u, (hd u v).mp hback⟩) hv

/-- What is reached from the part is of the part and reached within it. -/
theorem reaches_iff {u : Nat} (hu : u < n') {w : Nat} :
    Reaches (within n next) (e u) w ↔ ∃ v, e v = w ∧ Reaches (within n' next') u v := by
  constructor
  · intro hreach
    induction hreach with
    | refl => exact ⟨u, rfl, .refl⟩
    | tail _ hw ih =>
      obtain ⟨v, rfl, hv⟩ := ih
      obtain ⟨hw, hwn⟩ := mem_within.mp hw
      rw [h.edges v (Reaches.below hv hu)] at hw
      obtain ⟨x, hx, rfl⟩ := List.mem_map.mp hw
      exact ⟨x, rfl, Relation.ReflTransGen.tail hv (mem_within.mpr ⟨hx, (h.inside x).mp hwn⟩)⟩
  · rintro ⟨v, rfl, hreach⟩
    induction hreach with
    | refl => exact .refl
    | @tail v x hv hx ih =>
      obtain ⟨hx, hxn⟩ := mem_within.mp hx
      refine ih.tail (mem_within.mpr ⟨?_, (h.inside x).mpr hxn⟩)
      rw [h.edges v (Reaches.below hv hu)]
      exact List.mem_map_of_mem hx

theorem mutual_iff {u v : Nat} (hu : u < n') (hv : v < n') :
    Mutual (within n next) (e u) (e v) ↔ Mutual (within n' next') u v := by
  have hone : ∀ {u v}, u < n' →
      (Reaches (within n next) (e u) (e v) ↔ Reaches (within n' next') u v) := by
    intro u v hu
    rw [h.reaches_iff hu]
    exact ⟨fun ⟨w, hw, hreach⟩ => h.mono.injective hw ▸ hreach, fun hreach => ⟨v, rfl, hreach⟩⟩
  rw [Mutual, Mutual, hone hu, hone hv]

theorem classOf {v : Nat} (hv : v < n') :
    Digraph.classOf n next (e v) = (Digraph.classOf n' next' v).map e := by
  refine eq_of_rising (classOf_rising _) ?_ fun w => ?_
  · exact (classOf_rising v).map e fun a b hab => h.mono hab
  · rw [mem_classOf, List.mem_map]
    constructor
    · rintro ⟨hw, hmutual⟩
      obtain ⟨u, rfl, -⟩ := (h.reaches_iff hv).mp hmutual.1
      have hu := (h.inside u).mp hw
      exact ⟨u, mem_classOf.mpr ⟨hu, (h.mutual_iff hv hu).mp hmutual⟩, rfl⟩
    · rintro ⟨u, hu, rfl⟩
      obtain ⟨hu, hmutual⟩ := mem_classOf.mp hu
      exact ⟨(h.inside u).mpr hu, (h.mutual_iff hv hu).mpr hmutual⟩

/-- Vertices that reach each other are all of the part or none is. -/
theorem range_of_mutual {u v : Nat} (hu : e u < n) (h' : Mutual (within n next) (e u) v) :
    v ∈ Set.range e := by
  obtain ⟨w, hw, -⟩ := (h.reaches_iff ((h.inside u).mp hu)).mp h'.1
  exact ⟨w, hw⟩

open Classical in
/-- The components of the whole that are of the part are those of the part. -/
theorem components : (Digraph.components n next).filter (fun c => ∀ v ∈ c, v ∈ Set.range e) =
    (Digraph.components n' next').map (·.map e) := by
  have hkept : ∀ v ∈ Digraph.reversePostorder (List.range n) next (List.range n),
      ((fun c => decide (∀ u ∈ c, u ∈ Set.range e)) ∘ Digraph.classOf n next) v =
        decide (v ∈ Set.range e) := by
    intro v hv
    have hvn := (mem_reversePostorder_range n next).mp hv
    rw [Function.comp_apply, decide_eq_decide]
    constructor
    · exact fun hall => hall v (mem_classOf.mpr ⟨hvn, .refl _ v⟩)
    · rintro ⟨w, rfl⟩ u hu
      exact h.range_of_mutual hvn (mem_classOf.mp hu).2
  have hclasses : ((Digraph.reversePostorder (List.range n') next' (List.range n')).map e).map
      (Digraph.classOf n next) = ((Digraph.reversePostorder (List.range n') next'
        (List.range n')).map (Digraph.classOf n' next')).map (·.map e) := by
    rw [List.map_map, List.map_map]
    exact List.map_congr_left fun v hv => h.classOf ((mem_reversePostorder_range n' next').mp hv)
  rw [components_eq, components_eq, List.filter_reverse, filter_distinct, List.filter_map,
    List.filter_congr hkept, h.reversePostorder, hclasses, List.map_reverse,
    distinct_map (List.map_injective_iff.mpr h.mono.injective)]

end

end Embeds

end Digraph

end TypedSsa

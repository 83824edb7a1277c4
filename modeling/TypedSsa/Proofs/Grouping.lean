import TypedSsa.CallGraph
import TypedSsa.Proofs.Components
import TypedSsa.Proofs.Keys

/-!
The groups of functions that call each other. Main statement: `mem_members`. A function has in its
group just those functions that calls lead to from it and back.
-/

namespace TypedSsa.CallGraph

open Digraph

/-! The call relation. -/

section
variable {edges : List (String × List String)}

theorem relation_nodup (edges : List (String × List String)) :
    ((relation edges).map (·.1)).Nodup := by
  rw [relation, List.map_map]
  exact nodup_foldl_putBy Prod.fst edges

/-- Calls are of functions that are listed. -/
theorem listed {f c : String} (hc : c ∈ calleesIn (relation edges) f) :
    f ∈ (relation edges).map (·.1) ∧ c ∈ (relation edges).map (·.1) := by
  rw [calleesIn] at hc
  cases hfind : (relation edges).find? (·.1 == f) with
  | none => simp [hfind] at hc
  | some entry =>
    rw [hfind] at hc
    have hmem := List.mem_of_find?_eq_some hfind
    have hname : entry.1 = f := by simpa using List.find?_some hfind
    refine ⟨List.mem_map.mpr ⟨entry, hmem, hname⟩, ?_⟩
    obtain ⟨listed, -, rfl⟩ := List.mem_map.mp hmem
    have hany := any_key_iff.mp (List.mem_filter.mp hc).2
    rwa [relation, List.map_map]

theorem relation_eq_self (hnodup : (edges.map (·.1)).Nodup)
    (hlisted : ∀ entry ∈ edges, ∀ c ∈ entry.2, c ∈ edges.map (·.1)) : relation edges = edges := by
  rw [relation, foldl_putBy_eq_self hnodup]
  refine (List.map_congr_left fun entry hentry => ?_).trans (List.map_id _)
  exact congrArg (entry.1, ·) (List.filter_eq_self.mpr fun c hc =>
    any_key_iff.mpr (hlisted entry hentry c hc))

end

/-! Functions by their places. -/

section
variable {calls : List (String × List String)}

/-- The places of the functions that the one at a place calls. -/
def targetsIn (calls : List (String × List String)) (v : Nat) : List Nat :=
  (calls.map (fun entry =>
    entry.2.filterMap ((calls.map (·.1)).idxOf? ·))).toArray.getD v []

theorem groups_ofEdges (edges : List (String × List String)) :
    (ofEdges edges).groups = (components (relation edges).length
      (targetsIn (relation edges))).map (groupOf (relation edges)) := rfl

theorem mem_groupOf {members : List Nat} {x : String} :
    x ∈ (groupOf calls members).functions ↔ ∃ v ∈ members, (calls.map (·.1))[v]? = some x := by
  rw [groupOf, List.mem_filterMap]
  simp

variable (hnodup : (calls.map (·.1)).Nodup)

include hnodup

theorem place_unique {v w : Nat} {x : String} (hv : (calls.map (·.1))[v]? = some x)
    (hw : (calls.map (·.1))[w]? = some x) : v = w := by
  refine (List.getElem?_inj ?_ hnodup).mp (hv.trans hw.symm)
  exact (List.getElem?_eq_some_iff.mp hv).1

theorem mem_targetsIn {v w : Nat} {f : String} (hv : (calls.map (·.1))[v]? = some f) :
    w ∈ targetsIn calls v ↔ ∃ c ∈ calleesIn calls f, (calls.map (·.1))[w]? = some c := by
  obtain ⟨entry, hentry, rfl⟩ := Option.map_eq_some_iff.mp ((List.getElem?_map ..).symm.trans hv)
  have hcallees : calleesIn calls entry.1 = entry.2 := by
    rw [calleesIn, find?_of_nodup hnodup (List.mem_of_getElem? hentry)]
    rfl
  have hidx : ∀ c, (calls.map (·.1)).idxOf? c = some w ↔ (calls.map (·.1))[w]? = some c := by
    intro c
    rw [List.idxOf?_eq_some_iff, List.getElem?_eq_some_iff]
    refine exists_congr fun hw => ⟨And.left, fun hc => ⟨hc, fun u hu hsame => ?_⟩⟩
    exact absurd (hnodup.getElem_inj_iff.mp (hsame.trans hc.symm)) (Nat.ne_of_lt hu)
  rw [hcallees, targetsIn, Array.getD_eq_getD_getElem?, List.getElem?_toArray, List.getElem?_map,
    hentry, Option.map_some, Option.getD_some, List.mem_filterMap]
  exact exists_congr fun c => and_congr_right fun _ => hidx c

/-- Calls lead from name to name as they do from place to place. -/
theorem reaches_iff (hlisted : ∀ f, ∀ c ∈ calleesIn calls f, c ∈ calls.map (·.1)) {v : Nat}
    {f x : String} (hv : (calls.map (·.1))[v]? = some f) :
    Reaches (calleesIn calls) f x ↔ ∃ w, (calls.map (·.1))[w]? = some x ∧
      Reaches (within calls.length (targetsIn calls)) v w := by
  constructor
  · intro h
    induction h with
    | refl => exact ⟨v, hv, .refl⟩
    | @tail y z _ hz ih =>
      obtain ⟨w, hw, hreach⟩ := ih
      obtain ⟨u, hu⟩ := List.getElem?_of_mem (hlisted y z hz)
      have hbelow : u < calls.length := by simpa using (List.getElem?_eq_some_iff.mp hu).1
      exact ⟨u, hu, hreach.tail (mem_within.mpr
        ⟨(mem_targetsIn hnodup hw).mpr ⟨z, hz, hu⟩, hbelow⟩)⟩
  · rintro ⟨w, hw, hreach⟩
    induction hreach generalizing x with
    | refl =>
      obtain rfl : f = x := Option.some.inj (hv.symm.trans hw)
      exact .refl
    | @tail u w hu hstep ih =>
      have hbelow : u < (calls.map (·.1)).length := by
        rw [List.length_map]
        exact Reaches.below hu (by simpa using (List.getElem?_eq_some_iff.mp hv).1)
      have hy := List.getElem?_eq_getElem hbelow
      obtain ⟨c, hc, hplace⟩ := (mem_targetsIn hnodup hy).mp (mem_within.mp hstep).1
      obtain rfl : c = x := Option.some.inj (hplace.symm.trans hw)
      exact (ih hy).tail hc

end

section
variable {edges : List (String × List String)} {f x : String}

/-- The places of functions that call each other. -/
abbrev classes (edges : List (String × List String)) : List (List Nat) :=
  components (relation edges).length (targetsIn (relation edges))

theorem members_eq (edges : List (String × List String)) (f : String) :
    (ofEdges edges).members f = (((classes edges).find? (fun c =>
      (groupOf (relation edges) c).functions.contains f)).map
        (fun c => (groupOf (relation edges) c).functions)).getD [] := by
  rw [members, group?, groups_ofEdges, List.find?_map, Option.map_map]
  rfl

theorem exists_class (hx : x ∈ (ofEdges edges).members f) : ∃ c ∈ classes edges,
    f ∈ (groupOf (relation edges) c).functions ∧ x ∈ (groupOf (relation edges) c).functions := by
  rw [members_eq] at hx
  cases hfind : (classes edges).find? (fun c =>
      (groupOf (relation edges) c).functions.contains f) with
  | none =>
    rw [hfind] at hx
    cases hx
  | some c =>
    rw [hfind] at hx
    exact ⟨c, List.mem_of_find?_eq_some hfind, by simpa using List.find?_some hfind, hx⟩

/-- The functions of a group are those that call each other, if need be through others. -/
theorem mem_members : x ∈ (ofEdges edges).members f ↔ f ∈ (relation edges).map (·.1) ∧
    Mutual (calleesIn (relation edges)) f x := by
  have hnodup := relation_nodup edges
  have hlisted : ∀ f, ∀ c ∈ calleesIn (relation edges) f, c ∈ (relation edges).map (·.1) :=
    fun f c hc => (listed hc).2
  have hdecomposes := components_decompose (relation edges).length (targetsIn (relation edges))
  constructor
  · intro hx
    obtain ⟨c, hc, hf, hx⟩ := exists_class hx
    obtain ⟨v, hv, hf⟩ := mem_groupOf.mp hf
    obtain ⟨w, hw, hx⟩ := mem_groupOf.mp hx
    obtain ⟨hto, hback⟩ := ((hdecomposes.classes c hc).members v hv w).mp hw
    exact ⟨List.mem_of_getElem? hf, (reaches_iff hnodup hlisted hf).mpr ⟨w, hx, hto⟩,
      (reaches_iff hnodup hlisted hx).mpr ⟨v, hf, hback⟩⟩
  · rintro ⟨hf, hto, hback⟩
    obtain ⟨v, hv⟩ := List.getElem?_of_mem hf
    obtain ⟨w, hw, hto⟩ := (reaches_iff hnodup hlisted hv).mp hto
    obtain ⟨u, hu, hback⟩ := (reaches_iff hnodup hlisted hw).mp hback
    obtain rfl := place_unique hnodup hv hu
    have hbelow : v < (relation edges).length := by
      simpa using (List.getElem?_eq_some_iff.mp hv).1
    obtain ⟨c, hc, hvc⟩ := List.mem_flatten.mp ((hdecomposes.covered v).mpr hbelow)
    have hgroup : f ∈ (groupOf (relation edges) c).functions := mem_groupOf.mpr ⟨v, hvc, hv⟩
    rw [members_eq]
    cases hfind : (classes edges).find? (fun c =>
        (groupOf (relation edges) c).functions.contains f) with
    | none => exact absurd (List.contains_iff_mem.mpr hgroup) (List.find?_eq_none.mp hfind c hc)
    | some c =>
      -- the group that is found is the one of the function's place
      have hfound : f ∈ (groupOf (relation edges) c).functions := by
        simpa using List.find?_some hfind
      obtain ⟨u, huc, hu⟩ := mem_groupOf.mp hfound
      obtain rfl := place_unique hnodup hv hu
      have hclass := hdecomposes.classes c (List.mem_of_find?_eq_some hfind)
      exact mem_groupOf.mpr ⟨w, (hclass.members v huc w).mpr ⟨hto, hback⟩, hw⟩

end

end TypedSsa.CallGraph

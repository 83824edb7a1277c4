import TypedSsa.Proofs.Mirroring
import TypedSsa.Proofs.Parts
import TypedSsa.Proofs.Scheduling
import TypedSsa.Proofs.Solving

/-!
Resolving a graph of which another one is a part. Main statements: `Embeds.order` and
`Embeds.resolve_reflects`. The components of the part are resolved in the order in which they are
resolved where there is nothing else, and come to the same.
-/

namespace TypedSsa

/-- An id under new numbers. -/
def Ident.via {s : Named} (e : Nat → Nat) (id : Ident s) : Ident s :=
  ⟨e id.raw⟩

section
variable {s : Named} {e : Nat → Nat}

theorem Ident.via_injective (he : Function.Injective e) :
    Function.Injective (Ident.via e : Ident s → Ident s) :=
  fun _ _ hsame => Ident.raw_inj _ _ (he (congrArg Ident.raw hsame))

theorem Ident.mem_range_via {id : Ident s} :
    id ∈ Set.range (Ident.via e : Ident s → Ident s) ↔ id.raw ∈ Set.range e :=
  ⟨fun ⟨j, hj⟩ => ⟨j.raw, congrArg Ident.raw hj⟩, fun ⟨i, hi⟩ => ⟨⟨i⟩, Ident.raw_inj _ _ hi⟩⟩

end

namespace TypeGraph

/-- A graph is part of another one under new ids. No node of the rest depends on the part, and none
of the part on the rest. -/
structure Embeds (e : Nat → Nat) (g g' : TypeGraph) : Prop where
  mono : StrictMono e
  inside : ∀ v, e v < g.size ↔ v < g'.size
  rules : ∀ m, g.rule? (m.via e) = (g'.rule? m).map (·.rename (.via e))
  apart : ∀ m, m ∉ Set.range (Ident.via e) → ∀ d ∈ g.dependencies m, d ∉ Set.range (Ident.via e)

variable {e : Nat → Nat} {g g' : TypeGraph}

theorem targets_eq (g : TypeGraph) (v : Nat) :
    g.targets v = (g.dependencies ⟨v⟩).map (·.raw) := by
  rw [targets, dependencies, rule?, node?, Array.getD_eq_getD_getElem?, Array.getElem?_map]
  cases g.nodes[v]? <;> rfl

theorem map_members (g : TypeGraph) : g.condense.components.toList.map (·.members) =
    (Digraph.components g.size g.targets).map (·.map Ident.mk) :=
  Condensation.map_members (size_condense g) fun _ _ => condense_describes

/-- A component has a cycle if it has an edge within. -/
theorem cyclic_iff {k : Component} (hk : k ∈ g.condense.components) :
    k.cyclic = true ↔
      1 < k.members.length ∨ ∃ m ∈ k.members, ∃ d ∈ g.dependencies m, d ∈ k.members := by
  obtain ⟨i, hi⟩ := Array.getElem?_of_mem hk
  obtain ⟨c, hc, hdescribes⟩ := condense_describes hi
  have hclass := (Digraph.components_decompose g.size g.targets).classes c
    (List.mem_of_getElem? hc)
  rw [hdescribes.cyclic, ← hclass.cycle_iff, hdescribes.members, List.length_map]
  refine or_congr_right ⟨?_, ?_⟩
  · rintro ⟨v, hv, w, hw, hwc⟩
    exact ⟨⟨v⟩, List.mem_map_of_mem hv, ⟨w⟩, mem_targets.mp hw, List.mem_map_of_mem hwc⟩
  · rintro ⟨m, hm, d, hd, hdc⟩
    obtain ⟨v, hv, rfl⟩ := List.mem_map.mp hm
    obtain ⟨w, hw, rfl⟩ := List.mem_map.mp hdc
    exact ⟨v, hv, w, mem_targets.mpr hd, hw⟩

/-- A component that is not of the lowest level depends on one just below. -/
theorem level_attained {k : Component} (hk : k ∈ g.condense.components) (hlevel : 0 < k.level) :
    ∃ m ∈ k.members, ∃ d, g.DependsOn m d ∧ d ∉ k.members ∧
      ∃ b ∈ g.condense.components, d ∈ b.members ∧ b.level + 1 = k.level := by
  obtain ⟨i, hi⟩ := Array.getElem?_of_mem hk
  obtain ⟨c, -, hdescribes⟩ := condense_describes hi
  obtain ⟨v, hv, w, hw, hwn, hwc, hbelow⟩ := hdescribes.attained hlevel
  rw [hdescribes.members]
  refine ⟨⟨v⟩, List.mem_map_of_mem hv, ⟨w⟩, ⟨mem_targets.mp hw, hwn⟩, fun hmem => ?_, hbelow⟩
  obtain ⟨x, hx, hsame⟩ := List.mem_map.mp hmem
  obtain rfl : x = w := congrArg Ident.raw hsame
  exact hwc hx

namespace Embeds

section
variable (h : g.Embeds e g')

include h

theorem via_inj {m d : TypeNodeId} : m.via e = d.via e ↔ m = d :=
  (Ident.via_injective h.mono.injective).eq_iff

theorem dependencies (m : TypeNodeId) :
    g.dependencies (m.via e) = (g'.dependencies m).map (.via e) := by
  rw [TypeGraph.dependencies, TypeGraph.dependencies, h.rules m, Option.map_map]
  cases g'.rule? m with
  | none => rfl
  | some rule => exact TypeRule.dependencies_rename

theorem digraph : Digraph.Embeds e g.size g'.size g.targets g'.targets := by
  refine ⟨h.mono, h.inside, fun v _ => ?_, fun u _ hu w hw => ?_⟩
  · rw [targets_eq, targets_eq, List.map_map]
    refine (congrArg _ (h.dependencies ⟨v⟩)).trans ?_
    rw [List.map_map]
    rfl
  · rw [targets_eq] at hw
    obtain ⟨d, hd, rfl⟩ := List.mem_map.mp hw
    exact mt Ident.mem_range_via.mpr (h.apart ⟨u⟩ (mt Ident.mem_range_via.mp hu) d hd)

theorem dependsOn_iff {m d : TypeNodeId} :
    g.DependsOn (m.via e) (d.via e) ↔ g'.DependsOn m d := by
  rw [DependsOn, DependsOn, h.dependencies,
    List.mem_map_of_injective (Ident.via_injective h.mono.injective)]
  exact and_congr_right fun _ => h.inside d.raw

theorem dependsOn {m d : TypeNodeId} (hd : g.DependsOn (m.via e) d) :
    ∃ d', d = d'.via e ∧ g'.DependsOn m d' := by
  obtain ⟨d', -, rfl⟩ := List.mem_map.mp (h.dependencies m ▸ hd.1)
  exact ⟨d', rfl, h.dependsOn_iff.mp hd⟩

end

end Embeds

end TypeGraph

/-! Components of the part. -/

/-- All nodes of a component are of the part. -/
def Component.Of (e : Nat → Nat) (k : Component) : Prop :=
  ∀ m ∈ k.members, m ∈ Set.range (Ident.via e)

/-- A component is another one under new ids. -/
structure Component.Matches (e : Nat → Nat) (k k' : Component) : Prop where
  members : k.members = k'.members.map (.via e)
  cyclic : k.cyclic = k'.cyclic
  level : k.level = k'.level

namespace TypeGraph.Embeds

variable {e : Nat → Nat} {g g' : TypeGraph}

section
variable (h : g.Embeds e g')

include h

open Classical in
theorem map_members :
    (g.condense.components.toList.filter (Component.Of e)).map (·.members) =
      g'.condense.components.toList.map (·.members.map (.via e)) := by
  have hkept : ∀ c ∈ Digraph.components g.size g.targets,
      ((fun ms : List TypeNodeId => decide (∀ m ∈ ms, m ∈ Set.range (Ident.via e))) ∘
        (·.map Ident.mk)) c = decide (∀ v ∈ c, v ∈ Set.range e) := by
    intro c _
    rw [Function.comp_apply, decide_eq_decide, List.forall_mem_map]
    exact forall₂_congr fun v _ => Ident.mem_range_via
  have hof : ∀ k ∈ g.condense.components.toList, decide (Component.Of e k) =
      ((fun ms : List TypeNodeId => decide (∀ m ∈ ms, m ∈ Set.range (Ident.via e))) ∘
        (·.members)) k := by
    intro k _
    rw [Function.comp_apply, decide_eq_decide, Component.Of]
  have hparts := congrArg (List.map (List.map (Ident.mk : Nat → TypeNodeId))) h.digraph.components
  rw [← List.filter_congr hkept, ← List.filter_map, ← TypeGraph.map_members, List.filter_map,
    List.map_map, ← List.filter_congr hof] at hparts
  refine hparts.trans ?_
  have hmembers := congrArg (List.map (List.map (Ident.via e))) g'.map_members
  rw [List.map_map, List.map_map] at hmembers
  refine Eq.trans ?_ hmembers.symm
  refine List.map_congr_left fun c _ => ?_
  rw [Function.comp_apply, Function.comp_apply, List.map_map, List.map_map]
  rfl

/-- A component of the part is, under the new ids, one of the whole. -/
theorem exists_matching {k' : Component} (hk' : k' ∈ g'.condense.components) :
    ∃ k ∈ g.condense.components, k.members = k'.members.map (.via e) := by
  classical
  have hmem : k'.members.map (.via e) ∈
      (g.condense.components.toList.filter (Component.Of e)).map (·.members) := by
    rw [h.map_members]
    exact List.mem_map_of_mem (Array.mem_toList_iff.mpr hk')
  obtain ⟨k, hk, hmembers⟩ := List.mem_map.mp hmem
  exact ⟨k, Array.mem_toList_iff.mp (List.mem_of_mem_filter hk), hmembers⟩

/-- Components with a common node are the same under the new ids. -/
theorem members_eq {k k' : Component} (hk : k ∈ g.condense.components)
    (hk' : k' ∈ g'.condense.components) {m : TypeNodeId} (hm : m.via e ∈ k.members)
    (hm' : m ∈ k'.members) : k.members = k'.members.map (.via e) := by
  obtain ⟨b, hb, hmembers⟩ := h.exists_matching hk'
  rw [component_unique hk hb hm (hmembers ▸ List.mem_map_of_mem hm')]
  exact hmembers

/-- A node of the part that a component depends on is in a component of the same level in both. -/
theorem level_eq {k k' : Component} (hk : k ∈ g.condense.components)
    (hk' : k' ∈ g'.condense.components) (hmembers : k.members = k'.members.map (.via e)) :
    k.level = k'.level := by
  induction hn : k.level using Nat.strong_induction_on generalizing k k' with
  | _ n ih =>
  subst hn
  have hnot : ∀ {d}, d.via e ∉ k.members ↔ d ∉ k'.members := fun {d} => by
    rw [hmembers, List.mem_map_of_injective (Ident.via_injective h.mono.injective)]
  refine Nat.le_antisymm (Nat.le_of_not_lt fun hlt => ?_) (Nat.le_of_not_lt fun hlt => ?_)
  · -- what is just below in the whole is below in the part
    obtain ⟨m, hm, d, hd, hdk, b, hb, hdb, hbelow⟩ :=
      level_attained hk (Nat.lt_of_le_of_lt (Nat.zero_le _) hlt)
    obtain ⟨m', hm', rfl⟩ := List.mem_map.mp (hmembers ▸ hm)
    obtain ⟨d', rfl, hd'⟩ := h.dependsOn hd
    obtain ⟨b', hb', hdb', hlower⟩ := (level_lt hk' hm' hd').resolve_left (hnot.mp hdk)
    have hsame := ih b.level (by omega) hb hb' (h.members_eq hb hb' hdb hdb') rfl
    omega
  · obtain ⟨m', hm', d', hd', hdk', b', hb', hdb', hbelow⟩ :=
      level_attained hk' (Nat.lt_of_le_of_lt (Nat.zero_le _) hlt)
    have hm : m'.via e ∈ k.members := hmembers ▸ List.mem_map_of_mem hm'
    obtain ⟨b, hb, hdb, hlower⟩ :=
      (level_lt hk hm (h.dependsOn_iff.mpr hd')).resolve_left (hnot.mpr hdk')
    have hsame := ih b.level hlower hb hb' (h.members_eq hb hb' hdb hdb') rfl
    omega

theorem cyclic_eq {k k' : Component} (hk : k ∈ g.condense.components)
    (hk' : k' ∈ g'.condense.components) (hmembers : k.members = k'.members.map (.via e)) :
    k.cyclic = k'.cyclic := by
  rw [Bool.eq_iff_iff, cyclic_iff hk, cyclic_iff hk', hmembers, List.length_map]
  refine or_congr_right ?_
  have hedge : ∀ m ∈ k'.members, (∃ d ∈ g.dependencies (m.via e), d ∈ k'.members.map (.via e)) ↔
      ∃ d ∈ g'.dependencies m, d ∈ k'.members := by
    intro m _
    simp [h.dependencies, h.via_inj]
  constructor
  · rintro ⟨m, hm, hd⟩
    obtain ⟨m', hm', rfl⟩ := List.mem_map.mp hm
    exact ⟨m', hm', (hedge m' hm').mp hd⟩
  · rintro ⟨m, hm, hd⟩
    exact ⟨m.via e, List.mem_map_of_mem hm, (hedge m hm).mpr hd⟩

open Classical in
/-- The components of the whole that are of the part are its components, in the order that they are
resolved in. -/
theorem order : List.Forall₂ (Component.Matches e) (g.condense.order.filter (Component.Of e))
    g'.condense.order := by
  have hcomponents : List.Forall₂ (Component.Matches e)
      (g.condense.components.toList.filter (Component.Of e)) g'.condense.components.toList := by
    have hmembers : List.Forall₂ (fun k k' : Component => k.members = k'.members.map (.via e))
        (g.condense.components.toList.filter (Component.Of e)) g'.condense.components.toList := by
      have hmap := h.map_members
      rw [← List.forall₂_eq_eq_eq] at hmap
      exact List.forall₂_map_right_iff.mp (List.forall₂_map_left_iff.mp hmap)
    have hleft := (List.forall₂_and_left (p := (· ∈ g.condense.components)) _ _).mpr
      ⟨fun k hk => Array.mem_toList_iff.mp (List.mem_of_mem_filter hk), hmembers⟩
    have hboth := (List.forall₂_and_left (p := (· ∈ g'.condense.components)) _ _).mpr
      ⟨fun k hk => Array.mem_toList_iff.mp hk, hleft.flip⟩
    refine hboth.flip.imp fun k k' ⟨hk', hk, hsame⟩ => ?_
    exact ⟨hsame, h.cyclic_eq hk hk' hsame, h.level_eq hk hk' hsame⟩
  rw [Condensation.order_eq_of_le g.condense_numbered (Nat.le_max_left _ g'.condense.depth),
    Condensation.order_eq_of_le g'.condense_numbered (Nat.le_max_right g.condense.depth _),
    List.filter_flatMap]
  refine List.rel_flatMap (List.forall₂_same.mpr fun _ _ => rfl) fun level _ hsame => ?_
  subst hsame
  rw [List.filter_filter, List.filter_congr fun k _ => Bool.and_comm _ _, ← List.filter_filter]
  refine List.rel_filter (fun k k' hk => ?_) hcomponents
  change (k.level == level) = true ↔ (k'.level == level) = true
  rw [hk.level]

end

end TypeGraph.Embeds

/-! What the part comes to. -/

/-- All nodes that failed together are of the part. -/
def RecursionFailure.Of (e : Nat → Nat) (f : RecursionFailure) : Prop :=
  ∀ m ∈ f.members, m ∈ Set.range (Ident.via e)

/-- A failure is another one under new ids. -/
structure RecursionFailure.Matches (e : Nat → Nat) (f f' : RecursionFailure) : Prop where
  members : f.members = f'.members.map (.via e)
  error : f.error = f'.error.rename (.via e)
  fallback : f.fallback = f'.fallback

/-- What is found at a node that has a new id. -/
def Resolver.moved (e : Nat → Nat) (entry : TypeNodeId × Fault) : TypeNodeId × Fault :=
  (entry.1.via e, entry.2)

open Classical in
/-- What one resolution says of the part is what the other one says. -/
structure Resolution.Reflects (e : Nat → Nat) (g g' : TypeGraph) (res res' : Resolution) :
    Prop where
  size : res.types.size = g.size
  size' : res'.types.size = g'.size
  types : ∀ m : TypeNodeId, res.types.get (m.via e) = res'.types.get m
  errors : res.errors.filter (·.1 ∈ Set.range (Ident.via e)) = res'.errors.map (Resolver.moved e)
  warnings :
    res.warnings.filter (·.1 ∈ Set.range (Ident.via e)) = res'.warnings.map (Resolver.moved e)
  failures : List.Forall₂ (RecursionFailure.Matches e)
    (res.failures.filter (RecursionFailure.Of e)) res'.failures

namespace Resolution.Reflects

variable {e : Nat → Nat} {g g' : TypeGraph} {r : Resolver} {res res' : Resolution}

open Resolver Plain

section
variable (hpart : g.Embeds e g') (h : Reflects e g g' res res')

include hpart h

omit hpart h in
open Classical in
theorem filter_moved (entries : List (TypeNodeId × Fault)) :
    (entries.map (moved e)).filter (·.1 ∈ Set.range (Ident.via e)) = entries.map (moved e) := by
  rw [List.filter_eq_self]
  intro entry hentry
  obtain ⟨entry', -, rfl⟩ := List.mem_map.mp hentry
  exact decide_eq_true ⟨entry'.1, rfl⟩

theorem get_foldl_put (assigned : List (TypeNodeId × Option Ty)) :
    ((assigned.map (fun entry => (entry.1.via e, entry.2))).foldl
        (fun types entry => types.put entry.1 entry.2) res.types).size = g.size ∧
      (assigned.foldl (fun types entry => types.put entry.1 entry.2) res'.types).size = g'.size ∧
      ∀ m : TypeNodeId, ((assigned.map (fun entry => (entry.1.via e, entry.2))).foldl
        (fun types entry => types.put entry.1 entry.2) res.types).get (m.via e) =
          (assigned.foldl (fun types entry => types.put entry.1 entry.2) res'.types).get m := by
  suffices ∀ types types' : Types, types.size = g.size → types'.size = g'.size →
      (∀ m : TypeNodeId, types.get (m.via e) = types'.get m) →
      ((assigned.map (fun entry => (entry.1.via e, entry.2))).foldl
          (fun types entry => types.put entry.1 entry.2) types).size = g.size ∧
        (assigned.foldl (fun types entry => types.put entry.1 entry.2) types').size = g'.size ∧
        ∀ m : TypeNodeId, ((assigned.map (fun entry => (entry.1.via e, entry.2))).foldl
          (fun types entry => types.put entry.1 entry.2) types).get (m.via e) =
            (assigned.foldl (fun types entry => types.put entry.1 entry.2) types').get m from
    this res.types res'.types h.size h.size' h.types
  induction assigned with
  | nil => exact fun _ _ hsize hsize' hget => ⟨hsize, hsize', hget⟩
  | cons entry assigned ih =>
    intro types types' hsize hsize' hget
    refine ih _ _ (by rw [Types.size_put, hsize]) (by rw [Types.size_put, hsize']) fun d => ?_
    rw [Types.get_put, Types.get_put, hget, hsize, hsize']
    exact if_congr (and_congr hpart.via_inj (hpart.inside d.raw)) rfl rfl

/-- What is found of the part is added in both. -/
theorem addTo (gain : Gain) (id : ComponentId) :
    Reflects e g g' ((gain.rename (.via e) id).addTo res) (gain.addTo res') := by
  classical
  obtain ⟨hsize, hsize', htypes⟩ := get_foldl_put hpart h gain.assigned
  refine ⟨hsize, hsize', htypes, ?_, ?_, ?_⟩
  · rw [Gain.addTo, Gain.addTo, List.filter_append, h.errors, List.map_append]
    exact congrArg _ (filter_moved gain.errors)
  · rw [Gain.addTo, Gain.addTo, List.filter_append, h.warnings, List.map_append]
    exact congrArg _ (filter_moved gain.warnings)
  · rw [Gain.addTo, Gain.addTo, List.filter_append]
    refine List.rel_append h.failures ?_
    have hof : ∀ f ∈ (gain.rename (.via e) id).failures,
        decide (RecursionFailure.Of e f) = true := by
      intro f hf
      obtain ⟨f', -, rfl⟩ := List.mem_map.mp hf
      refine decide_eq_true fun m hm => ?_
      obtain ⟨m', -, rfl⟩ := List.mem_map.mp hm
      exact ⟨m', rfl⟩
    rw [List.filter_eq_self.mpr hof, Gain.rename, List.forall₂_map_left_iff, List.forall₂_same]
    exact fun f _ => ⟨rfl, rfl, rfl⟩

/-- A component of the part finds the same in both. -/
theorem inside {c c' : Component} (hc : c ∈ g.condense.order) (hc' : c' ∈ g'.condense.order)
    (hsame : c.Matches e c') :
    Reflects e g g' (Plain.resolveComponent r g res c) (Plain.resolveComponent r g' res' c') := by
  have hsingle : c.cyclic = false → ∃ m, c.members = [m] := fun hcyclic =>
    (g.condense_schedule.single hc hcyclic).imp fun _ => And.left
  have hsingle' : c'.cyclic = false → ∃ m, c'.members = [m] := fun hcyclic =>
    (g'.condense_schedule.single hc' hcyclic).imp fun _ => And.left
  have hmirrors : Mirrors (.via e) g g' c'.members := by
    refine ⟨Ident.via_injective hpart.mono.injective, fun m hm => ?_, fun m _ => ?_⟩
    · have hin := g'.condense_schedule.inside hc' hm
      exact ⟨hin, (hpart.inside m.raw).mpr hin⟩
    · rw [ruleOf, ruleOf, hpart.rules]
      cases g'.rule? m <;> rfl
  have hsees : Sees (.via e) g g' c'.members res.types res'.types :=
    ⟨h.size, h.size', fun m _ => h.types m⟩
  rw [resolveComponent_eq hsingle, resolveComponent_eq hsingle',
    gain_mirrors hmirrors hsees hsame.members hsame.cyclic]
  exact addTo hpart h _ _

omit hpart in
/-- A component of the rest leaves the part as it is. -/
theorem outside {c : Component} (hc : c ∈ g.condense.order)
    (hout : ∀ m ∈ c.members, m ∉ Set.range (Ident.via e)) :
    Reflects e g g' (Plain.resolveComponent r g res c) res' := by
  classical
  have hschedule := g.condense_schedule
  obtain ⟨hsize, hframe, heffect⟩ := resolveComponent_effect (r := r) h.size
    (fun m hm => hschedule.inside hc hm) (hschedule.single hc)
  have htypes : ∀ m : TypeNodeId, (Plain.resolveComponent r g res c).types.get (m.via e) =
      res'.types.get m := by
    intro m
    rw [hframe _ fun hm => hout _ hm ⟨m, rfl⟩, h.types]
  have hfindings : ∀ kind found,
      (findings kind c.members found).filter
        (fun entry => decide (entry.1 ∈ Set.range (Ident.via e))) = [] := by
    intro kind found
    rw [List.filter_eq_nil_iff]
    rintro ⟨m, fault⟩ hmem hrange
    exact hout m (mem_findings.mp hmem).1 (of_decide_eq_true hrange)
  cases heffect with
  | resolved _ failures _ errors warnings =>
    refine ⟨hsize, h.size', htypes, ?_, ?_, ?_⟩
    · rw [errors, List.filter_append, hfindings, List.append_nil, h.errors]
    · rw [warnings, List.filter_append, hfindings, List.append_nil, h.warnings]
    · rw [failures]
      exact h.failures
  | failed _ _ failures _ errors warnings =>
    refine ⟨hsize, h.size', htypes, ?_, ?_, ?_⟩
    · rw [errors, h.errors]
    · rw [warnings, h.warnings]
    · obtain ⟨m, hm⟩ := List.exists_mem_of_ne_nil _ (hschedule.nonempty c hc)
      have hdropped : [failureOf r c].filter (fun f => decide (RecursionFailure.Of e f)) = [] :=
        List.filter_cons_of_neg fun hall => hout m hm (of_decide_eq_true hall m hm)
      rw [failures, List.filter_append, hdropped, List.append_nil]
      exact h.failures

end

end Resolution.Reflects

namespace TypeGraph.Embeds

variable {e : Nat → Nat} {g g' : TypeGraph}

open Resolver Plain

/-- A component is of the part or has no node of it. -/
theorem outside_of_not_of (h : g.Embeds e g') {c : Component} (hc : c ∈ g.condense.order)
    (hnot : ¬c.Of e) : ∀ m ∈ c.members, m ∉ Set.range (Ident.via e) := by
  intro m hm hrange
  refine hnot fun d hd => ?_
  obtain ⟨m', rfl⟩ := hrange
  have hin := g.condense_schedule.inside hc hm
  have hmutual := (g.condense_schedule.members c hc _ hm d).mp hd
  rw [reaches_iff, reaches_iff] at hmutual
  exact Ident.mem_range_via.mpr (h.digraph.range_of_mutual hin hmutual)

/-- What fails to settle is of the part or has no node of it. -/
theorem outside_of_failed {r : Resolver} {res : Resolution} (h : g.Embeds e g')
    (hsolution : Resolver.Solution r g res) :
    ∀ f ∈ res.failures, ¬f.Of e → ∀ m ∈ f.members, m ∉ Set.range (Ident.via e) := by
  intro f hf hnot
  obtain ⟨c, hc, -, -, hmembers, -⟩ := hsolution.failures f hf
  rw [RecursionFailure.Of, hmembers] at hnot
  rw [hmembers]
  refine h.outside_of_not_of ?_ hnot
  exact (g.condense_order_perm.mem_iff).mpr (Array.mem_toList_iff.mpr hc)

/-- A part resolves to what it resolves to by itself. -/
theorem resolve_reflects (h : g.Embeds e g') (r : Resolver) :
    Resolution.Reflects e g g' (Plain.resolve r g) (Plain.resolve r g') := by
  classical
  have hstart : Resolution.Reflects e g g' (Plain.start g) (Plain.start g') := by
    refine ⟨Array.size_replicate, Array.size_replicate, fun m => ?_, rfl, rfl, .nil⟩
    rw [(Solved.start r g).fresh _ (by simp), (Solved.start r g').fresh _ (by simp)]
  rw [Plain.resolve_eq, Plain.resolve_eq]
  refine foldl_alike h.order (fun c hc c' hc' hsame res res' hres => ?_)
    (fun c hc hnot res res' hres => ?_) hstart
  · exact hres.inside h hc hc' hsame
  · exact hres.outside hc (h.outside_of_not_of hc (of_decide_eq_false hnot))

end TypeGraph.Embeds

end TypedSsa

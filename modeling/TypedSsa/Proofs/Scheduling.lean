import TypedSsa.Proofs.Mirroring

/-!
Components of a wave resolved beside each other. Main statement: `resolveBeside_yields`. In whatever
order the components of a wave are taken up, each with the types before the wave, the graph resolves
to what it resolves to one component after the other.
-/

namespace TypedSsa

/-! Components of one level. -/

namespace Condensation

/-- The components, wave by wave. -/
def levels (c : Condensation) : List (List Component) :=
  c.waves.map (·.filterMap c.component?)

theorem order_eq_levels (c : Condensation) : c.order = c.levels.flatten := by
  rw [order, levels, List.filterMap_flatten]

theorem levels_eq {c : Condensation} (hid : c.Numbered) :
    c.levels = (List.range c.depth).map (fun l => c.components.toList.filter (·.level == l)) := by
  rw [levels, waves, List.map_map]
  refine List.map_congr_left fun l _ => ?_
  rw [Function.comp_apply, getD_groupBy, List.filterMap_map, List.filterMap_congr (g := some),
    List.filterMap_some]
  intro k hk
  obtain ⟨i, hi⟩ := Array.getElem?_of_mem (Array.mem_toList_iff.mp (List.mem_of_mem_filter hk))
  rw [Function.comp_apply, component?, hid i k hi]
  exact hi

end Condensation

namespace TypeGraph

variable {g : TypeGraph}

/-- Components that can be resolved beside each other: none has or needs a node of another. -/
structure Wave (g : TypeGraph) (wave : List Component) : Prop where
  inside : ∀ c ∈ wave, ∀ m ∈ c.members, m.raw < g.size
  single : ∀ c ∈ wave, c.cyclic = false → ∃ m, c.members = [m] ∧ ¬g.DependsOn m m
  apart : wave.Pairwise (fun b c => ∀ m ∈ b.members, m ∉ c.members ∧
    ∀ d ∈ c.members, ¬g.DependsOn d m)

theorem condense_numbered (g : TypeGraph) : g.condense.Numbered :=
  fun _ _ hk => (condense_describes hk).choose_spec.2.id

theorem level_lt {c : Component} (hc : c ∈ g.condense.components) {m d : TypeNodeId}
    (hm : m ∈ c.members) (hd : g.DependsOn m d) :
    d ∈ c.members ∨ ∃ b ∈ g.condense.components, d ∈ b.members ∧ b.level < c.level := by
  obtain ⟨i, hi⟩ := Array.getElem?_of_mem hc
  obtain ⟨vertices, -, hdescribes⟩ := condense_describes hi
  rw [hdescribes.members] at hm ⊢
  obtain ⟨v, hv, rfl⟩ := List.mem_map.mp hm
  refine (hdescribes.below v hv d.raw (mem_targets.mpr hd.1) hd.2).imp_left fun hd => ?_
  exact List.mem_map.mpr ⟨d.raw, hd, rfl⟩

/-- A node is in one component only. -/
theorem component_unique {b c : Component} (hb : b ∈ g.condense.components)
    (hc : c ∈ g.condense.components) {m : TypeNodeId} (hmb : m ∈ b.members) (hmc : m ∈ c.members) :
    b = c := by
  have hperm := g.condense_order_perm
  have hnodup := g.condense_schedule.nodup
  have hmem : ∀ {c}, c ∈ g.condense.components → c ∈ g.condense.order := fun hc =>
    hperm.mem_iff.mpr (Array.mem_toList_iff.mpr hc)
  obtain ⟨i, hi⟩ := List.getElem?_of_mem (hmem hb)
  obtain ⟨j, hj⟩ := List.getElem?_of_mem (hmem hc)
  obtain ⟨hi', rfl⟩ := List.getElem?_eq_some_iff.mp hi
  obtain ⟨hj', rfl⟩ := List.getElem?_eq_some_iff.mp hj
  have hpairs := (List.nodup_flatMap.mp hnodup).2
  rcases Nat.lt_trichotomy i j with hlt | rfl | hlt
  · exact absurd hmc (List.pairwise_iff_getElem.mp hpairs i j hi' hj' hlt hmb)
  · rfl
  · exact absurd hmb (List.pairwise_iff_getElem.mp hpairs j i hj' hi' hlt hmc)

theorem condense_waves (g : TypeGraph) : ∀ wave ∈ g.condense.levels, g.Wave wave := by
  intro wave hwave
  have hschedule := g.condense_schedule
  have horder : ∀ c ∈ wave, c ∈ g.condense.order := fun c hc => by
    rw [Condensation.order_eq_levels]
    exact List.mem_flatten.mpr ⟨wave, hwave, hc⟩
  have hmem : ∀ c ∈ wave, c ∈ g.condense.components := fun c hc =>
    Array.mem_toList_iff.mp (g.condense_order_perm.mem_iff.mp (horder c hc))
  refine ⟨fun c hc m hm => hschedule.inside (horder c hc) hm,
    fun c hc => hschedule.single (horder c hc), ?_⟩
  have hdistinct : wave.Pairwise (fun b c => List.Disjoint b.members c.members) := by
    have hpairs := (List.nodup_flatMap.mp hschedule.nodup).2
    rw [Condensation.order_eq_levels] at hpairs
    exact (List.pairwise_flatten.mp hpairs).1 wave hwave
  have hlevel : ∃ l, ∀ c ∈ wave, c.level = l := by
    rw [Condensation.levels_eq g.condense_numbered] at hwave
    obtain ⟨l, -, rfl⟩ := List.mem_map.mp hwave
    exact ⟨l, fun c hc => by simpa using (List.mem_filter.mp hc).2⟩
  obtain ⟨l, hl⟩ := hlevel
  refine hdistinct.imp_of_mem fun {b c} hb hc hdisjoint m hm => ⟨fun hmc => hdisjoint hm hmc, ?_⟩
  intro d hd hdm
  rcases level_lt (hmem c hc) hd hdm with hmc | ⟨b', hb', hmb', hlower⟩
  · exact hdisjoint hm hmc
  · obtain rfl := component_unique (hmem b hb) hb' hm hmb'
    rw [hl b hb, hl c hc] at hlower
    exact Nat.lt_irrefl l hlower

end TypeGraph

namespace Resolver

/-! Taking up the components of a wave in any order. -/

/-- In which order the components of each wave are taken up. -/
structure Dispatch where
  order : List Component → List Component
  perm : ∀ wave, (order wave).Perm wave

/-- Adds what a component comes to on its own. -/
def merge (res : Resolution) (c : Component) (alone : Resolution) : Resolution :=
  { res with
    types := c.members.foldl (fun types m => types.put m (alone.types.get m)) res.types
    failures := res.failures ++ alone.failures
    errors := res.errors ++ alone.errors
    warnings := res.warnings ++ alone.warnings
    stats := { res.stats with
      evaluations := res.stats.evaluations + alone.stats.evaluations
      rounds := res.stats.rounds + alone.stats.rounds } }

/-- Each component is resolved with the types before the wave; what they come to is added in the
order of the wave. -/
def resolveWave (r : Resolver) (g : TypeGraph) (d : Dispatch) (res : Resolution)
    (wave : List Component) : StateM Memo Resolution := do
  let found ← (d.order wave).mapM (fun c => do
    let alone ← r.resolveComponent g { types := res.types } c
    return (c, alone))
  return wave.foldl (fun res c =>
    match found.find? (·.1 == c) with
    | some entry => merge res c entry.2
    | none => res) res

/-- Resolves a graph wave by wave, the components of a wave beside each other. -/
def resolveBeside (r : Resolver) (g : TypeGraph) (d : Dispatch) : StateM Memo Resolution :=
  g.condense.levels.foldlM (r.resolveWave g d) (Plain.start g)

variable {r : Resolver} {g : TypeGraph}

namespace Plain

/-- Every member is assigned a type, and no other node. -/
theorem gain_assigned (types : Types) (c : Component) : ∃ found : TypeNodeId → Option Ty,
    (gain r g types c).assigned = c.members.map (fun m => (m, found m)) := by
  rw [gain]
  cases c.cyclic with
  | false =>
    exact ⟨fun m => (outcome r g types m).ty, by simp [Gain.ofResults, Function.comp_def]⟩
  | true =>
    cases hsettle : settle r g c.members r.maxRounds 0 types with
    | mk n settled =>
      cases settled with
      | none => exact ⟨_, rfl⟩
      | some round =>
        obtain ⟨last, rfl, hchanged, -⟩ := settle_settled hsettle
        obtain ⟨-, -, hresults⟩ := runRound_unchanged hchanged
        refine ⟨fun m => (outcome r g last m).ty, ?_⟩
        simp [Gain.ofResults, hresults, Function.comp_def]

/-- A component comes to the same on its own. -/
theorem merge_eq {c : Component} {res : Resolution} {types : Types}
    (hsingle : c.cyclic = false → ∃ m, c.members = [m] ∧ ¬g.DependsOn m m)
    (hinside : ∀ m ∈ c.members, m.raw < g.size)
    (hsees : Sees id g g c.members res.types types) :
    merge res c (resolveComponent r g { types } c) = resolveComponent r g res c := by
  have hone : c.cyclic = false → ∃ m, c.members = [m] := fun h => (hsingle h).imp fun _ => And.left
  have hmirrors : Mirrors id g g c.members :=
    ⟨Function.injective_id, fun m hm => ⟨hinside m hm, hinside m hm⟩, by simp⟩
  have hgain : gain r g res.types c = gain r g types c := by
    rw [gain_mirrors hmirrors hsees (by simp) rfl]
    exact gain_rename_id types c
  obtain ⟨found, hassigned⟩ := gain_assigned (r := r) (g := g) types c
  have halone : ∀ m ∈ c.members, ((gain r g types c).addTo { types }).types.get m = found m := by
    intro m hm
    rw [Gain.addTo, hassigned, List.foldl_map]
    dsimp only
    rw [(get_foldl_put _ _ _).2, if_pos ⟨hm, hsees.size' ▸ hinside m hm⟩]
  have htypes : c.members.foldl (fun puts m =>
      puts.put m (((gain r g types c).addTo { types }).types.get m)) res.types =
        (gain r g types c).assigned.foldl (fun puts entry => puts.put entry.1 entry.2)
          res.types := by
    rw [hassigned, List.foldl_map]
    exact List.foldl_ext _ _ _ fun puts m hm => by rw [halone m hm]
  rw [resolveComponent_eq hone, resolveComponent_eq hone, hgain, merge, htypes]
  simp [Gain.addTo]

/-- Components of a wave come to the same beside each other as one after the other. -/
theorem foldl_merge {wave : List Component} (h : g.Wave wave) {res : Resolution}
    (hsize : res.types.size = g.size) :
    wave.foldl (fun res' c =>
        merge res' c (resolveComponent r g { types := res.types } c)) res =
      wave.foldl (resolveComponent r g) res := by
  suffices ∀ (todo : List Component) (res' : Resolution), g.Wave todo →
      (∀ c ∈ todo, Sees id g g c.members res'.types res.types) →
      todo.foldl (fun res' c =>
          merge res' c (resolveComponent r g { types := res.types } c)) res' =
        todo.foldl (resolveComponent r g) res' from
    this wave res h fun c _ => ⟨hsize, hsize, fun _ _ => rfl⟩
  intro todo
  induction todo with
  | nil => exact fun _ _ _ => rfl
  | cons c todo ih =>
    intro res' hwave hsees
    have hsingle := hwave.single c List.mem_cons_self
    have hinside := hwave.inside c List.mem_cons_self
    have hc := hsees c List.mem_cons_self
    rw [List.foldl_cons, List.foldl_cons, merge_eq hsingle hinside hc]
    obtain ⟨hsize', hframe, -⟩ := resolveComponent_effect (r := r) hc.size hinside hsingle
    obtain ⟨hfirst, hrest⟩ := List.pairwise_cons.mp hwave.apart
    refine ih _ ⟨fun b hb => hwave.inside b (List.mem_cons_of_mem c hb),
      fun b hb => hwave.single b (List.mem_cons_of_mem c hb), hrest⟩ fun b hb => ?_
    refine ⟨hsize', hsize, fun m hm => ?_⟩
    have hb' := hsees b (List.mem_cons_of_mem c hb)
    rw [← hb'.get m hm]
    by_cases hout : m.raw < g.size
    · refine hframe m fun hmc => ?_
      obtain ⟨hapart, hneeds⟩ := hfirst b hb m hmc
      rcases hm with hm | ⟨d, hd, hm⟩
      · exact hapart hm
      · exact hneeds d hd ⟨dependencies_ruleOf g d ▸ hm, hout⟩
    · rw [id_eq, Types.get_of_le (hsize' ▸ Nat.le_of_not_lt hout),
        Types.get_of_le (hc.size ▸ Nat.le_of_not_lt hout)]

theorem foldl_levels {levels : List (List Component)} (h : ∀ wave ∈ levels, g.Wave wave)
    {res : Resolution} (hsize : res.types.size = g.size) :
    levels.foldl (fun res wave => wave.foldl (fun res' c =>
        merge res' c (resolveComponent r g { types := res.types } c)) res) res =
      levels.flatten.foldl (resolveComponent r g) res := by
  induction levels generalizing res with
  | nil => rfl
  | cons wave levels ih =>
    have hwave := h wave List.mem_cons_self
    rw [List.foldl_cons, List.flatten_cons, List.foldl_append, foldl_merge hwave hsize]
    refine ih (fun w hw => h w (List.mem_cons_of_mem wave hw)) ?_
    have hsizes : ∀ (todo : List Component) (res : Resolution), todo ⊆ wave →
        res.types.size = g.size → (todo.foldl (resolveComponent r g) res).types.size = g.size := by
      intro todo
      induction todo with
      | nil => exact fun _ _ h => h
      | cons c todo ih =>
        intro res hsub hsize
        have hc := hsub List.mem_cons_self
        exact ih _ (fun b hb => hsub (List.mem_cons_of_mem c hb))
          (resolveComponent_effect hsize (hwave.inside c hc) (hwave.single c hc)).1
    exact hsizes wave res (List.Subset.refl _) hsize

theorem resolve_eq_levels (r : Resolver) (g : TypeGraph) :
    g.condense.levels.foldl (fun res wave => wave.foldl (fun res' c =>
        merge res' c (resolveComponent r g { types := res.types } c)) res) (start g) =
      resolve r g := by
  rw [resolve_eq, Condensation.order_eq_levels]
  exact foldl_levels g.condense_waves Array.size_replicate

end Plain

/-! What is remembered on the way. -/

theorem Yields.mapM {α β : Type} {good : Memo → Prop} {f : α → StateM Memo β} {f' : α → β}
    (hf : ∀ x, Yields good (f x) (f' x)) (xs : List α) : Yields good (xs.mapM f) (xs.map f') := by
  induction xs with
  | nil => exact .pure []
  | cons x xs ih =>
    rw [List.mapM_cons]
    exact (hf x).bind (ih.bind (.pure _))

theorem resolveWave_yields {good : Memo → Prop}
    (heval : ∀ lookup id, Yields good (r.evaluate lookup (ruleOf g id))
      (Plain.evaluate r lookup (ruleOf g id)))
    (d : Dispatch) (res : Resolution) (wave : List Component) :
    Yields good (r.resolveWave g d res wave) (wave.foldl (fun res' c =>
      merge res' c (Plain.resolveComponent r g { types := res.types } c)) res) := by
  have hfound : ∀ c ∈ wave, ((d.order wave).map (fun c =>
      (c, Plain.resolveComponent r g { types := res.types } c))).find? (·.1 == c) =
        some (c, Plain.resolveComponent r g { types := res.types } c) := by
    intro c hc
    have hmem : c ∈ d.order wave := (d.perm wave).mem_iff.mpr hc
    have hfind : (d.order wave).find? (· == c) = some c := by
      cases hb : (d.order wave).find? (· == c) with
      | none => exact absurd (beq_self_eq_true c) (List.find?_eq_none.mp hb c hmem)
      | some b =>
        have hsame := List.find?_some hb
        rw [eq_of_beq hsame]
    rw [List.find?_map]
    exact congrArg (Option.map _) hfind
  have hmerged : wave.foldl (fun res' c =>
      merge res' c (Plain.resolveComponent r g { types := res.types } c)) res =
        wave.foldl (fun res' c =>
          match ((d.order wave).map (fun c =>
              (c, Plain.resolveComponent r g { types := res.types } c))).find? (·.1 == c) with
          | some entry => merge res' c entry.2
          | none => res') res :=
    List.foldl_ext _ _ _ fun res' c hc => by rw [hfound c hc]
  rw [hmerged]
  refine Yields.bind (Yields.mapM (fun c => ?_) _) (.pure _)
  exact (resolveComponent_yields heval _ c).bind (.pure _)

/-- In any order of taking up components a graph resolves to the same. -/
theorem resolveBeside_yields {good : Memo → Prop}
    (heval : ∀ lookup id, Yields good (r.evaluate lookup (ruleOf g id))
      (Plain.evaluate r lookup (ruleOf g id))) (d : Dispatch) :
    Yields good (r.resolveBeside g d) (Plain.resolve r g) := by
  rw [← Plain.resolve_eq_levels]
  exact .foldlM (resolveWave_yields heval d) _

end Resolver

end TypedSsa

import TypedSsa.Proofs.Nodes
import TypedSsa.Proofs.Resolving

/-!
What resolving a graph comes to. Main statement: `resolve_solves`. Outside of the components that
fail, each node has the type that its rule gives it under the types of all nodes, and just the nodes
are reported whose rule fails or needs the fallback there.
-/

namespace TypedSsa

namespace Resolver

variable {r : Resolver} {g : TypeGraph}

/-- A resolution that solves the equations of a graph, up to the components that fail. -/
structure Solution (r : Resolver) (g : TypeGraph) (res : Resolution) : Prop where
  size : res.types.size = g.size
  equation : ∀ m : TypeNodeId, m.raw < g.size → res.failureFor? m = none →
    res.typeOf? m = (Plain.outcome r g res.types m).ty
  errors : Plain.Reports r g (·.error) (·.raw < g.size) res res.errors
  warnings : Plain.Reports r g (·.warning) (·.raw < g.size) res res.warnings
  failures : ∀ f ∈ res.failures, ∃ c ∈ g.condense.components, c.cyclic = true ∧
    f.component = c.id ∧ f.members = c.members ∧
    f.error = .unresolvedRecursion c.members r.maxRounds ∧ f.fallback = r.recursionFallback
  /-- No node fails twice. -/
  failed_once : (res.failures.flatMap (·.members)).Nodup
  fallback : ∀ f ∈ res.failures, ∀ m ∈ f.members, res.typeOf? m = r.recursionFallback
  costs : ∃ work : List (Component × Nat),
    (work.map (·.1)).Perm g.condense.components.toList ∧ Plain.Costs r work res.stats
  acyclic : (∀ m, ¬Relation.TransGen g.DependsOn m m) →
    res.stats.evaluations = g.size ∧ res.stats.rounds = 0

theorem Solution.failed_type {res : Resolution} (h : Solution r g res) {m : TypeNodeId}
    (hm : res.failureFor? m ≠ none) : res.types.get m = r.recursionFallback := by
  obtain ⟨f, hf⟩ := Option.ne_none_iff_exists'.mp hm
  exact h.fallback f (List.mem_of_find?_eq_some hf) m (by simpa using List.find?_some hf)

namespace Plain

/-- Where there are no cycles each node is evaluated once. -/
theorem Costs.acyclic_only {work : List (Component × Nat)} {stats : ResolverStats}
    (h : Costs r work stats) (hschedule : g.Schedule (work.map (·.1)))
    (hcyclic : ∀ w ∈ work, w.1.cyclic = false) :
    stats.evaluations = g.size ∧ stats.rounds = 0 := by
  have hlength := hschedule.perm_range.length_eq
  rw [List.length_flatMap, List.length_map, List.length_range, List.map_map] at hlength
  constructor
  · rw [h.evaluations, ← hlength]
    refine congrArg List.sum (List.map_congr_left fun w hw => ?_)
    obtain ⟨m, hm, -⟩ := hschedule.single (List.mem_map_of_mem hw) (hcyclic w hw)
    simp [hcyclic w hw, hm]
  · have hnone : work.map (·.2) = work.map (fun _ => 0) :=
      List.map_congr_left fun w hw => h.acyclic w hw (hcyclic w hw)
    rw [h.rounds, hnone]
    simp

theorem resolve_solution (r : Resolver) (g : TypeGraph) : Solution r g (resolve r g) := by
  have h := resolve_solved r g
  have hschedule := g.condense_schedule
  have hall : (fun m => m ∈ g.condense.order.flatMap (·.members)) = fun m => m.raw < g.size :=
    funext fun m => propext (hschedule.covered m)
  have hstart : Costs r [] (start g).stats := ⟨by simp, by simp, rfl, rfl⟩
  obtain ⟨work, hwork, hcosts⟩ := foldl_costs (g := g) hstart
    fun c (hc : c ∈ g.condense.order) hcyclic => (hschedule.single hc hcyclic).imp fun _ => And.left
  rw [← resolve_eq, List.nil_append] at hcosts
  refine ⟨h.size, fun m hm => h.equation m ((hschedule.covered m).mpr hm), hall ▸ h.errors,
    hall ▸ h.warnings, ?_, h.failed_once, h.fallback,
    ⟨work, hwork ▸ g.condense_order_perm, hcosts⟩, ?_⟩
  · intro f hf
    obtain ⟨c, hc, hcyclic, rfl⟩ := h.failures f hf
    exact ⟨c, Array.mem_toList_iff.mp (g.condense_order_perm.mem_iff.mp hc), hcyclic, rfl, rfl,
      rfl, rfl⟩
  · intro hnone
    have hcyclic : ∀ c ∈ g.condense.order, c.cyclic = false := by
      intro c hc
      by_contra hcyclic
      obtain ⟨m, -, hm⟩ := (hschedule.cyclic c hc).mp (by simpa using hcyclic)
      exact hnone m hm
    exact hcosts.acyclic_only (hwork ▸ hschedule) fun w hw =>
      hcyclic w.1 (hwork ▸ List.mem_map_of_mem hw)

/-- Only nodes on a cycle fail. -/
theorem failureFor?_of_acyclic {m : TypeNodeId} (h : ¬Relation.TransGen g.DependsOn m m) :
    (resolve r g).failureFor? m = none := by
  rw [Resolution.failureFor?_eq_none]
  intro f hf hm
  obtain ⟨c, hc, hcyclic, rfl⟩ := (resolve_solved r g).failures f hf
  exact h (g.condense_schedule.cycle_of_mem hc hcyclic hm)

end Plain

end Resolver

/-! Cycles into which only constants go. -/

def TypeRule.constant? : TypeRule → Option Ty
  | constant ty => some ty
  | _ => none

namespace TypeGraph

variable {g : TypeGraph}

/-- The types of the constants, and no others. -/
def constants (g : TypeGraph) : Types :=
  g.nodes.map (·.rule.constant?)

theorem get_constants (g : TypeGraph) (m : TypeNodeId) :
    g.constants.get m = (g.rule? m).bind TypeRule.constant? := by
  rw [Types.get, constants, Array.getElem?_map, rule?, node?]
  cases g.nodes[m.raw]? <;> rfl

theorem DependsOn.source_lt {m d : TypeNodeId} (h : g.DependsOn m d) : m.raw < g.size := by
  cases hrule : g.rule? m with
  | some rule => exact raw_lt_of_rule? hrule
  | none =>
    have hd := h.1
    rw [dependencies, hrule] at hd
    cases hd

theorem DependsOn.ne_constant {m d : TypeNodeId} (h : g.DependsOn m d) {ty : Ty} :
    g.rule? m ≠ some (.constant ty) := by
  intro hconstant
  have hd := h.1
  rw [dependencies, hconstant] at hd
  cases hd

/-- Nodes on one cycle, with only constants beside them. -/
structure Ring (g : TypeGraph) (nodes : List TypeNodeId) : Prop where
  nonempty : nodes ≠ []
  sorted : nodes.Pairwise (·.raw < ·.raw)
  cycle : ∀ a ∈ nodes, ∀ b ∈ nodes, Relation.TransGen g.DependsOn a b
  rest : ∀ d ∉ nodes, d.raw < g.size → ∃ ty, g.rule? d = some (.constant ty)

namespace Ring

variable {nodes : List TypeNodeId}

theorem exists_dependsOn (h : g.Ring nodes) {m : TypeNodeId} (hm : m ∈ nodes) :
    ∃ d, g.DependsOn m d :=
  (Relation.TransGen.head'_iff.mp (h.cycle m hm m hm)).imp fun _ => And.left

/-- A ring is a component. -/
theorem exists_component (h : g.Ring nodes) :
    ∃ c ∈ g.condense.order, c.members = nodes ∧ c.cyclic = true := by
  have hschedule := g.condense_schedule
  obtain ⟨m, hm⟩ := List.exists_mem_of_ne_nil nodes h.nonempty
  obtain ⟨_, hd⟩ := h.exists_dependsOn hm
  have hin := hd.source_lt
  obtain ⟨c, hc, hmc⟩ := List.mem_flatMap.mp ((hschedule.covered m).mpr hin)
  refine ⟨c, hc, hschedule.members_eq hc hmc h.sorted hm
    (fun d hd => ⟨(h.cycle m hm d hd).to_reflTransGen, (h.cycle d hd m hm).to_reflTransGen⟩)
    (fun d hd => ?_), (hschedule.cyclic c hc).mpr ⟨m, hmc, h.cycle m hm m hm⟩⟩
  by_cases hin : d.raw < g.size
  · obtain ⟨ty, hty⟩ := h.rest d hd hin
    rw [dependencies, hty]
    rfl
  · rw [dependencies, rule?, node?, Array.getElem?_eq_none (Nat.le_of_not_lt hin)]
    rfl

end Ring

end TypeGraph

namespace Resolver

namespace Plain

theorem get_constant {m : TypeNodeId} {ty : Ty} (hm : g.rule? m = some (.constant ty)) :
    (resolve r g).types.get m = some ty := by
  have hacyclic : ¬Relation.TransGen g.DependsOn m m := by
    intro hcycle
    obtain ⟨d, hd, -⟩ := Relation.TransGen.head'_iff.mp hcycle
    exact hd.ne_constant hm
  have h := (resolve_solution r g).equation m (TypeGraph.raw_lt_of_rule? hm)
    (failureFor?_of_acyclic hacyclic)
  rw [outcome, ruleOf, hm] at h
  exact h

/-- The rounds on a ring start from the types of the constants. -/
theorem entering_ring {nodes : List TypeNodeId} (h : g.Ring nodes) :
    entering nodes (resolve r g).types = g.constants := by
  have hsize : (entering nodes (resolve r g).types).size = g.size :=
    (entering_size _ _).trans (resolve_solution r g).size
  refine Types.ext (hsize.trans Array.size_map.symm) fun m => ?_
  rw [entering_get, TypeGraph.get_constants]
  split
  · rename_i hm
    obtain ⟨d, hd⟩ := h.exists_dependsOn hm
    match hrule : g.rule? m with
    | some (.constant ty) => exact absurd hrule hd.ne_constant
    | some (.copy _) | some (.join _) | some (.apply _ _) | some .undefined | none => rfl
  · rename_i hm
    by_cases hin : m.raw < g.size
    · obtain ⟨ty, hty⟩ := h.rest m hm hin
      rw [get_constant hty, hty]
      rfl
    · rw [Types.get_of_le ((resolve_solution r g).size ▸ Nat.le_of_not_lt hin), TypeGraph.rule?,
        TypeGraph.node?, Array.getElem?_eq_none (Nat.le_of_not_lt hin)]
      rfl

theorem ring_fails {nodes : List TypeNodeId} (h : g.Ring nodes)
    (hunsettled : (settle r g nodes r.maxRounds 0 g.constants).settled = none) {m : TypeNodeId}
    (hm : m ∈ nodes) : (resolve r g).failureFor? m ≠ none := by
  obtain ⟨c, hc, rfl, hcyclic⟩ := h.exists_component
  rcases resolve_component (r := r) hc hcyclic hm with ⟨-, hsettles⟩ | hfails
  · obtain ⟨round, hround, -⟩ := hsettles
    rw [entering_ring h, hunsettled] at hround
    cases hround
  · exact hfails.1

end Plain

/-- A graph resolves to a solution of its equations, whatever right results are remembered. -/
theorem resolve_solves (r : Resolver) (g : TypeGraph) (memo : Memo)
    (h : memo.Faithful r.rules r.lattice) : Solution r g ((r.resolve g).run memo).1 :=
  (resolve_yields r g memo h).1 ▸ Plain.resolve_solution r g

theorem resolve_solves_empty :
    Memo.Faithful {} { id := 0, rules := RuleSet.builtinRules } (.ofConfig {}) ∧
      Solution (.ofConfig {} { id := 0, rules := RuleSet.builtinRules })
        ⟨#[⟨.join [⟨1⟩, ⟨2⟩], .synthetic, none⟩, ⟨.apply "+" [⟨0⟩, ⟨2⟩], .synthetic, none⟩,
          ⟨.constant .int64, .synthetic, none⟩]⟩
        (((Resolver.ofConfig {} { id := 0, rules := RuleSet.builtinRules }).resolve
          ⟨#[⟨.join [⟨1⟩, ⟨2⟩], .synthetic, none⟩, ⟨.apply "+" [⟨0⟩, ⟨2⟩], .synthetic, none⟩,
            ⟨.constant .int64, .synthetic, none⟩]⟩).run {}).1 :=
  ⟨Memo.faithful_empty _ _, resolve_solves _ _ _ (Memo.faithful_empty _ _)⟩

/-- Two texts and an integer meet on a cycle, and one round is too few to see it. -/
def cutShort : TypeGraph :=
  ⟨#[⟨.constant .str, .synthetic, none⟩, ⟨.constant .int64, .synthetic, none⟩,
    ⟨.join [⟨0⟩, ⟨3⟩], .synthetic, none⟩, ⟨.join [⟨0⟩, ⟨1⟩, ⟨2⟩], .synthetic, none⟩]⟩

def oneRound : Resolver :=
  .ofConfig { maxRounds := 1 } { id := 0 }

theorem cutShort_ring : cutShort.Ring [⟨2⟩, ⟨3⟩] := by
  have hforth : cutShort.DependsOn ⟨2⟩ ⟨3⟩ := ⟨by decide, by decide⟩
  have hback : cutShort.DependsOn ⟨3⟩ ⟨2⟩ := ⟨by decide, by decide⟩
  refine ⟨by simp, by simp, ?_, ?_⟩
  · simp only [List.mem_cons, List.not_mem_nil, or_false, forall_eq_or_imp, forall_eq]
    exact ⟨⟨.tail (.single hforth) hback, .single hforth⟩, .single hback,
      .tail (.single hback) hforth⟩
  · rintro ⟨_ | _ | _ | _ | n⟩ hout hin
    · exact ⟨_, rfl⟩
    · exact ⟨_, rfl⟩
    · simp at hout
    · simp at hout
    · exact absurd hin (Nat.not_lt_of_le (Nat.le_add_left 4 n))

theorem cutShort_constants : cutShort.constants = #[some .str, some .int64, none, none] := by
  simp [TypeGraph.constants, cutShort, TypeRule.constant?]

theorem cutShort_fails {m : TypeNodeId} (hm : m ∈ [(⟨2⟩ : TypeNodeId), ⟨3⟩]) :
    (Plain.resolve oneRound cutShort).failureFor? m ≠ none := by
  refine Plain.ring_fails cutShort_ring (Option.isNone_iff_eq_none.mp ?_) hm
  rw [cutShort_constants]
  decide

theorem cutShort_types :
    (Plain.resolve oneRound cutShort).types = #[some .str, some .int64, none, none] := by
  have hsolution := Plain.resolve_solution oneRound cutShort
  rw [← cutShort_constants, ← Plain.entering_ring (r := oneRound) cutShort_ring]
  refine Types.ext (Plain.entering_size _ _).symm fun m => ?_
  rw [Plain.entering_get]
  split
  · rename_i hm
    exact hsolution.failed_type (cutShort_fails hm)
  · rfl

/-- A failed component is reported as such, and not the faults of its members. -/
theorem errors_leave_out_failed :
    ¬∀ m, (∃ e, (m, e) ∈ ((oneRound.resolve cutShort).run {}).1.errors) ↔
      m.raw < cutShort.size ∧ (Plain.outcome oneRound cutShort
        ((oneRound.resolve cutShort).run {}).1.types m).error.isSome := by
  rw [(resolve_yields oneRound cutShort {} (Memo.faithful_empty _ _)).1]
  intro h
  obtain ⟨e, he⟩ := (h ⟨3⟩).mpr ⟨by decide, by rw [cutShort_types]; decide⟩
  have hresolved := ((Plain.resolve_solution oneRound cutShort).errors.mem_iff _ _).mp he
  exact cutShort_fails (by simp) hresolved.2.1

end Resolver

end TypedSsa

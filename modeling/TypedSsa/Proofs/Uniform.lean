import TypedSsa.Proofs.Rising

/-!
Graphs of copies and joins in which all constants have one type. Main statement: `uniform_resolves`.
If there are more rounds than nodes in each component, nothing fails, and each node that depends on
a constant has its type. On a long cycle no fewer rounds are enough.
-/

namespace TypedSsa

/-- All constants have one type, and all other nodes hand types on. -/
def TypeGraph.Uniform (g : TypeGraph) (ty : Ty) : Prop :=
  ∀ m rule, g.rule? m = some rule → rule = .constant ty ∨ rule.Flows

theorem TypeGraph.Uniform.appliesNone {g : TypeGraph} {ty : Ty} (h : g.Uniform ty) :
    g.AppliesNone := by
  intro m name args hm
  rcases h m _ hm with heq | hflows
  · cases heq
  · cases hflows

namespace Resolver.Plain

variable {r : Resolver} {g : TypeGraph} {ty : Ty}

theorem generated_single {x : Ty} (h : r.lattice.Generated [ty] x) : x = ty :=
  h.within (S := (· = ty)) (r.lattice.coherent_single ty) (by simp)

/-- Nothing fails, and no node has another type than the constants. -/
theorem uniform_known (hg : g.Uniform ty)
    (hrounds : ∀ c ∈ g.condense.components, c.cyclic = true → c.members.length < r.maxRounds)
    (m : TypeNodeId) (hm : m.raw < g.size) :
    (resolve r g).failureFor? m = none ∧ Known r [ty] ((resolve r g).types.get m) := by
  have hschedule := g.condense_schedule
  have hsolution := resolve_solution r g
  have hsingle := r.lattice.coherent_single ty
  refine hschedule.induct (P := fun m => (resolve r g).failureFor? m = none ∧
    Known r [ty] ((resolve r g).types.get m)) (fun c hc houtside m hm => ?_) m hm
  cases hcyclic : c.cyclic with
  | true =>
    have hmem : c ∈ g.condense.components :=
      Array.mem_toList_iff.mp (g.condense_order_perm.mem_iff.mp hc)
    obtain ⟨types, hsettles, hknown⟩ := rounds_settle (r := r) (g := g) (G := [ty]) hsingle
        (by simp)
      hsolution.size (flows_of_cyclic hg.appliesNone hc hcyclic)
      (fun m hm => hschedule.inside hc hm)
      (fun m hm d hd hout x hx => by
        simpa using generated_single ((houtside m hm d hd hout).2 x hx))
      (by simpa using hrounds c hmem hcyclic)
    rcases resolve_component (r := r) hc hcyclic hm with ⟨hnone, hfinal⟩ | ⟨-, hnever⟩
    · exact ⟨hnone, hfinal.unique hsettles hm ▸ hknown m hm⟩
    · exact absurd hsettles (hnever types)
  | false =>
    obtain ⟨m', hmembers, hself⟩ := hschedule.single hc hcyclic
    obtain rfl : m = m' := by simpa [hmembers] using hm
    have hnone := failureFor?_of_acyclic (r := r) (hschedule.acyclic_of_mem hc hcyclic hm)
    have hin := hschedule.inside hc hm
    have hequation := hsolution.equation m hin hnone
    rw [Resolution.typeOf?] at hequation
    refine ⟨hnone, hequation ▸ ?_⟩
    have hdependencies : ∀ d ∈ (ruleOf g m).dependencies,
        Known r [ty] ((resolve r g).types.get d) := by
      refine known_dependencies hsolution.size fun d hd =>
        (houtside m hm d hd fun hdc => hself ?_).2
      rw [hmembers, List.mem_singleton] at hdc
      exact hdc ▸ hd
    have hrule : ruleOf g m = .constant ty ∨ (ruleOf g m).Flows := by
      have hnode : g.rule? m = some (ruleOf g m) := by
        rw [ruleOf, TypeGraph.rule?, TypeGraph.node?, Array.getElem?_eq_getElem hin]
        rfl
      exact hg m _ hnode
    rcases hrule with hconstant | hflows
    · rw [outcome, hconstant]
      exact fun x hx => Option.some.inj hx ▸ .base (by simp)
    · exact (evaluate_rises (hsingle.generated (by simp)) hflows hdependencies hdependencies
        fun d _ => r.lattice.belowOption_refl _).1

/-- A node that looks at a type has it, if there is no other. -/
theorem evaluate_single {rule : TypeRule} (hrule : rule.Flows) {lookup : TypeNodeId → Option Ty}
    (hlookup : ∀ d ∈ rule.dependencies, Known r [ty] (lookup d)) {d : TypeNodeId}
    (hd : d ∈ rule.dependencies) (hty : lookup d = some ty) :
    (evaluate r lookup rule).ty = some ty := by
  cases hrule with
  | copy source =>
    obtain rfl := List.mem_singleton.mp hd
    exact hty
  | join inputs =>
    have hknown : ∀ x ∈ inputs.filterMap lookup, x = ty := by
      intro x hx
      obtain ⟨e, he, hx⟩ := List.mem_filterMap.mp hx
      exact generated_single (hlookup e he x hx)
    have hne : inputs.filterMap lookup ≠ [] :=
      List.ne_nil_of_mem (List.mem_filterMap.mpr ⟨d, hd, hty⟩)
    obtain ⟨v, hv, rfl, -⟩ := (r.lattice.coherent_single ty).joinAll hknown hne
    rw [evaluate, evaluateJoin, hv]

theorem uniform_reached (hg : g.Uniform ty)
    (hrounds : ∀ c ∈ g.condense.components, c.cyclic = true → c.members.length < r.maxRounds)
    {m k : TypeNodeId} (hreach : Relation.ReflTransGen g.DependsOn m k)
    (hk : g.rule? k = some (.constant ty)) : (resolve r g).types.get m = some ty := by
  induction hreach using Relation.ReflTransGen.head_induction_on with
  | refl => exact get_constant hk
  | @head m d hd _ ih =>
    have hin := hd.source_lt
    have hsolution := resolve_solution r g
    have hequation := hsolution.equation m hin (uniform_known hg hrounds m hin).1
    rw [Resolution.typeOf?] at hequation
    rw [hequation]
    refine evaluate_single (flows_of_dependsOn hg.appliesNone hd) ?_
      (dependencies_ruleOf g m ▸ hd.1) ih
    exact known_dependencies hsolution.size fun e he => (uniform_known hg hrounds e he.2).2

end Resolver.Plain

namespace Resolver

/-- With more rounds than a component on a cycle has nodes, nothing fails where all constants have
one type, and each node that depends on a constant has that type. -/
theorem uniform_resolves (r : Resolver) {g : TypeGraph} {ty : Ty} (memo : Memo) (hg : g.Uniform ty)
    (hrounds : ∀ c ∈ g.condense.components, c.cyclic = true → c.members.length < r.maxRounds) :
    ((r.resolve g).run memo).1.failures = [] ∧
      ∀ m k, Relation.ReflTransGen g.DependsOn m k → g.rule? k = some (.constant ty) →
        ((r.resolve g).run memo).1.typeOf? m = some ty := by
  rw [resolve_yields_of_appliesNone r hg.appliesNone memo]
  refine ⟨List.eq_nil_iff_forall_not_mem.mpr fun f hf => ?_,
    fun m k hreach hk => Plain.uniform_reached hg hrounds hreach hk⟩
  obtain ⟨c, hc, hcyclic, rfl⟩ := (Plain.resolve_solved r g).failures f hf
  obtain ⟨m, hm⟩ := List.exists_mem_of_ne_nil _ (g.condense_schedule.nonempty c hc)
  have hnone := (Plain.uniform_known hg hrounds m (g.condense_schedule.inside hc hm)).1
  exact Resolution.failureFor?_eq_none.mp hnone _ hf hm

end Resolver

/-! A long cycle. -/

/-- A cycle of `n` nodes, numbered against the direction in which types travel; the last one takes
in a type from outside. -/
def longCycle (n : Nat) (ty : Ty) : TypeGraph :=
  ⟨((Array.range n).map (fun i => ⟨.join [⟨i + 1⟩, ⟨0⟩], .synthetic, none⟩)).push
    ⟨.constant ty, .synthetic, none⟩⟩

namespace longCycle

variable {n : Nat} {ty : Ty}

@[simp] theorem size_eq : (longCycle n ty).size = n + 1 := by
  simp [TypeGraph.size, longCycle]

theorem rule_inner {i : Nat} (hi : i < n) :
    (longCycle n ty).rule? ⟨i⟩ = some (.join [⟨i + 1⟩, ⟨0⟩]) := by
  simp [TypeGraph.rule?, TypeGraph.node?, longCycle, Array.getElem?_push, hi, Nat.ne_of_lt hi]

theorem rule_last : (longCycle n ty).rule? ⟨n⟩ = some (.constant ty) := by
  simp only [TypeGraph.rule?, TypeGraph.node?, longCycle, Array.getElem?_push, Array.size_map,
    Array.size_range, if_true, Option.map_some]

theorem rule_outer {i : Nat} (hi : n < i) : (longCycle n ty).rule? ⟨i⟩ = none := by
  have hsize : (longCycle n ty).nodes.size ≤ i := Nat.le_trans (Nat.le_of_eq size_eq) hi
  rw [TypeGraph.rule?, TypeGraph.node?, Array.getElem?_eq_none hsize]
  rfl

theorem uniform : (longCycle n ty).Uniform ty := by
  rintro ⟨i⟩ rule hrule
  rcases Nat.lt_trichotomy i n with hi | rfl | hi
  · rw [rule_inner hi] at hrule
    exact .inr (Option.some.inj hrule ▸ .join _)
  · rw [rule_last] at hrule
    exact .inl (Option.some.inj hrule).symm
  · rw [rule_outer hi] at hrule
    cases hrule

theorem dependencies_inner {i : Nat} (hi : i < n) :
    (longCycle n ty).dependencies ⟨i⟩ = [⟨i + 1⟩, ⟨0⟩] := by
  rw [TypeGraph.dependencies, rule_inner hi]
  rfl

theorem dependencies_outer {i : Nat} (hi : ¬i < n) : (longCycle n ty).dependencies ⟨i⟩ = [] := by
  rw [TypeGraph.dependencies]
  rcases Nat.eq_or_lt_of_le (Nat.le_of_not_lt hi) with rfl | hi
  · rw [rule_last]
    rfl
  · rw [rule_outer hi]
    rfl

theorem dependsOn_next {i : Nat} (hi : i < n) : (longCycle n ty).DependsOn ⟨i⟩ ⟨i + 1⟩ :=
  ⟨by simp [dependencies_inner hi], by simp [hi]⟩

theorem dependsOn_first {i : Nat} (hi : i < n) : (longCycle n ty).DependsOn ⟨i⟩ ⟨0⟩ :=
  ⟨by simp [dependencies_inner hi], by simp⟩

open Resolver.Plain

variable {r : Resolver}

theorem ring (hn : 0 < n) : (longCycle n ty).Ring ((List.range n).map Ident.mk) := by
  have hforth : ∀ i < n, Relation.ReflTransGen (longCycle n ty).DependsOn ⟨0⟩ ⟨i⟩ := by
    intro i
    induction i with
    | zero => exact fun _ => .refl
    | succ i ih => exact fun hi => (ih (by omega)).tail (dependsOn_next (by omega))
  refine ⟨by simp; omega, List.pairwise_map.mpr List.pairwise_lt_range, ?_, ?_⟩
  · intro a ha b hb
    obtain ⟨i, hi, rfl⟩ := List.mem_map.mp ha
    obtain ⟨j, hj, rfl⟩ := List.mem_map.mp hb
    exact .head' (dependsOn_first (List.mem_range.mp hi)) (hforth j (List.mem_range.mp hj))
  · rintro ⟨i⟩ hout hin
    have hi : n ≤ i := by
      by_contra hi
      exact hout (List.mem_map.mpr ⟨i, List.mem_range.mpr (by omega), rfl⟩)
    obtain rfl : i = n := by
      rw [size_eq] at hin
      exact Nat.le_antisymm (Nat.le_of_lt_succ hin) hi
    exact ⟨ty, rule_last⟩

/-- The type came down to the last `j` nodes of the cycle. -/
structure Filled (n : Nat) (ty : Ty) (j : Nat) (types : Types) : Prop where
  size : types.size = n + 1
  get : ∀ i ≤ n, types.get ⟨i⟩ = if n ≤ i + j then some ty else none

/-- What a node of the cycle is made of what the next one and the first one have. -/
theorem outcome_inner {k : Nat} (hk : k < n) {types : Types}
    (hnext : types.get ⟨k + 1⟩ = some ty ∨ types.get ⟨k + 1⟩ = none)
    (hfirst : types.get ⟨0⟩ = some ty ∨ types.get ⟨0⟩ = none)
    (hearly : types.get ⟨k + 1⟩ = none → types.get ⟨0⟩ = none) :
    (outcome r (longCycle n ty) types ⟨k⟩).ty = types.get ⟨k + 1⟩ := by
  have hrule : Resolver.ruleOf (longCycle n ty) ⟨k⟩ = .join [⟨k + 1⟩, ⟨0⟩] := by
    rw [Resolver.ruleOf, rule_inner hk]
    rfl
  rw [outcome, hrule]
  rcases hnext with hnext | hnext
  · rw [hnext]
    refine evaluate_single (.join _) (fun d hd => ?_) (d := ⟨k + 1⟩)
      (by simp [TypeRule.dependencies]) hnext
    have hd : d = ⟨k + 1⟩ ∨ d = ⟨0⟩ := by simpa [TypeRule.dependencies] using hd
    rcases hd with rfl | rfl
    · exact fun x hx => .base (by simpa [hnext, eq_comm] using hx)
    · rcases hfirst with hfirst | hfirst
      · exact fun x hx => .base (by simpa [hfirst, eq_comm] using hx)
      · exact fun x hx => by simp [hfirst] at hx
  · simp [evaluate, hnext, hearly hnext, Resolver.evaluateJoin, Lattice.joinAll]

/-- A round brings the type down by one node, for each node looks at the next one before that has
changed. -/
theorem Filled.round {j : Nat} {types : Types} (h : Filled n ty j types) (hj : j < n) :
    Filled n ty (j + 1) (runRound r (longCycle n ty) ((List.range n).map Ident.mk) types).types ∧
      (runRound r (longCycle n ty) ((List.range n).map Ident.mk) types).changed = true := by
  suffices ∀ k ≤ n, ∀ round : Resolver.Round,
      ((List.range k).map Ident.mk).foldl (step r (longCycle n ty)) { types := types } = round →
      round.types.size = n + 1 ∧
      (∀ i ≤ n, round.types.get ⟨i⟩ =
        if n ≤ i + j ∨ (i < k ∧ n ≤ i + (j + 1)) then some ty else none) ∧
      (n ≤ k + j → round.changed = true) by
    obtain ⟨hsize, hget, hchanged⟩ := this n (Nat.le_refl n) _ rfl
    refine ⟨⟨hsize, fun i hi => (hget i hi).trans (if_congr ?_ rfl rfl)⟩,
      hchanged (Nat.le_add_right n j)⟩
    omega
  intro k
  induction k with
  | zero =>
    rintro - round rfl
    refine ⟨h.size, fun i hi => by simpa using h.get i hi, fun hle => ?_⟩
    omega
  | succ k ih =>
    rintro hk round rfl
    rw [List.range_succ, List.map_append, List.foldl_append]
    obtain ⟨hsize, hget, hchanged⟩ := ih (by omega) _ rfl
    generalize ((List.range k).map Ident.mk).foldl (step r (longCycle n ty))
        { types := types } = round
      at hsize hget hchanged
    have hnext := hget (k + 1) hk
    have hfirst := hget 0 (Nat.zero_le n)
    have houtcome : (outcome r (longCycle n ty) round.types ⟨k⟩).ty =
        if n ≤ k + 1 + j then some ty else none := by
      rw [outcome_inner hk ?_ ?_ ?_, hnext]
      · exact if_congr (by omega) rfl rfl
      · rw [hnext]
        split <;> simp
      · rw [hfirst]
        split <;> simp
      · rw [hnext, hfirst]
        intro hnone
        simp only [ite_eq_right_iff, reduceCtorEq, imp_false] at hnone ⊢
        omega
    have hold := hget k (by omega)
    refine ⟨by simp [step, hsize], fun i hi => ?_, fun hle => ?_⟩
    · simp only [List.map_cons, List.map_nil, List.foldl_cons, List.foldl_nil, step]
      rw [Types.get_put]
      by_cases hik : i = k
      · subst hik
        rw [if_pos ⟨rfl, by rw [hsize]; show i < n + 1; omega⟩]
        exact houtcome.trans (if_congr (by omega) rfl rfl)
      · rw [if_neg (by simp [hik]), hget i hi]
        exact if_congr (by omega) rfl rfl
    · simp only [List.map_cons, List.map_nil, List.foldl_cons, List.foldl_nil, step,
        Bool.or_eq_true]
      by_cases hbefore : n ≤ k + j
      · exact .inl (hchanged hbefore)
      · right
        have hnew : (outcome r (longCycle n ty) round.types ⟨k⟩).ty = some ty :=
          houtcome.trans (if_pos (by omega))
        have hnone : round.types.get ⟨k⟩ = none := hold.trans (if_neg (by omega))
        rw [outcome] at hnew
        simp [hnew, hnone]

theorem Filled.unsettled {left j past : Nat} {types : Types} (h : Filled n ty j types)
    (hleft : left + j ≤ n) :
    (settle r (longCycle n ty) ((List.range n).map Ident.mk) left past types).settled = none := by
  induction left generalizing j past types with
  | zero => rfl
  | succ left ih =>
    obtain ⟨hfilled, hchanged⟩ := h.round (r := r) (by omega)
    rw [settle, hchanged]
    exact ih hfilled (by omega)

/-- At first only the constant has a type. -/
theorem filled_constants : Filled n ty 0 (longCycle n ty).constants := by
  refine ⟨Array.size_map.trans size_eq, fun i hi => ?_⟩
  rw [TypeGraph.get_constants]
  by_cases hin : i < n
  · rw [rule_inner hin, if_neg (by omega)]
    rfl
  · obtain rfl : i = n := by omega
    rw [rule_last, if_pos (by omega)]
    rfl

/-- With no more rounds than nodes a long cycle fails. -/
theorem fails (hn : 0 < n) (hrounds : r.maxRounds ≤ n) :
    (resolve r (longCycle n ty)).failureFor? ⟨0⟩ ≠ none :=
  ring_fails (ring hn) (filled_constants.unsettled (by omega))
    (List.mem_map.mpr ⟨0, List.mem_range.mpr hn, rfl⟩)

theorem inRange {m d : TypeNodeId} (hd : d ∈ (longCycle n ty).dependencies m) :
    d.raw < (longCycle n ty).size := by
  obtain ⟨i⟩ := m
  by_cases hi : i < n
  · rw [dependencies_inner hi] at hd
    have hd : d = ⟨i + 1⟩ ∨ d = ⟨0⟩ := by simpa using hd
    rw [size_eq]
    rcases hd with rfl | rfl
    · show i + 1 < n + 1
      omega
    · exact Nat.succ_pos n
  · rw [dependencies_outer hi] at hd
    cases hd

/-- The default number of rounds is too small for a cycle of 64 nodes. -/
theorem fails_default : (longCycle 64 .int64).Uniform .int64 ∧
    (∀ m, ∀ d ∈ (longCycle 64 .int64).dependencies m, d.raw < (longCycle 64 .int64).size) ∧
    (((Resolver.ofConfig {} { id := 0 }).resolve (longCycle 64 .int64)).run {}).1.failures
      ≠ [] := by
  refine ⟨uniform, fun m d => inRange, fun hnone => ?_⟩
  rw [Resolver.resolve_yields_of_appliesNone _ uniform.appliesNone] at hnone
  have hfails : (resolve (.ofConfig {} { id := 0 }) (longCycle 64 .int64)).failureFor? ⟨0⟩ ≠ none :=
    fails (by decide) (Nat.le_refl 64)
  refine hfails ?_
  rw [Resolution.failureFor?_eq_none, hnone]
  exact fun f hf => nomatch hf

end longCycle

theorem uniform_resolves_short : (longCycle 3 .int64).Uniform .int64 ∧
    (∀ c ∈ (longCycle 3 .int64).condense.components, c.cyclic = true →
      c.members.length < (Resolver.ofConfig {} { id := 0 }).maxRounds) ∧
    (((Resolver.ofConfig {} { id := 0 }).resolve (longCycle 3 .int64)).run {}).1.failures = [] ∧
    (((Resolver.ofConfig {} { id := 0 }).resolve (longCycle 3 .int64)).run {}).1.typeOf? ⟨0⟩ =
      some .int64 := by
  have hrounds : ∀ c ∈ (longCycle 3 .int64).condense.components, c.cyclic = true →
      c.members.length < (Resolver.ofConfig {} { id := 0 }).maxRounds := by
    intro c hc _
    have horder := (longCycle 3 .int64).condense_order_perm.mem_iff.mpr
        (Array.mem_toList_iff.mpr hc)
    have hlength := (longCycle 3 .int64).condense_schedule.length_le horder
    rw [longCycle.size_eq] at hlength
    exact Nat.lt_of_le_of_lt hlength (by decide)
  have h := Resolver.uniform_resolves (.ofConfig {} { id := 0 }) {} longCycle.uniform hrounds
  have hforth : Relation.ReflTransGen (longCycle 3 .int64).DependsOn ⟨0⟩ ⟨3⟩ :=
    ((Relation.ReflTransGen.single (longCycle.dependsOn_next (by decide))).tail
      (longCycle.dependsOn_next (by decide))).tail (longCycle.dependsOn_next (by decide))
  exact ⟨longCycle.uniform, hrounds, h.1, h.2 _ _ hforth longCycle.rule_last⟩

end TypedSsa

import TypedSsa.Proofs.Founding

/-!
What the calls of a name take their types from. Main statement: `Compiler.call_shadowed`. A call of
a linked function copies its result and no rule of that name is applied; a call of any other name is
an application of the rule. A function is linked if it is built and no report has its name before
it, so that one that fails does not hide a rule.
-/

namespace TypedSsa

/-! Which names are linked. -/

/-- A function of this name is built, and nothing before it is reported under the name. -/
def Compiler.Links (c : Compiler) (a : Arena) (functions : List NodeId) (name : String) : Prop :=
  ∃ pre fn post u, functions = pre ++ fn :: post ∧
    FunctionUnit.build c.config c.validators a fn = .ok u ∧ u.name = name ∧
    (c.collected a pre).reports.has name = false

namespace Collected

/-- Functions that wait to be linked go on to wait. -/
theorem units_subset_add (s : Collected) (o : Outcome) : s.units ⊆ (s.add o).units := by
  cases hrefused : s.refused? o with
  | some entry =>
    rw [add_refused hrefused]
    exact List.Subset.refl _
  | none =>
    obtain ⟨u, -, -, hadd⟩ := add_accepted hrefused
    rw [hadd]
    exact List.subset_append_left _ _

theorem units_subset_foldl (os : List Outcome) (s : Collected) :
    s.units ⊆ (os.foldl add s).units := by
  induction os generalizing s with
  | nil => exact List.Subset.refl _
  | cons o os ih => exact List.Subset.trans (units_subset_add s o) (ih (s.add o))

/-- A function that is built waits to be linked, unless its name is reported on. -/
theorem exists_unit_add {s : Collected} {u : FunctionUnit} (h : s.reports.has u.name = false) :
    ∃ v ∈ (s.add (.ok u)).units, v.name = u.name := by
  cases hrefused : s.refused? (.ok u) with
  | some entry =>
    obtain ⟨key, r⟩ := entry
    simp only [refused?, taken, Option.ite_none_right_eq_some, Bool.or_eq_true, h,
      Bool.false_eq_true, false_or, List.any_eq_true, beq_iff_eq] at hrefused
    obtain ⟨⟨v, hv, hname⟩, -⟩ := hrefused
    exact ⟨v, units_subset_add s _ hv, hname⟩
  | none =>
    obtain ⟨v, hu, -, hadd⟩ := add_accepted hrefused
    obtain rfl := Except.ok.inj hu
    rw [hadd]
    exact ⟨u, List.mem_append_right _ List.mem_cons_self, rfl⟩

end Collected

namespace Compiler

variable {c : Compiler} {a : Arena}

theorem collected_append (c : Compiler) (a : Arena) (pre post : List NodeId) :
    c.collected a (pre ++ post) = (c.outcomes a post).foldl Collected.add (c.collected a pre) := by
  rw [collected, outcomes, List.map_append, List.foldl_append]
  rfl

theorem exists_unit_iff_links (functions : List NodeId) (name : String) :
    (∃ v ∈ (c.collected a functions).units, v.name = name) ↔ c.Links a functions name := by
  constructor
  · rintro ⟨v, hv, rfl⟩
    induction functions using List.reverseRecOn with
    | nil => cases hv
    | append_singleton fns fn ih =>
      have hold : v ∈ (c.collected a fns).units → c.Links a (fns ++ [fn]) v.name := by
        intro hv
        obtain ⟨pre, fn', post, u, rfl, hlinks⟩ := ih hv
        exact ⟨pre, fn', post ++ [fn], u, by simp, hlinks⟩
      rw [collected_append] at hv
      change v ∈ ((c.collected a fns).add
        (FunctionUnit.build c.config c.validators a fn)).units at hv
      cases hrefused : (c.collected a fns).refused?
          (FunctionUnit.build c.config c.validators a fn) with
      | some entry =>
        rw [Collected.add_refused hrefused] at hv
        exact hold hv
      | none =>
        obtain ⟨u, hu, htaken, hadd⟩ := Collected.add_accepted hrefused
        rw [hadd] at hv
        rcases List.mem_append.mp hv with hv | hv
        · exact hold hv
        · rw [List.mem_singleton.mp hv]
          rw [Collected.taken, Bool.or_eq_false_iff] at htaken
          exact ⟨fns, fn, [], u, rfl, hu, rfl, htaken.1⟩
  · rintro ⟨pre, fn, post, u, rfl, hbuild, rfl, hfree⟩
    obtain ⟨v, hv, hname⟩ := Collected.exists_unit_add hfree
    refine ⟨v, ?_, hname⟩
    rw [collected_append]
    refine Collected.units_subset_foldl (c.outcomes a post) _ ?_
    rwa [← hbuild] at hv

end Compiler

/-! Where calls are noted. -/

/-- An evaluated call is noted with its place, its rule, and the nodes of its arguments. -/
theorem Wired.exists_call {a : Arena} {g : FlowGraph} {f : SsaForm} {view : FunctionView}
    {s : Typing} {t : FunctionTypes} (h : Wired a g f view s t) {k : BlockId × NodeId}
    (hk : k ∈ a.evaluated g f) {callee : String} {args : List NodeId}
    (he : a.expression k.2 = .ok (.call callee args)) :
    ∃ call ∈ t.calls, call.block = k.1 ∧ call.node = k.2 ∧ call.callee = callee ∧
      f.defs.size ≤ call.apply.raw ∧ t.graph.rule? call.apply = some (.apply callee call.args) := by
  have hmem : k ∈ (a.evaluated g f).filter (fun k => a.isCall k.2) := by
    refine List.mem_filter.mpr ⟨hk, ?_⟩
    rw [Arena.isCall, he]
  obtain ⟨call, hc, m, hm, hblock, hnode, rfl, args', hcall, hargs⟩ :=
    exists_right_of_forall₂ h.filled.calls k hmem
  obtain ⟨rfl, rfl⟩ := Expression.call.inj (Except.ok.inj (he.symm.trans hcall))
  obtain ⟨e, rule, he', hrule, hexpr⟩ := h.filled.rules k.1 k.2 _ hm
  obtain rfl := Except.ok.inj (he.symm.trans he')
  obtain ⟨nodes, hnodes, rfl⟩ := hexpr
  have hsame : nodes = call.args :=
    Relator.RightUnique.forall₂ (fun _ _ _ hx hy => Option.some.inj (hx.symm.trans hy))
      hnodes hargs
  refine ⟨call, h.calls ▸ hc, hblock, hnode, rfl, (h.filled.high k _ hm).1, ?_⟩
  rw [h.graph, hrule, hsame]

namespace Compiler

/-- A call takes the type of a function's result, with or without one, or in a component that does
not settle the type that recursion falls back on. -/
def Copies (g : TypeGraph) (r : Resolver) (res : Resolution) (apply result : TypeNodeId) : Prop :=
  g.rule? apply = some (.copy result) ∧
    res.typeOf? apply = if res.failureFor? apply = none then res.typeOf? result
      else r.recursionFallback

/-- A call takes the type that the rule of its name gives its arguments. -/
def Applies (g : TypeGraph) (r : Resolver) (res : Resolution) (call : CallSite) : Prop :=
  g.rule? call.apply = some (.apply call.callee call.args) ∧
    res.typeOf? call.apply = if res.failureFor? call.apply = none then
        match call.args.mapM res.typeOf? with
        | none => none
        | some tys => (r.evaluateApplied (r.rules.apply r.lattice call.callee tys)).ty
      else r.recursionFallback

section
variable {g : TypeGraph} {r : Resolver} {res : Resolution}

theorem typeOf?_eq_of_rule (h : Resolver.Solution r g res) {m : TypeNodeId} {rule : TypeRule}
    (hrule : g.rule? m = some rule) : res.typeOf? m =
      if res.failureFor? m = none then (Resolver.Plain.evaluate r res.typeOf? rule).ty
      else r.recursionFallback := by
  split
  · rename_i hnone
    rw [h.equation m (TypeGraph.raw_lt_of_rule? hrule) hnone, Resolver.Plain.outcome,
      Resolver.ruleOf, hrule, Option.getD_some]
    rfl
  · rename_i hfailed
    exact h.failed_type hfailed

theorem copies_of_rule (h : Resolver.Solution r g res) {apply result : TypeNodeId}
    (hrule : g.rule? apply = some (.copy result)) : Copies g r res apply result :=
  ⟨hrule, typeOf?_eq_of_rule h hrule⟩

theorem applies_of_rule (h : Resolver.Solution r g res) {call : CallSite}
    (hrule : g.rule? call.apply = some (.apply call.callee call.args)) :
    Applies g r res call := by
  refine ⟨hrule, (typeOf?_eq_of_rule h hrule).trans ?_⟩
  rw [Resolver.Plain.evaluate]
  cases call.args.mapM res.typeOf? <;> rfl

end

/-- Calls of names that are linked are typed by the functions, and all others by the rules. -/
theorem call_shadowed (c : Compiler) (a : Arena) (functions : List NodeId) (memo : Memo)
    (hmemo : memo.Faithful c.rules (.ofConfig c.config)) :
    ∀ u ∈ (c.collected a functions).units, ∀ k ∈ a.evaluated u.graph u.form, ∀ callee args,
      a.expression k.2 = .ok (.call callee args) →
      ∃ t, (c.linked a functions).function? u.name = some t ∧ ∃ call ∈ t.calls,
        call.block = k.1 ∧ call.node = k.2 ∧ call.callee = callee ∧
        (c.Links a functions callee → ∃ v, (c.linked a functions).function? callee = some v ∧
          Copies (c.linked a functions).graph (.ofConfig c.config c.rules)
            (c.resolved a functions memo) call.apply v.result) ∧
        (¬c.Links a functions callee → (c.linked a functions).function? callee = none ∧
          Applies (c.linked a functions).graph (.ofConfig c.config c.rules)
            (c.resolved a functions memo) call) := by
  intro u hu k hk callee args hcall
  obtain ⟨pieces, hpieces, hassembled, hfrom⟩ := c.collected_pieces a functions
  have hfunction : ∀ q ∈ pieces, q.2.types.function = q.2.name := by
    intro q hq
    obtain ⟨fn, view, hbuilt⟩ := hfrom q hq
    exact hbuilt.types_function
  have hsolution := Resolver.resolve_solves (.ofConfig c.config c.rules)
    (c.linked a functions).graph memo hmemo
  obtain ⟨q, hq, rfl⟩ := List.mem_map.mp (hpieces ▸ hu)
  obtain ⟨fn, view, hbuilt⟩ := hfrom q hq
  obtain ⟨s, hwired⟩ := hbuilt.wired
  obtain ⟨call, hc, hblock, hnode, rfl, hhigh, hrule⟩ := hwired.exists_call hk hcall
  have hplaced : ∀ q ∈ pieces, (q.1, q.2.types) ∈ pieces.map (fun q => (q.1, q.2.types)) :=
    fun q hq => List.mem_map_of_mem hq
  refine ⟨_, function?_piece hassembled hq (hfunction q hq), ProgramTypes.shiftCall q.1 call,
    List.mem_map_of_mem hc, hblock, hnode, rfl, fun hlinks => ?_, fun hnot => ?_⟩
  · obtain ⟨v, hv, hname⟩ := (exists_unit_iff_links functions call.callee).mpr hlinks
    obtain ⟨p, hp, rfl⟩ := List.mem_map.mp (hpieces ▸ hv)
    refine ⟨ProgramTypes.shifted p.1 p.2.types, ?_, copies_of_rule hsolution ?_⟩
    · exact hname ▸ function?_piece hassembled hp (hfunction p hp)
    · exact hassembled.link_call (hplaced q hq) hc (hplaced p hp) ((hfunction p hp).trans hname)
  · have hother : ∀ p ∈ pieces, p.2.types.function ≠ call.callee := by
      intro p hp hsame
      refine hnot ((exists_unit_iff_links functions call.callee).mp ⟨p.2, ?_, ?_⟩)
      · exact hpieces ▸ List.mem_map_of_mem hp
      · exact (hfunction p hp).symm.trans hsame
    refine ⟨?_, applies_of_rule hsolution ?_⟩
    · refine Option.eq_none_iff_forall_ne_some.mpr fun v hv => ?_
      obtain ⟨placed, hplace, hname, -⟩ := hassembled.laid.of_function? hv
      obtain ⟨p, hp, rfl⟩ := List.mem_map.mp hplace
      exact hother p hp hname
    · have hparam := hwired.shaped hbuilt.settled.numbered hbuilt.settled.params
      refine hassembled.link_kept (hplaced q hq) hrule ?_ ?_
      · exact fun hmem => absurd (hparam.params _ hmem) (Nat.not_lt_of_le hhigh)
      · intro call' hc' happly placed hplace
        obtain ⟨p, hp, rfl⟩ := List.mem_map.mp hplace
        obtain rfl := hparam.apart call' hc' call hc happly
        exact hother p hp

theorem call_shadowed_loopArena :
    (Memo.Faithful {} loopCompiler.rules (.ofConfig loopCompiler.config) ∧
      loopUnit ∈ (loopCompiler.collected loopArena [⟨6⟩]).units ∧
      (⟨0⟩, ⟨1⟩) ∈ loopArena.evaluated loopUnit.graph loopUnit.form ∧
      loopArena.expression ⟨1⟩ = .ok (.call "f" [⟨0⟩]) ∧ loopCompiler.Links loopArena [⟨6⟩] "f") ∧
    ∃ t, (loopCompiler.linked loopArena [⟨6⟩]).function? "f" = some t ∧ ∃ call ∈ t.calls,
      call.node = ⟨1⟩ ∧ Copies (loopCompiler.linked loopArena [⟨6⟩]).graph
        (.ofConfig loopCompiler.config loopCompiler.rules)
        (loopCompiler.resolved loopArena [⟨6⟩] {}) call.apply t.result := by
  have hmemo := Memo.faithful_empty loopCompiler.rules (.ofConfig loopCompiler.config)
  have hu : loopUnit ∈ (loopCompiler.collected loopArena [⟨6⟩]).units := by
    rw [collected, outcomes_loopArena]
    exact List.mem_singleton.mpr rfl
  have hk : (⟨0⟩, ⟨1⟩) ∈ loopArena.evaluated loopUnit.graph loopUnit.form := by
    have hevaluated : loopArena.evaluated loopUnit.graph loopUnit.form =
        [(⟨0⟩, ⟨0⟩), (⟨0⟩, ⟨1⟩), (⟨0⟩, ⟨3⟩)] := rfl
    rw [hevaluated]
    decide
  have hlinks : loopCompiler.Links loopArena [⟨6⟩] "f" :=
    (exists_unit_iff_links _ _).mp ⟨loopUnit, hu, rfl⟩
  obtain ⟨t, ht, call, hc, -, hnode, -, hlinked, -⟩ :=
    call_shadowed loopCompiler loopArena [⟨6⟩] {} hmemo loopUnit hu _ hk "f" [⟨0⟩] rfl
  obtain ⟨v, hv, hcopies⟩ := hlinked hlinks
  obtain rfl := Option.some.inj (ht.symm.trans hv)
  exact ⟨⟨hmemo, hu, hk, rfl, hlinks⟩, t, ht, call, hc, hnode, hcopies⟩

end Compiler

end TypedSsa

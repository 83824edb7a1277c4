import TypedSsa.Proofs.WellTyped

/-!
Which definitions have a type where no error is reported. Main statement:
`Compiler.typed_iff_founded`. A type is founded if it can be built up from constants; one that is
made only of itself, through a loop or through calls in a circle, is none, and is not reported.
-/

namespace TypedSsa

/-- A node whose type is built up from constants and from given types. One input is enough for a
join; an application needs all of its arguments. -/
inductive TypeGraph.Founded (g : TypeGraph) (given : TypeNodeId → Prop) : TypeNodeId → Prop
  | given {m : TypeNodeId} : given m → Founded g given m
  | constant {m : TypeNodeId} {ty : Ty} : g.rule? m = some (.constant ty) → Founded g given m
  | copy {m d : TypeNodeId} : g.rule? m = some (.copy d) → Founded g given d → Founded g given m
  | join {m d : TypeNodeId} {inputs : List TypeNodeId} : g.rule? m = some (.join inputs) →
      d ∈ inputs → Founded g given d → Founded g given m
  | apply {m : TypeNodeId} {name : String} {args : List TypeNodeId} :
      g.rule? m = some (.apply name args) → (∀ d ∈ args, Founded g given d) → Founded g given m

namespace Resolver

variable {r : Resolver} {g : TypeGraph}

namespace Plain

section
variable {given : TypeNodeId → Prop} {types : Types} {m : TypeNodeId}

/-- What a rule finds a type for is founded if all is that it looks at and that has a type. -/
theorem founded_of_outcome (hsize : types.size = g.size)
    (hdeps : ∀ d, g.DependsOn m d → types.get d ≠ none → g.Founded given d)
    (htyped : (outcome r g types m).ty ≠ none) : g.Founded given m := by
  have hfounded : ∀ d ∈ g.dependencies m, types.get d ≠ none → g.Founded given d := by
    intro d hd hty
    refine hdeps d ⟨hd, ?_⟩ hty
    by_contra hout
    exact hty (Types.get_of_le (hsize ▸ Nat.le_of_not_lt hout))
  rw [outcome, ruleOf] at htyped
  rw [TypeGraph.dependencies] at hfounded
  cases hrule : g.rule? m with
  | none =>
    rw [hrule] at htyped
    exact absurd rfl htyped
  | some rule =>
    rw [hrule] at htyped hfounded
    simp only [Option.getD_some, Option.map_some] at htyped hfounded
    cases rule with
    | constant ty => exact .constant hrule
    | undefined => exact absurd rfl htyped
    | copy d => exact .copy hrule (hfounded d (by simp [TypeRule.dependencies]) htyped)
    | join inputs =>
      cases hknown : inputs.filterMap types.get with
      | nil =>
        rw [evaluate, hknown] at htyped
        exact absurd rfl htyped
      | cons ty tys =>
        obtain ⟨d, hd, hty⟩ := List.mem_filterMap.mp (hknown ▸ List.mem_cons_self)
        exact .join hrule hd (hfounded d hd (hty ▸ Option.some_ne_none ty))
    | apply name args =>
      cases hargs : args.mapM types.get with
      | none =>
        rw [evaluate, hargs] at htyped
        exact absurd rfl htyped
      | some tys =>
        refine .apply hrule fun d hd => hfounded d hd ?_
        obtain ⟨ty, -, hty⟩ := exists_right_of_forall₂ (forall₂_of_mapM_some hargs) d hd
        exact hty ▸ Option.some_ne_none ty

/-- The types of some nodes and of what they depend on are founded. -/
structure Grounded (g : TypeGraph) (given : TypeNodeId → Prop) (members : List TypeNodeId)
    (types : Types) : Prop where
  size : types.size = g.size
  founded : ∀ m, (m ∈ members ∨ ∃ b ∈ members, g.DependsOn b m) → types.get m ≠ none →
    g.Founded given m

variable {members : List TypeNodeId}

theorem Grounded.step {round : Round} {id : TypeNodeId}
    (h : Grounded g given members round.types) (hid : id ∈ members) :
    Grounded g given members (Plain.step r g round id).types := by
  refine ⟨by rw [Plain.step, Types.size_put, h.size], fun m hm hty => ?_⟩
  rw [Plain.step, Types.get_put] at hty
  split at hty
  · rename_i hput
    obtain ⟨rfl, -⟩ := hput
    exact founded_of_outcome h.size (fun d hd => h.founded d (.inr ⟨m, hid, hd⟩)) hty
  · exact h.founded m hm hty

theorem Grounded.runRound (h : Grounded g given members types) :
    Grounded g given members (Plain.runRound r g members types).types := by
  suffices ∀ (todo : List TypeNodeId) (round : Round), todo ⊆ members →
      Grounded g given members round.types →
      Grounded g given members (todo.foldl (Plain.step r g) round).types from
    this members { types := types } (List.Subset.refl _) h
  intro todo
  induction todo with
  | nil => exact fun _ _ h => h
  | cons id todo ih =>
    intro round hsub h
    exact ih _ (fun m hm => hsub (List.mem_cons_of_mem id hm)) (h.step (hsub (by simp)))

theorem Grounded.settle {left past : Nat} {round : Round} (h : Grounded g given members types)
    (hround : (Plain.settle r g members left past types).settled = some round) :
    Grounded g given members round.types := by
  induction left generalizing past types with
  | zero => cases hround
  | succ left ih =>
    rw [Plain.settle] at hround
    cases hchanged : (Plain.runRound r g members types).changed with
    | true =>
      simp only [hchanged, if_true] at hround
      exact ih h.runRound hround
    | false =>
      simp only [hchanged, Bool.false_eq_true, if_false, Option.some.injEq] at hround
      exact hround ▸ h.runRound

/-- Every type that a graph resolves to is founded, or was given to a node that failed. -/
theorem founded_of_typed (m : TypeNodeId) (htyped : (resolve r g).types.get m ≠ none) :
    g.Founded (fun m => (resolve r g).failureFor? m ≠ none) m := by
  have hsolution := resolve_solution r g
  have hschedule := g.condense_schedule
  have hin : m.raw < g.size := by
    by_contra hout
    exact htyped (Types.get_of_le (hsolution.size ▸ Nat.le_of_not_lt hout))
  refine hschedule.induct (P := fun m => (resolve r g).types.get m ≠ none →
    g.Founded (fun m => (resolve r g).failureFor? m ≠ none) m) ?_ m hin htyped
  intro c hc ih m hm htyped
  cases hcyclic : c.cyclic with
  | false =>
    obtain ⟨only, hmembers, hself⟩ := hschedule.single hc hcyclic
    obtain rfl : m = only := by simpa [hmembers] using hm
    have hnone := failureFor?_of_acyclic (r := r) (hschedule.acyclic_of_mem hc hcyclic hm)
    refine founded_of_outcome (r := r) hsolution.size (fun d hd => ih m hm d hd ?_) ?_
    · rw [hmembers, List.mem_singleton]
      exact fun hsame => hself (hsame ▸ hd)
    · exact hsolution.equation m (hschedule.inside hc hm) hnone ▸ htyped
  | true =>
    rcases resolve_component (r := r) hc hcyclic hm with ⟨-, round, hround, hsame⟩ | ⟨hfailed, -⟩
    · have hsize : (entering c.members (resolve r g).types).size = g.size :=
        (entering_size _ _).trans hsolution.size
      refine (Grounded.settle ⟨hsize, fun d hd hty => ?_⟩ hround).founded m (.inl hm)
        (hsame m hm ▸ htyped)
      rw [entering_get] at hty
      split at hty
      · exact absurd rfl hty
      · rename_i hout
        obtain ⟨b, hb, hbd⟩ := hd.resolve_left hout
        exact ih b hb d hbd hout hty
    · exact .given hfailed

end

end Plain

theorem evaluateJoin_typed {known : List Ty} (hne : known ≠ [])
    (herror : (r.evaluateJoin known).error = none) : (r.evaluateJoin known).ty ≠ none := by
  unfold evaluateJoin at herror ⊢
  rcases hjoin : r.lattice.joinAll known with e | (_ | ⟨ty⟩ | ⟨ty, cause⟩)
  · rw [hjoin] at herror
    cases herror
  · exact absurd hjoin (r.lattice.joinAll_ne_none hne)
  · nofun
  · nofun

theorem evaluateApplied_typed {result : Except Fault Ty}
    (herror : (r.evaluateApplied result).error = none) : (r.evaluateApplied result).ty ≠ none := by
  unfold evaluateApplied at herror ⊢
  cases result with
  | ok ty => nofun
  | error e =>
    dsimp only at herror ⊢
    cases hfallback : r.lattice.fallback with
    | none =>
      rw [hfallback] at herror
      cases herror
    | some ty =>
      simp only [hfallback] at herror ⊢
      split
      · nofun
      · rename_i hnot
        rw [if_neg hnot] at herror
        cases herror

/-- Where nothing fails for good, all that is founded has a type. -/
theorem Solution.typed_of_founded {res : Resolution} (h : Solution r g res)
    (herrors : res.errors = []) (hfailures : ∀ f ∈ res.failures, f.fallback ≠ none)
    {m : TypeNodeId} (hm : g.Founded (fun m => res.failureFor? m ≠ none) m) :
    res.typeOf? m ≠ none := by
  have hfailed : ∀ m, res.failureFor? m ≠ none → res.typeOf? m ≠ none := by
    intro m hm
    obtain ⟨f, hf⟩ := Option.ne_none_iff_exists'.mp hm
    have hmem := List.mem_of_find?_eq_some hf
    obtain ⟨c, -, -, -, -, -, hfallback⟩ := h.failures f hmem
    rw [Resolution.typeOf?, h.failed_type hm, ← hfallback]
    exact hfailures f hmem
  -- A node that has not failed is as its rule says, and no rule has failed for good.
  have hruled : ∀ m rule, g.rule? m = some rule →
      ((Plain.evaluate r res.types.get rule).error = none →
        (Plain.evaluate r res.types.get rule).ty ≠ none) → res.typeOf? m ≠ none := by
    intro m rule hrule hty
    have hin := TypeGraph.raw_lt_of_rule? hrule
    have houtcome : Plain.outcome r g res.types m = Plain.evaluate r res.types.get rule := by
      rw [Plain.outcome, ruleOf, hrule, Option.getD_some]
    by_cases hnone : res.failureFor? m = none
    · rw [h.equation m hin hnone, houtcome]
      refine hty (Option.eq_none_iff_forall_ne_some.mpr fun e he => ?_)
      have hmem := (h.errors.mem_iff m e).mpr ⟨hin, hnone, houtcome ▸ he⟩
      rw [herrors] at hmem
      cases hmem
    · exact hfailed m hnone
  induction hm with
  | given hm => exact hfailed _ hm
  | constant hrule => exact hruled _ _ hrule fun _ => Option.some_ne_none _
  | copy hrule _ ih => exact hruled _ _ hrule fun _ => ih
  | @join m d inputs hrule hd _ ih =>
    refine hruled _ _ hrule fun herror => ?_
    obtain ⟨ty, hty⟩ := Option.ne_none_iff_exists'.mp ih
    have hne : inputs.filterMap res.types.get ≠ [] :=
      List.ne_nil_of_mem (List.mem_filterMap.mpr ⟨d, hd, hty⟩)
    exact evaluateJoin_typed hne herror
  | @apply m name args hrule _ ih =>
    refine hruled _ _ hrule fun herror => ?_
    rw [Plain.evaluate] at herror ⊢
    cases hargs : args.mapM res.types.get with
    | none =>
      obtain ⟨d, hd, hnone⟩ := List.mem_map.mp (mapM_eq_none hargs)
      exact absurd hnone (ih d hd)
    | some tys =>
      rw [hargs] at herror
      exact evaluateApplied_typed herror

/-- Where nothing fails for good, the types are just those of what is founded. -/
theorem Plain.typeOf?_iff_founded (herrors : (Plain.resolve r g).errors = [])
    (hfailures : ∀ f ∈ (Plain.resolve r g).failures, f.fallback ≠ none) (m : TypeNodeId) :
    (Plain.resolve r g).typeOf? m ≠ none ↔
      g.Founded (fun m => (Plain.resolve r g).failureFor? m ≠ none) m :=
  ⟨Plain.founded_of_typed m,
    (Plain.resolve_solution r g).typed_of_founded herrors hfailures⟩

end Resolver

/-! What is reported where there is no error. -/

theorem Reports.mem_put {reports : Reports} {key : String} {r : FunctionReport}
    {entry : String × FunctionReport} (h : entry ∈ reports.put key r) :
    entry ∈ reports ∨ entry = (key, r) :=
  (mem_putBy h).symm

namespace Finding

/-- No error is taken away, and what is severe is one for the function that it concerns. -/
theorem errors_note {r : FunctionReport} {f : Finding} (h : (note r f).errors = []) :
    r.errors = [] ∧ (f.severe = true → f.function ≠ r.name) := by
  unfold note at h
  split at h
  · rename_i hne
    exact ⟨h, fun _ => hne⟩
  · split at h
    · exact absurd h (r.errors_addError _)
    · rename_i hmild
      exact ⟨(r.errors_addWarning _).symm.trans h, fun hsevere => absurd hsevere hmild⟩

theorem name_note (r : FunctionReport) (f : Finding) : (note r f).name = r.name := by
  unfold note
  split
  · rfl
  · split
    · exact FunctionUnit.name_addError _ _
    · exact FunctionUnit.name_addWarning _ _

theorem errors_foldl_note {fs : List Finding} : ∀ {r : FunctionReport},
    (fs.foldl note r).errors = [] →
      r.errors = [] ∧ ∀ f ∈ fs, f.severe = true → f.function ≠ r.name := by
  induction fs with
  | nil => exact fun h => ⟨h, by simp⟩
  | cons f fs ih =>
    intro r h
    obtain ⟨hnoted, hrest⟩ := ih h
    obtain ⟨hnone, hf⟩ := errors_note hnoted
    rw [name_note] at hrest
    exact ⟨hnone, List.forall_mem_cons.mpr ⟨hf, hrest⟩⟩

end Finding

/-- Functions of different names that are built wait to be linked, and the reports on the others
have errors and no types. -/
structure Collected.Kept (c : Compiler) (a : Arena) (functions : List NodeId) (s : Collected) :
    Prop where
  names : (s.units.map (·.name)).Nodup
  built : ∀ u ∈ s.units, ∃ fn ∈ functions,
    FunctionUnit.build c.config c.validators a fn = .ok u
  faulty : ∀ entry ∈ s.reports, entry.2.hasErrors = true ∧ entry.2.ir = none

theorem Collected.Kept.add {c : Compiler} {a : Arena} {functions : List NodeId} {s : Collected}
    (h : s.Kept c a functions) {fn : NodeId} (hfn : fn ∈ functions) :
    (s.add (FunctionUnit.build c.config c.validators a fn)).Kept c a functions := by
  cases hrefused : s.refused? (FunctionUnit.build c.config c.validators a fn) with
  | some entry =>
    rw [add_refused hrefused]
    refine ⟨h.names, h.built, fun entry' hentry => ?_⟩
    rcases Reports.mem_put hentry with hentry | rfl
    · exact h.faulty entry' hentry
    · exact Compiler.refused_failed hrefused
  | none =>
    obtain ⟨u, hu, htaken, hadd⟩ := add_accepted hrefused
    simp only [taken, Bool.or_eq_false_iff, List.any_eq_false, beq_iff_eq] at htaken
    rw [hadd]
    refine ⟨?_, fun v hv => ?_, h.faulty⟩
    · rw [List.map_append, List.nodup_append]
      refine ⟨h.names, by simp, fun x hx y hy hsame => ?_⟩
      obtain ⟨v, hv, rfl⟩ := List.mem_map.mp hx
      rw [List.map_singleton, List.mem_singleton] at hy
      exact htaken.2 v hv (hsame.trans hy)
    · rcases List.mem_append.mp hv with hv | hv
      · exact h.built v hv
      · exact ⟨fn, hfn, List.mem_singleton.mp hv ▸ hu⟩

namespace Compiler

theorem collected_kept (c : Compiler) (a : Arena) (functions : List NodeId) :
    (c.collected a functions).Kept c a functions := by
  suffices ∀ fns ⊆ functions, ∀ s : Collected, s.Kept c a functions →
      ((c.outcomes a fns).foldl Collected.add s).Kept c a functions from
    this functions (List.Subset.refl _) {} ⟨by simp, by simp, by simp⟩
  intro fns
  induction fns with
  | nil => exact fun _ _ h => h
  | cons fn fns ih =>
    exact fun hsub s h => ih (fun x hx => hsub (List.mem_cons_of_mem fn hx)) _
      (h.add (hsub List.mem_cons_self))

section
variable {p : ProgramTypes} {res : Resolution} {findings : List Finding}

/-- In the end every linked function has its last report. -/
theorem find?_foldl_finish {units : List FunctionUnit} (hnames : (units.map (·.name)).Nodup)
    {u : FunctionUnit} (hu : u ∈ units) (reports : Reports) :
    (units.foldl (finish p res findings) reports).find? (·.1 == u.name) =
      some (u.name, finished p res findings u) := by
  induction units using List.reverseRecOn with
  | nil => cases hu
  | append_singleton units v ih =>
    rw [List.map_append, List.nodup_append] at hnames
    obtain ⟨hnodup, -, hne⟩ := hnames
    rw [List.foldl_append, List.foldl_cons, List.foldl_nil, finish, Reports.put]
    rcases List.mem_append.mp hu with hu | hu
    · rw [find?_putBy_of_ne Prod.fst _ (v.name, finished p res findings v)
        (hne u.name (List.mem_map_of_mem hu) v.name (by simp)), ih hnodup hu]
    · rw [List.mem_singleton.mp hu]
      exact find?_putBy_self Prod.fst _ (v.name, finished p res findings v)

theorem mem_foldl_finish {entry : String × FunctionReport} {units : List FunctionUnit} :
    ∀ {reports : Reports}, entry ∈ units.foldl (finish p res findings) reports →
      entry ∈ reports ∨ ∃ u ∈ units, entry = (u.name, finished p res findings u) := by
  induction units with
  | nil => exact fun h => .inl h
  | cons u units ih =>
    intro reports h
    rcases ih h with h | ⟨v, hv, rfl⟩
    · rcases Reports.mem_put h with h | rfl
      · exact .inl h
      · exact .inr ⟨u, by simp, rfl⟩
    · exact .inr ⟨v, by simp [hv], rfl⟩

end

variable {c : Compiler} {a : Arena} {functions : List NodeId} {memo : Memo}

/-- The types of all functions that are linked. -/
def linked (c : Compiler) (a : Arena) (functions : List NodeId) : ProgramTypes :=
  .link ((c.collected a functions).units.map (·.types))

/-- The types of what is linked, each shifted to where it begins. -/
theorem collected_pieces (c : Compiler) (a : Arena) (functions : List NodeId) :
    ∃ pieces : List (Nat × FunctionUnit),
      pieces.map (·.2) = (c.collected a functions).units ∧
      ProgramTypes.Assembled ((c.collected a functions).units.map (·.types))
        (pieces.map (fun q => (q.1, q.2.types))) ∧
      ∀ q ∈ pieces, ∃ fn view, FunctionUnit.BuiltFrom a fn view q.2 := by
  have hkept := c.collected_kept a functions
  have hfrom : ∀ u ∈ (c.collected a functions).units,
      ∃ fn view, FunctionUnit.BuiltFrom a fn view u := fun u hu =>
    (hkept.built u hu).imp fun _ h => FunctionUnit.build_builtFrom h.2
  obtain ⟨pieces, hpieces, hassembled⟩ := exists_assembled hkept.names hfrom
  exact ⟨pieces, hpieces, hassembled, fun q hq => hfrom q.2 (hpieces ▸ List.mem_map_of_mem hq)⟩

/-- What the types of all functions that are linked resolve to. -/
def resolved (c : Compiler) (a : Arena) (functions : List NodeId) (memo : Memo) : Resolution :=
  (((Resolver.ofConfig c.config c.rules).resolve (c.linked a functions).graph).run memo).1

/-- A compilation without an error: from which node of the program the types of each linked function
begin, and no function is reported that is not linked. -/
structure Errorless (c : Compiler) (a : Arena) (functions : List NodeId) (memo : Memo)
    (pieces : List (Nat × FunctionUnit)) : Prop where
  built : ∀ q ∈ pieces, ∃ fn view, FunctionUnit.BuiltFrom a fn view q.2
  assembled : ProgramTypes.Assembled ((c.collected a functions).units.map (·.types))
    (pieces.map (fun q => (q.1, q.2.types)))
  errors : (c.resolved a functions memo).errors = []
  failures : ∀ f ∈ (c.resolved a functions memo).failures, f.fallback ≠ none
  typed : ∀ f ∈ (c.compile a functions memo).1.typedFunctions, ∃ q ∈ pieces,
    f = (c.resolved a functions memo).irOf (ProgramTypes.shifted q.1 q.2.types) q.2

theorem exists_errorless (hmemo : memo.Faithful c.rules (.ofConfig c.config))
    (herrors : (c.compile a functions memo).1.errors = []) :
    ∃ pieces, Errorless c a functions memo pieces := by
  have hkept := c.collected_kept a functions
  obtain ⟨pieces, hpieces, hassembled, hbuilt⟩ := c.collected_pieces a functions
  have hsolution : Resolver.Solution (.ofConfig c.config c.rules) (c.linked a functions).graph
      (c.resolved a functions memo) := by
    rw [resolved, (Resolver.resolve_yields _ _ memo hmemo).1]
    exact Resolver.Plain.resolve_solution _ _
  obtain ⟨calls, hreport⟩ := c.compile_linked a functions memo
  set findings := Finding.all (c.linked a functions) calls (c.resolved a functions memo)
  change (c.compile a functions memo).1.functions = (c.collected a functions).units.foldl
    (finish (c.linked a functions) (c.resolved a functions memo) findings) _ at hreport
  have hfinished : ∀ q ∈ pieces,
      (finished (c.linked a functions) (c.resolved a functions memo) findings q.2).errors = [] := by
    intro q hq
    have hunit : q.2 ∈ (c.collected a functions).units := hpieces ▸ List.mem_map_of_mem hq
    have hlast : (c.compile a functions memo).1.functions.find? (·.1 == q.2.name) =
        some (q.2.name,
          finished (c.linked a functions) (c.resolved a functions memo) findings q.2) :=
      hreport ▸ find?_foldl_finish hkept.names hunit (c.collected a functions).reports
    exact List.flatMap_eq_nil_iff.mp herrors _ (List.mem_of_find?_eq_some hlast)
  have hfunction : ∀ q ∈ pieces, (c.linked a functions).function? q.2.name =
      some (ProgramTypes.shifted q.1 q.2.types) := fun q hq => by
    obtain ⟨fn, view, h⟩ := hbuilt q hq
    exact function?_piece hassembled hq h.types_function
  have hsame := fun q hq => finished_eq (hfunction q hq) (hfinished q hq)
  obtain ⟨hnoErrors, hfailures⟩ := hassembled.nothing_severe hsolution
    fun f (hf : f ∈ findings) hsevere q hq => by
      obtain ⟨piece, hpiece, rfl⟩ := List.mem_map.mp hq
      obtain ⟨fn, view, h⟩ := hbuilt piece hpiece
      have hnone := hfinished piece hpiece
      rw [hsame piece hpiece] at hnone
      rw [h.types_function]
      exact (Finding.errors_foldl_note hnone).2 f hf hsevere
  refine ⟨pieces, hbuilt, hassembled, hnoErrors, hfailures, fun f hf => ?_⟩
  obtain ⟨entry, hentry, hir⟩ := List.mem_filterMap.mp hf
  rcases mem_foldl_finish (hreport ▸ hentry) with hkeyed | ⟨u, hu, rfl⟩
  · have hfaulty := (hkept.faulty entry hkeyed).1
    rw [FunctionReport.hasErrors, List.flatMap_eq_nil_iff.mp herrors entry hentry] at hfaulty
    cases hfaulty
  · obtain ⟨q, hq, rfl⟩ := List.mem_map.mp (hpieces.symm ▸ hu : u ∈ pieces.map (·.2))
    rw [hsame q hq] at hir
    exact ⟨q, hq, (Option.some.inj hir).symm⟩

theorem resolved_iff (res : Resolution) (m : TypeNodeId) :
    (∃ ty, res.outcome m = .resolved ty) ↔ res.typeOf? m ≠ none := by
  rw [← res.ty?_outcome]
  cases res.outcome m <;> simp [TypeOutcome.ty?]

/-- Where no error is reported, a definition or a result has a type exactly if its type is built up
from constants, or from the types that cycles which do not settle are given. Nothing is said about
the others. -/
theorem typed_iff_founded (c : Compiler) (a : Arena) (functions : List NodeId) (memo : Memo)
    (hmemo : memo.Faithful c.rules (.ofConfig c.config))
    (herrors : (c.compile a functions memo).1.errors = []) :
    ∀ f ∈ (c.compile a functions memo).1.typedFunctions,
      ∃ t, (c.linked a functions).function? f.name = some t ∧
        (∀ d ∈ f.form.defs, d.kind ≠ .undefined → ∃ m, t.defNode? d.id = some m ∧
          ((∃ ty, f.typeOf? d.id = some (.resolved ty)) ↔ (c.linked a functions).graph.Founded
            (fun m => (c.resolved a functions memo).failureFor? m ≠ none) m)) ∧
        ((∃ ty, f.result = .resolved ty) ↔ (c.linked a functions).graph.Founded
          (fun m => (c.resolved a functions memo).failureFor? m ≠ none) t.result) := by
  intro f hf
  obtain ⟨pieces, h⟩ := exists_errorless hmemo herrors
  obtain ⟨q, hq, rfl⟩ := h.typed f hf
  obtain ⟨fn, view, hbuilt⟩ := h.built q hq
  obtain ⟨s, hwired⟩ := hbuilt.wired
  have hnumbered := hbuilt.settled.numbered
  have hfounded : ∀ m, (c.resolved a functions memo).typeOf? m ≠ none ↔
      (c.linked a functions).graph.Founded
        (fun m => (c.resolved a functions memo).failureFor? m ≠ none) m := by
    have hyields : c.resolved a functions memo = _ :=
      (Resolver.resolve_yields _ _ memo hmemo).1
    have herrors := h.errors
    have hfailures := h.failures
    rw [hyields] at herrors hfailures ⊢
    exact Resolver.Plain.typeOf?_iff_founded herrors hfailures
  refine ⟨ProgramTypes.shifted q.1 q.2.types, ?_, fun d hd hkind => ?_, ?_⟩
  · rw [Clean.name_irOf hbuilt hwired, hbuilt.types_function]
    exact function?_piece h.assembled hq hbuilt.types_function
  · have hnode := hwired.defNode?_shifted hnumbered (hnumbered.mem_defs.mp hd) q.1
    refine ⟨_, hnode, ?_⟩
    rw [Resolution.typeOf?_irOf hnumbered _ _ hd, ← hfounded, ← resolved_iff]
    have houtcome : (c.resolved a functions memo).outcomeOf
        (ProgramTypes.shifted q.1 q.2.types) d =
          (c.resolved a functions memo).outcome ((⟨d.id.raw⟩ : TypeNodeId).up q.1) := by
      rw [Resolution.outcomeOf, hnode]
      cases hd : d.kind with
      | undefined => exact absurd hd hkind
      | param | assign | loopInit | loopStep | phi | promotion => rfl
    rw [houtcome]
    simp only [Option.some.injEq]
  · rw [← hfounded, ← resolved_iff]
    exact Iff.rfl

theorem typed_iff_founded_loopArena :
    (Memo.Faithful {} loopCompiler.rules (.ofConfig loopCompiler.config) ∧
      (loopCompiler.compile loopArena [⟨6⟩] {}).1.errors = [] ∧
      (loopCompiler.compile loopArena [⟨6⟩] {}).1.typedFunctions.length = 1) ∧
    ∀ f ∈ (loopCompiler.compile loopArena [⟨6⟩] {}).1.typedFunctions,
      ∃ t, (loopCompiler.linked loopArena [⟨6⟩]).function? f.name = some t ∧
        (∀ d ∈ f.form.defs, d.kind ≠ .undefined → ∃ m, t.defNode? d.id = some m ∧
          ((∃ ty, f.typeOf? d.id = some (.resolved ty)) ↔
            (loopCompiler.linked loopArena [⟨6⟩]).graph.Founded
              (fun m => (loopCompiler.resolved loopArena [⟨6⟩] {}).failureFor? m ≠ none) m)) ∧
        ((∃ ty, f.result = .resolved ty) ↔ (loopCompiler.linked loopArena [⟨6⟩]).graph.Founded
          (fun m => (loopCompiler.resolved loopArena [⟨6⟩] {}).failureFor? m ≠ none) t.result) := by
  have hmemo := Memo.faithful_empty loopCompiler.rules (.ofConfig loopCompiler.config)
  obtain ⟨res, hfunctions⟩ := functions_loopArena
  have hsilent : (finished (.link [loopTypes]) res [] loopUnit).Silent :=
    finished_silent ⟨rfl, rfl⟩ (by simp [loopUnit, loopBuilt])
  have herrors : (loopCompiler.compile loopArena [⟨6⟩] {}).1.errors = [] := by
    rw [ProgramReport.errors, hfunctions]
    simp [hsilent.1]
  exact ⟨⟨hmemo, herrors, length_typedFunctions_loopArena⟩,
    typed_iff_founded loopCompiler loopArena [⟨6⟩] {} hmemo herrors⟩

end Compiler

end TypedSsa

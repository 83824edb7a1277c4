import TypedSsa.Proofs.Concerning
import TypedSsa.Proofs.Founding

/-!
A function that has nothing to do with the others changes nothing for them. Main statement:
`Compiler.unrelated_invisible`. The reports on the others are the same with it and without it, but
for the numbers of the nodes that did not settle.
-/

namespace TypedSsa

/-! Reports that are the same but for the numbers of nodes. -/

/-- Faults reported one after the other, where the nodes of some have other numbers. -/
inductive Fault.Renumbered (e : Nat → Nat) : List Fault → List Fault → Prop where
  | same (fs : List Fault) : Renumbered e fs fs
  | note {fs fs' : List Fault} {f f' : Fault} : Renumbered e fs fs' →
      f = f' ∨ f = f'.rename (.via e) → Renumbered e (addNew fs [f]) (addNew fs' [f'])

namespace FunctionReport

/-- A report is another one, but for the numbers of nodes. -/
structure Renumbers (e : Nat → Nat) (r r' : FunctionReport) : Prop where
  name : r.name = r'.name
  node : r.node = r'.node
  ir : r.ir = r'.ir
  lints : r.lints = r'.lints
  errors : Fault.Renumbered e r.errors r'.errors
  warnings : Fault.Renumbered e r.warnings r'.warnings

namespace Renumbers

variable {e : Nat → Nat} {r r' : FunctionReport}

theorem refl (e : Nat → Nat) (r : FunctionReport) : r.Renumbers e r :=
  ⟨rfl, rfl, rfl, rfl, .same _, .same _⟩

theorem addError (h : r.Renumbers e r') {f f' : Fault}
    (hf : f = f' ∨ f = f'.rename (.via e)) : (r.addError f).Renumbers e (r'.addError f') := by
  have hadd : ∀ (r : FunctionReport) (f : Fault),
      r.addError f = { r with errors := addNew r.errors [f] } := fun r f => by
    rw [FunctionReport.addError, addNew, List.foldl_cons, List.foldl_nil]
    split <;> rfl
  rw [hadd, hadd]
  exact ⟨h.name, h.node, h.ir, h.lints, h.errors.note hf, h.warnings⟩

theorem addWarning (h : r.Renumbers e r') {f f' : Fault}
    (hf : f = f' ∨ f = f'.rename (.via e)) : (r.addWarning f).Renumbers e (r'.addWarning f') := by
  have hadd : ∀ (r : FunctionReport) (f : Fault),
      r.addWarning f = { r with warnings := addNew r.warnings [f] } := fun r f => by
    rw [FunctionReport.addWarning, addNew, List.foldl_cons, List.foldl_nil]
    split <;> rfl
  rw [hadd, hadd]
  exact ⟨h.name, h.node, h.ir, h.lints, h.errors, h.warnings.note hf⟩

theorem note (h : r.Renumbers e r') {f f' : Finding} (hf : f.Renumbers e f') :
    (Finding.note r f).Renumbers e (Finding.note r' f') := by
  rw [Finding.note, Finding.note, hf.function, hf.severe, h.name]
  split
  · exact h
  · split
    · exact h.addError hf.fault
    · exact h.addWarning hf.fault

theorem foldl_note {fs fs' : List Finding} (hfs : List.Forall₂ (Finding.Renumbers e) fs fs')
    (h : r.Renumbers e r') :
    (fs.foldl Finding.note r).Renumbers e (fs'.foldl Finding.note r') := by
  induction hfs generalizing r r' with
  | nil => exact h
  | cons hf _ ih => exact ih (h.note hf)

end Renumbers

/-- Only the findings of its function count for a report. -/
theorem foldl_note_filter (fs : List Finding) (r : FunctionReport) :
    fs.foldl Finding.note r = (fs.filter (·.function = r.name)).foldl Finding.note r := by
  induction fs generalizing r with
  | nil => rfl
  | cons f fs ih =>
    rw [List.foldl_cons, ih, Finding.name_note]
    by_cases hf : f.function = r.name
    · rw [List.filter_cons_of_pos (by simpa using hf), List.foldl_cons]
    · rw [List.filter_cons_of_neg (by simpa using hf), Finding.note, if_pos hf]

end FunctionReport

/-! What a node comes to. -/

theorem forall₂_find? {α β : Type} {R : α → β → Prop} {p : α → Bool} {q : β → Bool}
    (hpq : ∀ x y, R x y → p x = q y) {xs : List α} {ys : List β} (h : List.Forall₂ R xs ys) :
    Option.Rel R (xs.find? p) (ys.find? q) := by
  induction h with
  | nil => exact .none
  | @cons x y xs ys hxy _ ih =>
    rw [List.find?_cons, List.find?_cons, hpq x y hxy]
    split
    · exact .some hxy
    · exact ih

theorem FunctionTypes.defNode?_rename (e : Nat → Nat) (t : FunctionTypes) (id : DefId) :
    (t.rename e).defNode? id = (t.defNode? id).map (.via e) := by
  have hfind : findNear? Prod.fst id.raw (t.rename e).defs id =
      (findNear? Prod.fst id.raw t.defs id).map (fun p => (p.1, p.2.via e)) :=
    findNear?_map (f := fun p => (p.1, Ident.via e p.2)) (fun _ => rfl) id.raw t.defs id
  rw [defNode?, defNode?, hfind, Option.map_map, Option.map_map]
  rfl

theorem Fault.message_rename (e : TypeNodeId → TypeNodeId) (f : Fault) :
    (f.rename e).message = f.message := by
  cases f with
  | unresolvedRecursion members rounds =>
    unfold message
    dsimp only [rename]
    rw [List.length_map]
  | _ => simp only [rename]

namespace Resolution.Reflects

variable {e : Nat → Nat} {g g' : TypeGraph} {res res' : Resolution}

section
variable (he : Function.Injective e) (h : Reflects e g g' res res')

include he h

theorem errorFor? (m : TypeNodeId) : res.errorFor? (m.via e) = res'.errorFor? m := by
  classical
  have hkept : res.errors.find? (·.1 == m.via e) =
      (res.errors.filter (·.1 ∈ Set.range (Ident.via e))).find? (·.1 == m.via e) := by
    rw [List.find?_filter]
    refine congrArg (List.find? · _) (funext fun entry => ?_)
    by_cases hentry : entry.1 = m.via e
    · simp [hentry]
    · simp [hentry]
  have hmoved : ((·.1 == m.via e) ∘ Resolver.moved e : TypeNodeId × Fault → Bool) =
      (·.1 == m) := by
    funext entry
    rw [Bool.eq_iff_iff, Function.comp_apply, beq_iff_eq, beq_iff_eq]
    exact (Ident.via_injective he).eq_iff
  rw [Resolution.errorFor?, Resolution.errorFor?, hkept, h.errors, List.find?_map, hmoved,
    Option.map_map]
  rfl

variable (hfailures : ∀ f ∈ res.failures, ¬f.Of e → ∀ m ∈ f.members, m ∉ Set.range (Ident.via e))

include hfailures

theorem failureFor? (m : TypeNodeId) :
    Option.Rel (RecursionFailure.Matches e) (res.failureFor? (m.via e)) (res'.failureFor? m) := by
  classical
  have hkept : res.failures.find? (·.members.contains (m.via e)) =
      (res.failures.filter (RecursionFailure.Of e)).find? (·.members.contains (m.via e)) := by
    rw [← List.head?_filter, ← List.head?_filter, List.filter_filter]
    refine congrArg List.head? (List.filter_congr fun f hf => ?_)
    by_cases hof : f.Of e
    · rw [decide_eq_true hof, Bool.and_true]
    · have hout : ¬f.members.contains (m.via e) := fun hm =>
        hfailures f hf hof _ (List.contains_iff_mem.mp hm) ⟨m, rfl⟩
      rw [Bool.eq_false_iff.mpr hout, Bool.false_and]
  rw [Resolution.failureFor?, hkept]
  refine forall₂_find? (fun f f' hf => ?_) h.failures
  rw [hf.members, Bool.eq_iff_iff, List.contains_iff_mem, List.contains_iff_mem]
  exact List.mem_map_of_injective (Ident.via_injective he)

/-- A node comes to the same under its new number. -/
theorem outcome (m : TypeNodeId) : res.outcome (m.via e) = res'.outcome m := by
  have hfailure := h.failureFor? he hfailures m
  have htype : res.typeOf? (m.via e) = res'.typeOf? m := h.types m
  rw [Resolution.outcome, Resolution.outcome, h.errorFor? he, htype]
  generalize res.failureFor? (m.via e) = failure at hfailure
  generalize res'.failureFor? m = failure' at hfailure
  cases res'.typeOf? m with
  | some ty => rfl
  | none =>
    cases res'.errorFor? m with
    | some fault => rfl
    | none =>
      cases hfailure with
      | none => rfl
      | some hf =>
        dsimp only
        rw [hf.error, Fault.message_rename]

theorem outcomeOf (t : FunctionTypes) (d : Def) :
    res.outcomeOf (t.rename e) d = res'.outcomeOf t d := by
  rw [Resolution.outcomeOf, Resolution.outcomeOf, FunctionTypes.defNode?_rename]
  cases t.defNode? d.id with
  | none => cases d.kind <;> rfl
  | some node =>
    rw [Option.map_some]
    cases d.kind <;> first | rfl | exact h.outcome he hfailures node

end

end Resolution.Reflects

/-! The last report. -/

namespace Compiler

/-- Functions whose types are linked with one function more are reported on as without it. -/
theorem finished_renumbers {name : String} {e : Nat → Nat} {p p' : ProgramTypes}
    {r : Resolver} {u : FunctionUnit} (h : ProgramTypes.Beside name e p p')
    (hnodup : (p.functions.map (·.function)).Nodup) (hu : u.name ≠ name) :
    (finished p (Resolver.Plain.resolve r p.graph)
      (Finding.all p p.callGraph (Resolver.Plain.resolve r p.graph)) u).Renumbers e
        (finished p' (Resolver.Plain.resolve r p'.graph)
          (Finding.all p' p'.callGraph (Resolver.Plain.resolve r p'.graph)) u) := by
  have hembeds := h.graph.embeds h.mono
  have hreflects := hembeds.resolve_reflects r
  have hfailures := hembeds.outside_of_failed (Resolver.Plain.resolve_solution r p.graph)
  have hnoted := FunctionReport.Renumbers.foldl_note
    (h.findings hreflects hnodup hfailures hu) (.refl e u.report)
  rw [FunctionUnit.name, ← FunctionReport.foldl_note_filter,
    ← FunctionReport.foldl_note_filter] at hnoted
  rw [finished, finished, h.function? hu]
  cases hfind : p'.function? u.name with
  | none => exact hnoted
  | some t =>
    rw [Option.map_some]
    dsimp only
    have htypes : u.form.defs.toList.map (fun d =>
        (d.id, (Resolver.Plain.resolve r p.graph).outcomeOf (t.rename e) d)) =
          u.form.defs.toList.map (fun d =>
            (d.id, (Resolver.Plain.resolve r p'.graph).outcomeOf t d)) :=
      List.map_congr_left fun d _ => congrArg (d.id, ·)
        (hreflects.outcomeOf h.mono.injective hfailures t d)
    have hresult : (Resolver.Plain.resolve r p.graph).outcome (t.rename e).result =
        (Resolver.Plain.resolve r p'.graph).outcome t.result :=
      hreflects.outcome h.mono.injective hfailures t.result
    rw [htypes, hresult]
    split
    · exact ⟨hnoted.name, hnoted.node, rfl, hnoted.lints, hnoted.errors, hnoted.warnings⟩
    · exact hnoted.addError (.inl rfl)

/-- The last report on a function of a program, in a memory of nothing. -/
def reported (c : Compiler) (us : List FunctionUnit) (u : FunctionUnit) : FunctionReport :=
  let p := ProgramTypes.link (us.map (·.types))
  let res := Resolver.Plain.resolve (.ofConfig c.config c.rules) p.graph
  finished p res (Finding.all p p.callGraph res) u

end Compiler

/-! Functions that all have names of their own. -/

namespace Collected

/-- The function that is linked, if there is one. -/
def unit? : Outcome → Option FunctionUnit
  | .ok u => some u
  | .error _ => none

/-- The report on a function that is not linked. -/
def report? : Outcome → Option (String × FunctionReport)
  | .ok _ => none
  | .error r => some (r.name, r)

theorem nameOf_of_unit? {o : Outcome} {u : FunctionUnit} (h : unit? o = some u) :
    nameOf o = u.name := by
  cases o with
  | error => cases h
  | ok v =>
    cases h
    rfl

theorem nameOf_of_report? {o : Outcome} {entry : String × FunctionReport}
    (h : report? o = some entry) : nameOf o = entry.1 := by
  cases o with
  | ok => cases h
  | error r =>
    cases h
    rfl

/-- Where no name is repeated nothing stands in the way of anything. -/
theorem foldl_of_names {os : List Outcome} (hnames : (os.map nameOf).Nodup) :
    (os.foldl add {}).reports = os.filterMap report? ∧
      (os.foldl add {}).units = os.filterMap unit? := by
  induction os using List.reverseRecOn with
  | nil => exact ⟨rfl, rfl⟩
  | append_singleton os o ih =>
    rw [List.map_append, List.nodup_append] at hnames
    obtain ⟨hreports, hunits⟩ := ih hnames.1
    have hother : ∀ o' ∈ os, nameOf o' ≠ nameOf o :=
      fun o' ho' => hnames.2.2 _ (List.mem_map_of_mem ho') _ (by simp)
    have hreport : (os.foldl add {}).reports.has (nameOf o) = false := by
      rw [hreports, Reports.has, List.any_eq_false]
      intro entry hentry hsame
      obtain ⟨o', ho', hreport⟩ := List.mem_filterMap.mp hentry
      exact hother o' ho' ((nameOf_of_report? hreport).trans (eq_of_beq hsame))
    have hunit : (os.foldl add {}).units.any (·.name == nameOf o) = false := by
      rw [hunits, List.any_eq_false]
      intro u hu hsame
      obtain ⟨o', ho', hunit⟩ := List.mem_filterMap.mp hu
      exact hother o' ho' ((nameOf_of_unit? hunit).trans (eq_of_beq hsame))
    have htaken : (os.foldl add {}).taken (nameOf o) = false := by
      rw [taken, hreport, hunit]
      rfl
    rw [List.foldl_append, List.filterMap_append, List.filterMap_append, ← hreports, ← hunits,
      List.foldl_cons, List.foldl_nil]
    cases o with
    | error r =>
      have hfree : (os.foldl add {}).reports.has r.name = false := hreport
      have hrefused : (os.foldl add {}).refused? (.error r) = some (r.name, r) := by
        rw [refused?, if_neg (Bool.eq_false_iff.mp hfree)]
      rw [add_refused hrefused, Reports.put_of_free hfree]
      exact ⟨rfl, (List.append_nil _).symm⟩
    | ok u =>
      have haccepted : (os.foldl add {}).refused? (.ok u) = none :=
        if_neg (Bool.eq_false_iff.mp htaken)
      obtain ⟨v, hv, -, hadd⟩ := add_accepted haccepted
      obtain rfl := Except.ok.inj hv
      rw [hadd]
      exact ⟨(List.append_nil _).symm, rfl⟩

end Collected

namespace Compiler

variable {c : Compiler} {a : Arena}

theorem compile_of_names {functions : List NodeId} {memo : Memo}
    (hmemo : memo.Faithful c.rules (.ofConfig c.config))
    (hnames : ((c.outcomes a functions).map Collected.nameOf).Nodup) :
    (c.compile a functions memo).1.functions =
      (c.outcomes a functions).filterMap Collected.report? ++
        ((c.outcomes a functions).filterMap Collected.unit?).map (fun u =>
          (u.name, c.reported ((c.outcomes a functions).filterMap Collected.unit?) u)) := by
  obtain ⟨hreports, hunits⟩ := Collected.foldl_of_names hnames
  have hapart : (c.collected a functions).Apart :=
    (Collected.foldl_clear ⟨by simp, by simp⟩
      (Collected.clear_of_names hnames fun _ _ => rfl)).1
  have hresolved : c.resolved a functions memo =
      Resolver.Plain.resolve (.ofConfig c.config c.rules) (c.linked a functions).graph :=
    (Resolver.resolve_yields _ _ memo hmemo).1
  have hcompiled : (c.compile a functions memo).1.functions =
      (c.collected a functions).units.foldl (finish (c.linked a functions)
        (c.resolved a functions memo) (Finding.all (c.linked a functions)
          (c.linked a functions).callGraph (c.resolved a functions memo)))
            (c.collected a functions).reports := rfl
  rw [hcompiled, foldl_finish_free _ _ _ hapart.names hapart.free, hresolved]
  have hreports : (c.collected a functions).reports = _ := hreports
  have hunits : (c.collected a functions).units = _ := hunits
  rw [hreports, ← hunits]
  rfl

/-- A function that is built evaluates a call of this name. -/
def Calls (c : Compiler) (a : Arena) (fn : NodeId) (name : String) : Prop :=
  ∃ u, FunctionUnit.build c.config c.validators a fn = .ok u ∧
    ∃ k ∈ a.evaluated u.graph u.form, ∃ args, a.expression k.2 = .ok (.call name args)

theorem calls_of_mem {fn : NodeId} {u : FunctionUnit}
    (hu : FunctionUnit.build c.config c.validators a fn = .ok u) {call : CallSite}
    (hcall : call ∈ u.types.calls) : c.Calls a fn call.callee := by
  obtain ⟨view, hbuilt⟩ := FunctionUnit.build_builtFrom hu
  obtain ⟨s, hwired⟩ := hbuilt.wired
  obtain ⟨k, hk, m, -, -, -, -, args, hexpression, -⟩ :=
    exists_left_of_forall₂ hwired.filled.calls call (hwired.calls ▸ hcall)
  exact ⟨u, hu, k, (List.mem_filter.mp hk).1, args, hexpression⟩

/-- The name that a function is reported under. -/
def nameAt (c : Compiler) (a : Arena) (fn : NodeId) : String :=
  Collected.nameOf (FunctionUnit.build c.config c.validators a fn)

/-- The name of a function is the one that its node has. -/
theorem nameAt_of_function {fn : NodeId} {view : FunctionView} (h : a.function fn = .ok view) :
    c.nameAt a fn = view.name := by
  rw [nameAt]
  cases hbuild : FunctionUnit.build c.config c.validators a fn with
  | ok u =>
    obtain ⟨view', hbuilt⟩ := FunctionUnit.build_builtFrom hbuild
    obtain rfl := Except.ok.inj (h.symm.trans hbuilt.function)
    exact hbuilt.name
  | error r =>
    rw [FunctionUnit.build, h] at hbuild
    dsimp only at hbuild
    split at hbuild
    · cases hbuild
      rfl
    · rename_i lints _
      cases hlower : FunctionUnit.lower c.config a view lints with
      | ok u =>
        rw [hlower] at hbuild
        cases hbuild
      | error fault =>
        rw [hlower] at hbuild
        cases hbuild
        rfl

/-- The functions that are built and can be linked. -/
theorem of_mem_unit? {functions : List NodeId} {u : FunctionUnit}
    (hu : u ∈ (c.outcomes a functions).filterMap Collected.unit?) : ∃ f ∈ functions,
      FunctionUnit.build c.config c.validators a f = .ok u ∧ c.nameAt a f = u.name := by
  obtain ⟨o, ho, hunit⟩ := List.mem_filterMap.mp hu
  obtain ⟨f, hf, rfl⟩ := List.mem_map.mp ho
  refine ⟨f, hf, ?_, Collected.nameOf_of_unit? hunit⟩
  cases hbuild : FunctionUnit.build c.config c.validators a f with
  | error r =>
    rw [hbuild] at hunit
    cases hunit
  | ok v =>
    rw [hbuild] at hunit
    exact congrArg Except.ok (Option.some.inj hunit)

/-- Linked functions with one more that they do not call and that does not call them. -/
theorem link_unrelated {us vs : List FunctionUnit} {u : FunctionUnit}
    (hnames : ((us ++ u :: vs).map (·.name)).Nodup)
    (hbuilt : ∀ v ∈ us ++ u :: vs, ∃ fn view, FunctionUnit.BuiltFrom a fn view v)
    (hcalled : ∀ v ∈ us ++ vs, ∀ call ∈ v.types.calls, call.callee ≠ u.name)
    (hcalls : ∀ v ∈ us ++ vs, ∀ call ∈ u.types.calls, call.callee ≠ v.name) :
    ∃ e, StrictMono e ∧ ∀ v ∈ us ++ vs, (c.reported (us ++ u :: vs) v).Renumbers e
      (c.reported (us ++ vs) v) := by
  have hfunction : ∀ v ∈ us ++ u :: vs, v.types.function = v.name := by
    intro v hv
    obtain ⟨f, view, h⟩ := hbuilt v hv
    exact h.types_function
  have hothers : ∀ v ∈ us ++ vs, v ∈ us ++ u :: vs := fun v hv =>
    ((List.sublist_cons_self u vs).append_left us).subset hv
  have hsame : u.types.function = u.name := hfunction u (by simp)
  have hfunctions : ((us ++ u :: vs).map (·.types)).map (·.function) =
      (us ++ u :: vs).map (·.name) := by
    rw [List.map_map]
    exact List.map_congr_left hfunction
  have hsplit : (us ++ u :: vs).map (·.types) =
      us.map (·.types) ++ u.types :: vs.map (·.types) := by
    rw [List.map_append, List.map_cons]
  have hnodup := hfunctions ▸ hnames
  have henclosed : ∀ t ∈ (us ++ u :: vs).map (·.types), t.Enclosed := by
    rw [List.forall_mem_map]
    intro v hv
    obtain ⟨f, view, h⟩ := hbuilt v hv
    exact FunctionTypes.ofForm_enclosed h.types
  obtain ⟨e, hbeside⟩ := ProgramTypes.link_beside (hsplit ▸ hnodup) (hsplit ▸ henclosed)
    (by
      rw [← List.map_append, List.forall_mem_map, hsame]
      exact hcalled)
    (by
      intro call hcall
      rw [← List.map_append, List.forall_mem_map]
      intro v hv
      rw [hfunction v (hothers v hv)]
      exact hcalls v hv call hcall)
  rw [hsame, ← hsplit, ← List.map_append] at hbeside
  refine ⟨e, hbeside.mono, fun v hv => finished_renumbers hbeside ?_ fun hname => ?_⟩
  · rw [ProgramTypes.names_link hnodup]
    exact hnodup
  · have hapart := (List.nodup_middle.mp (by simpa using hnames)).notMem
    rw [← List.map_append] at hapart
    exact hapart (hname ▸ List.mem_map_of_mem hv)

section
variable {before after : List NodeId} {fn : NodeId}

/-- What bears other names is as it is without the one function. -/
theorem filter_outcomes {β : Type} {f : Collected.Outcome → Option β} {key : β → String}
    (hkey : ∀ o x, f o = some x → Collected.nameOf o = key x)
    (hfresh : ∀ g ∈ before ++ after, c.nameAt a g ≠ c.nameAt a fn) :
    ((c.outcomes a (before ++ fn :: after)).filterMap f).filter (key · ≠ c.nameAt a fn) =
      (c.outcomes a (before ++ after)).filterMap f := by
  have hgone : (f (FunctionUnit.build c.config c.validators a fn)).filter
      (key · ≠ c.nameAt a fn) = none := by
    cases hf : f (FunctionUnit.build c.config c.validators a fn) with
    | none => rfl
    | some x => exact Option.filter_some_neg (by simp [← hkey _ _ hf, nameAt])
  have hkept : ∀ g ∈ before ++ after, (f (FunctionUnit.build c.config c.validators a g)).filter
      (key · ≠ c.nameAt a fn) = f (FunctionUnit.build c.config c.validators a g) := by
    intro g hg
    cases hf : f (FunctionUnit.build c.config c.validators a g) with
    | none => rfl
    | some x =>
      refine Option.filter_some_pos (decide_eq_true ?_)
      exact hkey _ _ hf ▸ hfresh g hg
  rw [outcomes, outcomes, List.filterMap_map, List.filterMap_map, List.filter_filterMap,
    List.filterMap_append, List.filterMap_cons]
  simp only [Function.comp_apply, hgone]
  rw [← List.filterMap_append]
  exact List.filterMap_congr hkept

/-- Whatever becomes of the one function, the others are reported on as without it. -/
theorem reported_unrelated (hnames : ((before ++ fn :: after).map (c.nameAt a)).Nodup)
    (hcalled : ∀ f ∈ before ++ after, ¬c.Calls a f (c.nameAt a fn))
    (hcalls : ∀ f ∈ before ++ after, ¬c.Calls a fn (c.nameAt a f)) :
    ∃ e, StrictMono e ∧
      ∀ v ∈ (c.outcomes a (before ++ after)).filterMap Collected.unit?,
        (c.reported ((c.outcomes a (before ++ fn :: after)).filterMap
          Collected.unit?) v).Renumbers e
            (c.reported ((c.outcomes a (before ++ after)).filterMap Collected.unit?) v) := by
  have hunits : ∀ functions, ∀ v ∈ (c.outcomes a functions).filterMap Collected.unit?,
      ∃ f ∈ functions, FunctionUnit.build c.config c.validators a f = .ok v ∧
        c.nameAt a f = v.name := fun functions v hv => of_mem_unit? hv
  have hsplit : ∀ functions rest, (c.outcomes a (functions ++ rest)).filterMap Collected.unit? =
      (c.outcomes a functions).filterMap Collected.unit? ++
        (c.outcomes a rest).filterMap Collected.unit? := fun functions rest => by
    rw [outcomes, List.map_append, List.filterMap_append]
    rfl
  have hcollected : (c.collected a (before ++ fn :: after)).units =
      (c.outcomes a (before ++ fn :: after)).filterMap Collected.unit? := by
    refine (Collected.foldl_of_names ?_).2
    rw [outcomes, List.map_map]
    exact hnames
  cases hbuild : FunctionUnit.build c.config c.validators a fn with
  | error r =>
    have hnone : (c.outcomes a (fn :: after)).filterMap Collected.unit? =
        (c.outcomes a after).filterMap Collected.unit? := by
      rw [outcomes, List.map_cons, hbuild]
      rfl
    refine ⟨id, strictMono_id, fun v _ => ?_⟩
    rw [hsplit, hsplit, hnone]
    exact .refl id _
  | ok u =>
    have hname : c.nameAt a fn = u.name := by rw [nameAt, hbuild, Collected.nameOf]
    have hcons : (c.outcomes a (fn :: after)).filterMap Collected.unit? =
        u :: (c.outcomes a after).filterMap Collected.unit? := by
      rw [outcomes, List.map_cons, hbuild]
      rfl
    rw [hsplit, hsplit, hcons]
    refine link_unrelated (a := a) ?_ ?_ ?_ ?_
    · rw [← hcons, ← hsplit, ← hcollected]
      exact (c.collected_kept a (before ++ fn :: after)).names
    · rw [← hcons, ← hsplit]
      intro v hv
      obtain ⟨f, -, hv, -⟩ := hunits _ v hv
      exact ⟨f, FunctionUnit.build_builtFrom hv⟩
    · rw [← hsplit]
      intro v hv call hcall hsame
      obtain ⟨f, hf, hv, -⟩ := hunits _ v hv
      exact hcalled f hf (hname ▸ hsame ▸ calls_of_mem hv hcall)
    · rw [← hsplit]
      intro v hv call hcall hsame
      obtain ⟨f, hf, -, hv⟩ := hunits _ v hv
      exact hcalls f hf (hv ▸ hsame ▸ calls_of_mem hbuild hcall)

end

/-- A function with a name of its own that the others do not call and that calls none of them: what
is reported of these is what is reported without it, whatever becomes of the one. -/
theorem unrelated_invisible (c : Compiler) (a : Arena) (before after : List NodeId) (fn : NodeId)
    (memo memo' : Memo) (hmemo : memo.Faithful c.rules (.ofConfig c.config))
    (hmemo' : memo'.Faithful c.rules (.ofConfig c.config))
    (hnames : ((before ++ fn :: after).map (c.nameAt a)).Nodup)
    (hcalled : ∀ f ∈ before ++ after, ¬c.Calls a f (c.nameAt a fn))
    (hcalls : ∀ f ∈ before ++ after, ¬c.Calls a fn (c.nameAt a f)) :
    ∃ e, StrictMono e ∧
      List.Forall₂ (fun entry entry' => entry.1 = entry'.1 ∧ entry.2.Renumbers e entry'.2)
        ((c.compile a (before ++ fn :: after) memo).1.functions.filter (·.1 ≠ c.nameAt a fn))
        (c.compile a (before ++ after) memo').1.functions := by
  have hsplit : (before ++ fn :: after).map (c.nameAt a) =
      before.map (c.nameAt a) ++ c.nameAt a fn :: after.map (c.nameAt a) := by
    rw [List.map_append, List.map_cons]
  obtain ⟨hfresh, hothers⟩ := List.nodup_cons.mp (List.nodup_middle.mp (hsplit ▸ hnames))
  rw [← List.map_append] at hfresh hothers
  have hapart : ∀ g ∈ before ++ after, c.nameAt a g ≠ c.nameAt a fn :=
    fun g hg hsame => hfresh (hsame ▸ List.mem_map_of_mem hg)
  have hnamed : ∀ functions, (c.outcomes a functions).map Collected.nameOf =
      functions.map (c.nameAt a) := fun functions => List.map_map
  rw [compile_of_names hmemo ((hnamed _).symm ▸ hnames),
    compile_of_names hmemo' ((hnamed _).symm ▸ hothers), List.filter_append,
    filter_outcomes (fun _ _ => Collected.nameOf_of_report?) hapart, List.filter_map]
  have hunits : ((c.outcomes a (before ++ fn :: after)).filterMap Collected.unit?).filter
      (·.name ≠ c.nameAt a fn) = (c.outcomes a (before ++ after)).filterMap Collected.unit? :=
    filter_outcomes (fun _ _ => Collected.nameOf_of_unit?) hapart
  obtain ⟨e, he, hreported⟩ := reported_unrelated hnames hcalled hcalls
  refine ⟨e, he, List.rel_append ?_ ?_⟩
  · exact List.forall₂_same.mpr fun entry _ => ⟨rfl, .refl e _⟩
  · refine List.forall₂_map_right_iff.mpr (List.forall₂_map_left_iff.mpr ?_)
    change List.Forall₂ _ (List.filter (fun u : FunctionUnit => u.name ≠ c.nameAt a fn) _) _
    rw [hunits]
    exact List.forall₂_same.mpr fun v hv => ⟨rfl, hreported v hv⟩

/-- Two functions, of which one calls itself and the other one leaves a loop that is not there. -/
def strayArena : Arena where
  registry := .builtin
  nodes := loopArena.nodes ++ #[
    ⟨⟨7⟩, ⟨9⟩, .identity, [], []⟩,
    ⟨⟨8⟩, ⟨0⟩, .identity, [.str "g", .list [], .list [.node ⟨7⟩]], []⟩]

/-- The function that is called, if the expression is a call. -/
def callee? : Expression → Option String
  | .call callee _ => some callee
  | _ => none

theorem callee_strayArena {id : NodeId} {callee : String} {args : List NodeId}
    (h : strayArena.expression id = .ok (.call callee args)) : callee = "f" := by
  have hall : ∀ n ∈ strayArena.nodes.toList,
      ((strayArena.expression n.id).toOption.bind callee?).all (· == "f") = true := by
    decide +kernel
  cases hfind : strayArena.find? id with
  | none =>
    rw [Arena.expression, Arena.kindName, Arena.kindName?, hfind] at h
    cases h
  | some n =>
    obtain ⟨hn, rfl⟩ := mem_of_findNear? hfind
    have hcallee := hall n (Array.mem_toList_iff.mpr hn)
    rw [h] at hcallee
    exact eq_of_beq hcallee

theorem unrelated_invisible_strayArena :
    (Memo.Faithful {} loopCompiler.rules (.ofConfig loopCompiler.config) ∧
      (([⟨6⟩, ⟨8⟩] : List NodeId).map (loopCompiler.nameAt strayArena)).Nodup ∧
      ¬loopCompiler.Calls strayArena ⟨6⟩ "g" ∧ ¬loopCompiler.Calls strayArena ⟨8⟩ "f") ∧
    ∃ e, StrictMono e ∧
      List.Forall₂ (fun entry entry' => entry.1 = entry'.1 ∧ entry.2.Renumbers e entry'.2)
        ((loopCompiler.compile strayArena [⟨6⟩, ⟨8⟩] {}).1.functions.filter (·.1 ≠ "g"))
        (loopCompiler.compile strayArena [⟨6⟩] {}).1.functions := by
  have hmemo := Memo.faithful_empty loopCompiler.rules (.ofConfig loopCompiler.config)
  have hview : strayArena.function ⟨6⟩ = .ok loopView := rfl
  have hview' : strayArena.function ⟨8⟩ = .ok ⟨⟨8⟩, "g", [], [⟨7⟩], none, none⟩ := rfl
  have hf : loopCompiler.nameAt strayArena ⟨6⟩ = "f" := nameAt_of_function hview
  have hg : loopCompiler.nameAt strayArena ⟨8⟩ = "g" := nameAt_of_function hview'
  have hnames : (([⟨6⟩, ⟨8⟩] : List NodeId).map (loopCompiler.nameAt strayArena)).Nodup := by
    rw [List.map_cons, List.map_cons, List.map_nil, hf, hg]
    decide
  have hcalled : ¬loopCompiler.Calls strayArena ⟨6⟩ "g" := by
    rintro ⟨u, -, k, -, args, hcall⟩
    exact absurd (callee_strayArena hcall) (by decide)
  have hcalls : ¬loopCompiler.Calls strayArena ⟨8⟩ "f" := by
    have hfails : (FunctionUnit.build loopCompiler.config loopCompiler.validators strayArena
        ⟨8⟩).isOk = false := by decide +kernel
    rintro ⟨u, hu, -⟩
    rw [hu] at hfails
    cases hfails
  refine ⟨⟨hmemo, hnames, hcalled, hcalls⟩, ?_⟩
  have hinvisible := unrelated_invisible loopCompiler strayArena [⟨6⟩] [] ⟨8⟩ {} {} hmemo hmemo
    hnames (by rw [hg]; exact List.forall_mem_singleton.mpr hcalled)
    (List.forall_mem_singleton.mpr (hf.symm ▸ hcalls))
  rwa [hg] at hinvisible

end Compiler

end TypedSsa

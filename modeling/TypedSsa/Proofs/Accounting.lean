import TypedSsa.Proofs.Nesting
import TypedSsa.Program.Report

/-!
What a compilation reports on the functions it is given. Main statement: every function has an
entry, and every refused one its fault, exactly when no function is refused under a key that is
taken.
-/

namespace TypedSsa

theorem FunctionReport.node_addError (r : FunctionReport) (e : Fault) :
    (r.addError e).node = r.node := by
  unfold addError
  split <;> rfl

theorem FunctionReport.node_addWarning (r : FunctionReport) (e : Fault) :
    (r.addWarning e).node = r.node := by
  unfold addWarning
  split <;> rfl

namespace FunctionUnit

theorem node_foldl {xs : List Fault} {step : FunctionReport → Fault → FunctionReport}
    (same : ∀ r e, (step r e).node = r.node) (r : FunctionReport) :
    (xs.foldl step r).node = r.node := by
  induction xs generalizing r with
  | nil => rfl
  | cons e es ih => rw [List.foldl_cons, ih, same]

theorem lower_node {config : Config} {a : Arena} {view : FunctionView} {lints : List String}
    {u : FunctionUnit} (h : lower config a view lints = .ok u) : u.report.node = view.node := by
  simp only [lower, bind, Except.bind] at h
  repeat' first | split at h | cases h | contradiction
  rw [node_foldl FunctionReport.node_addWarning, node_foldl FunctionReport.node_addError]

/-- What is built of a function names its node. -/
theorem build_node {config : Config} {validators : List Validator} {a : Arena} {id : NodeId}
    {u : FunctionUnit} (h : build config validators a id = .ok u) : u.report.node = id := by
  unfold build at h
  split at h
  · cases h
  · rename_i view hview
    split at h
    · cases h
    · rename_i lints _
      cases hl : lower config a view lints with
      | error e =>
        rw [hl] at h
        cases h
      | ok v =>
        rw [hl] at h
        cases h
        rw [lower_node hl, Arena.function_node hview]

/-- The report on a function that fails names its node, has an error and no types. -/
theorem build_failed {config : Config} {validators : List Validator} {a : Arena} {id : NodeId}
    {r : FunctionReport} (h : build config validators a id = .error r) :
    r.node = id ∧ r.hasErrors = true ∧ r.ir = none := by
  unfold build at h
  split at h
  · cases h
    exact ⟨rfl, rfl, rfl⟩
  · split at h
    · cases h
      exact ⟨rfl, rfl, rfl⟩
    · rename_i view _ _ lints _
      cases hl : lower config a view lints with
      | error e =>
        rw [hl] at h
        cases h
        exact ⟨rfl, rfl, rfl⟩
      | ok v =>
        rw [hl] at h
        cases h

end FunctionUnit

namespace Reports

theorem put_of_free {reports : Reports} {key : String} {r : FunctionReport}
    (free : reports.has key = false) : reports.put key r = reports ++ [(key, r)] :=
  putBy_of_absent Prod.fst reports (key, r) free

theorem has_put (reports : Reports) (key other : String) (r : FunctionReport) :
    (reports.put key r).has other = (reports.has other || key == other) :=
  any_putBy Prod.fst reports (key, r) other

theorem put_length (reports : Reports) (key : String) (r : FunctionReport) :
    (reports.put key r).length = reports.length + if reports.has key then 0 else 1 :=
  putBy_length Prod.fst reports (key, r)

end Reports

namespace Collected

abbrev Outcome := Except FunctionReport FunctionUnit

/-- The name that a function is reported or linked under. -/
def nameOf : Outcome → String
  | .error r => r.name
  | .ok u => u.name

/-- Whether a key belongs to a report or to a function that waits to be linked. -/
def taken (c : Collected) (key : String) : Bool :=
  c.reports.has key || c.units.any (·.name == key)

def duplicate (name : String) (node : NodeId) : FunctionReport :=
  .failed name node (.schema Kind.function (Reason.definedTwice name))

/-- The report on a function that will not be linked, with its key. -/
def refused? (c : Collected) : Outcome → Option (String × FunctionReport)
  | .error r => some (if c.reports.has r.name then keyOf r.name r.node else r.name, r)
  | .ok u =>
    if c.taken u.name then
      some (keyOf u.name u.report.node, duplicate u.name u.report.node)
    else none

/-- No function is refused under a key that is taken. -/
def Clear : Collected → List Outcome → Prop
  | _, [] => True
  | c, o :: os => (∀ key r, c.refused? o = some (key, r) → c.taken key = false) ∧ (c.add o).Clear os

theorem add_refused {c : Collected} {o : Outcome} {key : String} {r : FunctionReport}
    (h : c.refused? o = some (key, r)) :
    c.add o = { c with reports := c.reports.put key r, failed := c.failed + 1 } := by
  cases o with
  | error e =>
    simp only [refused?, Option.some.injEq, Prod.mk.injEq] at h
    obtain ⟨rfl, rfl⟩ := h
    rfl
  | ok u =>
    simp only [refused?, Option.ite_none_right_eq_some, Option.some.injEq, Prod.mk.injEq] at h
    obtain ⟨htaken, rfl, rfl⟩ := h
    simp only [add, addUnit]
    exact if_pos htaken

/-- A report under a free key is added to the others. -/
theorem add_refused_free {c : Collected} {o : Outcome} {key : String} {r : FunctionReport}
    (h : c.refused? o = some (key, r)) (free : c.taken key = false) :
    c.add o = { c with reports := c.reports ++ [(key, r)], failed := c.failed + 1 } := by
  rw [taken, Bool.or_eq_false_iff] at free
  rw [add_refused h, Reports.put_of_free free.1]

theorem add_accepted {c : Collected} {o : Outcome} (h : c.refused? o = none) :
    ∃ u, o = .ok u ∧ c.taken u.name = false ∧ c.add o = { c with units := c.units ++ [u] } := by
  cases o with
  | error e => cases h
  | ok u =>
    simp only [refused?, ite_eq_right_iff, reduceCtorEq, imp_false, Bool.not_eq_true] at h
    refine ⟨u, rfl, h, ?_⟩
    simp only [add, addUnit]
    exact if_neg (by simpa [taken] using h)

/-- Where no name is repeated no key is taken. -/
theorem clear_of_names {os : List Outcome} {c : Collected}
    (distinct : (os.map nameOf).Nodup) (free : ∀ o ∈ os, c.taken (nameOf o) = false) :
    c.Clear os := by
  induction os generalizing c with
  | nil => trivial
  | cons o os ih =>
    have hn := List.nodup_cons.mp distinct
    have ho := free o (by simp)
    have later : ∀ o' ∈ os, nameOf o ≠ nameOf o' :=
      fun o' ho' he => hn.1 (List.mem_map.mpr ⟨o', ho', he.symm⟩)
    cases o with
    | error r =>
      have hr : c.refused? (.error r) = some (r.name, r) := by
        simp only [taken, nameOf, Bool.or_eq_false_iff] at ho
        simp [refused?, ho.1]
      refine ⟨?_, ih hn.2 ?_⟩
      · intro key e he
        rw [hr] at he
        cases he
        exact ho
      · intro o' ho'
        have hne : (r.name == nameOf o') = false := beq_false_of_ne (later o' ho')
        have := free o' (by simp [ho'])
        rw [add_refused hr]
        simpa [taken, Reports.has_put, hne] using this
    | ok u =>
      have hr : c.refused? (.ok u) = none := by
        simp only [nameOf] at ho
        simp [refused?, ho]
      refine ⟨fun key e he => (by rw [hr] at he; cases he), ih hn.2 ?_⟩
      intro o' ho'
      obtain ⟨v, hv, _, hadd⟩ := add_accepted hr
      cases hv
      have hne : (u.name == nameOf o') = false := beq_false_of_ne (later o' ho')
      have := free o' (by simp [ho'])
      rw [hadd]
      simpa [taken, hne] using this

/-- The node that an outcome is about. -/
def nodeOf : Outcome → NodeId
  | .error r => r.node
  | .ok u => u.report.node

theorem refused_node {c : Collected} {o : Outcome} {key : String} {r : FunctionReport}
    (h : c.refused? o = some (key, r)) : r.node = nodeOf o := by
  cases o with
  | error e =>
    simp only [refused?, Option.some.injEq, Prod.mk.injEq] at h
    rw [← h.2]
    rfl
  | ok u =>
    simp only [refused?, Option.ite_none_right_eq_some, Option.some.injEq, Prod.mk.injEq] at h
    rw [← h.2.2]
    rfl

/-- Every key is in use once: reports have keys of their own, and no function that waits to be
linked has the name of another or the key of a report. -/
structure Apart (c : Collected) : Prop where
  names : (c.units.map (·.name)).Nodup
  free : ∀ u ∈ c.units, c.reports.has u.name = false

theorem Apart.add {c : Collected} {o : Outcome} (h : c.Apart)
    (clear : ∀ key r, c.refused? o = some (key, r) → c.taken key = false) : (c.add o).Apart := by
  cases ho : c.refused? o with
  | some entry =>
    obtain ⟨key, r⟩ := entry
    have hfree := clear key r ho
    simp only [taken, Bool.or_eq_false_iff, List.any_eq_false, beq_iff_eq] at hfree
    rw [add_refused ho]
    refine ⟨h.names, fun u hu => ?_⟩
    have hne : (key == u.name) = false := by simpa using fun he => hfree.2 u hu he.symm
    simp only [Reports.has_put, h.free u hu, hne, Bool.or_self]
  | none =>
    obtain ⟨u, rfl, htaken, hadd⟩ := add_accepted ho
    simp only [taken, Bool.or_eq_false_iff, List.any_eq_false, beq_iff_eq] at htaken
    rw [hadd]
    constructor
    · rw [List.map_append, List.nodup_append]
      refine ⟨h.names, by simp, ?_⟩
      intro x hx y hy he
      obtain ⟨v, hv, rfl⟩ := List.mem_map.mp hx
      simp only [List.map_cons, List.map_nil, List.mem_singleton] at hy
      exact htaken.2 v hv (he.trans hy)
    · intro v hv
      rcases List.mem_append.mp hv with hv | hv
      · exact h.free v hv
      · rw [List.mem_singleton.mp hv]
        exact htaken.1

/-- The nodes that reports and waiting functions are about. -/
def nodes (c : Collected) : List NodeId :=
  c.reports.map (·.2.node) ++ c.units.map (·.report.node)

theorem nodes_add {c : Collected} {o : Outcome}
    (clear : ∀ key r, c.refused? o = some (key, r) → c.taken key = false) :
    (c.add o).nodes.Perm (c.nodes ++ [nodeOf o]) := by
  cases ho : c.refused? o with
  | some entry =>
    obtain ⟨key, r⟩ := entry
    rw [add_refused_free ho (clear key r ho)]
    simp only [nodes, List.map_append, List.map_cons, List.map_nil, refused_node ho,
      List.append_assoc]
    exact List.Perm.append_left _ List.perm_append_comm
  | none =>
    obtain ⟨u, rfl, _, hadd⟩ := add_accepted ho
    rw [hadd]
    simp [nodes, nodeOf]

theorem reports_add {c : Collected} {o : Outcome}
    (clear : ∀ key r, c.refused? o = some (key, r) → c.taken key = false) :
    (c.add o).reports = c.reports ++ (c.refused? o).toList := by
  cases ho : c.refused? o with
  | some entry =>
    obtain ⟨key, r⟩ := entry
    rw [add_refused_free ho (clear key r ho)]
    rfl
  | none =>
    obtain ⟨u, rfl, _, hadd⟩ := add_accepted ho
    rw [hadd]
    simp

/-- While all keys are free, nothing that was reported is lost. -/
theorem foldl_clear {os : List Outcome} {c : Collected} (h : c.Apart) (hc : c.Clear os) :
    (os.foldl add c).Apart ∧ c.reports <+: (os.foldl add c).reports ∧
      (os.foldl add c).nodes.Perm (c.nodes ++ os.map nodeOf) := by
  induction os generalizing c with
  | nil => exact ⟨h, List.prefix_refl _, by simp⟩
  | cons o os ih =>
    obtain ⟨apart, kept, perm⟩ := ih (h.add hc.1) hc.2
    refine ⟨apart, ?_, perm.trans ?_⟩
    · rw [reports_add hc.1] at kept
      exact (List.prefix_append _ _).trans kept
    · simpa using (nodes_add hc.1).append_right (os.map nodeOf)

theorem Clear.suffix {pre post : List Outcome} {c : Collected} (h : c.Clear (pre ++ post)) :
    c.Clear pre ∧ (pre.foldl add c).Clear post := by
  induction pre generalizing c with
  | nil => exact ⟨trivial, h⟩
  | cons o pre ih =>
    obtain ⟨hpre, hpost⟩ := ih h.2
    exact ⟨⟨h.1, hpre⟩, hpost⟩

/-- The report on a refused function is there when all functions are collected. -/
theorem refused_mem {pre post : List Outcome} {o : Outcome} {c : Collected} {key : String}
    {r : FunctionReport} (h : c.Apart) (hc : c.Clear (pre ++ o :: post))
    (ho : (pre.foldl add c).refused? o = some (key, r)) :
    (key, r) ∈ ((pre ++ o :: post).foldl add c).reports := by
  obtain ⟨hpre, hpost⟩ := hc.suffix
  have hapart := (foldl_clear h hpre).1
  obtain ⟨_, kept, _⟩ := foldl_clear (hapart.add hpost.1) hpost.2
  rw [List.foldl_append, List.foldl_cons]
  apply kept.subset
  rw [reports_add hpost.1, ho]
  simp

/-! Where a key is taken, an entry is lost. -/

/-- The number of reports that functions may get. -/
def size (c : Collected) : Nat :=
  c.reports.length + c.units.length

/-- A waiting function has the key of a report. -/
def Overlaps (c : Collected) : Prop :=
  ∃ u ∈ c.units, c.reports.has u.name = true

theorem size_add_le (c : Collected) (o : Outcome) : (c.add o).size ≤ c.size + 1 := by
  cases ho : c.refused? o with
  | some entry =>
    rw [add_refused ho]
    simp only [size, Reports.put_length]
    split <;> omega
  | none =>
    obtain ⟨u, rfl, _, hadd⟩ := add_accepted ho
    rw [hadd]
    simp [size]
    omega

theorem Overlaps.add {c : Collected} (h : c.Overlaps) (o : Outcome) : (c.add o).Overlaps := by
  obtain ⟨u, hu, hhas⟩ := h
  cases ho : c.refused? o with
  | some entry =>
    rw [add_refused ho]
    exact ⟨u, hu, by simp [Reports.has_put, hhas]⟩
  | none =>
    obtain ⟨v, rfl, _, hadd⟩ := add_accepted ho
    rw [hadd]
    exact ⟨u, List.mem_append_left _ hu, hhas⟩

/-- What is lost at a taken key: the entry itself, or the one that will overwrite it. -/
theorem add_taken {c : Collected} {o : Outcome} {key : String} {r : FunctionReport}
    (ho : c.refused? o = some (key, r)) (htaken : c.taken key = true) :
    (c.add o).size < c.size + 1 ∨ (c.add o).Overlaps := by
  rw [add_refused ho]
  simp only [taken, Bool.or_eq_true, List.any_eq_true, beq_iff_eq] at htaken
  rcases htaken with hhas | ⟨u, hu, rfl⟩
  · left
    simp [size, Reports.put_length, hhas]
  · right
    exact ⟨u, hu, by simp [Reports.has_put]⟩

theorem foldl_overlaps (os : List Outcome) {c : Collected} (h : c.Overlaps) :
    (os.foldl add c).Overlaps ∧ (os.foldl add c).size ≤ c.size + os.length := by
  induction os generalizing c with
  | nil => exact ⟨h, Nat.le_refl _⟩
  | cons o os ih =>
    obtain ⟨hover, hsize⟩ := ih (h.add o)
    have := size_add_le c o
    exact ⟨hover, by simp only [List.foldl_cons, List.length_cons]; omega⟩

theorem foldl_size_le (os : List Outcome) (c : Collected) :
    (os.foldl add c).size ≤ c.size + os.length := by
  induction os generalizing c with
  | nil => exact Nat.le_refl _
  | cons o os ih =>
    have := ih (c.add o)
    have := size_add_le c o
    simp only [List.foldl_cons, List.length_cons]
    omega

theorem foldl_not_clear {os : List Outcome} {c : Collected} (h : ¬c.Clear os) :
    (os.foldl add c).size < c.size + os.length ∨ (os.foldl add c).Overlaps := by
  induction os generalizing c with
  | nil => exact absurd trivial h
  | cons o os ih =>
    have hstep := size_add_le c o
    simp only [List.foldl_cons, List.length_cons]
    by_cases hclear : ∀ key r, c.refused? o = some (key, r) → c.taken key = false
    · rcases ih (fun hc => h ⟨hclear, hc⟩) with hlt | hover
      · left
        omega
      · exact Or.inr hover
    · simp only [Classical.not_forall, Bool.not_eq_false] at hclear
      obtain ⟨key, r, ho, htaken⟩ := hclear
      rcases add_taken ho htaken with hlt | hover
      · have := foldl_size_le os (c.add o)
        left
        omega
      · exact Or.inr (foldl_overlaps os hover).1

end Collected

namespace Compiler

theorem node_note (r : FunctionReport) (f : Finding) : (Finding.note r f).node = r.node := by
  unfold Finding.note
  repeat' split
  · rfl
  · exact r.node_addError _
  · exact r.node_addWarning _

theorem finished_node (p : ProgramTypes) (r : Resolution) (findings : List Finding)
    (u : FunctionUnit) : (finished p r findings u).node = u.report.node := by
  have noted : ∀ (fs : List Finding) (x : FunctionReport),
      (fs.foldl Finding.note x).node = x.node := by
    intro fs
    induction fs with
    | nil => exact fun _ => rfl
    | cons f fs ih => exact fun x => by rw [List.foldl_cons, ih, node_note]
  unfold finished
  cases p.function? u.name with
  | none => exact noted _ _
  | some t =>
    dsimp only
    split
    · exact noted _ _
    · rw [FunctionReport.node_addError]
      exact noted _ _

variable (p : ProgramTypes) (r : Resolution) (findings : List Finding)

/-- Functions whose names are free are added at the end. -/
theorem foldl_finish_free {units : List FunctionUnit} {reports : Reports}
    (names : (units.map (·.name)).Nodup) (free : ∀ u ∈ units, reports.has u.name = false) :
    units.foldl (finish p r findings) reports =
      reports ++ units.map (fun u => (u.name, finished p r findings u)) := by
  induction units generalizing reports with
  | nil => simp
  | cons u us ih =>
    have hn := List.nodup_cons.mp names
    rw [List.foldl_cons, finish, Reports.put_of_free (free u (by simp)), ih hn.2]
    · simp
    · intro v hv
      have hne : u.name ≠ v.name := fun he => hn.1 (List.mem_map.mpr ⟨v, hv, he.symm⟩)
      have := free v (by simp [hv])
      simpa [Reports.has, hne] using this

theorem foldl_finish_length_le (units : List FunctionUnit) (reports : Reports) :
    (units.foldl (finish p r findings) reports).length ≤ reports.length + units.length := by
  induction units generalizing reports with
  | nil => exact Nat.le_refl _
  | cons u us ih =>
    have := ih (finish p r findings reports u)
    rw [finish, Reports.put_length] at this
    rw [List.foldl_cons, finish, List.length_cons]
    split at this <;> omega

theorem foldl_finish_overlaps {units : List FunctionUnit} {reports : Reports}
    (h : ∃ u ∈ units, reports.has u.name = true) :
    (units.foldl (finish p r findings) reports).length < reports.length + units.length := by
  induction units generalizing reports with
  | nil => simp at h
  | cons v us ih =>
    obtain ⟨u, hu, hhas⟩ := h
    rw [List.foldl_cons, finish, List.length_cons]
    rcases List.mem_cons.mp hu with rfl | hu
    · have := foldl_finish_length_le p r findings us (reports.put u.name (finished p r findings u))
      rw [Reports.put_length, if_pos hhas] at this
      omega
    · have hput : ∃ u ∈ us, (reports.put v.name (finished p r findings v)).has u.name = true :=
        ⟨u, hu, by simp [Reports.has_put, hhas]⟩
      have := ih hput
      rw [Reports.put_length] at this
      split at this <;> omega

end Compiler

namespace Compiler

variable (c : Compiler) (a : Arena) (functions : List NodeId)

/-- What becomes of each function by itself. -/
def outcomes : List Collected.Outcome :=
  functions.map (FunctionUnit.build c.config c.validators a)

/-- The state in which the functions are linked. -/
def collected : Collected :=
  (c.outcomes a functions).foldl Collected.add {}

/-- A function is refused when it fails by itself or its name is taken. -/
def Refuses (f : NodeId) : Prop :=
  ∃ pre post, functions = pre ++ f :: post ∧
    ∃ entry, (c.collected a pre).refused?
      (FunctionUnit.build c.config c.validators a f) = some entry

/-- A report that leaves nothing out: it has one entry for each function, the report on each
function that fails, and a fault for each one whose name is taken. -/
structure Accounts (report : ProgramReport) : Prop where
  nodes : (report.functions.map (·.2.node)).Perm functions
  failed : ∀ f ∈ functions, ∀ r, FunctionUnit.build c.config c.validators a f = .error r →
    ∃ key, (key, r) ∈ report.functions
  duplicate : ∀ pre f post u, functions = pre ++ f :: post →
    FunctionUnit.build c.config c.validators a f = .ok u →
    (c.collected a pre).taken u.name = true →
    ∃ key, (key, Collected.duplicate u.name f) ∈ report.functions
  errors : (∃ f, c.Refuses a functions f) → report.hasErrors = true

theorem nodeOf_outcomes : (c.outcomes a functions).map Collected.nodeOf = functions := by
  rw [outcomes, List.map_map]
  refine (List.map_congr_left ?_).trans (List.map_id functions)
  intro f _
  simp only [Function.comp_apply]
  cases h : FunctionUnit.build c.config c.validators a f with
  | error r => exact (FunctionUnit.build_failed h).1
  | ok u => exact FunctionUnit.build_node h

theorem refused_failed {c : Compiler} {a : Arena} {f : NodeId} {s : Collected} {key : String}
    {r : FunctionReport}
    (h : s.refused? (FunctionUnit.build c.config c.validators a f) = some (key, r)) :
    r.hasErrors = true ∧ r.ir = none := by
  cases hb : FunctionUnit.build c.config c.validators a f with
  | error e =>
    simp only [hb, Collected.refused?, Option.some.injEq, Prod.mk.injEq] at h
    rw [← h.2]
    exact (FunctionUnit.build_failed hb).2
  | ok u =>
    simp only [hb, Collected.refused?, Option.ite_none_right_eq_some, Option.some.injEq,
      Prod.mk.injEq] at h
    rw [← h.2.2]
    exact ⟨rfl, rfl⟩

/-- How the reports of a compilation come about. -/
theorem compile_functions (memo : Memo) : ∃ p r findings,
    (c.compile a functions memo).1.functions =
      (c.collected a functions).units.foldl (finish p r findings)
        (c.collected a functions).reports :=
  ⟨_, _, _, rfl⟩

variable {c a functions}

theorem accounts_of_clear (memo : Memo) (h : Collected.Clear {} (c.outcomes a functions)) :
    c.Accounts a functions (c.compile a functions memo).1 := by
  have apart : Collected.Apart {} := ⟨by simp, by simp⟩
  obtain ⟨hapart, _, hperm⟩ : (c.collected a functions).Apart ∧ _ ∧
      (c.collected a functions).nodes.Perm _ := Collected.foldl_clear apart h
  obtain ⟨p, r, findings, hreport⟩ := c.compile_functions a functions memo
  have hfinal : (c.compile a functions memo).1.functions = (c.collected a functions).reports ++
      (c.collected a functions).units.map (fun u => (u.name, finished p r findings u)) := by
    rw [hreport, foldl_finish_free p r findings hapart.names hapart.free]
  have refused {pre post : List NodeId} {f : NodeId} {key : String} {e : FunctionReport}
      (hf : functions = pre ++ f :: post) (he : (c.collected a pre).refused?
        (FunctionUnit.build c.config c.validators a f) = some (key, e)) :
      (key, e) ∈ (c.compile a functions memo).1.functions := by
    rw [hfinal]
    apply List.mem_append_left
    have houtcomes : c.outcomes a functions = c.outcomes a pre ++
        FunctionUnit.build c.config c.validators a f :: c.outcomes a post := by
      simp [outcomes, hf]
    rw [collected, houtcomes]
    exact Collected.refused_mem apart (houtcomes ▸ h) he
  refine ⟨?_, ?_, ?_, ?_⟩
  · rw [hfinal]
    simp only [List.map_append, List.map_map, Function.comp_def, finished_node]
    simpa [Collected.nodes, nodeOf_outcomes] using hperm
  · intro f hf e he
    obtain ⟨pre, post, hsplit⟩ := List.append_of_mem hf
    exact ⟨_, refused hsplit (by rw [he]; rfl)⟩
  · intro pre f post u hsplit hu htaken
    refine ⟨Collected.keyOf u.name f, refused hsplit ?_⟩
    rw [hu]
    simp only [Collected.refused?, htaken, if_true, FunctionUnit.build_node hu]
  · rintro ⟨f, pre, post, hsplit, ⟨key, e⟩, he⟩
    exact List.any_eq_true.mpr ⟨_, refused hsplit he, (refused_failed he).1⟩

theorem clear_of_nodes (memo : Memo)
    (h : ((c.compile a functions memo).1.functions.map (·.2.node)).Perm functions) :
    Collected.Clear {} (c.outcomes a functions) := by
  obtain ⟨p, r, findings, hreport⟩ := c.compile_functions a functions memo
  have hlength := h.length_eq
  rw [List.length_map, hreport] at hlength
  have hle := foldl_finish_length_le p r findings (c.collected a functions).units
    (c.collected a functions).reports
  apply Classical.byContradiction
  intro hclear
  have houtcomes : (c.outcomes a functions).length = functions.length := by simp [outcomes]
  rcases Collected.foldl_not_clear hclear with hlt | hover
  · simp only [Collected.size, List.length_nil] at hlt
    change (c.collected a functions).reports.length +
      (c.collected a functions).units.length < _ at hlt
    omega
  · have := foldl_finish_overlaps p r findings hover
    have hsize := Collected.foldl_size_le (c.outcomes a functions) {}
    simp only [Collected.size, List.length_nil] at hsize
    change (c.collected a functions).reports.length +
      (c.collected a functions).units.length ≤ _ at hsize
    change (List.foldl (finish p r findings) (c.collected a functions).reports
      (c.collected a functions).units).length < (c.collected a functions).reports.length +
      (c.collected a functions).units.length at this
    omega

/-- A compilation leaves nothing out exactly when no function is refused under a key that is taken,
and a strict one fails exactly when there is an error to see. -/
theorem accounts_iff_clear (c : Compiler) (a : Arena) (functions : List NodeId) (memo : Memo) :
    (c.Accounts a functions (c.compile a functions memo).1 ↔
      Collected.Clear {} (c.outcomes a functions)) ∧
    ((c.compile a functions memo).1.hasErrors = true ↔
      ∃ e, (c.compileStrict a functions memo).1 = .error e) := by
  refine ⟨⟨fun h => clear_of_nodes memo h.nodes, accounts_of_clear memo⟩, ?_⟩
  have herrors : (c.compile a functions memo).1.hasErrors = true ↔
      (c.compile a functions memo).1.errors ≠ [] := by
    simp [ProgramReport.hasErrors, ProgramReport.errors, FunctionReport.hasErrors]
  rw [herrors]
  obtain ⟨report, memo', hrun⟩ : ∃ report memo', c.compile a functions memo = (report, memo') :=
    ⟨_, _, rfl⟩
  cases hall : report.errors with
  | nil =>
    have hstrict : (c.compileStrict a functions memo).1 = .ok report := by
      simp only [compileStrict, bind, StateT.bind, hrun, hall]
      rfl
    simp [hrun, hall, hstrict]
  | cons e es =>
    have hstrict : (c.compileStrict a functions memo).1 = .error e := by
      simp only [compileStrict, bind, StateT.bind, hrun, hall]
      rfl
    simp [hrun, hall, hstrict]

end Compiler

end TypedSsa

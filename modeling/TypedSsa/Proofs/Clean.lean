import Mathlib.Data.List.Induction
import TypedSsa.Proofs.Accounting
import TypedSsa.Proofs.Assembly
import TypedSsa.Proofs.Making
import TypedSsa.Proofs.Promoting
import TypedSsa.Proofs.Solving

/-!
Compilations that report no fault. Main statement: `clean_of_silent`. All functions are built and
linked, every call has as many arguments as its function has parameters, every node has the type
that its rule gives it, and what is reported on a function are these types.
-/

namespace TypedSsa

/-! Functions that are all built. -/

theorem Collected.foldl_accepted {os : List Outcome} {c : Collected}
    (h : ∀ pre o post, os = pre ++ o :: post → (pre.foldl add c).refused? o = none) :
    ∃ us : List FunctionUnit, os = us.map .ok ∧
      os.foldl add c = { c with units := c.units ++ us } := by
  induction os generalizing c with
  | nil => exact ⟨[], rfl, by simp⟩
  | cons o os ih =>
    obtain ⟨u, rfl, -, hadd⟩ := add_accepted (show c.refused? o = none from h [] o os rfl)
    obtain ⟨us, rfl, hus⟩ := ih (c := c.add (.ok u)) fun pre o' post hsplit =>
      h (.ok u :: pre) o' post (by rw [hsplit]; rfl)
    refine ⟨u :: us, rfl, ?_⟩
    rw [List.foldl_cons, hus, hadd]
    simp

namespace FunctionUnit

/-- What is built of a function that does not fail. -/
structure BuiltFrom (a : Arena) (fn : NodeId) (view : FunctionView) (u : FunctionUnit) : Prop where
  function : a.function fn = .ok view
  name : u.name = view.name
  graph : ∃ g t, FlowGraph.ofFunction a fn = .ok g ∧ u.graph = { g with dominance := t }
  form : ∃ g f l policy, FlowGraph.ofFunction a fn = .ok g ∧
    SsaForm.ofGraph a g fn = .ok (f, u.graph) ∧ u.form = ((f.promote l).1.bind u.graph policy).1
  settled : u.form.Settled a view
  types : FunctionTypes.ofForm a u.graph u.form = .ok u.types
  untyped : u.report.ir = none

theorem foldl_same {β : Type} (part : FunctionReport → β) {xs : List Fault}
    {step : FunctionReport → Fault → FunctionReport} (same : ∀ r e, part (step r e) = part r)
    (r : FunctionReport) : part (xs.foldl step r) = part r := by
  induction xs generalizing r with
  | nil => rfl
  | cons e es ih => rw [List.foldl_cons, ih, same]

theorem name_addError (r : FunctionReport) (e : Fault) : (r.addError e).name = r.name := by
  unfold FunctionReport.addError
  split <;> rfl

theorem name_addWarning (r : FunctionReport) (e : Fault) : (r.addWarning e).name = r.name := by
  unfold FunctionReport.addWarning
  split <;> rfl

theorem ir_addError (r : FunctionReport) (e : Fault) : (r.addError e).ir = r.ir := by
  unfold FunctionReport.addError
  split <;> rfl

theorem ir_addWarning (r : FunctionReport) (e : Fault) : (r.addWarning e).ir = r.ir := by
  unfold FunctionReport.addWarning
  split <;> rfl

theorem build_builtFrom {config : Config} {validators : List Validator} {a : Arena} {fn : NodeId}
    {u : FunctionUnit} (h : build config validators a fn = .ok u) :
    ∃ view, BuiltFrom a fn view u := by
  unfold build at h
  cases hview : a.function fn with
  | error e =>
    rw [hview] at h
    cases h
  | ok view =>
    rw [hview] at h
    dsimp only at h
    cases hlints : Validator.run validators view with
    | error e =>
      rw [hlints] at h
      cases h
    | ok lints =>
      rw [hlints] at h
      dsimp only at h
      cases hlower : lower config a view lints with
      | error e =>
        rw [hlower] at h
        cases h
      | ok u' =>
        rw [hlower] at h
        obtain rfl := Except.ok.inj h
        unfold lower at hlower
        obtain ⟨g, hg, run⟩ := except_bind_ok hlower
        obtain ⟨⟨f, g'⟩, hform, run⟩ := except_bind_ok run
        obtain ⟨t, htypes, run⟩ := except_bind_ok run
        obtain rfl := Except.ok.inj run
        rw [Arena.function_node hview] at hg hform
        obtain ⟨tree, rfl⟩ := SsaForm.graph_ofGraph hform
        refine ⟨view, hview, ?_, ⟨g, tree, hg, rfl⟩, ⟨g, f, _, _, hg, hform, rfl⟩,
          SsaForm.settled_bind_promote hview hform, htypes, ?_⟩
        · rw [name, foldl_same FunctionReport.name name_addWarning,
            foldl_same FunctionReport.name name_addError]
        · rw [foldl_same FunctionReport.ir ir_addWarning, foldl_same FunctionReport.ir ir_addError]

end FunctionUnit

/-! Reports without a fault. -/

/-- Nothing is wrong with a function. -/
def FunctionReport.Silent (r : FunctionReport) : Prop :=
  r.errors = [] ∧ r.warnings = []

namespace FunctionReport

theorem errors_addError (r : FunctionReport) (e : Fault) : (r.addError e).errors ≠ [] := by
  intro herrors
  unfold addError at herrors
  split at herrors
  · rename_i hknown
    rw [herrors] at hknown
    cases hknown
  · simp at herrors

theorem errors_addWarning (r : FunctionReport) (e : Fault) :
    (r.addWarning e).errors = r.errors := by
  unfold addWarning
  split <;> rfl

theorem not_silent_addWarning (r : FunctionReport) (e : Fault) : ¬(r.addWarning e).Silent := by
  rintro ⟨-, hwarnings⟩
  unfold addWarning at hwarnings
  split at hwarnings
  · rename_i hknown
    rw [hwarnings] at hknown
    cases hknown
  · simp at hwarnings

end FunctionReport

namespace Finding

theorem silent_of_note {r : FunctionReport} {f : Finding} (h : (note r f).Silent) :
    note r f = r ∧ f.function ≠ r.name := by
  unfold note at h ⊢
  split
  · rename_i hne
    exact ⟨rfl, hne⟩
  · rename_i hsame
    rw [if_neg hsame] at h
    split at h
    · exact absurd h.1 (r.errors_addError _)
    · exact absurd h (r.not_silent_addWarning _)

theorem ir_foldl_note {fs : List Finding} : ∀ {r : FunctionReport},
    (fs.foldl note r).ir = r.ir := by
  induction fs with
  | nil => exact rfl
  | cons f fs ih =>
    intro r
    rw [List.foldl_cons, ih, note]
    split
    · rfl
    · split
      · exact FunctionUnit.ir_addError _ _
      · exact FunctionUnit.ir_addWarning _ _

/-- A report on which nothing was noted in the end concerns no finding. -/
theorem silent_of_foldl_note {r : FunctionReport} : ∀ {fs : List Finding},
    (fs.foldl note r).Silent → fs.foldl note r = r ∧ ∀ f ∈ fs, f.function ≠ r.name := by
  intro fs
  induction fs using List.reverseRecOn with
  | nil => exact fun _ => ⟨rfl, by simp⟩
  | append_singleton fs f ih =>
    intro h
    rw [List.foldl_append, List.foldl_cons, List.foldl_nil] at h ⊢
    obtain ⟨hsame, hne⟩ := silent_of_note h
    rw [hsame] at h ⊢
    obtain ⟨hrest, hall⟩ := ih h
    rw [hrest] at hne ⊢
    refine ⟨rfl, fun f' hf' => ?_⟩
    rcases List.mem_append.mp hf' with hf' | hf'
    · exact hall f' hf'
    · rw [List.mem_singleton.mp hf']
      exact hne

end Finding

/-- The types of a function that a resolution has. -/
def Resolution.irOf (r : Resolution) (t : FunctionTypes) (u : FunctionUnit) : TypedFunction where
  graph := u.graph
  form := u.form
  types := u.form.defs.toList.map (fun d => (d.id, r.outcomeOf t d))
  result := r.outcome t.result
  requirements := u.requirements

theorem TypedFunction.ofParts_ok {g : FlowGraph} {f : SsaForm} {types : List (DefId × TypeOutcome)}
    {result : TypeOutcome} {requirements : List Requirement} {ir : TypedFunction}
    (h : ofParts g f types result requirements = .ok ir) :
    ir = ⟨g, f, types, result, requirements⟩ := by
  unfold ofParts at h
  split at h
  · cases h
  · exact (Except.ok.inj h).symm

/-- The last report on a function without an error has its types. -/
theorem Compiler.finished_eq {p : ProgramTypes} {r : Resolution} {findings : List Finding}
    {u : FunctionUnit} {t : FunctionTypes} (ht : p.function? u.name = some t)
    (h : (finished p r findings u).errors = []) :
    finished p r findings u =
      { findings.foldl Finding.note u.report with ir := some (r.irOf t u) } := by
  unfold finished at h ⊢
  rw [ht] at h ⊢
  dsimp only at h ⊢
  cases hparts : TypedFunction.ofParts u.graph u.form
      (u.form.defs.toList.map (fun d => (d.id, r.outcomeOf t d))) (r.outcome t.result)
      u.requirements with
  | error e =>
    rw [hparts] at h
    exact absurd h (FunctionReport.errors_addError _ _)
  | ok ir =>
    obtain rfl := TypedFunction.ofParts_ok hparts
    rfl

/-- The last report has the types that were resolved, if any. -/
theorem Compiler.ir_finished {p : ProgramTypes} {r : Resolution} {findings : List Finding}
    {u : FunctionUnit} {ir : TypedFunction} (huntyped : u.report.ir = none)
    (h : (finished p r findings u).ir = some ir) : ∃ t, ir = r.irOf t u := by
  have hnoted : (findings.foldl Finding.note u.report).ir = none := by
    rw [Finding.ir_foldl_note, huntyped]
  unfold finished at h
  split at h
  · rw [hnoted] at h
    cases h
  · rename_i t ht
    dsimp only at h
    split at h
    · rename_i hparts
      cases h
      exact ⟨t, TypedFunction.ofParts_ok hparts⟩
    · rw [FunctionUnit.ir_addError, hnoted] at h
      cases h

theorem Compiler.silent_of_finished {p : ProgramTypes} {r : Resolution} {findings : List Finding}
    {u : FunctionUnit} {t : FunctionTypes} (ht : p.function? u.name = some t)
    (h : (finished p r findings u).Silent) :
    (∀ f ∈ findings, f.function ≠ u.name) ∧ (finished p r findings u).ir = some (r.irOf t u) := by
  have hsame := finished_eq ht h.1
  rw [hsame] at h ⊢
  exact ⟨(Finding.silent_of_foldl_note
    (show (findings.foldl Finding.note u.report).Silent from h)).2, rfl⟩

/-! Equations of types. -/

/-- Types join to a type. What has no type is left out, and nothing joins to no type. -/
def Lattice.Joins (l : Lattice) (tys : List (Option Ty)) (ty : Option Ty) : Prop :=
  l.joinAll (tys.filterMap id) = .ok (ty.map .joined)

/-- A rule gives arguments of these types this type, and none where an argument has none. -/
def RuleSet.Gives (s : RuleSet) (l : Lattice) (name : String) (tys : List (Option Ty)) :
    Option Ty → Prop
  | some ty => ∃ args, tys = args.map some ∧ s.apply l name args = .ok ty
  | none => none ∈ tys

theorem RuleSet.Gives.unique {s : RuleSet} {l : Lattice} {name : String} {tys : List (Option Ty)}
    {ty ty' : Option Ty} (h : s.Gives l name tys ty) (h' : s.Gives l name tys ty') : ty = ty' := by
  cases ty <;> cases ty'
  case none.none => rfl
  case none.some =>
    obtain ⟨args, rfl, -⟩ := h'
    simp [Gives] at h
  case some.none =>
    obtain ⟨args, rfl, -⟩ := h
    simp [Gives] at h'
  case some.some =>
    obtain ⟨args, rfl, happly⟩ := h
    obtain ⟨args', hargs, happly'⟩ := h'
    obtain rfl := List.map_injective_iff.mpr (fun _ _ => Option.some.inj) hargs
    rw [Except.ok.inj (happly.symm.trans happly')]

/-- A node has the type that its rule gives it. -/
def TypeRule.Holds (l : Lattice) (s : RuleSet) (types : TypeNodeId → Option Ty) (ty : Option Ty) :
    TypeRule → Prop
  | .constant t => ty = some t
  | .copy source => ty = types source
  | .join inputs => l.Joins (inputs.map types) ty
  | .apply name args => s.Gives l name (args.map types) ty
  | .undefined => ty = none

theorem map_eq_of_mapM {α β : Type} {f : α → Option β} {xs : List α} {ys : List β}
    (h : xs.mapM f = some ys) : xs.map f = ys.map some := by
  have hall := forall₂_of_mapM_some h
  clear h
  induction hall with
  | nil => rfl
  | cons hy _ ih => rw [List.map_cons, List.map_cons, hy, ih]

namespace Resolver

variable {r : Resolver} {g : TypeGraph}

theorem joins_of_evaluateJoin {known : List Ty} (herror : (r.evaluateJoin known).error = none)
    (hwarning : (r.evaluateJoin known).warning = none) :
    r.lattice.joinAll known = .ok ((r.evaluateJoin known).ty.map .joined) := by
  unfold evaluateJoin at herror hwarning ⊢
  rcases hjoin : r.lattice.joinAll known with e | (_ | ⟨ty⟩ | ⟨ty, cause⟩)
  · rw [hjoin] at herror
    cases herror
  · rfl
  · rfl
  · rw [hjoin] at hwarning
    cases hwarning

theorem ok_of_evaluateApplied {result : Except Fault Ty}
    (herror : (r.evaluateApplied result).error = none)
    (hwarning : (r.evaluateApplied result).warning = none) :
    ∃ ty, result = .ok ty ∧ (r.evaluateApplied result).ty = some ty := by
  cases result with
  | ok ty => exact ⟨ty, rfl, rfl⟩
  | error e =>
    simp only [evaluateApplied] at herror hwarning
    cases hfallback : r.lattice.fallback with
    | none =>
      rw [hfallback] at herror
      cases herror
    | some ty =>
      simp only [hfallback] at herror hwarning
      by_cases hrecoverable : e.isRecoverable = true
      · rw [if_pos hrecoverable] at hwarning
        cases hwarning
      · rw [if_neg hrecoverable] at herror
        cases herror

/-- A rule that neither fails nor falls back. -/
theorem Plain.holds_of_evaluate {lookup : TypeNodeId → Option Ty} {rule : TypeRule}
    (herror : (Plain.evaluate r lookup rule).error = none)
    (hwarning : (Plain.evaluate r lookup rule).warning = none) :
    rule.Holds r.lattice r.rules lookup (Plain.evaluate r lookup rule).ty := by
  cases rule with
  | constant | copy | undefined => rfl
  | join inputs =>
    have hknown : (inputs.map lookup).filterMap id = inputs.filterMap lookup := by simp
    rw [TypeRule.Holds, Lattice.Joins, hknown]
    exact joins_of_evaluateJoin herror hwarning
  | apply name args =>
    rw [TypeRule.Holds]
    unfold Plain.evaluate at herror hwarning ⊢
    dsimp only at herror hwarning ⊢
    cases hargs : args.mapM lookup with
    | none => exact mapM_eq_none hargs
    | some tys =>
      rw [hargs] at herror hwarning
      obtain ⟨ty, happly, hty⟩ := ok_of_evaluateApplied herror hwarning
      dsimp only
      rw [hty]
      exact ⟨tys, map_eq_of_mapM hargs, happly⟩

/-- Where nothing is reported all equations hold. -/
theorem Solution.holds {res : Resolution} (h : Solution r g res) (herrors : res.errors = [])
    (hwarnings : res.warnings = []) (hfailures : res.failures = []) {m : TypeNodeId}
    {rule : TypeRule} (hrule : g.rule? m = some rule) :
    rule.Holds r.lattice r.rules res.typeOf? (res.typeOf? m) := by
  have hm := TypeGraph.raw_lt_of_rule? hrule
  have hnone : res.failureFor? m = none := by
    rw [Resolution.failureFor?_eq_none, hfailures]
    simp
  have hquiet : ∀ {kind : Evaluation → Option Fault} {found : List (TypeNodeId × Fault)},
      Plain.Reports r g kind (·.raw < g.size) res found → found = [] →
      kind (Plain.outcome r g res.types m) = none := by
    intro kind found hreports hfound
    rw [← Option.not_isSome_iff_eq_none, Option.isSome_iff_exists]
    rintro ⟨e, he⟩
    have hmem := (hreports.mem_iff m e).mpr ⟨hm, hnone, he⟩
    rw [hfound] at hmem
    cases hmem
  have herror := hquiet h.errors herrors
  have hwarning := hquiet h.warnings hwarnings
  rw [h.equation m hm hnone]
  have hruleOf : Plain.outcome r g res.types m = Plain.evaluate r res.types.get rule := by
    rw [Plain.outcome, ruleOf, hrule, Option.getD_some]
  rw [hruleOf] at herror hwarning ⊢
  exact Plain.holds_of_evaluate herror hwarning

end Resolver

/-! Compilations without a finding. -/

/-- A call is told by its node. -/
theorem Typing.CallOf.unique {a : Arena} {s : Typing} {m : TypeNodeId} {key : BlockId × NodeId}
    {c c' : CallSite} (h : CallOf a s m key c) (h' : CallOf a s m key c') : c = c' := by
  obtain ⟨hblock, hnode, happly, args, hcall, hargs⟩ := h
  obtain ⟨hblock', hnode', happly', args', hcall', hargs'⟩ := h'
  obtain ⟨hcallee, rfl⟩ := Expression.call.inj (Except.ok.inj (hcall.symm.trans hcall'))
  have hsame : c.args = c'.args :=
    Relator.RightUnique.forall₂ (fun _ _ _ hx hy => Option.some.inj (hx.symm.trans hy)) hargs hargs'
  cases c
  cases c'
  simp_all

theorem Wired.shaped {a : Arena} {g : FlowGraph} {f : SsaForm} {view : FunctionView} {s : Typing}
    {t : FunctionTypes} (h : Wired a g f view s t) (hf : f.Numbered)
    (hparams : List.Forall₂ (f.IsParam) view.params.zipIdx f.params) :
    ProgramTypes.Shaped f.defs.size t := by
  have hcalls : ∀ c ∈ t.calls, ∃ k m, s.exprs[k]? = some m ∧ Typing.CallOf a s m k c := by
    intro c hc
    rw [h.calls] at hc
    obtain ⟨k, -, m, hm, hcall⟩ := exists_left_of_forall₂ h.filled.calls c hc
    exact ⟨k, m, hm, hcall⟩
  refine ⟨h.graph ▸ h.filled.size, ?_, ?_, ?_, ?_⟩
  · intro x hx
    rw [h.params] at hx
    obtain ⟨id, hid, rfl⟩ := List.mem_map.mp hx
    obtain ⟨d, hd⟩ := SsaForm.definition?_of_params hparams id hid
    rw [hf.definition?_eq] at hd
    exact (Array.getElem?_eq_some_iff.mp hd).1
  · rw [h.params]
    exact (SsaForm.params_nodup hparams).map fun i j hsame => by cases i; cases j; cases hsame; rfl
  · intro c hc
    obtain ⟨k, m, hm, -, -, rfl, -⟩ := hcalls c hc
    rw [h.graph]
    exact h.filled.high k _ hm
  · intro c hc c' hc' hsame
    obtain ⟨k, m, hm, hcall⟩ := hcalls c hc
    obtain ⟨k', m', hm', hcall'⟩ := hcalls c' hc'
    obtain rfl : m = m' := hcall.2.2.1.symm.trans (hsame.trans hcall'.2.2.1)
    obtain rfl := h.filled.inj k k' m hm hm'
    exact hcall.unique hcall'

namespace ProgramTypes

variable {ts : List FunctionTypes} {placed : List (Nat × FunctionTypes)}

/-- What is found at a node concerns the function that has the node. -/
theorem Assembled.exists_ofNode (h : Assembled ts placed) {m : TypeNodeId}
    (hm : m.raw < (link ts).graph.size) (e : Fault) (severe : Bool) :
    ∃ q ∈ placed, Finding.ofNode (link ts) severe (m, e) = some ⟨q.2.function, severe, e⟩ := by
  obtain ⟨q, hq, howner⟩ := h.owner hm
  exact ⟨q, hq, by rw [Finding.ofNode, howner, Option.map_some]⟩

/-- A cycle that does not settle concerns some function. -/
theorem Assembled.exists_ofFailure (h : Assembled ts placed) {r : Resolver} {res : Resolution}
    (hres : Resolver.Solution r (link ts).graph res) (calls : CallGraph)
    {failure : RecursionFailure} (hfailure : failure ∈ res.failures) : ∃ q ∈ placed,
      ⟨q.2.function, failure.fallback.isNone, failure.error⟩ ∈
        Finding.ofFailure (link ts) calls failure := by
  obtain ⟨c, hc, -, -, hmembers, -⟩ := hres.failures failure hfailure
  have hschedule := (link ts).graph.condense_schedule
  have hmem := (link ts).graph.condense_order_perm.mem_iff.mpr (Array.mem_toList_iff.mpr hc)
  obtain ⟨m, hm⟩ := List.exists_mem_of_ne_nil _ (hschedule.nonempty c hmem)
  obtain ⟨q, hq, howner⟩ :=
    h.owner ((hschedule.covered m).mp (List.mem_flatMap.mpr ⟨c, hmem, hm⟩))
  have hnamed : q.2.function ∈ (failure.members.filterMap
      (fun m => ((link ts).graph.node? m).bind (·.function))).flatMap
        (fun name => calls.members name ++ [name]) :=
    List.mem_flatMap.mpr ⟨_, List.mem_filterMap.mpr ⟨m, hmembers ▸ hm, howner⟩, by simp⟩
  refine ⟨q, hq, ?_⟩
  rw [Finding.ofFailure]
  exact List.mem_map.mpr ⟨_, mem_distinct.mpr hnamed, rfl⟩

/-- Everything that goes wrong in linking and resolving concerns some function. -/
theorem Assembled.nothing_found (h : Assembled ts placed) {r : Resolver} {res : Resolution}
    (hres : Resolver.Solution r (link ts).graph res) {calls : CallGraph}
    (hnone : ∀ f ∈ Finding.all (link ts) calls res, ∀ q ∈ placed, f.function ≠ q.2.function) :
    (∀ l ∈ (ts.foldl add {}).links, l.fits = true) ∧ res.errors = [] ∧ res.warnings = [] ∧
      res.failures = [] := by
  simp only [Finding.all, List.mem_append] at hnone
  refine ⟨fun l hl => ?_, ?_, ?_, ?_⟩
  · by_contra hfits
    obtain ⟨q, hq, c, hc, r', hr', -, rfl⟩ := h.laid.of_mem_links hl
    refine hnone _ (.inl (.inl (.inl (List.mem_map_of_mem (List.mem_map_of_mem
      (List.mem_filter.mpr ⟨hl, ?_⟩)))))) q hq rfl
    simpa using hfits
  · refine List.eq_nil_iff_forall_not_mem.mpr fun entry hentry => ?_
    obtain ⟨q, hq, hfound⟩ :=
      h.exists_ofNode ((hres.errors.mem_iff entry.1 entry.2).mp hentry).1 entry.2 true
    exact hnone _ (.inl (.inl (.inr (List.mem_filterMap.mpr ⟨entry, hentry, hfound⟩)))) q hq rfl
  · refine List.eq_nil_iff_forall_not_mem.mpr fun entry hentry => ?_
    obtain ⟨q, hq, hfound⟩ :=
      h.exists_ofNode ((hres.warnings.mem_iff entry.1 entry.2).mp hentry).1 entry.2 false
    exact hnone _ (.inl (.inr (List.mem_filterMap.mpr ⟨entry, hentry, hfound⟩))) q hq rfl
  · refine List.eq_nil_iff_forall_not_mem.mpr fun failure hfailure => ?_
    obtain ⟨q, hq, hfound⟩ := h.exists_ofFailure hres calls hfailure
    exact hnone _ (.inr (List.mem_flatMap.mpr ⟨failure, hfailure, hfound⟩)) q hq rfl

/-- Every error concerns some function; what falls back on a type is none. -/
theorem Assembled.nothing_severe (h : Assembled ts placed) {r : Resolver} {res : Resolution}
    (hres : Resolver.Solution r (link ts).graph res) {calls : CallGraph}
    (hnone : ∀ f ∈ Finding.all (link ts) calls res, f.severe = true →
      ∀ q ∈ placed, f.function ≠ q.2.function) :
    res.errors = [] ∧ ∀ f ∈ res.failures, f.fallback ≠ none := by
  simp only [Finding.all, List.mem_append] at hnone
  refine ⟨List.eq_nil_iff_forall_not_mem.mpr fun entry hentry => ?_,
    fun failure hfailure hsevere => ?_⟩
  · obtain ⟨q, hq, hfound⟩ :=
      h.exists_ofNode ((hres.errors.mem_iff entry.1 entry.2).mp hentry).1 entry.2 true
    exact hnone _ (.inl (.inl (.inr (List.mem_filterMap.mpr ⟨entry, hentry, hfound⟩)))) rfl q hq rfl
  · obtain ⟨q, hq, hfound⟩ := h.exists_ofFailure hres calls hfailure
    exact hnone _ (.inr (List.mem_flatMap.mpr ⟨failure, hfailure, hfound⟩))
      (Option.isNone_iff_eq_none.mpr hsevere) q hq rfl

end ProgramTypes

/-- A compilation without a fault: what is built of each function, from which node of the program
its types begin, and the types of all nodes. -/
structure Clean (c : Compiler) (a : Arena) (functions : List NodeId)
    (pieces : List (Nat × FunctionUnit)) (res : Resolution) (report : ProgramReport) : Prop where
  outcomes : c.outcomes a functions = pieces.map (fun q => .ok q.2)
  built : List.Forall₂ (fun fn q => ∃ view, FunctionUnit.BuiltFrom a fn view q.2) functions pieces
  assembled : ProgramTypes.Assembled (pieces.map (·.2.types))
    (pieces.map (fun q => (q.1, q.2.types)))
  fits : ∀ l ∈ ((pieces.map (·.2.types)).foldl ProgramTypes.add {}).links, l.fits = true
  holds : ∀ m rule, (ProgramTypes.link (pieces.map (·.2.types))).graph.rule? m = some rule →
    rule.Holds (.ofConfig c.config) c.rules res.typeOf? (res.typeOf? m)
  typed : report.typedFunctions =
    pieces.map (fun q => res.irOf (ProgramTypes.shifted q.1 q.2.types) q.2)

namespace FunctionUnit

variable {a : Arena} {fn : NodeId} {view : FunctionView} {u : FunctionUnit}

theorem BuiltFrom.wired (h : BuiltFrom a fn view u) :
    ∃ s, Wired a u.graph u.form view s u.types :=
  FunctionTypes.ofForm_wired h.settled.numbered
    (by rw [h.settled.node, Arena.function_node h.function]; exact h.function)
    h.settled.params h.types

theorem BuiltFrom.types_function (h : BuiltFrom a fn view u) : u.types.function = u.name := by
  obtain ⟨s, hwired⟩ := h.wired
  exact hwired.function.trans h.name.symm

end FunctionUnit

namespace Compiler

variable {c : Compiler} {a : Arena} {functions : List NodeId} {memo : Memo}

/-- Where no fault is reported and no report is lost every function is built. -/
theorem all_built (hclear : Collected.Clear {} (c.outcomes a functions))
    (herrors : (c.compile a functions memo).1.errors = []) :
    ∃ us : List FunctionUnit, c.outcomes a functions = us.map .ok ∧
      c.collected a functions = { units := us } := by
  obtain ⟨p, r, findings, hreport⟩ := c.compile_functions a functions memo
  have hapart : (c.collected a functions).Apart :=
    (Collected.foldl_clear ⟨by simp, by simp⟩ hclear).1
  rw [foldl_finish_free p r findings hapart.names hapart.free] at hreport
  suffices ∀ pre o post, c.outcomes a functions = pre ++ o :: post →
      (pre.foldl Collected.add {}).refused? o = none by
    obtain ⟨us, hus, hcollected⟩ := Collected.foldl_accepted this
    exact ⟨us, hus, hcollected.trans (by simp)⟩
  intro pre o post hsplit
  by_contra hrefused
  obtain ⟨⟨key, e⟩, he⟩ := Option.ne_none_iff_exists'.mp hrefused
  have hmem : (key, e) ∈ (c.collected a functions).reports := by
    rw [collected, hsplit]
    exact Collected.refused_mem ⟨by simp, by simp⟩ (hsplit ▸ hclear) he
  obtain ⟨f, -, rfl⟩ := List.mem_map.mp (show o ∈ c.outcomes a functions by simp [hsplit])
  have hfault := (refused_failed he).1
  rw [ProgramReport.errors, hreport, List.flatMap_append, List.append_eq_nil_iff] at herrors
  have hnone := List.flatMap_eq_nil_iff.mp herrors.1 _ hmem
  rw [FunctionReport.hasErrors, hnone] at hfault
  cases hfault

theorem exists_pieces {us : List FunctionUnit} {placed : List (Nat × FunctionTypes)}
    (h : placed.map (·.2) = us.map (·.types)) : ∃ pieces : List (Nat × FunctionUnit),
      pieces.map (·.2) = us ∧ pieces.map (fun q => (q.1, q.2.types)) = placed := by
  have hlength : placed.length = us.length := by simpa using congrArg List.length h
  refine ⟨(placed.map (·.1)).zip us, List.map_snd_zip (by simp [hlength]), ?_⟩
  have hzip : (placed.map (·.1)).zip (placed.map (·.2)) = placed := by simp [List.zip_map']
  rw [h, List.zip_map_right] at hzip
  exact hzip

/-- Built functions of different names can be linked. -/
theorem exists_assembled {us : List FunctionUnit} (hnames : (us.map (·.name)).Nodup)
    (hfrom : ∀ u ∈ us, ∃ fn view, FunctionUnit.BuiltFrom a fn view u) :
    ∃ pieces : List (Nat × FunctionUnit), pieces.map (·.2) = us ∧
      ProgramTypes.Assembled (us.map (·.types)) (pieces.map (fun q => (q.1, q.2.types))) := by
  have hfunctions : (us.map (·.types)).map (·.function) = us.map (·.name) := by
    rw [List.map_map]
    refine List.map_congr_left fun u hu => ?_
    obtain ⟨fn, view, h⟩ := hfrom u hu
    exact h.types_function
  obtain ⟨placed, hassembled⟩ := ProgramTypes.assembled (hfunctions ▸ hnames) fun t ht => by
    obtain ⟨u, hu, rfl⟩ := List.mem_map.mp ht
    obtain ⟨fn, view, h⟩ := hfrom u hu
    obtain ⟨s, hwired⟩ := h.wired
    exact ⟨_, hwired.shaped h.settled.numbered h.settled.params⟩
  obtain ⟨pieces, hpieces, rfl⟩ := exists_pieces hassembled.all
  exact ⟨pieces, hpieces, hassembled⟩

/-- The types of a function in the program. -/
theorem function?_piece {pieces : List (Nat × FunctionUnit)} {ts : List FunctionTypes}
    (h : ProgramTypes.Assembled ts (pieces.map (fun q => (q.1, q.2.types))))
    {q : Nat × FunctionUnit} (hq : q ∈ pieces) (hname : q.2.types.function = q.2.name) :
    (ProgramTypes.link ts).function? q.2.name = some (ProgramTypes.shifted q.1 q.2.types) := by
  have hfind := h.laid.function?_eq h.nodup
    (List.mem_map_of_mem (f := fun q : Nat × FunctionUnit => (q.1, q.2.types)) hq)
  rw [← hname]
  exact hfind

theorem compile_linked (c : Compiler) (a : Arena) (functions : List NodeId) (memo : Memo) :
    ∃ calls, (c.compile a functions memo).1.functions =
      let p := ProgramTypes.link ((c.collected a functions).units.map (·.types))
      let res := (((Resolver.ofConfig c.config c.rules).resolve p.graph).run memo).1
      (c.collected a functions).units.foldl (finish p res (Finding.all p calls res))
        (c.collected a functions).reports :=
  ⟨_, rfl⟩

/-- A compilation that reports nothing. -/
theorem clean_of_silent (hmemo : memo.Faithful c.rules (.ofConfig c.config))
    (hclear : Collected.Clear {} (c.outcomes a functions))
    (herrors : (c.compile a functions memo).1.errors = [])
    (hwarnings : (c.compile a functions memo).1.warnings = []) :
    ∃ pieces res, Clean c a functions pieces res (c.compile a functions memo).1 := by
  obtain ⟨us, hus, hcollected⟩ := all_built hclear herrors
  have hapart : (c.collected a functions).Apart :=
    (Collected.foldl_clear ⟨by simp, by simp⟩ hclear).1
  have hbuilt : List.Forall₂ (fun fn u => ∃ view, FunctionUnit.BuiltFrom a fn view u)
      functions us := by
    have hall : List.Forall₂ (fun fn u =>
        FunctionUnit.build c.config c.validators a fn = .ok u) functions us :=
      (List.forall₂_map_left_iff.mp (List.forall₂_map_right_iff.mp
        (List.forall₂_eq_eq_eq ▸ hus))).imp fun _ _ h => h
    exact hall.imp fun _ _ h => FunctionUnit.build_builtFrom h
  have hnames : (us.map (·.name)).Nodup := by
    have hnames := hapart.names
    rwa [hcollected] at hnames
  have hfrom : ∀ u ∈ us, ∃ fn view, FunctionUnit.BuiltFrom a fn view u := fun u hu =>
    (exists_left_of_forall₂ hbuilt u hu).imp fun _ => And.right
  obtain ⟨pieces, rfl, hassembled⟩ := exists_assembled hnames hfrom
  obtain ⟨calls, hreport⟩ := c.compile_linked a functions memo
  rw [hcollected] at hreport
  set p := ProgramTypes.link ((pieces.map (·.2)).map (·.types)) with hp
  set res := (((Resolver.ofConfig c.config c.rules).resolve p.graph).run memo).1 with hres
  have hsolution : Resolver.Solution (.ofConfig c.config c.rules) p.graph res := by
    have hyields := Resolver.resolve_yields (.ofConfig c.config c.rules) p.graph memo hmemo
    rw [hres, hyields.1]
    exact Resolver.Plain.resolve_solution _ p.graph
  rw [foldl_finish_free p res (Finding.all p calls res) hnames (by simp [Reports.has]),
    List.nil_append] at hreport
  have hsilent : ∀ q ∈ pieces, (finished p res (Finding.all p calls res) q.2).Silent := by
    intro q hq
    have hmem : (q.2.name, finished p res (Finding.all p calls res) q.2) ∈
        (c.compile a functions memo).1.functions := by
      rw [hreport]
      exact List.mem_map_of_mem (List.mem_map_of_mem hq)
    exact ⟨List.flatMap_eq_nil_iff.mp herrors _ hmem, List.flatMap_eq_nil_iff.mp hwarnings _ hmem⟩
  have hfinished : ∀ q ∈ pieces, (∀ f ∈ Finding.all p calls res, f.function ≠ q.2.name) ∧
      (finished p res (Finding.all p calls res) q.2).ir =
        some (res.irOf (ProgramTypes.shifted q.1 q.2.types) q.2) := by
    intro q hq
    obtain ⟨fn, view, h⟩ := hfrom q.2 (List.mem_map_of_mem hq)
    exact silent_of_finished (function?_piece hassembled hq h.types_function) (hsilent q hq)
  obtain ⟨hfits, hnoErrors, hnoWarnings, hnoFailures⟩ := hassembled.nothing_found hsolution
    fun f (hf : f ∈ Finding.all p calls res) q hq => by
      obtain ⟨piece, hpiece, rfl⟩ := List.mem_map.mp hq
      obtain ⟨fn, view, h⟩ := hfrom piece.2 (List.mem_map_of_mem hpiece)
      rw [h.types_function]
      exact (hfinished piece hpiece).1 f hf
  rw [List.map_map] at hp hassembled hfits
  refine ⟨pieces, res, by rw [hus, List.map_map]; rfl, ?_, hassembled, hfits, ?_, ?_⟩
  · exact List.forall₂_map_right_iff.mp hbuilt
  · intro m rule hrule
    exact hsolution.holds hnoErrors hnoWarnings hnoFailures (hp ▸ hrule)
  · rw [ProgramReport.typedFunctions, hreport, List.filterMap_map, List.filterMap_map]
    rw [← List.filterMap_eq_map]
    exact List.filterMap_congr fun q hq => (hfinished q hq).2

end Compiler

end TypedSsa

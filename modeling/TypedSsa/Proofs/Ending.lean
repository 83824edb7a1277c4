import TypedSsa.Proofs.Completing
import TypedSsa.Proofs.WellTyped

/-!
When the compilation of a function comes to an end. Main statement: `compile_ends_iff`. It does
unless lowering comes to a statement, or typing to an expression, that is nested in itself.
-/

namespace TypedSsa

open Relation

/-! What goes wrong for other reasons than how deep something is nested. -/

section
variable {α β : Type}

theorem not_tooDeep_ok (x : α) : ¬TooDeep (.ok x : Except Fault α) :=
  fun ⟨_, hx, _⟩ => nomatch hx

theorem not_tooDeep_malformed (function : String) (block : Option BlockId) (reason : String) :
    ¬TooDeep (.error (.malformedGraph function block reason) : Except Fault α) := by
  intro ⟨e, he, hdeep⟩
  obtain rfl := Except.error.inj he
  exact hdeep

theorem not_tooDeep_bind {m : Except Fault α} {k : α → Except Fault β} (hm : ¬TooDeep m)
    (hk : ∀ x, m = .ok x → ¬TooDeep (k x)) : ¬TooDeep (m >>= k) := by
  rw [tooDeep_bind]
  exact fun h => h.elim hm (fun ⟨x, hx, hkx⟩ => hk x hx hkx)

theorem not_tooDeep_forM {step : α → Except Fault PUnit} {xs : List α}
    (hstep : ∀ x ∈ xs, ¬TooDeep (step x)) : ¬TooDeep (xs.forM step) := by
  induction xs with
  | nil => exact not_tooDeep_ok _
  | cons x xs ih =>
    have ⟨hx, hxs⟩ := List.forall_mem_cons.mp hstep
    exact not_tooDeep_bind (m := step x) hx (fun _ _ => ih hxs)

theorem not_tooDeep_mapM {step : α → Except Fault β} {xs : List α}
    (hstep : ∀ x ∈ xs, ¬TooDeep (step x)) : ¬TooDeep (xs.mapM step) := by
  induction xs with
  | nil => exact not_tooDeep_ok _
  | cons x xs ih =>
    have ⟨hx, hxs⟩ := List.forall_mem_cons.mp hstep
    rw [List.mapM_cons]
    exact not_tooDeep_bind hx (fun _ _ => not_tooDeep_bind (ih hxs) (fun _ _ => not_tooDeep_ok _))

theorem not_tooDeep_map {m : Except Fault α} (hm : ¬TooDeep m) (f : α → β) :
    ¬TooDeep (m.map f) := by
  intro ⟨e, he, hdeep⟩
  cases m with
  | error e' =>
    obtain rfl := Except.error.inj he
    exact hm ⟨_, rfl, hdeep⟩
  | ok x => cases he

end

namespace FlowGraph

variable (g : FlowGraph)

theorem not_tooDeep_validate : ¬TooDeep g.validate := by
  unfold validate
  split
  · refine not_tooDeep_forM (fun b _ => ?_)
    unfold validateBlock
    split
    · exact not_tooDeep_malformed _ _ _
    · split
      · exact not_tooDeep_malformed _ _ _
      · exact not_tooDeep_ok _
  · exact not_tooDeep_malformed _ _ _

theorem not_tooDeep_checkConstructs : ¬TooDeep g.checkConstructs := by
  unfold checkConstructs
  split
  · intro ⟨e, he, hdeep⟩
    obtain rfl := Except.error.inj he
    exact hdeep
  · exact not_tooDeep_ok _

end FlowGraph

namespace SsaForm

variable (f : SsaForm)

theorem not_tooDeep_checkFilled : ¬TooDeep f.checkFilled := by
  unfold checkFilled
  split
  · exact not_tooDeep_malformed _ _ _
  · exact not_tooDeep_ok _

theorem not_tooDeep_verifyPhi (x : BlockIndex) (d : Def) : ¬TooDeep (f.verifyPhi x d) := by
  unfold verifyPhi
  split
  · dsimp only
    split_ifs
    · exact not_tooDeep_malformed _ _ _
    · exact not_tooDeep_ok _
    · exact not_tooDeep_malformed _ _ _
  · exact not_tooDeep_ok _

theorem not_tooDeep_verifyUse (t : DominatorTree) (u : Use) : ¬TooDeep (f.verifyUse t u) := by
  unfold verifyUse
  split
  · exact not_tooDeep_malformed _ _ _
  · split_ifs
    · exact not_tooDeep_malformed _ _ _
    · exact not_tooDeep_ok _
    · exact not_tooDeep_malformed _ _ _

theorem not_tooDeep_verify (g : FlowGraph) : ¬TooDeep (f.verify g) := by
  unfold verify
  split
  · exact not_tooDeep_malformed _ _ _
  · refine not_tooDeep_bind ?_ (fun _ _ => ?_)
    · rw [show ∀ step : Def → Except Fault PUnit, f.defs.forM step = f.defs.toList.forM step from
        fun step => List.forM_toArray f.defs.toList step]
      exact not_tooDeep_forM (fun d _ => f.not_tooDeep_verifyPhi _ d)
    · rw [show ∀ step : Use → Except Fault PUnit, f.uses.forM step = f.uses.toList.forM step from
        fun step => List.forM_toArray f.uses.toList step]
      exact not_tooDeep_forM (fun u _ => f.not_tooDeep_verifyUse _ u)

/-- Making a form fails in its checks only. -/
theorem not_tooDeep_ofGraph {a : Arena} {g g' : FlowGraph} {fn : NodeId}
    (run : unchecked a g fn = .ok (f, g')) : ¬TooDeep (ofGraph a g fn) := by
  rw [ofGraph_eq, run]
  refine not_tooDeep_bind (not_tooDeep_ok _) (fun p hp => ?_)
  obtain rfl := Except.ok.inj hp
  exact not_tooDeep_bind f.not_tooDeep_checkFilled (fun _ _ =>
    not_tooDeep_bind (f.not_tooDeep_verify g') (fun _ _ => not_tooDeep_ok _))

end SsaForm

/-! Functions. -/

namespace FunctionUnit

/-- The graph of a function and the form that it is typed in, with its promotions and with every
read classified. -/
def Readies (config : Config) (a : Arena) (fn : NodeId) (g : FlowGraph) (f : SsaForm) : Prop :=
  ∃ g₀ f₀, FlowGraph.ofFunction a fn = .ok g₀ ∧ SsaForm.ofGraph a g₀ fn = .ok (f₀, g) ∧
    f = ((f₀.promote (.ofConfig config)).1.bind g config.unbound).1

/-- Lowering comes to a statement that is nested in itself, or typing to such an expression. -/
def Nested (config : Config) (a : Arena) (view : FunctionView) : Prop :=
  a.Descends view.body ∨ ∃ g f, Readies config a view.node g f ∧
    ∃ root ∈ a.roots g f, Endless a.PartOf root.2

/-- No depth is enough to lower the statements of a function, or to type an expression of it. -/
def Unending (config : Config) (a : Arena) (view : FunctionView) : Prop :=
  (∀ depth, TooDeep (FlowGraph.lowerTo a view depth)) ∨ ∃ g f, Readies config a view.node g f ∧
    ∃ root ∈ a.roots g f, ∀ depth s, s.Based a f →
      TooDeep (TypingM.exprWithin a f root.1 depth root.2 s)

section
variable {config : Config} {a : Arena} {ids : IdSupply .node} {fn : NodeId} {view : FunctionView}
  {g : FlowGraph} {f : SsaForm}
  (ha : a.Grown ids) (hbasic : a.Basic) (hview : a.function fn = .ok view)
  (hcount : ∀ whole, FlowGraph.lower a view = .ok whole → whole.blocks.length ≤ Ident.invalidRaw)
include ha hbasic hview

theorem ofFunction_tooDeep_iff :
    TooDeep (FlowGraph.ofFunction a fn) ↔ a.Descends view.body := by
  rw [← lower_tooDeep_iff ha.formed.1 hbasic hview]
  have hsteps : FlowGraph.ofFunction a fn = (FlowGraph.lower a view >>= fun g =>
      g.prune.2.validate >>= fun _ => g.prune.2.checkConstructs >>= fun _ => .ok g.prune.2) := by
    rw [FlowGraph.ofFunction, hview]
    rfl
  rw [hsteps, tooDeep_bind]
  refine or_iff_left (fun hrest => ?_)
  obtain ⟨whole, -, hrest⟩ := hrest
  exact not_tooDeep_bind whole.prune.2.not_tooDeep_validate (fun _ _ =>
    not_tooDeep_bind whole.prune.2.not_tooDeep_checkConstructs (fun _ _ => not_tooDeep_ok _)) hrest

include hcount

theorem not_tooDeep_ofGraph (hg : FlowGraph.ofFunction a fn = .ok g) :
    ¬TooDeep (SsaForm.ofGraph a g fn) := by
  obtain ⟨view', whole, hview', hwhole, -⟩ := FlowGraph.ofFunction_ok hg
  obtain rfl := Except.ok.inj (hview.symm.trans hview')
  obtain ⟨f, g', hunchecked⟩ := ofFunction_unchecked ha hbasic hview hwhole (hcount whole hwhole) hg
  exact f.not_tooDeep_ofGraph hunchecked

/-- A form that is typed has all that its types are made from. -/
theorem Readies.covered (h : Readies config a fn g f) : f.Typeable a fn ∧
    (∀ b ∈ g.blocks, b.From a (TransGen a.Leads fn)) ∧
    ∀ b ∈ g.blocks, ∀ root ∈ b.slots.filterMap a.slotRoot? ++ (a.endRoot? b.terminator).toList,
      f.Covers a fn b.id root := by
  obtain ⟨g₀, f₀, hg, hform, rfl⟩ := h
  obtain ⟨view', whole, hview', hwhole, -⟩ := FlowGraph.ofFunction_ok hg
  obtain rfl := Except.ok.inj (hview.symm.trans hview')
  have hfrom := FlowGraph.ofFunction_from hview hwhole (hcount whole hwhole) hg
  obtain ⟨htypeable, hroots⟩ := SsaForm.bind_promote_typeable ha.formed.1 hbasic hview
    (FlowGraph.ofFunction_finished hview hwhole (hcount whole hwhole) hg) hfrom hform
  obtain ⟨t, rfl⟩ := SsaForm.graph_ofGraph hform
  exact ⟨htypeable, hfrom, hroots⟩

/-- Typing a form goes too deep if it evaluates an expression that is nested in itself. -/
theorem Readies.tooDeep_iff (h : Readies config a fn g f) :
    TooDeep (FunctionTypes.ofForm a g f) ↔ ∃ root ∈ a.roots g f, Endless a.PartOf root.2 := by
  obtain ⟨htypeable, hfrom, hroots⟩ := h.covered ha hbasic hview hcount
  have hnode : f.node = fn := by
    obtain ⟨g₀, f₀, -, hform, rfl⟩ := h
    exact (SsaForm.settled_bind_promote hview hform).node.trans (Arena.function_node hview)
  rcases FunctionTypes.ofForm_ends ha.formed.1 hbasic htypeable (hnode ▸ hview) hfrom hroots with
    ⟨hending, t, ht⟩ | ⟨hendless, hdeep⟩
  · rw [ht]
    exact iff_of_false (not_tooDeep_ok t) hending
  · exact iff_of_true hdeep hendless

/-- An expression is nested in itself exactly if no depth is enough to type it. -/
theorem Readies.unending_iff (h : Readies config a fn g f) {root : BlockId × NodeId}
    (hroot : root ∈ a.roots g f) : Endless a.PartOf root.2 ↔
      ∀ depth s, s.Based a f → TooDeep (TypingM.exprWithin a f root.1 depth root.2 s) := by
  obtain ⟨htypeable, hfrom, hroots⟩ := h.covered ha hbasic hview hcount
  have hcovers := htypeable.covers hroots hroot
  constructor
  · intro hendless depth s hs
    rcases TypingM.exprWithin_attempts htypeable ha.formed.1 hbasic depth hcovers s hs with
      ⟨hending, -⟩ | ⟨-, hdeep⟩
    · exact absurd hendless hending
    · exact hdeep
  · intro hdeep
    rcases TypingM.expr_ends htypeable ha.formed.1 hbasic hcovers _ (.start a f) with
      ⟨-, x, s, hrun, -⟩ | ⟨hendless, -⟩
    · have hdeep : TooDeep (TypingM.expr a f root.1 root.2 (Typing.start f)) :=
        hdeep a.nodes.size _ (.start a f)
      rw [hrun] at hdeep
      exact absurd hdeep (not_tooDeep_ok _)
    · exact hendless

/-- What becomes of a function by itself goes too deep exactly if something is nested in itself. -/
theorem lower_tooDeep_iff (lints : List String) :
    TooDeep (lower config a view lints) ↔ Nested config a view := by
  have hnode := Arena.function_node hview
  rw [lower, hnode, tooDeep_bind, ofFunction_tooDeep_iff ha hbasic hview, Nested, hnode]
  refine or_congr_right ?_
  constructor
  · intro htyping
    obtain ⟨g₀, hg, hrest⟩ := htyping
    rcases tooDeep_bind.mp hrest with hform | ⟨⟨f₀, g⟩, hform, hrest⟩
    · exact absurd hform (not_tooDeep_ofGraph ha hbasic hview hcount hg)
    have hreadies : Readies config a fn g _ := ⟨g₀, f₀, hg, hform, rfl⟩
    refine ⟨g, _, hreadies, (hreadies.tooDeep_iff ha hbasic hview hcount).mp ?_⟩
    rcases tooDeep_bind.mp hrest with htypes | ⟨t, -, hdone⟩
    · exact htypes
    · exact absurd hdone (not_tooDeep_ok _)
  · intro hnested
    obtain ⟨g, f, hreadies, hendless⟩ := hnested
    have hdeep := (hreadies.tooDeep_iff ha hbasic hview hcount).mpr hendless
    obtain ⟨g₀, f₀, hg, hform, rfl⟩ := hreadies
    exact ⟨g₀, hg, tooDeep_bind.mpr (.inr ⟨_, hform, tooDeep_bind.mpr (.inl hdeep)⟩)⟩

/-- Something is nested in itself exactly if no depth is enough. -/
theorem nested_iff_unending : Nested config a view ↔ Unending config a view := by
  have hview' : a.function view.node = .ok view := (Arena.function_node hview).symm ▸ hview
  refine or_congr ⟨lowerTo_tooDeep ha.formed.1 hbasic, fun hdeep => ?_⟩ ?_
  · rw [← TypedSsa.lower_tooDeep_iff ha.formed.1 hbasic hview]
    exact tooDeep_bind.mpr (.inl (hdeep a.nodes.size))
  · refine exists_congr fun g => exists_congr fun f => and_congr_right fun hreadies => ?_
    refine exists_congr fun root => and_congr_right fun hroot => ?_
    exact hreadies.unending_iff ha hbasic hview' hcount hroot

end

end FunctionUnit

/-! Compilations. -/

namespace Validator

theorem not_tooDeep_refuse {reason : String} (h : reason ≠ Reason.nestedInItself) :
    ¬TooDeep (refuse reason) := by
  intro ⟨e, he, hdeep⟩
  obtain rfl := Except.error.inj he
  exact h hdeep

theorem not_tooDeep_check (view : FunctionView) (v : Validator) : ¬TooDeep (v.check view) := by
  cases v with
  | argumentCount =>
    rw [check]
    split
    · split_ifs
      · exact not_tooDeep_ok _
      · refine not_tooDeep_refuse ?_
        rw [Reason.signatureCount, String.append_assoc, String.append_assoc]
        exact ne_nestedInItself (by decide) _
    · exact not_tooDeep_ok _
  | missingSignature =>
    rw [check]
    split_ifs
    · exact not_tooDeep_ok _
    · exact not_tooDeep_ok _
  | signatureType =>
    rw [check]
    split
    · split
      · rename_i signature _ reason hmismatch
        obtain ⟨⟨⟨p, ty⟩, i⟩, -, hp⟩ := List.exists_of_findSome?_eq_some hmismatch
        refine not_tooDeep_refuse ?_
        dsimp only at hp
        split at hp
        · split_ifs at hp
          obtain rfl := Option.some.inj hp
          unfold Reason.signatureType
          iterate 9 rw [String.append_assoc]
          exact ne_nestedInItself (by decide) _
        · cases hp
      · exact not_tooDeep_ok _
    · exact not_tooDeep_ok _

theorem not_tooDeep_run (validators : List Validator) (view : FunctionView) :
    ¬TooDeep (run validators view) :=
  not_tooDeep_map (not_tooDeep_mapM (fun v _ => v.not_tooDeep_check view)) _

end Validator

namespace Compiler

/-- A function gets past the validators and has something in it that is nested in itself. -/
def Nested (c : Compiler) (a : Arena) (view : FunctionView) : Prop :=
  (∃ lints, Validator.run c.validators view = .ok lints) ∧ FunctionUnit.Nested c.config a view

/-- A function gets past the validators, and no depth is enough for all that is nested in it. -/
def Unending (c : Compiler) (a : Arena) (view : FunctionView) : Prop :=
  (∃ lints, Validator.run c.validators view = .ok lints) ∧ FunctionUnit.Unending c.config a view

theorem finished_ends {p : ProgramTypes} {r : Resolution} {findings : List Finding}
    {u : FunctionUnit} {t : FunctionTypes} (ht : p.function? u.name = some t) :
    (finished p r findings u).ir.isSome = true ∨ (finished p r findings u).hasErrors = true := by
  unfold finished
  rw [ht]
  dsimp only
  split
  · exact .inl rfl
  · exact .inr (by simpa [FunctionReport.hasErrors] using FunctionReport.errors_addError _ _)

section
variable (c : Compiler) {a : Arena} {ids : IdSupply .node} {fn : NodeId} {view : FunctionView}
  (memo : Memo) (hview : a.function fn = .ok view)
include hview

omit memo in
theorem build_error {r : FunctionReport}
    (h : FunctionUnit.build c.config c.validators a fn = .error r) :
    ∃ e lints, r = { FunctionReport.failed view.name fn e with lints } ∧
      (Validator.run c.validators view = .error e ∨
        Validator.run c.validators view = .ok lints ∧
          FunctionUnit.lower c.config a view lints = .error e) := by
  simp only [FunctionUnit.build, hview] at h
  cases hlints : Validator.run c.validators view with
  | error e =>
    rw [hlints] at h
    exact ⟨e, [], (Except.error.inj h).symm, .inl rfl⟩
  | ok lints =>
    rw [hlints] at h
    cases hlower : FunctionUnit.lower c.config a view lints with
    | error e =>
      simp only [hlower] at h
      exact ⟨e, lints, (Except.error.inj h).symm, .inr ⟨rfl, hlower⟩⟩
    | ok u =>
      simp only [hlower] at h
      cases h

/-- The compilation of one function reports on it, and has its types or an error. -/
theorem compile_reports : ∃ r, (c.compile a [fn] memo).1.functions = [(view.name, r)] ∧
    r.node = fn ∧ (r.ir.isSome = true ∨ r.hasErrors = true) := by
  obtain ⟨calls, hcompile⟩ := c.compile_linked a [fn] memo
  have hcollected : c.collected a [fn] =
      Collected.add {} (FunctionUnit.build c.config c.validators a fn) := rfl
  rw [hcollected] at hcompile
  cases hbuild : FunctionUnit.build c.config c.validators a fn with
  | error r =>
    rw [hbuild] at hcompile
    obtain ⟨hnode, herrors, -⟩ := FunctionUnit.build_failed hbuild
    have hname : r.name = view.name := by
      obtain ⟨e, lints, rfl, -⟩ := c.build_error hview hbuild
      rfl
    exact ⟨r, hcompile.trans (by rw [← hname]; rfl), hnode, .inr herrors⟩
  | ok u =>
    rw [hbuild] at hcompile
    obtain ⟨view', hbuilt⟩ := FunctionUnit.build_builtFrom hbuild
    obtain rfl := Except.ok.inj (hview.symm.trans hbuilt.function)
    have hfunction : (ProgramTypes.link [u.types]).function? u.name =
        some (ProgramTypes.shifted 0 u.types) := by
      have hname : (ProgramTypes.shifted 0 u.types).function = u.name := hbuilt.types_function
      exact List.find?_cons_of_pos (beq_iff_eq.mpr hname)
    refine ⟨_, hcompile.trans (by rw [← hbuilt.name]; rfl), ?_, finished_ends hfunction⟩
    rw [finished_node, FunctionUnit.build_node hbuild]

variable (ha : a.Grown ids) (hbasic : a.Basic)
  (hcount : ∀ whole, FlowGraph.lower a view = .ok whole → whole.blocks.length ≤ Ident.invalidRaw)
include ha hbasic hcount

theorem build_deep_iff : (∃ r, FunctionUnit.build c.config c.validators a fn = .error r ∧
    ∃ e ∈ r.errors, Halt.deep.Causes e) ↔ c.Nested a view := by
  constructor
  · intro ⟨r, hbuild, e, he, hdeep⟩
    obtain ⟨e', lints, rfl, hcause⟩ := c.build_error hview hbuild
    obtain rfl := List.mem_singleton.mp he
    rcases hcause with hrefused | ⟨hlints, hlower⟩
    · exact absurd ⟨e, hrefused, hdeep⟩ (Validator.not_tooDeep_run c.validators view)
    · refine ⟨⟨lints, hlints⟩, ?_⟩
      rw [← FunctionUnit.lower_tooDeep_iff ha hbasic hview hcount lints]
      exact ⟨e, hlower, hdeep⟩
  · intro ⟨⟨lints, hlints⟩, hnested⟩
    rw [← FunctionUnit.lower_tooDeep_iff ha hbasic hview hcount lints] at hnested
    obtain ⟨e, hlower, hdeep⟩ := hnested
    refine ⟨{ FunctionReport.failed view.name fn e with lints }, ?_, e, ?_, hdeep⟩
    · simp only [FunctionUnit.build, hview, hlints, hlower]
      rfl
    · exact List.mem_singleton_self e

/-- The compilation of a function comes to an end, with its types or an error, unless something in
the function is nested in itself; and that is what makes it fail for how deep it is nested. -/
theorem compile_ends_iff :
    ((¬c.Unending a view ∧ ∃ r, (c.compile a [fn] memo).1.functions = [(view.name, r)] ∧
        r.node = fn ∧ (r.ir.isSome = true ∨ r.hasErrors = true)) ↔ ¬c.Nested a view) ∧
      ((∃ r, FunctionUnit.build c.config c.validators a fn = .error r ∧
        ∃ e ∈ r.errors, Halt.deep.Causes e) ↔ c.Nested a view) := by
  refine ⟨?_, c.build_deep_iff hview ha hbasic hcount⟩
  have hsame : c.Nested a view ↔ c.Unending a view :=
    and_congr_right fun _ => FunctionUnit.nested_iff_unending ha hbasic hview hcount
  rw [hsame]
  exact and_iff_left (c.compile_reports memo hview)

end

end Compiler

/-! A function whose one statement stands in its own body. -/

def circlingArena : Arena where
  registry := .builtin
  nodes := #[
    ⟨⟨0⟩, ⟨13⟩, .identity, [.str "x"], []⟩,
    ⟨⟨1⟩, ⟨4⟩, .identity, [.node ⟨0⟩, .list [.node ⟨1⟩], .list []], []⟩,
    ⟨⟨2⟩, ⟨0⟩, .identity, [.str "f", .list [], .list [.node ⟨1⟩]], []⟩]

def circlingView : FunctionView := ⟨⟨2⟩, "f", [], [⟨1⟩], none, none⟩

theorem grown_circlingArena : circlingArena.Grown ⟨3, by decide⟩ := by
  have h₀ : Arena.Grown { registry := .builtin } {} := .new Registry.grown_builtin
  have h₁ := h₀.create (show Arena.create _ {} Kind.name [.str "x"] =
    (.ok (⟨0⟩, _), ⟨1, by decide⟩) from rfl)
  have h₂ := h₁.create (show Arena.create _ ⟨1, _⟩ Kind.ifElse [.node ⟨0⟩, .list [], .list []] =
    (.ok (⟨1⟩, _), ⟨2, by decide⟩) from rfl)
  have h₃ := h₂.create (show Arena.create _ ⟨2, _⟩ Kind.function
    [.str "f", .list [], .list [.node ⟨1⟩]] = (.ok (⟨2⟩, _), ⟨3, by decide⟩) from rfl)
  exact h₃.setField (show Arena.setField _ ⟨1⟩ "body" (.list [.node ⟨1⟩]) =
    .ok circlingArena from rfl)

theorem descends_circlingArena : circlingArena.Descends circlingView.body := by
  have henters : circlingArena.Enters (false, ⟨1⟩) (false, ⟨1⟩) :=
    ⟨.ifElse ⟨0⟩ [⟨1⟩] [], rfl, rfl, .here⟩
  exact ⟨⟨1⟩, .here, (false, ⟨1⟩), .refl, .single henters⟩

theorem compile_ends_circlingArena :
    (circlingArena.Grown ⟨3, by decide⟩ ∧ circlingArena.Basic ∧
      circlingArena.function ⟨2⟩ = .ok circlingView ∧ ∀ whole,
        FlowGraph.lower circlingArena circlingView = .ok whole →
        whole.blocks.length ≤ Ident.invalidRaw) ∧
    (¬(¬loopCompiler.Unending circlingArena circlingView ∧
      ∃ r, (loopCompiler.compile circlingArena [⟨2⟩] {}).1.functions = [("f", r)] ∧ r.node = ⟨2⟩ ∧
        (r.ir.isSome = true ∨ r.hasErrors = true))) ∧
    ∃ r, FunctionUnit.build loopCompiler.config loopCompiler.validators circlingArena ⟨2⟩ =
      .error r ∧ ∃ e ∈ r.errors, Halt.deep.Causes e := by
  have hbasic : circlingArena.Basic := List.Subset.refl _
  have hview : circlingArena.function ⟨2⟩ = .ok circlingView := rfl
  have hcount : ∀ whole, FlowGraph.lower circlingArena circlingView = .ok whole →
      whole.blocks.length ≤ Ident.invalidRaw := by
    intro whole hwhole
    obtain ⟨e, he, -⟩ := (lower_tooDeep_iff grown_circlingArena.formed.1 hbasic hview).mpr
      descends_circlingArena
    cases hwhole.symm.trans he
  have hnested : loopCompiler.Nested circlingArena circlingView :=
    ⟨⟨[], rfl⟩, .inl descends_circlingArena⟩
  obtain ⟨hends, hdeep⟩ :=
    Compiler.compile_ends_iff loopCompiler {} hview grown_circlingArena hbasic hcount
  exact ⟨⟨grown_circlingArena, hbasic, hview, hcount⟩, fun h => hends.mp h hnested,
    hdeep.mpr hnested⟩

end TypedSsa

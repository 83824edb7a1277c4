import TypedSsa.Proofs.Enriching
import TypedSsa.Proofs.Routes

/-!
What has run on a path when a phi takes its value. Main statement: `SsaForm.promote_ready_iff`. The
operand that a path selects has been defined on it, but for one case: a promotion stands at the end
of its block, and an exception leaves the block from its start.
-/

namespace TypedSsa
open FlowGraph

/-- Statements start where they are guarded, if their end is guarded. -/
theorem Laid.all_guards {a : Arena} {g : FlowGraph} {w : Around} {ids : List NodeId} {p : Point}
    {e : Option Point} (h : Laid a g w (.all ids) p e)
    (hend : ∀ q, e = some q → Guards g w q.1) : Guards g w p.1 := by
  cases h with
  | nothing => exact hend p rfl
  | andThen _ hone _ => exact hone.guards
  | cutShort _ hone => exact hone.guards

/-- Nothing is raised at the entry of a function. -/
theorem FlowGraph.lower_unraised {a : Arena} {view : FunctionView} {g : FlowGraph}
    (run : FlowGraph.lower a view = .ok g) (hcount : g.blocks.length ≤ Ident.invalidRaw)
    (h : BlockId) : ⟨h, .exception⟩ ∉ g.successors g.entry := by
  obtain ⟨-, e, hlaid, hend⟩ := lower_laid run hcount
  obtain ⟨blk, hblk, hraises⟩ := hlaid.all_guards fun q hq => (hend q hq).2
  intro he
  obtain ⟨blk', hblk', he⟩ := mem_successors.mp he
  obtain rfl := Option.some.inj (hblk.symm.trans hblk')
  exact (hraises h).mp he

theorem FlowGraph.ofFunction_unraised {a : Arena} {fn : NodeId} {view : FunctionView}
    {whole g : FlowGraph} (hview : a.function fn = .ok view)
    (hwhole : FlowGraph.lower a view = .ok whole)
    (hcount : whole.blocks.length ≤ Ident.invalidRaw) (hg : FlowGraph.ofFunction a fn = .ok g)
    (h : BlockId) : ⟨h, .exception⟩ ∉ g.successors g.entry := by
  obtain ⟨view', whole', hview', hwhole', rfl⟩ := ofFunction_ok hg
  obtain rfl := Except.ok.inj (hview.symm.trans hview')
  obtain rfl := Except.ok.inj (hwhole.symm.trans hwhole')
  intro he
  rw [entry_prune] at he
  exact lower_unraised hwhole hcount h
    ((lower_laid hwhole hcount).1.linked.mem_successors_prune he)

/-! Paths. -/

namespace FlowGraph.Route

variable {g : FlowGraph} {b c : BlockId} {passed rest : List (BlockId × Bool)}

theorem of_passed (h : g.Route passed b) :
    ∀ before c raised, passed = before ++ (c, raised) :: rest → g.Route rest c := by
  induction h with
  | entry =>
    intro before c raised hsplit
    simp at hsplit
  | @step passed b e hroute he ih =>
    intro before c raised hsplit
    cases before with
    | nil =>
      obtain ⟨hfirst, rfl⟩ := List.cons.inj hsplit
      cases hfirst
      exact hroute
    | cons p before => exact ih before c raised (List.cons.inj hsplit).2

theorem of_reachable (h : g.Reachable b) : ∃ passed, g.Route passed b := by
  induction h with
  | refl => exact ⟨[], .entry⟩
  | tail _ hc ih =>
    obtain ⟨passed, hroute⟩ := ih
    obtain ⟨blk, hblk, hc⟩ := mem_targets.mp hc
    obtain ⟨e, he, rfl⟩ := Block.mem_targets.mp hc
    exact ⟨_, hroute.step (mem_successors.mpr ⟨blk, hblk, he⟩)⟩

/-- A shortest path comes to its block only at its end. -/
theorem exists_first (h : g.Reachable b) : ∃ passed, g.Route passed b ∧ b ∉ passed.map (·.1) := by
  have hsome : ∃ n passed, g.Route passed b ∧ passed.length = n := by
    obtain ⟨passed, hroute⟩ := of_reachable h
    exact ⟨_, passed, hroute, rfl⟩
  classical
  obtain ⟨passed, hroute, hlength⟩ := Nat.find_spec hsome
  refine ⟨passed, hroute, fun hmem => ?_⟩
  obtain ⟨⟨c, raised⟩, hc, rfl⟩ := List.mem_map.mp hmem
  obtain ⟨before, rest, rfl⟩ := List.append_of_mem hc
  refine Nat.find_min hsome (m := rest.length) ?_ ⟨rest, hroute.of_passed before c raised rfl, rfl⟩
  rw [← hlength, List.length_append, List.length_cons]
  omega

end FlowGraph.Route

namespace SsaForm

/-- The events that have run on a path. In a block that was left by an exception only the phis
have. -/
def ran (f : SsaForm) (passed : List (BlockId × Bool)) : List Event :=
  passed.reverse.flatMap (fun p =>
    if p.2 then (f.eventsIn p.1).filter f.isPhiEvent else f.eventsIn p.1)

section
variable {f : SsaForm} {passed : List (BlockId × Bool)} {e : Event}

theorem mem_ran : e ∈ f.ran passed ↔
    ∃ b raised, (b, raised) ∈ passed ∧ e ∈ f.eventsIn b ∧
      (raised = true → f.isPhiEvent e = true) := by
  simp only [ran, List.mem_flatMap, List.mem_reverse, Prod.exists]
  constructor
  · rintro ⟨b, raised, hmem, he⟩
    cases raised with
    | true => exact ⟨b, true, hmem, (List.mem_filter.mp he).1, fun _ => (List.mem_filter.mp he).2⟩
    | false => exact ⟨b, false, hmem, he, nofun⟩
  · rintro ⟨b, raised, hmem, he, hphi⟩
    refine ⟨b, raised, hmem, ?_⟩
    cases raised with
    | true => exact List.mem_filter.mpr ⟨he, hphi rfl⟩
    | false => exact he

theorem ran_cons {p : BlockId × Bool} (h : e ∈ f.ran passed) : e ∈ f.ran (p :: passed) := by
  obtain ⟨b, raised, hmem, he⟩ := mem_ran.mp h
  exact mem_ran.mpr ⟨b, raised, List.mem_cons_of_mem _ hmem, he⟩

end

/-- A value from before a function runs is a parameter or undefined. -/
theorem initial?_isInitial {f : SsaForm} {ps : List (ParamView × Nat)} {v : String} {i : DefId}
    (hf : Numbered f) (hparams : List.Forall₂ (IsParam f) ps f.params)
    (hi : f.initial? v = some i) :
    ∃ d, f.definition? i = some d ∧ d.kind.isInitial = true ∧ d.name = v := by
  rw [initial?, Option.or_eq_some_iff] at hi
  rcases hi with hi | ⟨-, hi⟩
  · obtain ⟨p, -, d, hd, -, hkind⟩ := exists_left_of_forall₂ hparams i
      (List.mem_reverse.mp (List.mem_of_find?_eq_some hi))
    obtain ⟨d', hd', hname⟩ := defines_iff.mp (List.find?_some hi)
    obtain rfl := Option.some.inj (hd.symm.trans hd')
    exact ⟨d, hd, by rw [hkind]; rfl, hname⟩
  · obtain ⟨d, hd, rfl⟩ := Option.map_eq_some_iff.mp hi
    have hsame := Array.find?_some hd
    simp only [Bool.and_eq_true, beq_iff_eq] at hsame
    exact ⟨d, hf.mem_defs.mp (Array.mem_of_find?_eq_some hd), by rw [hsame.1]; rfl, hsame.2⟩

/-- The value at the start of a block is from before the function ran, or has been defined as soon
as the block is left, however that is. -/
def Ready (g : FlowGraph) (f : SsaForm) (env : Env) (passed : List (BlockId × Bool)) (c : BlockId)
    (v : String) : Prop :=
  ∃ i, env.get? v = some i ∧ (.define i ∈ f.ran ((c, true) :: passed) ∨
    c = g.entry ∧ .define i ∈ f.eventsIn c)

namespace Built

variable {a : Arena} {g : FlowGraph} {view : FunctionView} {s : Setting} {f₁ f₀ : SsaForm}
  {r : Renaming} {b c : BlockId} {v : String} {passed : List (BlockId × Bool)}
variable (h : Built a g view s f₁ f₀ r)
  (unraised : ∀ handler, ⟨handler, .exception⟩ ∉ g.successors g.entry)
include h unraised

/-- What an edge hands on has been defined. -/
theorem passed_ran (hroute : g.Route passed b)
    (ready : ∀ v, g.Live s.effects v b →
      Ready g r.form (s.before r.envAfter b) passed b v)
    {e : Edge} (he : e ∈ g.successors b) (hlive : g.Live s.effects v e.target) :
    ∃ i, (s.passed r.envAfter b e.target).get? v = some i ∧
      .define i ∈ r.form.ran ((b, e.kind == .exception) :: passed) := by
  have hreach := hroute.reachable
  have hran := h.ownEvents_ran hreach
  by_cases hraised : e.kind = .exception
  · have hlive' := h.effected.live_of_edge (target_of_successor he) hlive (.inl (hraised ▸ he))
    obtain ⟨i, hi, hdone⟩ := ready v hlive'
    have hentry : b ≠ g.entry := by
      rintro rfl
      exact unraised e.target (hraised ▸ he)
    rw [Setting.passed, if_pos ((h.raisesInto_iff he).mpr hraised), hraised]
    exact ⟨i, hi, hdone.resolve_right fun hfirst => hentry hfirst.1⟩
  · have hall : ∀ e ∈ r.form.eventsIn b, e ∈ r.form.ran ((b, false) :: passed) :=
      fun e he => mem_ran.mpr ⟨b, false, by simp, he, fun h => absurd h Bool.false_ne_true⟩
    rw [Setting.passed, if_neg (fun hr => hraised ((h.raisesInto_iff he).mp hr)),
      beq_false_of_ne hraised]
    by_cases hwrites : writes (s.effects.of b) v = false
    · have hlive' := h.effected.live_of_edge (target_of_successor he) hlive (.inr hwrites)
      obtain ⟨i, hi, hdone⟩ := ready v hlive'
      refine ⟨i, (h.get?_after hreach hwrites).trans hi, ?_⟩
      rcases hdone with hdone | ⟨-, hfirst⟩
      · obtain ⟨q, raised, hmem, hevent, hphi⟩ := mem_ran.mp hdone
        rcases List.mem_cons.mp hmem with heq | hmem
        · cases heq
          exact hall _ hevent
        · exact ran_cons (mem_ran.mpr ⟨q, raised, hmem, hevent, hphi⟩)
      · exact hall _ hfirst
    · obtain ⟨i, hi⟩ := Option.ne_none_iff_exists'.mp
        (fun hnone => hwrites (hran.assigned?_none.mp hnone))
      refine ⟨i, by rw [hran.get?, hi, Option.some_or], hall _ ?_⟩
      obtain ⟨d, hd, hwrite⟩ := assigned?_write hran.own hi
      obtain ⟨e, hevent, hassigns⟩ := List.exists_of_findSome?_eq_some hi
      cases e with
      | use u => cases hassigns
      | define j =>
        rw [assigns?] at hassigns
        split at hassigns
        · cases hassigns
          exact (List.mem_filter.mp (List.mem_reverse.mp hevent)).1
        · cases hassigns

variable (hrecorded : Recorded g.entry r.form)
include hrecorded

theorem ready (hroute : g.Route passed c) : ∀ v, g.Live s.effects v c →
    Ready g r.form (s.before r.envAfter c) passed c v := by
  induction hroute with
  | entry =>
    intro v hlive
    obtain ⟨i, hi, hinitial⟩ := h.initial v hlive
    have hphi : ¬s.HasPhi v g.entry := fun hphi => (h.begun.of_hasPhi hphi).1 rfl
    have hkeeps := h.placed.keeps.trans h.progress.renames.keeps
    have hparams : List.Forall₂ (IsParam r.form) view.params.zipIdx r.form.params := by
      rw [hkeeps.params]
      exact h.started.params.imp fun _ _ hp => hp.keeps hkeeps
    obtain ⟨d, hd, hkind, -⟩ := initial?_isInitial hrecorded.numbered hparams
      ((h.initial?_eq v).trans hinitial)
    refine ⟨i, ?_, .inr ⟨rfl, ?_⟩⟩
    · rw [get?_before_of_not_hasPhi hphi, Setting.above,
        h.exact.immediateDominator?_none.mpr (.inl rfl)]
      exact hi
    · rw [← hrecorded.initial i d hd hkind]
      exact hrecorded.defined i d hd
  | @step passed b e hroute he ih =>
    intro v hlive
    have hreach := hroute.reachable
    by_cases hphi : s.HasPhi v e.target
    · obtain ⟨phi, hmem, rfl, hget⟩ := get?_before_of_hasPhi r.envAfter hphi
      obtain ⟨hmem, hblock⟩ := (mem_phis_getD h.phis).mp hmem
      obtain ⟨hd, hisPhi⟩ := h.placed.opening.numbered.mem_phis.mp hmem
      obtain ⟨d, hd', -, hblock', hisPhi', -⟩ := h.progress.renames.keeps.definition? _ phi hd
      refine ⟨phi.id, hget, .inl (mem_ran.mpr ⟨e.target, true, by simp, ?_, fun _ => ?_⟩)⟩
      · rw [← hblock, ← hblock']
        exact hrecorded.defined phi.id d hd'
      · simp [isPhiEvent, hd', hisPhi', hisPhi]
    · obtain ⟨i, hi, hdone⟩ := h.passed_ran unraised hroute ih he hlive
      obtain ⟨hafter, hsame⟩ := h.get?_without_phi hreach he hlive hphi
      rw [hafter] at hi
      exact ⟨i, hsame.trans hi, .inl (ran_cons hdone)⟩

/-- The operand that a path selects has been defined on it. -/
theorem operand_ran (hroute : g.Route passed b) {e : Edge} (he : e ∈ g.successors b) {phi : Def}
    (hphi : phi ∈ r.form.phisIn e.target) : ∃ i, r.form.operand? g.predecessors phi.id b = some i ∧
      .define i ∈ r.form.ran ((b, e.kind == .exception) :: passed) := by
  have htarget := target_of_successor he
  obtain ⟨hmem, hblock⟩ := List.mem_filter.mp hphi
  obtain ⟨hd, hisPhi⟩ := hrecorded.numbered.mem_phis.mp hmem
  obtain ⟨placed, hplaced, -, hname⟩ := h.placed_of_phi hd hisPhi
  obtain hblock : phi.block = e.target := beq_iff_eq.mp hblock
  rw [← hblock] at htarget
  have hlive := (h.begun.of_hasPhi ⟨placed, hplaced, hname⟩).2.2.1
  obtain ⟨w, hw, hoperand⟩ := h.operand?_of_target hd hisPhi htarget
  obtain ⟨i, hi, hdone⟩ := h.passed_ran unraised hroute
    (h.ready unraised hrecorded hroute) he (hblock ▸ hlive)
  rw [hblock] at hw
  obtain rfl := Option.some.inj (hw.symm.trans hi)
  exact ⟨w, hoperand, hdone⟩

end Built

section
variable {predecessors : BlockId → List BlockId} {f f' : SsaForm} {passed : List (BlockId × Bool)}

/-- What has run in a form has run in what promotion makes of it. -/
theorem Enriches.ran (h : Enriches predecessors f f') {i : DefId}
    (hi : .define i ∈ f.ran passed) : .define i ∈ f'.ran passed := by
  obtain ⟨b, raised, hmem, hevent, hphi⟩ := mem_ran.mp hi
  obtain ⟨more, hevents, -⟩ := h.eventsIn b
  refine mem_ran.mpr ⟨b, raised, hmem, ?_, fun hraised => ?_⟩
  · rw [hevents]
    exact List.mem_append_left _ hevent
  · obtain ⟨d, hd, hisPhi⟩ := Option.any_eq_true _ _ |>.mp (hphi hraised)
    obtain ⟨d', hd', -, -, hphi', -⟩ := h.definition? i d hd
    simp [isPhiEvent, hd', hphi', hisPhi]

/-- A promotion has run on a path that has left its block from its end. -/
theorem promotion_ran {entry : BlockId} (h : Recorded entry f) {i : DefId} {d : Def}
    (hd : f.definition? i = some d) (hkind : d.kind.isPromotion = true) :
    .define i ∈ f.ran passed ↔ (d.block, false) ∈ passed := by
  rw [mem_ran]
  constructor
  · rintro ⟨b, raised, hmem, hevent, hphi⟩
    obtain ⟨d', hd', rfl⟩ := h.defines b i hevent
    obtain rfl := Option.some.inj (hd.symm.trans hd')
    cases raised with
    | false => exact hmem
    | true =>
      have hphi := hphi rfl
      rw [isPhiEvent, hd, Option.any_some, Def.isPhi, DefKind.not_phi_of_isPromotion hkind] at hphi
      cases hphi
  · intro hmem
    exact ⟨d.block, false, hmem, h.defined i d hd, fun h => absurd h Bool.false_ne_true⟩

/-- A phi was one before promotion. -/
theorem Enriches.phi_back (h : Enriches predecessors f f') (hf : Numbered f) {b : BlockId}
    {phi : Def} (hphi : phi ∈ f'.phisIn b) : ∃ d ∈ f.phisIn b, d.id = phi.id := by
  obtain ⟨hmem, hblock⟩ := List.mem_filter.mp hphi
  obtain ⟨hphi', hisPhi⟩ := h.numbered.mem_phis.mp hmem
  obtain ⟨d, hd⟩ := (h.added phi.id phi hphi').resolve_right fun hkind => by
    rw [Def.isPhi, DefKind.not_phi_of_isPromotion hkind] at hisPhi
    cases hisPhi
  obtain ⟨d', hd', -, hblock', hsame, -⟩ := h.definition? _ d hd
  obtain rfl := Option.some.inj (hphi'.symm.trans hd')
  have hid := hf.definition?_id hd
  refine ⟨d, List.mem_filter.mpr ⟨hf.mem_phis.mpr ⟨hid ▸ hd, hsame.symm.trans hisPhi⟩, ?_⟩, hid⟩
  rw [← hblock']
  exact hblock

/-- The operand that a path selects has been defined on it, unless it is a promotion whose block the
path has left by exceptions only. -/
theorem Built.operand_ran_iff {a : Arena} {g : FlowGraph} {view : FunctionView} {s : Setting}
    {f₁ f₀ : SsaForm} {r : Renaming} (h : Built a g view s f₁ f₀ r)
    (hunraised : ∀ handler, ⟨handler, .exception⟩ ∉ g.successors g.entry)
    (hrecorded : Recorded g.entry r.form) (hrecorded' : Recorded g.entry f')
    (henriches : Enriches g.predecessors r.form f')
    (hunpromoted : ∀ i d, r.form.definition? i = some d → d.kind.isPromotion = false)
    {b : BlockId} (hroute : g.Route passed b) {e : Edge} (he : e ∈ g.successors b) {phi : Def}
    (hphi : phi ∈ f'.phisIn e.target) :
    ∃ i d, f'.operand? g.predecessors phi.id b = some i ∧ f'.definition? i = some d ∧
      (.define i ∈ f'.ran ((b, e.kind == .exception) :: passed) ↔
        (d.kind.isPromotion = true → (b, false) ∈ (b, e.kind == .exception) :: passed)) := by
  obtain ⟨d, hold, hid⟩ := henriches.phi_back hrecorded.numbered hphi
  obtain ⟨i, hi, hran⟩ := h.operand_ran hunraised hrecorded hroute he hold
  rw [hid] at hi
  obtain ⟨i', hi', hsame⟩ := henriches.operand? phi.id b i hi
  rcases hsame with rfl | ⟨e', he', hkind, hblock⟩
  · -- The operand is the one from before promotion, and what had run then still has.
    have hran' := henriches.ran hran
    obtain ⟨q, raised, -, hevent, -⟩ := mem_ran.mp hran
    obtain ⟨d, hd, -⟩ := hrecorded.defines q i' hevent
    obtain ⟨d', hd', -, -, hphi', hsame⟩ := henriches.definition? i' d hd
    refine ⟨i', d', hi', hd', fun _ hkind => ?_, fun _ => hran'⟩
    have hnot := hphi'.symm.trans (DefKind.not_phi_of_isPromotion hkind)
    rw [hsame hnot, hunpromoted i' d hd] at hkind
    cases hkind
  · refine ⟨i', e', hi', he', ?_⟩
    rw [promotion_ran hrecorded' he' hkind, hblock]
    simp [hkind]

end

/-- On every path each phi has an operand, and this has been defined on the path unless it is a
promotion whose block has been left by exceptions only. So all that phis take has been defined just
when no phi that exceptions lead to takes a promotion. -/
theorem promote_ready_iff {a : Arena} {fn : NodeId} {view : FunctionView} {whole g g' : FlowGraph}
    {f f' : SsaForm} {l : Lattice} {report : PromotionReport} (hview : a.function fn = .ok view)
    (hwhole : FlowGraph.lower a view = .ok whole)
    (hcount : whole.blocks.length ≤ Ident.invalidRaw) (hg : FlowGraph.ofFunction a fn = .ok g)
    (hf : ofGraph a g fn = .ok (f, g')) (hpromoted : f.promote l = (f', report)) :
    (∀ passed b e phi, g.Route passed b → e ∈ g.successors b → phi ∈ f'.phisIn e.target →
      ∃ i d, f'.operand? g.predecessors phi.id b = some i ∧ f'.definition? i = some d ∧
        (.define i ∈ f'.ran ((b, e.kind == .exception) :: passed) ↔
          (d.kind.isPromotion = true → (b, false) ∈ (b, e.kind == .exception) :: passed))) ∧
    ((∀ passed b e phi i, g.Route passed b → e ∈ g.successors b → phi ∈ f'.phisIn e.target →
        f'.operand? g.predecessors phi.id b = some i →
        .define i ∈ f'.ran ((b, e.kind == .exception) :: passed)) ↔
      ∀ b e phi i d, e ∈ g.successors b → e.kind = .exception → phi ∈ f'.phisIn e.target →
        f'.operand? g.predecessors phi.id b = some i → f'.definition? i = some d →
        d.kind.isPromotion = false) := by
  have hfinished := ofFunction_finished hview hwhole hcount hg
  have hunraised := ofFunction_unraised hview hwhole hcount hg
  obtain ⟨hstated, hfilled⟩ := ofGraph_stated hview hf
  have hrecorded := ofGraph_recorded hf
  have hsited := ofGraph_sited hview hf
  obtain ⟨view', s, f₁, f₀, r, hview', hbuilt, rfl⟩ := ofGraph_ok hfinished hf
  obtain rfl := Except.ok.inj (hview.symm.trans hview')
  have henriched := promote_enriches (l := l) (hstated.settled hfilled) hrecorded hsited
  rw [hpromoted] at henriched
  obtain ⟨hrecorded', hsited', henriches⟩ := henriched
  have hoperand : ∀ passed b e phi, g.Route passed b → e ∈ g.successors b →
      phi ∈ f'.phisIn e.target → ∃ i d, f'.operand? g.predecessors phi.id b = some i ∧
        f'.definition? i = some d ∧ (.define i ∈ f'.ran ((b, e.kind == .exception) :: passed) ↔
          (d.kind.isPromotion = true → (b, false) ∈ (b, e.kind == .exception) :: passed)) :=
    fun passed b e phi hroute he hphi => hbuilt.operand_ran_iff hunraised hrecorded
      hrecorded' henriches hstated.unpromoted hroute he hphi
  refine ⟨hoperand, fun hall b e phi i d he hraised hphi hi hd => ?_,
    fun hnone passed b e phi i hroute he hphi hi => ?_⟩
  · -- A path may come to `b` for the first time, and leave it by the exception at once.
    by_contra hkind
    have hreach := hfinished.reached b (hfinished.linked.contains_source
      (hfinished.linked.sources.mpr (target_of_successor he)))
    obtain ⟨passed, hroute, hfirst⟩ := Route.exists_first hreach
    obtain ⟨i', d', hi', hd', hiff⟩ := hoperand passed b e phi hroute he hphi
    obtain rfl := Option.some.inj (hi.symm.trans hi')
    obtain rfl := Option.some.inj (hd.symm.trans hd')
    have hmem := hiff.mp (hall passed b e phi i hroute he hphi hi) (by simpa using hkind)
    simp only [hraised, beq_self_eq_true, List.mem_cons, Prod.mk.injEq, reduceCtorEq, and_false,
      false_or] at hmem
    exact hfirst (List.mem_map.mpr ⟨_, hmem, rfl⟩)
  · obtain ⟨i', d, hi', hd, hiff⟩ := hoperand passed b e phi hroute he hphi
    obtain rfl := Option.some.inj (hi.symm.trans hi')
    refine hiff.mpr fun hkind => ?_
    by_cases hraised : e.kind = .exception
    · rw [hnone b e phi i d he hraised hphi hi hd] at hkind
      cases hkind
    · simp [beq_false_of_ne hraised]

end SsaForm

open SsaForm

/-- Both ways to the last block bring the phi there a value that has been defined. -/
theorem promote_ready_joinArena :
    joinArena.function ⟨8⟩ = .ok joinView ∧ FlowGraph.lower joinArena joinView = .ok joinGraph ∧
      joinGraph.blocks.length ≤ Ident.invalidRaw ∧
      FlowGraph.ofFunction joinArena ⟨8⟩ = .ok joinGraph ∧
      joinGraph.Route [(⟨0⟩, false)] ⟨2⟩ ∧ ⟨⟨1⟩, .normal⟩ ∈ joinGraph.successors ⟨2⟩ ∧
      ∃ f g' f' report, ofGraph joinArena joinGraph ⟨8⟩ = .ok (f, g') ∧
        f.promote .numeric = (f', report) ∧
        ∀ phi ∈ f'.phisIn ⟨1⟩, ∃ i, f'.operand? joinGraph.predecessors phi.id ⟨2⟩ = some i ∧
          .define i ∈ f'.ran [(⟨2⟩, false), (⟨0⟩, false)] := by
  have hcount : joinGraph.blocks.length ≤ Ident.invalidRaw := by decide
  obtain ⟨events, hf⟩ := ofGraph_joinArena
  have hroute : joinGraph.Route [(⟨0⟩, false)] ⟨2⟩ :=
    Route.entry.step (e := ⟨⟨2⟩, .onTrue⟩) (by decide)
  have hedge : ⟨⟨1⟩, .normal⟩ ∈ joinGraph.successors ⟨2⟩ := by decide
  have hready := promote_ready_iff (l := .numeric) rfl lower_joinArena hcount ofFunction_joinArena
    hf rfl
  refine ⟨rfl, lower_joinArena, hcount, ofFunction_joinArena, hroute, hedge, _, _, _, _, hf, rfl,
    fun phi hphi => ?_⟩
  obtain ⟨i, d, hi, -, hran⟩ := hready.1 _ _ _ phi hroute hedge hphi
  exact ⟨i, hi, hran.mpr fun _ => by simp⟩

end TypedSsa

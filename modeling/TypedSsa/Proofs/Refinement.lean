import TypedSsa.Proofs.Lowering

/-!
What is done on the paths of a function's graph is what its body does. Main statement:
`FlowGraph.ofFunction_traces`.
-/

namespace TypedSsa

/-- Statements after which a list does not go on. -/
def Statement.jumps : Statement → Bool
  | breakStmt | continueStmt | returnStmt _ | raise _ => true
  | _ => false

section
variable {a : Arena} {guarded : Bool} {id : NodeId} {s : Statement} {before after : List NodeId}
  {t : List Action} {o : Outcome}

theorem Runs.not_done_of_jumps (h : s.jumps = true) : ¬Runs a guarded (.one id s) t .done := by
  intro hruns
  cases s with
  | assign | expr | ifElse | whileLoop | forLoop | tryCatch => cases h
  | breakStmt | continueStmt | returnStmt | raise =>
    cases hruns with
    | simple hs => cases hs

/-- What comes after a jump in a list has no part in its executions. -/
theorem runs_append_of_jumps (hs : a.statement id = .ok s) (h : s.jumps = true) :
    Runs a guarded (.all (before ++ id :: after)) t o ↔
      Runs a guarded (.all (before ++ [id])) t o := by
  induction before generalizing t with
  | nil =>
    constructor
    · intro hruns
      cases hruns with
      | andThen hs' hone =>
        obtain rfl := Except.ok.inj (hs.symm.trans hs')
        exact absurd hone (Runs.not_done_of_jumps h)
      | cutShort hs' hone hne => exact .cutShort hs' hone hne
    · intro hruns
      cases hruns with
      | andThen hs' hone =>
        obtain rfl := Except.ok.inj (hs.symm.trans hs')
        exact absurd hone (Runs.not_done_of_jumps h)
      | cutShort hs' hone hne => exact .cutShort hs' hone hne
  | cons x xs ih =>
    constructor
    · intro hruns
      cases hruns with
      | andThen hs' hone hall => exact .andThen hs' hone (ih.mp hall)
      | cutShort hs' hone hne => exact .cutShort hs' hone hne
    · intro hruns
      cases hruns with
      | andThen hs' hone hall => exact .andThen hs' hone (ih.mpr hall)
      | cutShort hs' hone hne => exact .cutShort hs' hone hne

end

namespace FlowGraph

variable {a : Arena} {fn : NodeId} {view : FunctionView} {whole g : FlowGraph}

/-- The traces of a graph in which a body lies are the beginnings of the body's executions. -/
theorem trace_iff_of_laid {ids : List NodeId} {e : Option Point} (synced : g.Synced)
    (hlaid : Laid a g .outermost (.all ids) (g.entry, 0) e)
    (hend : ∀ q, e = some q → g.EndsAt q.1 q.2 (.returnWith none) ∧ Guards g .outermost q.1)
    (t : List Action) :
    g.Trace g.entry 0 t ↔ ∃ full, Executes a ids full ∧ t <+: full := by
  have fit : Around.outermost.Fit := fun _ _ => id
  constructor
  · intro ht
    obtain ⟨t₁, o, t₂, hruns, hafter, hbegins⟩ := hlaid.follows synced fit (fun _ => rfl) t ht
    cases o with
    | done =>
      obtain ⟨q, rfl, htrace⟩ := hafter
      obtain ⟨hterm, hguards⟩ := hend q rfl
      rcases hguards.at_exit fit none synced hterm rfl htrace with hexit | ⟨hguarded, -⟩
      · refine ⟨t₁ ++ [.returned none], .inr ⟨t₁, hruns, rfl⟩, hbegins.trans ?_⟩
        exact (List.prefix_append_right_inj t₁).mpr hexit
      · cases hguarded
    | broke | continued =>
      obtain ⟨l, hl, -⟩ := hafter
      cases hl
    | ended =>
      rw [show t₂ = [] from hafter, List.append_nil] at hbegins
      exact ⟨t₁, .inl hruns, hbegins⟩
    | thrown =>
      obtain ⟨handler, hhandler, -⟩ := hafter
      exact hhandler.elim
  · rintro ⟨full, hfull, hbegins⟩
    refine Trace.of_prefix ?_ hbegins
    rcases hfull with hruns | ⟨t', hruns, rfl⟩
    · have hafter : After g .outermost e .ended [] := rfl
      have htrace := hruns.trace synced rfl hlaid (fun _ => rfl) hafter
      rwa [List.append_nil] at htrace
    · cases e with
      | none => exact absurd hlaid (Laid.all_not_done hruns _)
      | some q =>
        exact hruns.trace synced rfl hlaid (fun _ => rfl) ⟨q, rfl, (hend q rfl).1.trace_exit⟩

/-- The graph of a function is what its body was lowered to, pruned. -/
theorem ofFunction_ok (h : ofFunction a fn = .ok g) : ∃ view whole, a.function fn = .ok view ∧
    lower a view = .ok whole ∧ g = whole.prune.2 := by
  unfold ofFunction at h
  obtain ⟨view, hview, h⟩ := except_bind_ok h
  obtain ⟨whole, hwhole, h⟩ := except_bind_ok h
  obtain ⟨u₁, -, h⟩ := except_bind_ok h
  obtain ⟨u₂, -, h⟩ := except_bind_ok h
  exact ⟨view, whole, hview, hwhole, (Except.ok.inj h).symm⟩

/-- What may be done on the paths from the entry of a function's graph are the beginnings of what
its body may do, and nothing after a jump in a list has a part in that. The counter of block ids
must not have run over. -/
theorem ofFunction_traces (hview : a.function fn = .ok view) (hwhole : lower a view = .ok whole)
    (hcount : whole.blocks.length ≤ Ident.invalidRaw) (hg : ofFunction a fn = .ok g) :
    (∀ t, g.Trace g.entry 0 t ↔ ∃ full, Executes a view.body full ∧ t <+: full) ∧
      ∀ (guarded : Bool) (before after : List NodeId) (id : NodeId) (s : Statement)
        (t : List Action) (o : Outcome), a.statement id = .ok s → s.jumps = true →
        (Runs a guarded (.all (before ++ id :: after)) t o ↔
          Runs a guarded (.all (before ++ [id])) t o) := by
  refine ⟨fun t => ?_,
    fun guarded before after id s t o hs hjumps => runs_append_of_jumps hs hjumps⟩
  obtain ⟨view', whole', hview', hwhole', rfl⟩ := ofFunction_ok hg
  obtain rfl := Except.ok.inj (hview.symm.trans hview')
  obtain rfl := Except.ok.inj (hwhole.symm.trans hwhole')
  obtain ⟨hsound, e, hlaid, hend⟩ := lower_laid hwhole hcount
  rw [entry_prune, hsound.linked.trace_prune .refl]
  exact trace_iff_of_laid hsound.synced' hlaid hend t

/-- A function gets the graph that it is lowered to, where the entry reaches every block and the
graph passes its checks. -/
theorem ofFunction_eq {a : Arena} {fn : NodeId} {view : FunctionView}
    (hview : a.function fn = .ok view) (hlower : lower a view = .ok g)
    (hcount : g.blocks.length ≤ Ident.invalidRaw) (hall : ∀ k ∈ g.blockIds, g.Reachable k)
    (hvalidate : g.validate.isOk = true) (hcheck : g.checkConstructs.isOk = true) :
    ofFunction a fn = .ok g := by
  have hlinked := (lower_laid hlower hcount).1.linked
  rw [ofFunction, hview]
  simp only [bind, Except.bind, hlower, hlinked.prune_eq_self hall]
  cases hvalid : g.validate with
  | error fault =>
    rw [hvalid] at hvalidate
    cases hvalidate
  | ok _ =>
    cases hchecked : g.checkConstructs with
    | error fault =>
      rw [hchecked] at hcheck
      cases hcheck
    | ok _ => rfl

end FlowGraph

/-- A loop whose body tries a step, and is left where the step fails. -/
def tryingArena : Arena where
  registry := .builtin
  nodes := #[
    ⟨⟨0⟩, ⟨13⟩, .identity, [.str "c"], []⟩,
    ⟨⟨1⟩, ⟨3⟩, .identity, [.node ⟨0⟩], []⟩,
    ⟨⟨2⟩, ⟨9⟩, .identity, [], []⟩,
    ⟨⟨3⟩, ⟨8⟩, .identity, [.list [.node ⟨2⟩]], []⟩,
    ⟨⟨4⟩, ⟨7⟩, .identity, [.list [.node ⟨1⟩], .list [.node ⟨3⟩]], []⟩,
    ⟨⟨5⟩, ⟨5⟩, .identity, [.node ⟨0⟩, .list [.node ⟨4⟩]], []⟩,
    ⟨⟨6⟩, ⟨11⟩, .identity, [.absent], []⟩,
    ⟨⟨7⟩, ⟨0⟩, .identity, [.str "f", .list [], .list [.node ⟨5⟩, .node ⟨6⟩]], []⟩]

def tryingView : FunctionView :=
  ⟨⟨7⟩, "f", [], [⟨5⟩, ⟨6⟩], none, none⟩

def tryingGraph : FlowGraph :=
  ((FlowGraph.lower tryingArena tryingView).toOption).getD (.new "f")

theorem lower_tryingArena : FlowGraph.lower tryingArena tryingView = .ok tryingGraph := by
  have hok : (FlowGraph.lower tryingArena tryingView).isOk = true := by decide +kernel
  unfold tryingGraph
  cases h : FlowGraph.lower tryingArena tryingView with
  | ok g => rfl
  | error fault =>
    rw [h] at hok
    cases hok

theorem tryingGraph_reachable : ∀ k ∈ tryingGraph.blockIds, tryingGraph.Reachable k := by
  have hids : tryingGraph.blockIds = [⟨0⟩, ⟨1⟩, ⟨2⟩, ⟨3⟩, ⟨4⟩, ⟨5⟩, ⟨6⟩, ⟨7⟩] := by
    decide +kernel
  have hentry : tryingGraph.entry = ⟨0⟩ := by decide +kernel
  have h₀ : tryingGraph.Reachable ⟨0⟩ := hentry ▸ .refl
  have h₂ : tryingGraph.Reachable ⟨2⟩ := h₀.tail (by decide +kernel)
  have h₁ : tryingGraph.Reachable ⟨1⟩ := h₂.tail (by decide +kernel)
  have h₃ : tryingGraph.Reachable ⟨3⟩ := h₂.tail (by decide +kernel)
  have h₅ : tryingGraph.Reachable ⟨5⟩ := h₃.tail (by decide +kernel)
  have h₆ : tryingGraph.Reachable ⟨6⟩ := h₅.tail (by decide +kernel)
  have h₇ : tryingGraph.Reachable ⟨7⟩ := h₅.tail (by decide +kernel)
  have h₄ : tryingGraph.Reachable ⟨4⟩ := h₇.tail (by decide +kernel)
  rw [hids]
  simp [h₀, h₁, h₂, h₃, h₄, h₅, h₆, h₇]

theorem ofFunction_tryingArena : FlowGraph.ofFunction tryingArena ⟨7⟩ = .ok tryingGraph :=
  FlowGraph.ofFunction_eq rfl lower_tryingArena (by decide +kernel) tryingGraph_reachable
    (by decide +kernel) (by decide +kernel)

theorem ofFunction_traces_tryingArena :
    tryingArena.function ⟨7⟩ = .ok tryingView ∧
      FlowGraph.lower tryingArena tryingView = .ok tryingGraph ∧
      tryingGraph.blocks.length ≤ Ident.invalidRaw ∧
      FlowGraph.ofFunction tryingArena ⟨7⟩ = .ok tryingGraph ∧
      tryingArena.statement ⟨2⟩ = .ok .breakStmt ∧ Statement.breakStmt.jumps = true ∧
      (∀ t, tryingGraph.Trace tryingGraph.entry 0 t ↔
        ∃ full, Executes tryingArena [⟨5⟩, ⟨6⟩] full ∧ t <+: full) ∧
      (∀ (guarded : Bool) (t : List Action) (o : Outcome),
        Runs tryingArena guarded (.all [⟨2⟩, ⟨1⟩]) t o ↔
          Runs tryingArena guarded (.all [⟨2⟩]) t o) := by
  have hcount : tryingGraph.blocks.length ≤ Ident.invalidRaw := by decide +kernel
  have hbreak : tryingArena.statement ⟨2⟩ = .ok .breakStmt := rfl
  obtain ⟨htraces, hjumps⟩ := FlowGraph.ofFunction_traces rfl lower_tryingArena hcount
    ofFunction_tryingArena
  exact ⟨rfl, lower_tryingArena, hcount, ofFunction_tryingArena, hbreak, rfl, htraces,
    fun guarded t o => hjumps guarded [] [⟨1⟩] ⟨2⟩ .breakStmt t o hbreak rfl⟩

end TypedSsa

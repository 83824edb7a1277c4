import TypedSsa.Proofs.Frontiers
import TypedSsa.Proofs.Liveness
import TypedSsa.Proofs.Renaming

/-!
The values of variables at the starts and ends of blocks in a finished form. Main statement:
`Built.get?_unjoined`: where a live variable has no phi, every way in brings the value that it has
at the end of the immediate dominator.
-/

namespace TypedSsa
open FlowGraph

namespace SsaForm

/-! What the events of a block assign. -/

/-- The definition that an event gives a variable. -/
def assigns? (f : SsaForm) (name : String) : Event → Option DefId
  | .define id => if f.defines name id then some id else none
  | .use _ => none

/-- The last definition that some events give a variable. -/
def assigned? (f : SsaForm) (name : String) (events : List Event) : Option DefId :=
  events.reverse.findSome? (f.assigns? name)

/-- Whether an event is a read or a write of the program: neither a phi, nor a parameter or an
undefined value. -/
def isOwn (f : SsaForm) : Event → Bool
  | .use _ => true
  | .define id => (f.definition? id).any (·.kind.isWrite)

/-- The reads and writes of a block. -/
def ownEvents (f : SsaForm) (b : BlockId) : List Event :=
  (f.eventsIn b).filter f.isOwn

section
variable {f : SsaForm} {b : BlockId} {v : String} {env env' : Env} {effects : List Effect}
  {events events' : List Event}

theorem assigned?_nil : f.assigned? v [] = none := rfl

theorem assigned?_append :
    f.assigned? v (events ++ events') = (f.assigned? v events').or (f.assigned? v events) := by
  rw [assigned?, List.reverse_append, List.findSome?_append]
  rfl

theorem assigned?_cons (event : Event) :
    f.assigned? v (event :: events) = (f.assigned? v events).or (f.assigns? v event) := by
  rw [← List.singleton_append, assigned?_append]
  congr 1
  simp [assigned?]

theorem assigns?_define {d : Def} (hd : f.definition? d.id = some d) :
    f.assigns? v (.define d.id) = if d.name = v then some d.id else none := by
  simp [assigns?, SsaForm.defines, hd]

/-- The value at the end is the last one assigned, or else the one at the start. -/
theorem Ran.get? (h : Ran f b env effects events env') :
    env'.get? v = (f.assigned? v events).or (env.get? v) := by
  induction h with
  | nil => rfl
  | read _ _ _ _ ih =>
    rw [ih, assigned?_cons]
    simp [assigns?]
  | @write env env' effects events d origin hd _ _ _ ih =>
    rw [ih, assigned?_cons, assigns?_define hd, Env.get?_cons, Option.or_assoc]
    by_cases hv : d.name = v
    · simp [hv]
    · simp [hv]

/-- What is assigned is a write. -/
theorem assigned?_write (hown : ∀ e ∈ events, f.isOwn e = true) {i : DefId}
    (hi : f.assigned? v events = some i) :
    ∃ d, f.definition? i = some d ∧ d.kind.isWrite = true := by
  obtain ⟨e, he, hassigns⟩ := List.exists_of_findSome?_eq_some hi
  have hown := hown e (List.mem_reverse.mp he)
  cases e with
  | use id => cases hassigns
  | define id =>
    rw [assigns?] at hassigns
    split at hassigns
    · cases hassigns
      simpa [isOwn, Option.any_eq_true] using hown
    · cases hassigns

/-- Nothing is assigned where nothing is written. -/
theorem Ran.assigned?_none (h : Ran f b env effects events env') :
    f.assigned? v events = none ↔ writes effects v = false := by
  induction h with
  | nil => simp [assigned?_nil, writes]
  | read _ _ _ _ ih =>
    rw [assigned?_cons]
    simp only [assigns?, Option.or_none, ih]
    simp [writes, Effect.isRead]
  | @write env env' effects events d origin hd _ _ _ ih =>
    rw [assigned?_cons, assigns?_define hd, Option.or_eq_none_iff, ih]
    by_cases hv : d.name = v <;> simp [writes, Effect.isRead, Effect.name, hv]

theorem Ran.own (h : Ran f b env effects events env') : ∀ e ∈ events, f.isOwn e = true := by
  induction h with
  | nil => simp
  | read _ _ _ _ ih => exact List.forall_mem_cons.mpr ⟨rfl, ih⟩
  | write hd _ hmakes _ ih =>
    exact List.forall_mem_cons.mpr ⟨by simp [isOwn, hd, hmakes.isWrite], ih⟩

/-- A read takes the last value assigned before it, or else the one at the start; in the latter case
the effects read the variable first. -/
theorem Ran.use_at (h : Ran f b env effects events env') : ∀ {k : Nat} {i : UseId},
    events[k]? = some (.use i) → ∃ u, f.use? i = some u ∧ u.block = b ∧
      (f.assigned? u.name (events.take k)).or (env.get? u.name) = some u.definition ∧
      (f.assigned? u.name (events.take k) = none → readsFirst effects u.name = true) := by
  induction h with
  | nil =>
    intro k i hk
    simp at hk
  | @read env env' effects events u hu hblock henv _ ih =>
    intro k i hk
    cases k with
    | zero =>
      simp only [List.getElem?_cons_zero, Option.some.injEq, Event.use.injEq] at hk
      exact ⟨u, hk ▸ hu, hblock, henv, fun _ => by simp [readsFirst, Effect.name, Effect.isRead]⟩
    | succ k =>
      rw [List.getElem?_cons_succ] at hk
      obtain ⟨u', hu', hblock', hdefinition, hfirst⟩ := ih hk
      refine ⟨u', hu', hblock', ?_, ?_⟩
      · rw [List.take_succ_cons, assigned?_cons]
        simpa [assigns?] using hdefinition
      · rw [List.take_succ_cons, assigned?_cons]
        simp only [assigns?, Option.or_none]
        intro hnone
        have hfirst := hfirst hnone
        by_cases hname : u.name = u'.name
        · simp [readsFirst, Effect.name, Effect.isRead, hname]
        · simpa [readsFirst, Effect.name, hname] using hfirst
  | @write env env' effects events d origin hd _ _ _ ih =>
    intro k i hk
    cases k with
    | zero => simp at hk
    | succ k =>
      rw [List.getElem?_cons_succ] at hk
      obtain ⟨u', hu', hblock', hdefinition, hfirst⟩ := ih hk
      refine ⟨u', hu', hblock', ?_, ?_⟩
      · rw [List.take_succ_cons, assigned?_cons, assigns?_define hd]
        rw [Env.get?_cons] at hdefinition
        by_cases hname : d.name = u'.name
        · simpa [hname] using hdefinition
        · simpa [hname] using hdefinition
      · rw [List.take_succ_cons, assigned?_cons, assigns?_define hd, Option.or_eq_none_iff]
        rintro ⟨hnone, hnot⟩
        have hname : d.name ≠ u'.name := by
          intro hname
          rw [if_pos hname] at hnot
          cases hnot
        simpa [readsFirst, Effect.name, hname] using hfirst hnone

end

/-! What a finished form was made of. -/

/-- Before blocks are renamed, `f₁` has the values at the entry, and `f₀` the phis too. -/
structure Begun (a : Arena) (g : FlowGraph) (view : FunctionView) (s : Setting)
    (f₁ f₀ : SsaForm) : Prop where
  effected : g.Effected a s.effects
  exact : g.Exact s.tree
  blocks : s.blocks = g.index
  phis : s.phis = groupBy Def.block f₀.phis
  started : Started view f₁ s.first
  initial : ∀ v, g.Live s.effects v g.entry → ∃ i, s.first.get? v = some i ∧ f₁.initial? v = some i
  placed : WithPhis g.index f₁ (phiPlaces g s.tree s.effects (Liveness.ofGraph g s.effects)
    (namesOf view s.tree s.effects)) f₀

/-- A form `r.form` for a graph: `f₁` has the values at the entry, and `f₀` the phis too. -/
structure Built (a : Arena) (g : FlowGraph) (view : FunctionView) (s : Setting) (f₁ f₀ : SsaForm)
    (r : Renaming) : Prop where
  effected : g.Effected a s.effects
  exact : g.Exact s.tree
  blocks : s.blocks = g.index
  phis : s.phis = groupBy Def.block f₀.phis
  started : Started view f₁ s.first
  initial : ∀ v, g.Live s.effects v g.entry → ∃ i, s.first.get? v = some i ∧ f₁.initial? v = some i
  placed : WithPhis g.index f₁ (phiPlaces g s.tree s.effects (Liveness.ofGraph g s.effects)
    (namesOf view s.tree s.effects)) f₀
  progress : Progress s f₀ s.tree.preorder r

/-- The phis that are filled are those that were placed. -/
theorem mem_phis_getD {s : Setting} {f₀ : SsaForm} (h : s.phis = groupBy Def.block f₀.phis)
    {phi : Def} {b : BlockId} : phi ∈ s.phis.getD b [] ↔ phi ∈ f₀.phis ∧ phi.block = b := by
  rw [h, getD_groupBy, List.mem_filter, beq_iff_eq]

theorem WithPhis.sound {x : BlockIndex} {f₁ f₀ : SsaForm} {places : List (String × BlockId)}
    (h : WithPhis x f₁ places f₀) : Sound x f₀ := by
  refine ⟨h.opening.numbered, ?_, ?_⟩
  · intro i d incoming hd hkind
    have hphi : d.isPhi = true := DefKind.isPhi_iff.mpr ⟨incoming, hkind⟩
    obtain ⟨-, hkind'⟩ := h.phis i d hd hphi
    rw [hkind] at hkind'
    cases hkind'
    rw [List.length_map]
  · intro i u hu
    rw [h.opening.unread] at hu
    cases hu

/-- The tree's preorder suits the renaming. -/
theorem fit_of_exact {g : FlowGraph} {s : Setting} {f₀ : SsaForm} (hexact : g.Exact s.tree)
    (linked : Linked g) (hblocks : s.blocks = g.index) (hphis : s.phis = groupBy Def.block f₀.phis)
    (hnumbered : Numbered f₀) (hfirst : Named f₀ s.first) : s.Fit f₀ s.tree.preorder where
  nodup := hexact.preorder_nodup
  above := by
    intro front b back d horder hd
    have hpair := hexact.preorder_pair hd
    have hnodup := hexact.preorder_nodup
    rw [horder] at hpair hnodup
    exact Digraph.mem_of_pair_sublist hpair hnodup
  linked := by
    intro b c hc
    rw [hblocks, predecessors_index]
    rw [hblocks, targets_index] at hc
    exact linked.sources.mpr hc
  phis := by
    intro c phi hphi
    obtain ⟨hmem, hblock⟩ := (mem_phis_getD hphis).mp hphi
    obtain ⟨hd, hisPhi⟩ := hnumbered.mem_phis.mp hmem
    exact ⟨⟨phi, hd, rfl, rfl, hisPhi⟩, hblock⟩
  first := hfirst

/-- A form with the values at the entry, and these values. -/
def started (view : FunctionView) (g : FlowGraph) (t : DominatorTree) (effects : EffectMap) :
    SsaForm × Env :=
  start view g.entry (Liveness.ofGraph g effects) (namesOf view t effects)

/-- A form with the phis too. -/
def withPhiDefs (view : FunctionView) (g : FlowGraph) (t : DominatorTree) (effects : EffectMap) :
    SsaForm :=
  addPhis g g.index t effects (Liveness.ofGraph g effects) (namesOf view t effects)
    (started view g t effects).1

def Setting.of (a : Arena) (view : FunctionView) (g : FlowGraph) (t : DominatorTree)
    (effects : EffectMap) : Setting where
  arena := a
  blocks := g.index
  tree := t
  effects := effects
  phis := groupBy Def.block (withPhiDefs view g t effects).phis
  first := (started view g t effects).2

theorem begun {a : Arena} {g : FlowGraph} {t : DominatorTree} {effects : EffectMap}
    (view : FunctionView) (heffected : g.Effected a effects) (hexact : g.Exact t) :
    Begun a g view (.of a view g t effects) (started view g t effects).1
      (withPhiDefs view g t effects) := by
  have hnames : (namesOf view t effects).Nodup := nodup_distinct _
  have hstarted : Started view (started view g t effects).1 (started view g t effects).2 :=
    start_started hnames
  exact {
    effected := heffected
    exact := hexact
    blocks := rfl
    phis := rfl
    started := hstarted
    initial := fun v hlive =>
      start_initial? hnames (heffected.mem_namesOf hexact view hlive) hlive
    placed := addPhis_withPhis g g.index t effects _ _ hstarted.opening hstarted.notPhi }

theorem Begun.fit {a : Arena} {view : FunctionView} {g : FlowGraph} {s : Setting}
    {f₁ f₀ : SsaForm} (h : Begun a g view s f₁ f₀) : s.Fit f₀ s.tree.preorder :=
  fit_of_exact h.exact h.effected.finished.linked h.blocks h.phis h.placed.opening.numbered
    (fun v i hi => h.placed.keeps.defines (h.started.named v i hi))

theorem Begun.built {a : Arena} {g : FlowGraph} {view : FunctionView} {s : Setting}
    {f₁ f₀ : SsaForm} (h : Begun a g view s f₁ f₀) {r : Renaming}
    (run : s.tree.preorder.foldlM (renameBlock s) { form := f₀ } = .ok r) :
    Built a g view s f₁ f₀ r where
  effected := h.effected
  exact := h.exact
  blocks := h.blocks
  phis := h.phis
  started := h.started
  initial := h.initial
  placed := h.placed
  progress := renaming_done h.fit (h.blocks.symm ▸ h.placed.sound) run

/-- A form comes from the steps that make it, from the parameters on. -/
theorem unchecked_renamed {a : Arena} {g g' : FlowGraph} {fn : NodeId} {f : SsaForm}
    (hg : g.Finished) (run : unchecked a g fn = .ok (f, g')) :
    ∃ view t effects r, a.function fn = .ok view ∧ g.Effected a effects ∧ g.Exact t ∧
      t.preorder.foldlM (renameBlock (.of a view g t effects))
        { form := withPhiDefs view g t effects } = .ok r ∧ f = r.form ∧
      g' = { g with dominance := some t } := by
  unfold unchecked at run
  obtain ⟨view, hview, run⟩ := except_bind_ok run
  obtain ⟨⟨t, g₁⟩, htree, run⟩ := except_bind_ok run
  obtain ⟨effects, heffects, run⟩ := except_bind_ok run
  obtain ⟨r, hr, run⟩ := except_bind_ok run
  obtain ⟨t', hbuild, -, hexact⟩ := hg.linked.consistent.buildDominance
  rw [ensureDominance, hg.plain, hbuild] at htree
  cases htree
  cases run
  exact ⟨view, t, effects, r, hview, ⟨hg, effects_ok heffects⟩, hexact, hr, rfl, rfl⟩

theorem unchecked_begun {a : Arena} {g g' : FlowGraph} {fn : NodeId} {f : SsaForm}
    (hg : g.Finished) (run : unchecked a g fn = .ok (f, g')) :
    ∃ view s f₁ f₀ r, a.function fn = .ok view ∧ Begun a g view s f₁ f₀ ∧
      s.tree.preorder.foldlM (renameBlock s) { form := f₀ } = .ok r ∧ f = r.form ∧
      g' = { g with dominance := some s.tree } := by
  obtain ⟨view, t, effects, r, hview, heffected, hexact, hr, hf, hg'⟩ := unchecked_renamed hg run
  exact ⟨view, _, _, _, r, hview, begun view heffected hexact, hr, hf, hg'⟩

theorem ofGraph_ok {a : Arena} {g g' : FlowGraph} {fn : NodeId} {f : SsaForm}
    (hg : g.Finished) (run : ofGraph a g fn = .ok (f, g')) :
    ∃ view s f₁ f₀ r, a.function fn = .ok view ∧ Built a g view s f₁ f₀ r ∧ f = r.form := by
  obtain ⟨view, s, f₁, f₀, r, hview, hbegun, hr, hf, -⟩ := unchecked_begun hg (ofGraph_iff.mp run).1
  exact ⟨view, s, f₁, f₀, r, hview, hbegun.built hr, hf⟩

/-! Phis at the start of a block. -/

/-- A variable has a phi in a block. -/
def Setting.HasPhi (s : Setting) (v : String) (b : BlockId) : Prop :=
  ∃ phi ∈ s.phis.getD b [], phi.name = v

theorem get?_withPhis (v : String) (phis : List Def) : ∀ env : Env,
    (∃ phi ∈ phis, phi.name = v ∧ (withPhis phis env).get? v = some phi.id) ∨
    (∀ phi ∈ phis, phi.name ≠ v) ∧ (withPhis phis env).get? v = env.get? v := by
  induction phis with
  | nil => exact fun env => .inr ⟨by simp, rfl⟩
  | cons phi phis ih =>
    intro env
    rcases ih ((phi.name, phi.id) :: env) with ⟨phi', hmem, hname, hget⟩ | ⟨hnone, hget⟩
    · exact .inl ⟨phi', List.mem_cons_of_mem _ hmem, hname, hget⟩
    · rw [Env.get?_cons] at hget
      by_cases hv : phi.name = v
      · rw [if_pos hv] at hget
        exact .inl ⟨phi, by simp, hv, hget⟩
      · rw [if_neg hv] at hget
        exact .inr ⟨List.forall_mem_cons.mpr ⟨hv, hnone⟩, hget⟩

section
variable {s : Setting} {after : BlockId → Env} {b : BlockId} {v : String}

theorem get?_before_of_hasPhi (after : BlockId → Env) (h : s.HasPhi v b) :
    ∃ phi ∈ s.phis.getD b [], phi.name = v ∧ (s.before after b).get? v = some phi.id := by
  rcases get?_withPhis v (s.phis.getD b []) (s.above after b) with hphi | ⟨hnone, -⟩
  · exact hphi
  · obtain ⟨phi, hmem, hname⟩ := h
    exact absurd hname (hnone phi hmem)

theorem get?_before_of_not_hasPhi (h : ¬s.HasPhi v b) :
    (s.before after b).get? v = (s.above after b).get? v := by
  rcases get?_withPhis v (s.phis.getD b []) (s.above after b) with ⟨phi, hmem, hname, -⟩ | ⟨-, hget⟩
  · exact absurd ⟨phi, hmem, hname⟩ h
  · exact hget

end

theorem mem_handlers {g : FlowGraph} {c : BlockId} (honce : g.blockIds.Nodup) :
    (handlers g).contains c = true ↔ ∃ b, ⟨c, .exception⟩ ∈ g.successors b := by
  rw [handlers, Std.HashSet.contains_ofList, List.contains_iff_mem, List.mem_map]
  constructor
  · rintro ⟨w, hw, rfl⟩
    obtain ⟨hw, hraised⟩ := List.mem_filter.mp hw
    obtain ⟨blk, hblk, -, -, hcontains⟩ := mem_ways.mp hw
    rw [hraised] at hcontains
    exact ⟨blk.id, mem_successors.mpr ⟨blk, block?_of_mem honce hblk,
      Block.mem_exceptionTargets.mp (List.contains_iff_mem.mp hcontains.symm)⟩⟩
  · rintro ⟨b, he⟩
    obtain ⟨raised, hway, hraised⟩ := exists_way (target_of_successor he)
    exact ⟨⟨b, c, raised⟩, List.mem_filter.mpr ⟨hway, hraised he⟩, rfl⟩

/-- What the phis of a variable are joined from: the writers, the entry, and the handlers where it
is live. -/
def seeds (g : FlowGraph) (t : DominatorTree) (effects : EffectMap) (v : String) : List BlockId :=
  effects.blocksWhere (writes · v) ++ g.entry ::
    (t.order.toList.filter ((Liveness.ofGraph g effects).blocks v).contains).filter
      (handlers g).contains

theorem mem_phiBlocks {g : FlowGraph} {t : DominatorTree} {effects : EffectMap} {v : String}
    {b : BlockId} (hexact : g.Exact t) :
    b ∈ phiBlocks g t (handlers g) effects (Liveness.ofGraph g effects) v ↔
      g.Reachable b ∧ g.Live effects v b ∧ b ≠ g.entry ∧
        (b ∈ t.iteratedFrontier (seeds g t effects v) ∨ (handlers g).contains b = true) := by
  rw [phiBlocks, List.mem_filter, List.mem_filter, hexact.inOrder.mem_iff, Bool.and_eq_true,
    bne_iff_ne, Bool.or_eq_true, Std.HashSet.contains_ofList, List.contains_iff_mem, and_assoc]
  rfl

theorem mem_seeds {g : FlowGraph} {t : DominatorTree} {effects : EffectMap} {v : String}
    {b : BlockId} (hexact : g.Exact t) : b ∈ seeds g t effects v ↔
      b ∈ effects.blocksWhere (writes · v) ∨ b = g.entry ∨
        g.Reachable b ∧ g.Live effects v b ∧ (handlers g).contains b = true := by
  rw [seeds, List.mem_append, List.mem_cons, List.mem_filter, List.mem_filter,
    hexact.inOrder.mem_iff, and_assoc]
  rfl

namespace Begun

variable {a : Arena} {g : FlowGraph} {view : FunctionView} {s : Setting} {f₁ f₀ : SsaForm}
  {b c : BlockId} {v : String}
variable (h : Begun a g view s f₁ f₀)
include h

/-- A phi of a variable is at a join or a handler where the variable is live, and not at the
entry. -/
theorem of_hasPhi (hphi : s.HasPhi v c) : c ≠ g.entry ∧ g.Reachable c ∧ g.Live s.effects v c ∧
    (c ∈ s.tree.iteratedFrontier (seeds g s.tree s.effects v) ∨
      (handlers g).contains c = true) := by
  obtain ⟨phi, hphi, rfl⟩ := hphi
  obtain ⟨hmem, rfl⟩ := (mem_phis_getD h.phis).mp hphi
  obtain ⟨hd, hisPhi⟩ := h.placed.opening.numbered.mem_phis.mp hmem
  obtain ⟨hplace, -⟩ := h.placed.phis phi.id phi hd hisPhi
  obtain ⟨hreach, hlive, hne, hjoin⟩ := (mem_phiBlocks h.exact).mp (mem_phiPlaces.mp hplace).2
  exact ⟨hne, hreach, hlive, hjoin⟩

/-- A variable has a phi where its values meet and where an exception leads to. -/
theorem hasPhi_iff (hc : c ∈ g.targets b) (hlive : g.Live s.effects v c) (hne : c ≠ g.entry) :
    s.HasPhi v c ↔ c ∈ s.tree.iteratedFrontier (seeds g s.tree s.effects v) ∨
      (handlers g).contains c = true := by
  have hreach : g.Reachable c :=
    h.effected.finished.reached c (h.effected.finished.linked.closed hc)
  have hpreds : g.index.predecessors c ≠ [] := by
    rw [predecessors_index]
    exact List.ne_nil_of_mem (h.effected.finished.linked.sources.mpr hc)
  constructor
  · exact fun hphi => (h.of_hasPhi hphi).2.2.2
  · intro hjoin
    have hplace : (v, c) ∈ phiPlaces g s.tree s.effects (Liveness.ofGraph g s.effects)
        (namesOf view s.tree s.effects) :=
      mem_phiPlaces.mpr ⟨h.effected.mem_namesOf h.exact view hlive,
        (mem_phiBlocks h.exact).mpr ⟨hreach, hlive, hne, hjoin⟩⟩
    obtain ⟨phi, hd, hname, hblock, hisPhi⟩ := h.placed.placed v c hplace hpreds
    exact ⟨phi, (mem_phis_getD h.phis).mpr ⟨h.placed.opening.numbered.mem_phis.mpr ⟨hd, hisPhi⟩,
      hblock⟩, hname⟩

end Begun

namespace Built

variable {a : Arena} {g : FlowGraph} {view : FunctionView} {s : Setting} {f₁ f₀ : SsaForm}
  {r : Renaming} {b c d : BlockId} {v : String}
variable (h : Built a g view s f₁ f₀ r)
include h

theorem renamed (hb : g.Reachable b) : Renamed s f₀ r.form r.envAfter b :=
  h.progress.renamed b (h.exact.mem_preorder.mpr hb)

theorem begun : Begun a g view s f₁ f₀ where
  effected := h.effected
  exact := h.exact
  blocks := h.blocks
  phis := h.phis
  started := h.started
  initial := h.initial
  placed := h.placed

/-- A phi is one of those that were placed. -/
theorem placed_of_phi {i : DefId} {e : Def} (he : r.form.definition? i = some e)
    (hphi : e.isPhi = true) : ∃ phi ∈ s.phis.getD e.block [], phi.id = i ∧ phi.name = e.name := by
  obtain ⟨phi, hphi₀⟩ := h.progress.renames.phis i e he hphi
  obtain ⟨e', he', hname, hblock, hisPhi, -⟩ := h.progress.renames.keeps.definition? i phi hphi₀
  obtain rfl := Option.some.inj (he.symm.trans he')
  have hid := h.placed.opening.numbered.definition?_id hphi₀
  refine ⟨phi, (mem_phis_getD h.phis).mpr ⟨?_, hblock.symm⟩, hid, hname.symm⟩
  exact h.placed.opening.numbered.mem_phis.mpr ⟨hid ▸ hphi₀, hisPhi.symm.trans hphi⟩

/-- The operand of a phi for a predecessor is the value that the predecessor hands on. -/
theorem operand?_of_target {i : DefId} {e : Def} (he : r.form.definition? i = some e)
    (hphi : e.isPhi = true) (htarget : e.block ∈ g.targets b) :
    ∃ j, (s.passed r.envAfter b e.block).get? e.name = some j ∧
      r.form.operand? g.predecessors i b = some j := by
  obtain ⟨phi, hmem, hid, hname⟩ := h.placed_of_phi he hphi
  have hreach := h.effected.finished.reached b
    (h.effected.finished.linked.contains_source (h.effected.finished.linked.sources.mpr htarget))
  obtain ⟨j, hj, hoperand⟩ := (h.renamed hreach).filled e.block
    (by rwa [h.blocks, targets_index]) phi hmem
  rw [h.blocks, predecessors_index, hid] at hoperand
  exact ⟨j, hname ▸ hj, hoperand⟩

/-- A block that does not write a variable leaves it as it is. -/
theorem get?_after (hb : g.Reachable b) (hwrites : writes (s.effects.of b) v = false) :
    (r.envAfter b).get? v = (s.before r.envAfter b).get? v := by
  obtain ⟨events, -, hran⟩ := (h.renamed hb).events
  rw [hran.get?, hran.assigned?_none.mpr hwrites, Option.none_or]

/-- Where neither phi nor write is, a variable is at the end of a block what it is at the end of the
block above. -/
theorem get?_above (hb : g.Reachable b) (hseed : b ∉ seeds g s.tree s.effects v)
    (hjoin : b ∉ s.tree.iteratedFrontier (seeds g s.tree s.effects v)) :
    (r.envAfter b).get? v = (s.above r.envAfter b).get? v := by
  simp only [mem_seeds h.exact, not_or, not_and] at hseed
  obtain ⟨hwriter, -, hcaught⟩ := hseed
  have hwrites : writes (s.effects.of b) v = false := by
    rw [← Bool.not_eq_true]
    intro hwrites
    exact hwriter ((EffectMap.mem_blocksWhere h.effected.keys rfl).mpr hwrites)
  rw [h.get?_after hb hwrites, get?_before_of_not_hasPhi]
  intro hphi
  obtain ⟨-, hreach, hlive, hplace⟩ := h.begun.of_hasPhi hphi
  rcases hplace with hplace | hplace
  · exact hjoin hplace
  · exact hcaught hreach hlive hplace

/-- Where a live variable has no phi, every way in brings the value that it has at the end of the
block above. -/
theorem get?_unjoined (hb : g.Reachable b) (hc : c ∈ g.targets b) (hne : c ≠ g.entry)
    (heq : s.tree.immediateDominator? c = some d)
    (hjoin : c ∉ s.tree.iteratedFrontier (seeds g s.tree s.effects v)) :
    (r.envAfter b).get? v = (r.envAfter d).get? v := by
  have hdc := h.exact.immediateDominator?_some (hb.tail hc) hne
  obtain ⟨d', heq', hdom, hdne, -⟩ := hdc
  obtain rfl : d' = d := Option.some.inj (heq'.symm.trans heq)
  -- by induction on the position, up from the predecessor to the dominator
  suffices ∀ i y, s.tree.order[i]? = some y → g.Dominates d' y → g.Dominates y b →
      (r.envAfter y).get? v = (r.envAfter d').get? v by
    obtain ⟨i, hi⟩ := h.exact.exists_position.mpr hb
    have hdb : g.Dominates d' b := ⟨hdom.1, hb, fun before hpath =>
      (List.mem_cons.mp (hdom.2.2 _ (hpath.step hc))).resolve_left hdne⟩
    exact this i b hi hdb ⟨hb, hb, fun _ _ => List.mem_cons_self⟩
  intro i
  induction i using Nat.strongRecOn with
  | ind i ih =>
    intro y hi hdy hyb
    by_cases hyd : y = d'
    · rw [hyd]
    · obtain ⟨hseed, hfrontier⟩ :=
        h.exact.not_between h.effected.finished.linked.consistent hb hc hne heq hjoin hdy hyb hyd
      have hentry : y ≠ g.entry := by
        intro he
        exact hseed ((mem_seeds h.exact).mpr (.inr (.inl he)))
      obtain ⟨hzero, e, he, heq₂⟩ := h.exact.immediateDominator?_eq hi hentry
      obtain ⟨e', heq₃, hey, -, hleast⟩ := h.exact.immediateDominator?_some hyb.1 hentry
      obtain rfl : e' = e := Option.some.inj (heq₃.symm.trans heq₂)
      have hlt := h.exact.tree.earlier (h.exact.lt_size hi) hzero
      rw [h.get?_above hyb.1 hseed hfrontier, Setting.above, heq₂, Option.map_some,
        Option.getD_some]
      exact ih _ hlt e' he (hleast d' hdy (fun hd => hyd hd.symm)) (hey.trans hyb)

end Built

end SsaForm

end TypedSsa

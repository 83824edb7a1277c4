import TypedSsa.Proofs.Values

/-!
Renaming is right on every path. Main statement: `SsaForm.ofGraph_reads`. Whatever a read refers to
comes, through the phis of the blocks that the path came through, from the last write on the path.
-/

namespace TypedSsa
open Digraph FlowGraph

/-- A path from the entry to a block: the blocks that it left before, the latest first, and whether
it left each by an exception. -/
inductive FlowGraph.Route (g : FlowGraph) : List (BlockId × Bool) → BlockId → Prop
  | entry : Route g [] g.entry
  | step {passed : List (BlockId × Bool)} {b : BlockId} {e : Edge} :
      Route g passed b → e ∈ g.successors b →
      Route g ((b, e.kind == .exception) :: passed) e.target

theorem FlowGraph.Route.reachable {g : FlowGraph} {passed : List (BlockId × Bool)} {b : BlockId}
    (h : g.Route passed b) : g.Reachable b := by
  induction h with
  | entry => exact .refl
  | step _ he ih => exact ih.tail (target_of_successor he)

namespace SsaForm

/-- The reads and writes on a path. A block that was left by an exception has done none of its
own. -/
def executed (f : SsaForm) (passed : List (BlockId × Bool)) : List Event :=
  passed.reverse.flatMap (fun p => if p.2 then [] else f.ownEvents p.1)

/-- What a definition stands for at the end of `p`, if control went on from there to `c`: a phi of
`c` stands for its operand. -/
def comesFrom (f : SsaForm) (predecessors : BlockId → List BlockId) (c p : BlockId) (id : DefId) :
    DefId :=
  if (f.definition? id).any (fun d => d.isPhi && d.block == c) then
    (f.operand? predecessors id p).getD id
  else id

/-- Back along a path, whose blocks stand the latest first, through the phis that it came
through. -/
def follow (f : SsaForm) (predecessors : BlockId → List BlockId) : List BlockId → DefId → DefId
  | c :: p :: before, id => follow f predecessors (p :: before) (comesFrom f predecessors c p id)
  | _, id => id

/-- The value of a variable when a path has come to a block: the last one assigned, or else the one
from the start. -/
def valueOn? (f : SsaForm) (events : List Event) (name : String) : Option DefId :=
  (f.assigned? name events).or (f.initial? name)

/-- The value of a variable in an environment is, back along a path, the one that the path gave
it. -/
def Agrees (f : SsaForm) (g : FlowGraph) (path : List BlockId) (env : Env) (events : List Event)
    (v : String) : Prop :=
  ∃ id, env.get? v = some id ∧ some (f.follow g.predecessors path id) = f.valueOn? events v

/-- An event is that of an effect of a block. -/
inductive Mirrors (f : SsaForm) (b : BlockId) : Effect → Event → Prop
  | read {u : Use} : f.use? u.id = some u → u.block = b →
      Mirrors f b (.read u.name u.site) (.use u.id)
  | write {d : Def} {origin : WriteOrigin} : f.definition? d.id = some d → d.block = b →
      origin.Makes d.kind → Mirrors f b (.write d.name origin) (.define d.id)

section
variable {f : SsaForm} {predecessors : BlockId → List BlockId} {b : BlockId} {env env' : Env}
  {effects : List Effect} {events : List Event}

theorem Ran.mirrors (h : Ran f b env effects events env') :
    List.Forall₂ (Mirrors f b) effects events := by
  induction h with
  | nil => exact .nil
  | read hu hblock _ _ ih => exact .cons (.read hu hblock) ih
  | write hd hblock hmakes _ ih => exact .cons (.write hd hblock hmakes) ih

theorem follow_of_not_phi {id : DefId} {d : Def} (hd : f.definition? id = some d)
    (hphi : d.isPhi = false) : ∀ path, f.follow predecessors path id = id := by
  have hstep : ∀ c p, f.comesFrom predecessors c p id = id := by
    intro c p
    rw [comesFrom, if_neg]
    simp [hd, hphi]
  intro path
  induction path with
  | nil => rfl
  | cons c path ih =>
    cases path with
    | nil => rfl
    | cons p before => rw [follow, hstep, ih]

theorem executed_cons (passed : List (BlockId × Bool)) (b : BlockId) (raised : Bool) :
    f.executed ((b, raised) :: passed) =
      f.executed passed ++ if raised then [] else f.ownEvents b := by
  simp [executed]

end

namespace Built

variable {a : Arena} {g : FlowGraph} {view : FunctionView} {s : Setting} {f₁ f₀ : SsaForm}
  {r : Renaming} {b c d : BlockId} {v : String} {passed : List (BlockId × Bool)}
variable (h : Built a g view s f₁ f₀ r)
include h

/-- The reads and writes of a block are the events of its effects. -/
theorem ownEvents_ran (hb : g.Reachable b) :
    Ran r.form b (s.before r.envAfter b) (s.effects.of b) (r.form.ownEvents b) (r.envAfter b) := by
  obtain ⟨events, hevents, hran⟩ := (h.renamed hb).events
  have hnone : (f₀.eventsIn b).filter r.form.isOwn = [] := by
    rw [List.filter_eq_nil_iff]
    intro e he hown
    obtain ⟨i, d, rfl, hd⟩ := h.placed.opening.recorded b e he
    obtain ⟨d', hd', -, -, hphi, hsame⟩ := h.progress.renames.keeps.definition? i d hd
    simp only [isOwn, hd', Option.any_some] at hown
    have hnot : d.isPhi = false := hphi ▸ DefKind.not_phi_of_isWrite hown
    rw [hsame hnot, h.placed.opening.unwritten i d hd] at hown
    cases hown
  rw [ownEvents, hevents, List.filter_append, hnone, List.nil_append,
    List.filter_eq_self.mpr hran.own]
  exact hran

theorem initial?_eq (v : String) : r.form.initial? v = f₁.initial? v := by
  have hkeeps := h.placed.keeps.trans h.progress.renames.keeps
  exact hkeeps.initial?_eq h.started.opening.numbered h.progress.renames.sound.numbered
    (definition?_of_params h.started.params) h.started.unique v

theorem raisesInto_iff {e : Edge} (he : e ∈ g.successors b) :
    s.blocks.raisesInto b e.target = true ↔ e.kind = .exception := by
  rw [h.blocks, raisesInto_index]
  constructor
  · intro hraised
    exact (h.effected.finished.aimed b b _ e hraised he rfl).mp rfl
  · intro hkind
    exact hkind ▸ he

/-- An edge hands on the value that the path so far has. -/
theorem agrees_on_edge (hroute : g.Route passed b)
    (ih : ∀ v, g.Live s.effects v b → Agrees r.form g (b :: passed.map (·.1))
      (s.before r.envAfter b) (r.form.executed passed) v)
    {e : Edge} (he : e ∈ g.successors b) (hlive : g.Live s.effects v e.target) :
    Agrees r.form g (b :: passed.map (·.1)) (s.passed r.envAfter b e.target)
      (r.form.executed ((b, e.kind == .exception) :: passed)) v := by
  have hreach := hroute.reachable
  have hcontains := h.effected.finished.linked.contains_of_reachable hreach
  have hran := h.ownEvents_ran hreach
  by_cases hraised : e.kind = .exception
  · have hlive' := h.effected.live_of_edge (target_of_successor he) hlive (.inl (hraised ▸ he))
    rw [Setting.passed, if_pos ((h.raisesInto_iff he).mpr hraised), executed_cons, hraised]
    simpa using ih v hlive'
  · rw [Setting.passed, if_neg (fun hr => hraised ((h.raisesInto_iff he).mp hr)), executed_cons,
      beq_false_of_ne hraised, if_neg Bool.false_ne_true]
    by_cases hwrites : writes (s.effects.of b) v = false
    · have hlive' := h.effected.live_of_edge (target_of_successor he) hlive (.inr hwrites)
      obtain ⟨id, hid, hvalue⟩ := ih v hlive'
      refine ⟨id, (h.get?_after hreach hwrites).trans hid, ?_⟩
      rw [hvalue, valueOn?, valueOn?, assigned?_append, hran.assigned?_none.mpr hwrites,
        Option.none_or]
    · obtain ⟨id, hid⟩ := Option.ne_none_iff_exists'.mp
        (fun hnone => hwrites (hran.assigned?_none.mp hnone))
      obtain ⟨d, hd, hwrite⟩ := assigned?_write hran.own hid
      refine ⟨id, ?_, ?_⟩
      · rw [hran.get?, hid, Option.some_or]
      · rw [follow_of_not_phi hd (DefKind.not_phi_of_isWrite hwrite), valueOn?, assigned?_append,
          hid, Option.some_or, Option.some_or]

/-- A value that is handed on without a phi is no phi of the block that it comes to. -/
theorem comesFrom_unjoined (hb : g.Reachable b) (hphi : ¬s.HasPhi v c) {id : DefId}
    (hid : (r.envAfter b).get? v = some id) (p : BlockId) :
    r.form.comesFrom g.predecessors c p id = id := by
  rw [comesFrom, if_neg]
  intro hjoin
  rw [Option.any_eq_true] at hjoin
  obtain ⟨d, hd, hjoin⟩ := hjoin
  rw [Bool.and_eq_true, beq_iff_eq] at hjoin
  obtain ⟨hisPhi, hblock⟩ := hjoin
  obtain ⟨d', hd', hname⟩ := defines_iff.mp
    (h.progress.named b (h.exact.mem_preorder.mpr hb) v id hid)
  obtain rfl := Option.some.inj (hd.symm.trans hd')
  obtain ⟨phi, hphi₀⟩ := h.progress.renames.phis id d hd hisPhi
  obtain ⟨d₂, hd₂, hname₂, hblock₂, hisPhi₂, -⟩ := h.progress.renames.keeps.definition? id phi hphi₀
  obtain rfl := Option.some.inj (hd.symm.trans hd₂)
  have hid₀ := h.placed.opening.numbered.definition?_id hphi₀
  refine hphi ⟨phi, (mem_phis_getD h.phis).mpr ⟨?_, hblock₂.symm.trans hblock⟩,
    hname₂.symm.trans hname⟩
  exact h.placed.opening.numbered.mem_phis.mpr ⟨hid₀ ▸ hphi₀, hisPhi₂.symm.trans hisPhi⟩

/-- Where a live variable has no phi, the edge hands on the value at the end of its source, and this
is the value at the start of its target. -/
theorem get?_without_phi (hreach : g.Reachable b) {e : Edge} (he : e ∈ g.successors b)
    (hlive : g.Live s.effects v e.target) (hphi : ¬s.HasPhi v e.target) :
    s.passed r.envAfter b e.target = r.envAfter b ∧
      (s.before r.envAfter e.target).get? v = (r.envAfter b).get? v := by
  have htarget := target_of_successor he
  have hne := h.effected.finished.enters b e he
  have hjoin := (h.begun.hasPhi_iff htarget hlive hne).not.mp hphi
  rw [not_or] at hjoin
  have hraised : ¬s.blocks.raisesInto b e.target = true := by
    intro hraised
    have hkind := (h.raisesInto_iff he).mp hraised
    exact hjoin.2 ((mem_handlers h.effected.finished.once).mpr ⟨b, hkind ▸ he⟩)
  obtain ⟨d, heq, -⟩ := h.exact.immediateDominator?_some (hreach.tail htarget) hne
  refine ⟨if_neg hraised, ?_⟩
  rw [get?_before_of_not_hasPhi hphi, Setting.above, heq, Option.map_some, Option.getD_some,
    h.get?_unjoined hreach htarget hne heq hjoin.1]

/-- The value at the start of a block is the one that the edge handed on: through a phi, or
unchanged. -/
theorem agrees_step (hroute : g.Route passed b) {e : Edge} (he : e ∈ g.successors b)
    (hlive : g.Live s.effects v e.target) {events : List Event}
    (hedge : Agrees r.form g (b :: passed.map (·.1)) (s.passed r.envAfter b e.target) events v) :
    Agrees r.form g (e.target :: b :: passed.map (·.1)) (s.before r.envAfter e.target) events
      v := by
  have hreach := hroute.reachable
  have htarget := target_of_successor he
  have hne := h.effected.finished.enters b e he
  obtain ⟨id, hid, hvalue⟩ := hedge
  by_cases hphi : s.HasPhi v e.target
  · obtain ⟨phi, hmem, rfl, hget⟩ := get?_before_of_hasPhi r.envAfter hphi
    have htarget' : e.target ∈ s.blocks.targets b := by
      rw [h.blocks, targets_index]
      exact htarget
    obtain ⟨w, hw, hoperand⟩ := (h.renamed hreach).filled e.target htarget' phi hmem
    obtain rfl : id = w := Option.some.inj (hid.symm.trans hw)
    rw [h.blocks, predecessors_index] at hoperand
    refine ⟨phi.id, hget, ?_⟩
    obtain ⟨hmem, hblock⟩ := (mem_phis_getD h.phis).mp hmem
    obtain ⟨hd, hisPhi⟩ := h.placed.opening.numbered.mem_phis.mp hmem
    obtain ⟨d, hd', -, hblock', hisPhi', -⟩ := h.progress.renames.keeps.definition? _ phi hd
    rw [follow, comesFrom, if_pos (by simp [hd', hisPhi', hisPhi, hblock', hblock]), hoperand,
      Option.getD_some, hvalue]
  · obtain ⟨hafter, hsame⟩ := h.get?_without_phi hreach he hlive hphi
    rw [hafter] at hid
    refine ⟨id, hsame.trans hid, ?_⟩
    rw [follow, h.comesFrom_unjoined hreach hphi hid, hvalue]

/-- On every path each live variable has the value that the path gave it. -/
theorem agrees (hroute : g.Route passed c) : ∀ v, g.Live s.effects v c →
    Agrees r.form g (c :: passed.map (·.1)) (s.before r.envAfter c) (r.form.executed passed) v := by
  induction hroute with
  | entry =>
    intro v hlive
    obtain ⟨id, hid, hinitial⟩ := h.initial v hlive
    refine ⟨id, ?_, ?_⟩
    · have hphi : ¬s.HasPhi v g.entry := fun hphi => (h.begun.of_hasPhi hphi).1 rfl
      rw [get?_before_of_not_hasPhi hphi, Setting.above,
        h.exact.immediateDominator?_none.mpr (.inl rfl)]
      exact hid
    · change some id = r.form.initial? v
      rw [h.initial?_eq, hinitial]
  | step hroute he ih =>
    intro v hlive
    exact h.agrees_step hroute he hlive (h.agrees_on_edge hroute ih he hlive)

/-- A read on a path refers to what the path gave its variable last. -/
theorem reads_on_route (hroute : g.Route passed c) {k : Nat} {i : UseId}
    (hk : (r.form.ownEvents c)[k]? = some (.use i)) : ∃ u, r.form.use? i = some u ∧ u.block = c ∧
      some (r.form.follow g.predecessors (c :: passed.map (·.1)) u.definition) =
        r.form.valueOn? (r.form.executed passed ++ (r.form.ownEvents c).take k) u.name := by
  have hreach := hroute.reachable
  have hran := h.ownEvents_ran hreach
  obtain ⟨u, hu, hblock, hdefinition, hfirst⟩ := hran.use_at hk
  refine ⟨u, hu, hblock, ?_⟩
  rw [valueOn?, assigned?_append]
  cases hassigned : r.form.assigned? u.name ((r.form.ownEvents c).take k) with
  | some id =>
    rw [hassigned, Option.some_or, Option.some.injEq] at hdefinition
    obtain ⟨d, hd, hwrite⟩ := assigned?_write (fun e he => hran.own e (List.mem_of_mem_take he))
      hassigned
    rw [Option.some_or, Option.some_or, ← hdefinition,
      follow_of_not_phi hd (DefKind.not_phi_of_isWrite hwrite)]
  | none =>
    rw [hassigned, Option.none_or] at hdefinition
    have hlive := h.effected.live_of_reads
      (h.effected.finished.linked.contains_of_reachable hreach) (hfirst hassigned)
    obtain ⟨id, hid, hvalue⟩ := h.agrees hroute u.name hlive
    obtain rfl : id = u.definition := Option.some.inj (hid.symm.trans hdefinition)
    rw [Option.none_or, hvalue, valueOn?]

end Built

/-- In the form of a function the reads and writes of each block mirror its effects, and on every
path each read comes, back through the phis that the path came through, from the last write of its
variable on the path, or else from the last parameter of its name, or else from its undefined
value. -/
theorem ofGraph_reads {a : Arena} {fn : NodeId} {view : FunctionView} {whole g g' : FlowGraph}
    {f : SsaForm} (hview : a.function fn = .ok view) (hwhole : FlowGraph.lower a view = .ok whole)
    (hcount : whole.blocks.length ≤ Ident.invalidRaw) (hg : FlowGraph.ofFunction a fn = .ok g)
    (hf : ofGraph a g fn = .ok (f, g')) :
    (∀ blk ∈ g.blocks, ∃ effects, a.blockEffects blk = .ok effects ∧
      List.Forall₂ (Mirrors f blk.id) effects (f.ownEvents blk.id)) ∧
    List.Forall₂ (IsParam f) view.params.zipIdx f.params ∧
    (∀ i u, f.use? i = some u → (∃ phi p, u.site = .phiIncoming phi p) ∨
      .use i ∈ f.ownEvents u.block) ∧
    ∀ passed c, g.Route passed c → ∀ k i, (f.ownEvents c)[k]? = some (.use i) →
      ∃ u, f.use? i = some u ∧ u.block = c ∧
        some (f.follow g.predecessors (c :: passed.map (·.1)) u.definition) =
          f.valueOn? (f.executed passed ++ (f.ownEvents c).take k) u.name := by
  have hfinished := ofFunction_finished hview hwhole hcount hg
  obtain ⟨view', s, f₁, f₀, r, hview', h, rfl⟩ := ofGraph_ok hfinished hf
  obtain rfl := Except.ok.inj (hview.symm.trans hview')
  have hkeeps := h.placed.keeps.trans h.progress.renames.keeps
  refine ⟨?_, ?_, ?_, fun passed c hroute k i hk => h.reads_on_route hroute hk⟩
  · intro blk hblk
    have hfound := block?_of_mem hfinished.once hblk
    have hreach := hfinished.reached blk.id (contains_iff.mpr ⟨blk, hfound⟩)
    exact ⟨_, (h.effected.of_block hfound).1, (h.ownEvents_ran hreach).mirrors⟩
  · rw [hkeeps.params]
    exact h.started.params.imp (fun _ _ hp => hp.keeps hkeeps)
  · intro i u hu
    refine (h.progress.renames.sound.read i u hu).imp_right (fun hmem => ?_)
    exact List.mem_filter.mpr ⟨hmem, rfl⟩

end SsaForm

open SsaForm

/-- A function that assigns a variable in one of the two ways to its last block. -/
def joinArena : Arena where
  registry := .builtin
  nodes := #[
    ⟨⟨0⟩, ⟨13⟩, .identity, [.str "c"], []⟩,
    ⟨⟨1⟩, ⟨13⟩, .identity, [.str "x"], []⟩,
    ⟨⟨2⟩, ⟨13⟩, .identity, [.str "c"], []⟩,
    ⟨⟨3⟩, ⟨2⟩, .identity, [.node ⟨1⟩, .node ⟨2⟩], []⟩,
    ⟨⟨4⟩, ⟨4⟩, .identity, [.node ⟨0⟩, .list [.node ⟨3⟩], .list []], []⟩,
    ⟨⟨5⟩, ⟨13⟩, .identity, [.str "x"], []⟩,
    ⟨⟨6⟩, ⟨11⟩, .identity, [.node ⟨5⟩], []⟩,
    ⟨⟨7⟩, ⟨1⟩, .identity, [.str "c"], []⟩,
    ⟨⟨8⟩, ⟨0⟩, .identity, [.str "f", .list [.node ⟨7⟩], .list [.node ⟨4⟩, .node ⟨6⟩]], []⟩]

def joinView : FunctionView := ⟨⟨8⟩, "f", [⟨⟨7⟩, "c", none⟩], [⟨4⟩, ⟨6⟩], none, none⟩

def joinGraph : FlowGraph where
  function := "f"
  entry := ⟨0⟩
  blocks := [
    { id := ⟨0⟩, terminator := some (.branch (.expr ⟨0⟩) ⟨2⟩ ⟨1⟩),
      successors := [⟨⟨2⟩, .onTrue⟩, ⟨⟨1⟩, .onFalse⟩], origin := ⟨.entry, 0, none⟩ },
    { id := ⟨1⟩, terminator := some (.returnWith (some ⟨5⟩)), predecessors := [⟨0⟩, ⟨2⟩],
      origin := ⟨.join, 0, none⟩ },
    { id := ⟨2⟩, slots := [.node ⟨3⟩], terminator := some (.jump ⟨1⟩ .normal),
      predecessors := [⟨0⟩], successors := [⟨⟨1⟩, .normal⟩], origin := ⟨.thenPart, 0, some ⟨4⟩⟩ }]
  nextBlock := 3

def joinEffects : EffectMap := [
  (⟨0⟩, [.read "c" (.name ⟨0⟩)]),
  (⟨1⟩, [.read "x" (.name ⟨5⟩)]),
  (⟨2⟩, [.read "c" (.name ⟨2⟩), .write "x" (.assign ⟨3⟩ ⟨2⟩)])]

def joinTree : DominatorTree :=
  .ofParents #[⟨0⟩, ⟨2⟩, ⟨1⟩] #[[], [0], [0, 1]] #[0, 0, 0] 2

/-- The graph with its tree. -/
def joinBuilt : FlowGraph := { joinGraph with dominance := some joinTree }

set_option maxRecDepth 10000 in
theorem lower_joinArena : FlowGraph.lower joinArena joinView = .ok joinGraph := rfl

theorem joinGraph_reachable : ∀ k ∈ joinGraph.blockIds, joinGraph.Reachable k := by
  have h₀ : joinGraph.Reachable ⟨0⟩ := .refl
  have h₁ : joinGraph.Reachable ⟨1⟩ := h₀.tail (by decide)
  have h₂ : joinGraph.Reachable ⟨2⟩ := h₀.tail (by decide)
  have hids : joinGraph.blockIds = [⟨0⟩, ⟨1⟩, ⟨2⟩] := rfl
  simp [hids, h₀, h₁, h₂]

theorem ofFunction_joinArena : FlowGraph.ofFunction joinArena ⟨8⟩ = .ok joinGraph :=
  ofFunction_eq rfl lower_joinArena (by decide) joinGraph_reachable rfl rfl

theorem reversePostorder_joinGraph : joinGraph.reversePostorder = [⟨0⟩, ⟨2⟩, ⟨1⟩] := by
  rw [FlowGraph.reversePostorder, Digraph.reversePostorder, targets_index]
  simp [searchFrom, search, blockIds, joinGraph, targets, block?, Block.targets, distinct]

theorem numbered_joinGraph :
    (DominatorTree.numbered [⟨0⟩, ⟨2⟩, ⟨1⟩])[(⟨0⟩ : BlockId)]? = some 0 ∧
      (DominatorTree.numbered [⟨0⟩, ⟨2⟩, ⟨1⟩])[(⟨2⟩ : BlockId)]? = some 1 ∧
      (DominatorTree.numbered [⟨0⟩, ⟨2⟩, ⟨1⟩])[(⟨1⟩ : BlockId)]? = some 2 := by
  have nodup : ([⟨0⟩, ⟨2⟩, ⟨1⟩] : List BlockId).Nodup := by decide
  simp only [DominatorTree.getElem?_numbered nodup]
  decide

theorem buildDominance_joinGraph : joinGraph.buildDominance = .ok joinTree := by
  have hcontains : joinGraph.contains joinGraph.entry = true := by decide
  have hpositions : (#[[], [0], [0, 1]] : Array (List Nat)) =
      (#[⟨0⟩, ⟨2⟩, ⟨1⟩] : Array BlockId).map (fun b => (joinGraph.predecessors b).filterMap
        ((DominatorTree.numbered [⟨0⟩, ⟨2⟩, ⟨1⟩])[·]?)) := by
    simp [joinGraph, predecessors, block?, numbered_joinGraph]
  have hsettle : DominatorTree.settle #[[], [0], [0, 1]] (3 * 3 + 1) (DominatorTree.started 3) 0 =
      (#[some 0, some 0, some 0], 2) := by decide
  rw [FlowGraph.buildDominance, if_pos hcontains, predecessors_index, reversePostorder_joinGraph]
  refine (DominatorTree.build_eq _ hpositions hsettle ?_).trans (by simp [joinTree])
  unfold DominatorTree.Known
  decide

theorem ensureDominance_joinGraph : joinGraph.ensureDominance = .ok (joinTree, joinBuilt) := by
  have hplain : joinGraph.dominance = none := rfl
  rw [ensureDominance, hplain, buildDominance_joinGraph]
  rfl

theorem walk_joinTree : (DominatorTree.walk #[0, 0, 0]).seen = [2, 1, 0] ∧
    (DominatorTree.walk #[0, 0, 0]).left = [0, 2, 1] := by
  have hchildren : DominatorTree.childrenOf #[0, 0, 0] 0 = [1, 2] ∧
      DominatorTree.childrenOf #[0, 0, 0] 1 = [] ∧
      DominatorTree.childrenOf #[0, 0, 0] 2 = [] := by decide
  simp [DominatorTree.walk, searchFrom, search, hchildren]

theorem preorder_joinTree : joinTree.preorder = [⟨0⟩, ⟨2⟩, ⟨1⟩] := by
  rw [joinTree, DominatorTree.ofParents, walk_joinTree.1]
  rfl

theorem frontiers_joinTree : joinTree.frontiers = #[[], [2], []] := by
  have hjoins : (List.range 3).filter (fun b =>
      2 ≤ ((#[[], [0], [0, 1]] : Array (List Nat)).getD b []).length) = [2] := by decide
  have hbelow : DominatorTree.belowParent #[[], [0], [0, 1]] #[0, 0, 0] 2 = .ofList [1] :=
    congrArg Std.HashSet.ofList (by decide)
  have hrange : Array.range 3 = #[0, 1, 2] := by decide
  have hsize : (#[0, 0, 0] : Array Nat).size = 3 := rfl
  rw [joinTree, DominatorTree.ofParents, DominatorTree.frontiersOf, hsize, hjoins,
    List.map_singleton, hbelow, hrange]
  simp

theorem immediateDominator?_joinTree : joinTree.immediateDominator? ⟨0⟩ = none ∧
    joinTree.immediateDominator? ⟨2⟩ = some ⟨0⟩ ∧ joinTree.immediateDominator? ⟨1⟩ = some ⟨0⟩ := by
  simp [DominatorTree.immediateDominator?, DominatorTree.position?, joinTree,
    DominatorTree.ofParents, numbered_joinGraph]

theorem isReachable_joinTree : joinTree.isReachable ⟨0⟩ = true ∧
    joinTree.isReachable ⟨2⟩ = true ∧ joinTree.isReachable ⟨1⟩ = true := by
  simp [DominatorTree.isReachable, joinTree, DominatorTree.ofParents, DominatorTree.mem_numbered]

theorem dominates_joinTree : joinTree.dominates ⟨0⟩ ⟨0⟩ = true ∧
    joinTree.dominates ⟨0⟩ ⟨2⟩ = true ∧ joinTree.dominates ⟨2⟩ ⟨2⟩ = true ∧
    joinTree.dominates ⟨1⟩ ⟨1⟩ = true := by
  have hentered : joinTree.entered = DominatorTree.numbered [⟨0⟩, ⟨2⟩, ⟨1⟩] :=
    congrArg DominatorTree.numbered preorder_joinTree
  have hleft : joinTree.left = DominatorTree.numbered [⟨2⟩, ⟨1⟩, ⟨0⟩] := by
    rw [joinTree, DominatorTree.ofParents, walk_joinTree.2]
    rfl
  have nodup : ([⟨2⟩, ⟨1⟩, ⟨0⟩] : List BlockId).Nodup := by decide
  have hnumbered : (DominatorTree.numbered [⟨2⟩, ⟨1⟩, ⟨0⟩])[(⟨0⟩ : BlockId)]? = some 2 ∧
      (DominatorTree.numbered [⟨2⟩, ⟨1⟩, ⟨0⟩])[(⟨2⟩ : BlockId)]? = some 0 ∧
      (DominatorTree.numbered [⟨2⟩, ⟨1⟩, ⟨0⟩])[(⟨1⟩ : BlockId)]? = some 1 := by
    simp only [DominatorTree.getElem?_numbered nodup]
    decide
  simp [DominatorTree.dominates, hentered, hleft, numbered_joinGraph, hnumbered]

theorem namesOf_joinView : namesOf joinView joinTree joinEffects = ["c", "x"] := by
  rw [namesOf, preorder_joinTree]
  rfl

theorem live_joinBuilt (b : BlockId) :
    (((Liveness.ofGraph joinBuilt joinEffects).blocks "c").contains b = (b == ⟨2⟩ || b == ⟨0⟩)) ∧
      ((Liveness.ofGraph joinBuilt joinEffects).blocks "x").contains b =
        (b == ⟨0⟩ || b == ⟨1⟩) := by
  have hiff : ∀ v, ((Liveness.ofGraph joinBuilt joinEffects).blocks v).contains b = true ↔
      v ∈ joinEffects.names ∧ b ∈ (liveSearch joinBuilt joinEffects v).seen := fun _ => live_iff
  constructor <;> rw [Bool.eq_iff_iff, hiff, liveSearch] <;>
    simp [searchFrom, search, getD_groupBy, ways, joinBuilt, joinGraph, blockIds, Block.targets,
      Block.exceptionTargets, Block.exceptionEdges, distinct, Liveness.passes?, joinEffects,
      EffectMap.blocksWhere, readsFirst, writes, Effect.name, Effect.isRead, EffectMap.names]

theorem handlers_joinBuilt (b : BlockId) : (handlers joinBuilt).contains b = false := by
  have hways : joinBuilt.ways.filter (·.raised) = [] := rfl
  simp [handlers, hways]

theorem iteratedFrontier_joinTree : joinTree.iteratedFrontier [⟨0⟩] = [] ∧
    joinTree.iteratedFrontier [⟨2⟩, ⟨0⟩] = [⟨1⟩] := by
  have hpositions : [(⟨0⟩ : BlockId)].filterMap joinTree.position? = [0] ∧
      [(⟨2⟩ : BlockId), ⟨0⟩].filterMap joinTree.position? = [1, 0] := by
    simp [DominatorTree.position?, joinTree, DominatorTree.ofParents, numbered_joinGraph]
  have hfrontier : joinTree.frontierAt 0 = [] ∧ joinTree.frontierAt 1 = [2] ∧
      joinTree.frontierAt 2 = [] := by
    simp [DominatorTree.frontierAt, frontiers_joinTree]
  have hsize : joinTree.order.size = 3 := rfl
  have hrange : List.range 3 = [0, 1, 2] := rfl
  simp only [DominatorTree.iteratedFrontier, hpositions, hsize, hrange]
  constructor <;> simp [DominatorTree.Spread.start, DominatorTree.Spread.run,
    DominatorTree.Spread.find, hfrontier] <;> rfl

theorem phiBlocks_joinBuilt :
    phiBlocks joinBuilt joinTree (handlers joinBuilt) joinEffects
        (Liveness.ofGraph joinBuilt joinEffects) "c" = [] ∧
      phiBlocks joinBuilt joinTree (handlers joinBuilt) joinEffects
        (Liveness.ofGraph joinBuilt joinEffects) "x" = [⟨1⟩] := by
  have horder : joinTree.order.toList = [⟨0⟩, ⟨2⟩, ⟨1⟩] := rfl
  have hentry : joinBuilt.entry = ⟨0⟩ := rfl
  have hc : joinEffects.blocksWhere (writes · "c") = [] := rfl
  have hx : joinEffects.blocksWhere (writes · "x") = [⟨2⟩] := rfl
  simp [phiBlocks, horder, hentry, hc, hx, live_joinBuilt, handlers_joinBuilt,
    iteratedFrontier_joinTree]

def openedDefs : List Def := [
  { id := ⟨0⟩, name := "c", block := ⟨0⟩, kind := .param 0 ⟨7⟩ },
  { id := ⟨1⟩, name := "x", block := ⟨0⟩, kind := .undefined }]

def joinPhi (incoming : List UseId) : Def :=
  { id := ⟨2⟩, name := "x", block := ⟨1⟩, kind := .phi incoming }

def renamedDefs : List Def := openedDefs ++ [joinPhi [⟨1⟩, ⟨3⟩],
  { id := ⟨3⟩, name := "x", block := ⟨2⟩, kind := .assign ⟨3⟩ ⟨2⟩ }]

def renamedUses : List Use := [
  { id := ⟨0⟩, name := "c", block := ⟨0⟩, site := .name ⟨0⟩, definition := ⟨0⟩ },
  { id := ⟨1⟩, name := "x", block := ⟨0⟩, site := .phiIncoming ⟨2⟩ ⟨0⟩, definition := ⟨1⟩ },
  { id := ⟨2⟩, name := "c", block := ⟨2⟩, site := .name ⟨2⟩, definition := ⟨0⟩ },
  { id := ⟨3⟩, name := "x", block := ⟨2⟩, site := .phiIncoming ⟨2⟩ ⟨2⟩, definition := ⟨3⟩ },
  { id := ⟨4⟩, name := "x", block := ⟨1⟩, site := .name ⟨5⟩, definition := ⟨2⟩ }]

section
variable (events : Std.HashMap BlockId (Array Event))

def joinForm (defs : List Def) (uses : List Use) : SsaForm where
  function := "f"
  node := ⟨8⟩
  params := [⟨0⟩]
  defs := defs.toArray
  uses := uses.toArray
  events := events
  nextDef := defs.length
  nextUse := uses.length

def placedForm : SsaForm :=
  joinForm events (openedDefs ++ [joinPhi [.invalid, .invalid]]) []

def renamedForm : SsaForm :=
  joinForm events renamedDefs renamedUses

def joinSetting : Setting where
  arena := joinArena
  blocks := joinBuilt.index
  tree := joinTree
  effects := joinEffects
  phis := groupBy Def.block (placedForm events).phis
  first := [("x", ⟨1⟩), ("c", ⟨0⟩)]

theorem start_joinBuilt : ∃ events,
    start joinView joinBuilt.entry (Liveness.ofGraph joinBuilt joinEffects) ["c", "x"] =
      (joinForm events openedDefs [], [("x", ⟨1⟩), ("c", ⟨0⟩)]) := by
  have hundefined : ["c", "x"].filter (fun name => !(joinView.params.map (·.name)).contains name &&
      ((Liveness.ofGraph joinBuilt joinEffects).blocks name).contains joinBuilt.entry) = ["x"] := by
    have hparams : joinView.params.map (·.name) = ["c"] := rfl
    have hentry : joinBuilt.entry = ⟨0⟩ := rfl
    simp [hparams, hentry, live_joinBuilt]
  rw [start, hundefined]
  exact ⟨_, rfl⟩

theorem addPhis_joinBuilt : ∃ placed,
    addPhis joinBuilt joinBuilt.index joinTree joinEffects (Liveness.ofGraph joinBuilt joinEffects)
      ["c", "x"] (joinForm events openedDefs []) = placedForm placed := by
  have hpredecessors : joinBuilt.predecessors ⟨1⟩ = [⟨0⟩, ⟨2⟩] := rfl
  simp only [addPhis, List.foldl_cons, List.foldl_nil, phiBlocks_joinBuilt, addPhi,
    predecessors_index, hpredecessors]
  exact ⟨_, rfl⟩

theorem fillSlotsOf_joinSetting (env : Env) (p : BlockId) :
    fillSlotsOf (joinSetting events) env p = fun f target =>
      match (joinBuilt.predecessors target).idxOf? p with
      | some slot => ([joinPhi [.invalid, .invalid]].filter (·.block == target)).foldlM
          (fillSlot env p slot) f
      | none => .ok f := by
  funext f target
  have hpredecessors : (joinSetting events).blocks.predecessors target =
      joinBuilt.predecessors target := congrFun (predecessors_index joinBuilt) target
  have hphis : (joinSetting events).phis.getD target [] =
      [joinPhi [.invalid, .invalid]].filter (·.block == target) :=
    getD_groupBy Def.block (placedForm events).phis target
  exact congrArg₂ (fun (predecessors : List BlockId) (phis : List Def) =>
    match predecessors.idxOf? p with
    | some slot => phis.foldlM (fillSlot env p slot) f
    | none => .ok f) hpredecessors hphis

theorem renameBlock_joinSetting : ∃ renamed ends,
    joinTree.preorder.foldlM (renameBlock (joinSetting events)) { form := placedForm events } =
      .ok ⟨renamedForm renamed, ends⟩ := by
  have hblocks : (joinSetting events).blocks = joinBuilt.index := rfl
  have htree : (joinSetting events).tree = joinTree := rfl
  have hphis : (joinSetting events).phis = groupBy Def.block [joinPhi [.invalid, .invalid]] := rfl
  rw [preorder_joinTree]
  simp only [List.foldlM_cons, List.foldlM_nil, renameBlock, hblocks, htree, hphis, fillSlots,
    fillSlotsOf_joinSetting, BlockIndex.raisesInto, targets_index, successors_index, getD_groupBy,
    immediateDominator?_joinTree]
  exact ⟨_, _, rfl⟩

theorem verify_renamedForm :
    (renamedForm events).verify joinBuilt = .ok () := by
  have hphi : (renamedForm events).verifyPhi joinBuilt.index (joinPhi [⟨1⟩, ⟨3⟩]) = .ok () := by
    simp only [verifyPhi, joinPhi, predecessors_index]
    rfl
  have hphis : ∀ d ∈ renamedDefs, (renamedForm events).verifyPhi joinBuilt.index d = .ok () := by
    simp only [renamedDefs, openedDefs, List.cons_append, List.nil_append, List.forall_mem_cons]
    exact ⟨rfl, rfl, hphi, rfl, nofun⟩
  have huses : ∀ u ∈ renamedUses, (renamedForm events).verifyUse joinTree u = .ok () := by
    simp [renamedUses, verifyUse, definition?, findNear?, renamedForm, joinForm, renamedDefs,
      openedDefs, joinPhi, placeOf, isReachable_joinTree, dominates_joinTree]
  change (do
    renamedDefs.toArray.forM ((renamedForm events).verifyPhi joinBuilt.index)
    renamedUses.toArray.forM ((renamedForm events).verifyUse joinTree)) = _
  rw [array_forM_ok_iff.mpr fun d hd => hphis d (List.mem_toArray.mp hd)]
  exact array_forM_ok_iff.mpr fun u hu => huses u (List.mem_toArray.mp hu)

end

theorem ofGraph_joinArena : ∃ events,
    ofGraph joinArena joinGraph ⟨8⟩ = .ok (renamedForm events, joinBuilt) := by
  obtain ⟨opened, hopened⟩ := start_joinBuilt
  obtain ⟨placed, hplaced⟩ := addPhis_joinBuilt opened
  obtain ⟨events, ends, hrenamed⟩ := renameBlock_joinSetting placed
  refine ⟨events, ?_⟩
  have hfunction : joinArena.function ⟨8⟩ = .ok joinView := rfl
  have heffects : joinBuilt.effects joinArena = .ok joinEffects := rfl
  have hfilled : (renamedForm events).checkFilled = .ok () := rfl
  rw [ofGraph, hfunction]
  simp only [bind, Except.bind, ensureDominance_joinGraph, heffects, namesOf_joinView, hopened,
    hplaced]
  have hsetting : ({
      arena := joinArena
      blocks := joinBuilt.index
      tree := joinTree
      effects := joinEffects
      phis := groupBy Def.block (placedForm placed).phis
      first := [("x", ⟨1⟩), ("c", ⟨0⟩)] } : Setting) = joinSetting placed := rfl
  simp only [hsetting, hrenamed, hfilled, verify_renamedForm]

/-- Both ways lead to the read in the last block. -/
theorem ofGraph_reads_joinArena :
    joinArena.function ⟨8⟩ = .ok joinView ∧ FlowGraph.lower joinArena joinView = .ok joinGraph ∧
      joinGraph.blocks.length ≤ Ident.invalidRaw ∧ FlowGraph.ofFunction joinArena ⟨8⟩ = .ok joinGraph ∧
      joinGraph.Route [(⟨0⟩, false)] ⟨1⟩ ∧ joinGraph.Route [(⟨2⟩, false), (⟨0⟩, false)] ⟨1⟩ ∧
      ∃ f g' k, ofGraph joinArena joinGraph ⟨8⟩ = .ok (f, g') ∧
        (f.ownEvents ⟨1⟩)[k]? = some (.use ⟨4⟩) ∧
        ∀ passed, joinGraph.Route passed ⟨1⟩ → ∃ u, f.use? ⟨4⟩ = some u ∧ u.block = ⟨1⟩ ∧
          some (f.follow joinGraph.predecessors (⟨1⟩ :: passed.map (·.1)) u.definition) =
            f.valueOn? (f.executed passed ++ (f.ownEvents ⟨1⟩).take k) u.name := by
  have hcount : joinGraph.blocks.length ≤ Ident.invalidRaw := by decide
  obtain ⟨events, hf⟩ := ofGraph_joinArena
  obtain ⟨-, -, hsited, hreads⟩ :=
    ofGraph_reads rfl lower_joinArena hcount ofFunction_joinArena hf
  have hentry : joinGraph.Route [] ⟨0⟩ := .entry
  have hleft : joinGraph.Route [(⟨0⟩, false)] ⟨1⟩ := hentry.step (e := ⟨⟨1⟩, .onFalse⟩) (by decide)
  have hright : joinGraph.Route [(⟨0⟩, false)] ⟨2⟩ := hentry.step (e := ⟨⟨2⟩, .onTrue⟩) (by decide)
  have hlast : joinGraph.Route [(⟨2⟩, false), (⟨0⟩, false)] ⟨1⟩ :=
    hright.step (e := ⟨⟨1⟩, .normal⟩) (by decide)
  have hown : .use ⟨4⟩ ∈ (renamedForm events).ownEvents ⟨1⟩ :=
    (hsited ⟨4⟩ _ rfl).resolve_left nofun
  obtain ⟨k, hk⟩ := List.mem_iff_getElem?.mp hown
  exact ⟨rfl, lower_joinArena, hcount, ofFunction_joinArena, hleft, hlast, _, _, k, hf, hk,
    fun passed hroute => hreads passed ⟨1⟩ hroute k ⟨4⟩ hk⟩

end TypedSsa

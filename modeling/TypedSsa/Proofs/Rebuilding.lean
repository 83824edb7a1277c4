import TypedSsa.Program.Table
import TypedSsa.Proofs.Liveness

/-!
The graph of a function, put together again from its blocks and loops. Main statement:
`Finished.ofParts`. Every check accepts what lowering makes, pruned as it is.
-/

namespace TypedSsa.FlowGraph

variable {g : FlowGraph}

/-! What the checks ask for. -/

theorem validate_ok : g.validate = .ok () ↔ g.contains g.entry = true ∧
    ∀ b ∈ g.blocks, b.terminator.isNone = false ∧
      ∀ e ∈ b.successors, g.contains e.target = true := by
  have hblock : ∀ b, g.validateBlock b = .ok () ↔
      b.terminator.isNone = false ∧ ∀ e ∈ b.successors, g.contains e.target = true := by
    intro b
    unfold validateBlock
    cases b.terminator.isNone with
    | true => exact ⟨nofun, nofun⟩
    | false =>
      rw [if_neg Bool.false_ne_true]
      cases hfind : b.successors.find? (fun e => !g.contains e.target) with
      | none => simpa using hfind
      | some e =>
        refine ⟨nofun, fun h => ?_⟩
        have hmissing := List.find?_some hfind
        rw [h.2 e (List.mem_of_find?_eq_some hfind)] at hmissing
        cases hmissing
  unfold validate
  split
  · rename_i hentry
    refine forM_ok_iff.trans ?_
    simp only [hblock, hentry, true_and]
  · rename_i hentry
    exact ⟨nofun, fun h => absurd h.1 hentry⟩

theorem checkEdges_ok : g.checkEdges = .ok () ↔ ∀ b ∈ g.blocks,
    b.successors.filter (·.kind != .exception) = b.terminatorEdges ∧
      (∀ t ∈ b.targets, b.id ∈ g.predecessors t) ∧ ∀ p ∈ b.predecessors, b.id ∈ g.targets p := by
  refine forM_ok_iff.trans (forall₂_congr fun b _ => ?_)
  unfold checkBlockEdges
  by_cases hedges : b.terminatorEdges = b.successors.filter (·.kind != .exception)
  · rw [if_neg (not_not.mpr hedges), hedges]
    cases htargets : b.targets.find? (fun t => !(g.predecessors t).contains b.id) with
    | some t =>
      refine ⟨nofun, fun h => ?_⟩
      have hmissing := List.find?_some htargets
      rw [List.contains_iff_mem.mpr (h.2.1 t (List.mem_of_find?_eq_some htargets))] at hmissing
      cases hmissing
    | none =>
      cases hsources : b.predecessors.find? (fun p => !(g.targets p).contains b.id) with
      | some p =>
        refine ⟨nofun, fun h => ?_⟩
        have hmissing := List.find?_some hsources
        rw [List.contains_iff_mem.mpr (h.2.2 p (List.mem_of_find?_eq_some hsources))] at hmissing
        cases hmissing
      | none => simpa using And.intro htargets hsources
  · rw [if_pos hedges]
    exact ⟨nofun, fun h => absurd h.1.symm hedges⟩

/-- A graph that both checks accept may list a predecessor again, but only what is one. -/
theorem consistent_of_checks (hvalid : g.validate = .ok ()) (hedges : g.checkEdges = .ok ()) :
    Consistent g := by
  obtain ⟨hentry, hblocks⟩ := validate_ok.mp hvalid
  have hedges := checkEdges_ok.mp hedges
  refine ⟨hentry, fun {s t} ht => ?_, fun {p t} => ⟨fun hp => ?_, fun ht => ?_⟩⟩
  · obtain ⟨b, hb, ht⟩ := mem_targets.mp ht
    obtain ⟨e, he, rfl⟩ := Block.mem_targets.mp ht
    exact (hblocks b (block?_mem hb)).2 e he
  · obtain ⟨b, hb, hp⟩ := mem_predecessors.mp hp
    exact block?_id hb ▸ (hedges b (block?_mem hb)).2.2 p hp
  · obtain ⟨b, hb, ht⟩ := mem_targets.mp ht
    exact block?_id hb ▸ (hedges b (block?_mem hb)).2.1 t ht

theorem ofFunction_validate {a : Arena} {fn : NodeId} (h : ofFunction a fn = .ok g) :
    g.validate = .ok () := by
  unfold ofFunction at h
  obtain ⟨view, -, h⟩ := except_bind_ok h
  obtain ⟨whole, -, h⟩ := except_bind_ok h
  obtain ⟨⟨⟩, hvalidate, h⟩ := except_bind_ok h
  obtain ⟨⟨⟩, -, h⟩ := except_bind_ok h
  cases h
  exact hvalidate

/-- Where edges and predecessor lists tell the same, only the terminators need a check. -/
theorem Linked.checkEdges_ok (h : g.Linked) (honce : g.blockIds.Nodup) : g.checkEdges = .ok () ↔
    ∀ b ∈ g.blocks, b.successors.filter (·.kind != .exception) = b.terminatorEdges := by
  rw [FlowGraph.checkEdges_ok]
  refine ⟨fun hedges b hb => (hedges b hb).1,
    fun hsynced b hb => ⟨hsynced b hb, fun t ht => ?_, fun p hp => ?_⟩⟩
  · rw [h.sources]
    exact mem_targets.mpr ⟨b, block?_of_mem honce hb, ht⟩
  · rw [← h.sources, predecessors, block?_of_mem honce hb]
    exact hp

theorem Finished.checkEdges (h : g.Finished) : g.checkEdges = .ok () :=
  (h.linked.checkEdges_ok h.once).mpr h.synced

/-- What the parts are put together to, before any check. -/
def assembled (name : String) (entry : BlockId) (blocks : List Block) (loops : List LoopInfo) :
    FlowGraph where
  function := name
  entry := entry
  blocks := blocks.foldl (putBy Block.id) []
  loops := loops.foldl (putBy LoopInfo.construct) []
  nextBlock := (blocks.map (fun b => min (b.id.raw + 1) Ident.invalidRaw)).foldl max 0

theorem ofParts_eq_ok {name : String} {entry : BlockId} {blocks : List Block}
    {loops : List LoopInfo} : ofParts name entry blocks loops = .ok g ↔
      (assembled name entry blocks loops).validate = .ok () ∧
        (assembled name entry blocks loops).checkEdges = .ok () ∧
        g = assembled name entry blocks loops := by
  constructor
  · intro run
    unfold ofParts at run
    obtain ⟨⟨⟩, hvalid, run⟩ := except_bind_ok run
    obtain ⟨⟨⟩, hedges, run⟩ := except_bind_ok run
    exact ⟨hvalid, hedges, (Except.ok.inj run).symm⟩
  · rintro ⟨hvalid, hedges, rfl⟩
    change ((assembled name entry blocks loops).validate >>= fun _ =>
      (assembled name entry blocks loops).checkEdges >>= fun _ => .ok _) = _
    rw [hvalid, hedges]
    rfl

/-- A graph under a name, with its counter right after the last of its blocks. -/
def renewed (g : FlowGraph) (name : String) : FlowGraph :=
  { g with
    function := name
    nextBlock := (g.blocks.map (fun b => min (b.id.raw + 1) Ident.invalidRaw)).foldl max 0
    dominance := none }

/-- Whether a graph is put together again from its parts depends on its edges alone, if it is valid
and no two of its blocks or loops have one key. -/
theorem ofParts_renewed (honce : g.blockIds.Nodup) (hloops : (g.loops.map (·.construct)).Nodup)
    (hvalid : g.validate = .ok ()) (name : String) {g' : FlowGraph} :
    FlowGraph.ofParts name g.entry g.blocks g.loops = .ok g' ↔
      g.checkEdges = .ok () ∧ g' = g.renewed name := by
  have hassembled : assembled name g.entry g.blocks g.loops = g.renewed name := by
    rw [assembled, foldl_putBy_eq_self honce, foldl_putBy_eq_self hloops]
    rfl
  have hvalid' : (g.renewed name).validate = .ok () :=
    validate_ok.mpr (validate_ok (g := g) |>.mp hvalid)
  have hedges : (g.renewed name).checkEdges = .ok () ↔ g.checkEdges = .ok () :=
    checkEdges_ok.trans (checkEdges_ok (g := g)).symm
  rw [ofParts_eq_ok, hassembled, hedges]
  exact and_iff_right hvalid'

/-- A graph is put together again from its parts. -/
theorem Finished.ofParts (h : g.Finished) (hvalid : g.validate = .ok ()) (name : String) :
    FlowGraph.ofParts name g.entry g.blocks g.loops = .ok (g.renewed name) :=
  (ofParts_renewed h.once h.loops hvalid name).mpr ⟨h.checkEdges, rfl⟩

theorem build_name {name name' : String} {order : Array BlockId}
    {predecessors : BlockId → List BlockId} {t : DominatorTree}
    (h : DominatorTree.build name order predecessors = .ok t) :
    DominatorTree.build name' order predecessors = .ok t := by
  unfold DominatorTree.build at h ⊢
  dsimp only at h ⊢
  split at h
  · cases h
  · exact h

/-- The tree does not depend on the name. -/
theorem ensureDominance_renewed {t : DominatorTree} (name : String)
    (h : g.buildDominance = .ok t) : (g.renewed name).ensureDominance =
      .ok (t, { g.renewed name with dominance := some t }) := by
  have htree : (g.renewed name).buildDominance = .ok t := by
    unfold buildDominance at h ⊢
    split at h
    · rename_i hentry
      rw [show (g.renewed name).contains (g.renewed name).entry = true from hentry, if_pos rfl]
      exact build_name h
    · cases h
  unfold ensureDominance
  rw [show (g.renewed name).dominance = none from rfl, htree]
  rfl

end TypedSsa.FlowGraph

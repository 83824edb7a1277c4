import TypedSsa.Proofs.Refinement
import TypedSsa.Proofs.Refusing
import TypedSsa.Proofs.Shaping

/-!
The shape of a function's graph. Blocks that the entry does not reach are dropped after lowering;
what is left has the shape that single assignment relies on. Main statement:
`FlowGraph.ofFunction_regular`.
-/

namespace TypedSsa
namespace FlowGraph

variable {g : FlowGraph} {b : BlockId} {l : LoopInfo} {role : BlockRole}

/-- The shape that single assignment relies on. Handlers are where exceptions lead, and these leave
calm blocks. A cycle goes through the header of a loop that dominates it, and the header of a loop
dominates the blocks of the loop. -/
structure Regular (g : FlowGraph) : Prop where
  entry : ∃ blk, g.block? g.entry = some blk ∧ blk.predecessors = []
  unentered : ∀ b, g.entry ∉ g.targets b
  reached : ∀ blk ∈ g.blocks, g.Reachable blk.id
  ended : ∀ blk ∈ g.blocks, ∃ t, blk.terminator = some t
  raises : ∀ blk ∈ g.blocks, ∀ e ∈ blk.successors,
    e.kind = .exception ↔ g.HasRole e.target .handler
  calm : ∀ blk ∈ g.blocks, ∀ handler, ⟨handler, .exception⟩ ∈ blk.successors → blk.Calm
  cycles : ∀ b bs, g.Cycle b bs →
    ∃ k ∈ b :: bs, g.HasRole k .loopHeader ∧ ∀ x ∈ b :: bs, g.Dominates k x
  loops : ∀ l ∈ g.loops, g.contains l.header = true ∧ g.contains l.exit = true ∧
    ∀ b, l.latch = some b ∨ b ∈ l.body → g.contains b = true ∧ g.Dominates l.header b

theorem Sound.mem_targets_of_ends (h : Sound g) {t : Terminator} {e : Edge}
    (hends : g.ends? b = some t) (he : e ∈ t.edges) : e.target ∈ g.targets b := by
  obtain ⟨blk, hblk, hterm⟩ := ends?_some.mp hends
  have hsynced := h.synced b blk hblk
  rw [Block.terminatorEdges, hterm, Option.map_some, Option.getD_some] at hsynced
  rw [← hsynced] at he
  exact mem_targets_bare.mpr ⟨blk, hblk, e, (List.mem_filter.mp he).1, rfl⟩

/-! What is left after pruning. -/

theorem Linked.hasRole_prune (h : Linked g) :
    g.prune.2.HasRole b role ↔ g.Reachable b ∧ g.HasRole b role := by
  obtain ⟨keep, hkeep, hblock⟩ := h.block?_prune
  rw [HasRole, HasRole, hblock, ← hkeep]
  cases keep b <;> simp

/-- A loop that is kept is one that there was, without the blocks that are gone. -/
theorem Linked.loop_of_prune (h : Linked g) (hl : l ∈ g.prune.2.loops)
    (hheld : ∀ m ∈ g.loops, ∀ b, m.latch = some b ∨ m.Holds b → g.contains b = true) :
    ∃ m ∈ g.loops, l.header = m.header ∧ l.exit = m.exit ∧ g.Reachable l.header ∧
      ∀ b, l.latch = some b ∨ b ∈ l.body → (m.latch = some b ∨ b ∈ m.body) ∧ g.Reachable b := by
  unfold FlowGraph.prune at hl
  dsimp only at hl
  split at hl
  · rename_i hall
    rw [List.isEmpty_iff, List.filter_eq_nil_iff] at hall
    have hreach : ∀ b, l.latch = some b ∨ l.Holds b → g.Reachable b := by
      intro b hb
      have hkept := hall b (mem_blockIds.mpr (hheld l hl b hb))
      rwa [Bool.not_eq_true', Bool.not_eq_false, h.kept_iff] at hkept
    exact ⟨l, hl, rfl, rfl, hreach _ (.inr (.inl rfl)),
      fun b hb => ⟨hb, hreach b (hb.imp_right .inr)⟩⟩
  · obtain ⟨m, hm, rfl⟩ := List.mem_map.mp hl
    obtain ⟨hm, hheader⟩ := List.mem_filter.mp hm
    refine ⟨m, hm, rfl, rfl, h.kept_iff.mp hheader, fun b hb => ?_⟩
    rcases hb with hb | hb
    · obtain ⟨hlatch, hkept⟩ := Option.filter_eq_some_iff.mp hb
      exact ⟨.inl hlatch, h.kept_iff.mp hkept⟩
    · obtain ⟨hbody, hkept⟩ := List.mem_filter.mp hb
      exact ⟨.inr hbody, h.kept_iff.mp hkept⟩

theorem Linked.targets_prune_subset (h : Linked g) (b : BlockId) :
    g.prune.2.targets b ⊆ g.targets b :=
  fun _ hy => (h.mem_targets_prune.mp hy).2

theorem Shape.entry_prune (h : g.Shape) : g.prune.2.entry.raw = 0 := by
  rw [FlowGraph.entry_prune, h.entry]

/-- The edges back are hedged among the edges that are kept. -/
theorem Sound.cycle_prune (h : Sound g) (hshape : g.Shape) {bs : List BlockId}
    (hcycle : g.prune.2.Cycle b bs) :
    ∃ k ∈ b :: bs, g.prune.2.HasRole k .loopHeader ∧ ∀ x ∈ b :: bs, g.prune.2.Dominates k x := by
  have hin := hcycle.contains h.linked.prune
  have henclosed : g.prune.2.Enclosed 0 g.nextBlock := by
    refine hshape.enclosed.of_le h.linked.targets_prune_subset (fun x y role hy hrole => ?_)
    obtain ⟨hreach, hedge⟩ := h.linked.mem_targets_prune.mp hy
    exact h.linked.hasRole_prune.mpr ⟨hreach.tail hedge, hrole⟩
  refine henclosed.cycle hshape.entry_prune (fun x hx => h.finished_prune.reached x (hin x hx))
    (fun x hx => ?_) hcycle
  have hreach := h.linked.contains_prune.mp (hin x hx)
  exact (h.ids x).mp (h.linked.contains_of_reachable hreach)

/-- The header of a loop that is kept leads to the exit, and the rest of the loop is entered there
alone. -/
theorem Sound.loop_prune (h : Sound g) (hshape : g.Shape) (hl : l ∈ g.prune.2.loops) :
    g.prune.2.contains l.header = true ∧ g.prune.2.contains l.exit = true ∧
      ∀ b, l.latch = some b ∨ b ∈ l.body →
        g.prune.2.contains b = true ∧ g.prune.2.Dominates l.header b := by
  have hheld : ∀ m ∈ g.loops, ∀ b, m.latch = some b ∨ m.Holds b → g.contains b = true := by
    intro m hm b hb
    obtain ⟨condition, start, hends⟩ := (hshape.loops m hm).header
    obtain ⟨hi, hhi, -, hrange⟩ := (hshape.loops m hm).range
    rw [LoopInfo.Holds, or_left_comm] at hb
    rcases hb with rfl | hb
    · exact contains_of_ends hends
    · exact (h.ids b).mpr (Nat.lt_of_lt_of_le (hrange b hb).2 hhi)
  obtain ⟨m, hm, hheader, hexit, hreach, hkept⟩ := h.linked.loop_of_prune hl hheld
  obtain ⟨condition, start, hends⟩ := (hshape.loops m hm).header
  obtain ⟨hi, -, hsealed, hrange⟩ := (hshape.loops m hm).range
  rw [← hheader] at hends hsealed hrange
  rw [← hexit] at hends
  have hleads : l.exit ∈ g.targets l.header :=
    h.mem_targets_of_ends (e := ⟨l.exit, .onFalse⟩) hends (by simp [Terminator.edges])
  refine ⟨h.linked.contains_prune.mpr hreach, h.linked.contains_prune.mpr (hreach.tail hleads),
    fun b hb => ?_⟩
  obtain ⟨hold, hreach⟩ := hkept b hb
  obtain ⟨hlt, hhi⟩ := hrange b hold
  have hin := h.linked.contains_prune.mpr hreach
  have hsealed : g.prune.2.Sealed (l.header.raw + 1) hi l.header.raw :=
    fun x y hy => hsealed x y (h.linked.targets_prune_subset x hy)
  have hentry := hshape.entry_prune
  exact ⟨hin, hsealed.dominates (by omega) (h.finished_prune.reached b hin) hlt hhi⟩

theorem Sound.regular_prune (h : Sound g) (hshape : g.Shape)
    (hended : ∀ b, g.contains b = true → ∃ t, g.ends? b = some t) : g.prune.2.Regular := by
  have hfinished := h.finished_prune
  have hunentered : ∀ b, g.prune.2.entry ∉ g.prune.2.targets b := by
    intro b hb
    rw [entry_prune] at hb
    exact hshape.unentered b (h.linked.targets_prune_subset b hb)
  exact {
    entry := by
      obtain ⟨blk, hblk⟩ := contains_iff.mp hfinished.linked.entry
      refine ⟨blk, hblk, List.eq_nil_iff_forall_not_mem.mpr (fun p hp => hunentered p ?_)⟩
      exact hfinished.linked.sources.mp (mem_predecessors.mpr ⟨blk, hblk, hp⟩)
    unentered := hunentered
    reached := by
      intro blk hblk
      exact hfinished.reached blk.id (contains_iff.mpr ⟨blk, block?_of_mem hfinished.once hblk⟩)
    ended := by
      intro blk hblk
      obtain ⟨hreach, hends⟩ := block?_prune_bare h hblk
      rw [← hends]
      exact hended blk.id (h.linked.contains_of_reachable hreach)
    raises := by
      intro blk hblk e he
      obtain ⟨hreach, hbare⟩ := bare?_of_mem_prune h hblk
      have hedge : e.target ∈ g.targets blk.id := mem_targets_bare.mpr ⟨_, hbare, e, he, rfl⟩
      rw [(h.aimed blk.id blk.bare e hbare he).2, h.linked.hasRole_prune, hasRole_iff, Catches]
      exact (and_iff_right (hreach.tail hedge)).symm
    calm := by
      intro blk hblk handler hedge
      obtain ⟨-, hbare⟩ := bare?_of_mem_prune h hblk
      have hcalm := hshape.quiet blk.id blk.bare hbare (.inr ⟨handler, hedge⟩)
      exact ⟨hcalm.short, hcalm.jumps⟩
    cycles := fun b bs => h.cycle_prune hshape
    loops := fun l => h.loop_prune hshape }

/-- The graph of a function is regular. The counter of block ids must not have run over. -/
theorem ofFunction_regular {a : Arena} {fn : NodeId} {view : FunctionView} {whole : FlowGraph}
    (hview : a.function fn = .ok view) (hwhole : lower a view = .ok whole)
    (hcount : whole.blocks.length ≤ Ident.invalidRaw) (hg : ofFunction a fn = .ok g) :
    g.Regular := by
  obtain ⟨view', whole', hview', hwhole', rfl⟩ := ofFunction_ok hg
  obtain rfl := Except.ok.inj (hview.symm.trans hview')
  obtain rfl := Except.ok.inj (hwhole.symm.trans hwhole')
  obtain ⟨loops, hlowered⟩ := lower_flows hwhole hcount
  exact hlowered.sound.regular_prune (lower_shaped hwhole hcount) hlowered.ended

end FlowGraph

theorem ofFunction_regular_tryingArena :
    tryingArena.function ⟨7⟩ = .ok tryingView ∧
      FlowGraph.lower tryingArena tryingView = .ok tryingGraph ∧
      tryingGraph.blocks.length ≤ Ident.invalidRaw ∧
      FlowGraph.ofFunction tryingArena ⟨7⟩ = .ok tryingGraph ∧ tryingGraph.Regular ∧
      tryingGraph.Cycle ⟨4⟩ [⟨2⟩, ⟨3⟩, ⟨5⟩, ⟨7⟩] ∧ ∃ l ∈ tryingGraph.loops, ⟨7⟩ ∈ l.body := by
  have hcount : tryingGraph.blocks.length ≤ Ident.invalidRaw := by decide +kernel
  have hcycle : tryingGraph.Cycle ⟨4⟩ [⟨2⟩, ⟨3⟩, ⟨5⟩, ⟨7⟩] := by
    unfold FlowGraph.Cycle
    decide +kernel
  exact ⟨rfl, lower_tryingArena, hcount, ofFunction_tryingArena,
    FlowGraph.ofFunction_regular rfl lower_tryingArena hcount ofFunction_tryingArena, hcycle,
    by decide +kernel⟩

end TypedSsa

import TypedSsa.Proofs.Revising

/-!
What pruning leaves of a graph under any sequence of operations. Main statement:
`FlowGraph.revise_pruned`. Predecessor lists and edges refer to blocks that are left, and so does a
loop but for its exit, which is kept as it is and may be gone.
-/

namespace TypedSsa

/-- The blocks that a loop refers to. -/
def LoopInfo.Names (l : LoopInfo) (b : BlockId) : Prop :=
  b = l.header ∨ l.latch = some b ∨ b = l.exit ∨ b ∈ l.body

/-- The terminator's edges are among the successors. -/
def Block.Carries (b : Block) : Prop :=
  ∀ e ∈ b.terminatorEdges, e ∈ b.successors

namespace FlowGraph

variable {g g' : FlowGraph} {keep : BlockId → Bool} {l : LoopInfo} {b : BlockId}

/-- A graph less the blocks that are not kept. What is kept stands in the order it had, and only
predecessors, latches and bodies have lost what is not. -/
structure CutTo (g : FlowGraph) (keep : BlockId → Bool) (g' : FlowGraph) : Prop where
  function : g'.function = g.function
  entry : g'.entry = g.entry
  blocks : g'.blocks = (g.blocks.filter (fun b => keep b.id)).map
    (fun b => { b with predecessors := b.predecessors.filter keep })
  loops : g'.loops = (g.loops.filter (fun l => keep l.header)).map (LoopInfo.restrict keep)

/-- What blocks refer to are blocks. -/
structure Closed (g : FlowGraph) : Prop where
  predecessors : ∀ b ∈ g.blocks, ∀ p ∈ b.predecessors, g.contains p = true
  successors : ∀ b ∈ g.blocks, ∀ e ∈ b.successors, g.contains e.target = true
  terminators : ∀ b ∈ g.blocks, ∀ e ∈ b.terminatorEdges, g.contains e.target = true

/-! Terminators whose edges are successors. -/

theorem carries_setSuccessors (h : ∀ b ∈ g.blocks, b.Carries) {id : BlockId}
    {terminator : Option Terminator} {successors : List Edge} {lost gained : List BlockId}
    (hgiven : ∀ b : Block, b.terminator = terminator → b.successors = successors → b.Carries) :
    ∀ b ∈ (g.setSuccessors id terminator successors lost gained).blocks, b.Carries := by
  intro b hb
  rcases mem_setSuccessors hb with ⟨hsuccessors, hterminator⟩ | ⟨old, hold, hsame, hsame'⟩
  · exact hgiven b hterminator hsuccessors
  · intro e he
    rw [Block.terminatorEdges, hsame'] at he
    rw [hsame]
    exact h old hold e he

theorem carries_apply (h : ∀ b ∈ g.blocks, b.Carries) {r : Revision} (run : r.apply g = .ok g') :
    ∀ b ∈ g'.blocks, b.Carries := by
  cases r with
  | createBlock role construct depth =>
    cases run
    intro b hb
    rcases mem_putBy hb with rfl | hb
    · intro e he
      cases he
    · exact h b hb
  | pushSlot id slot =>
    intro b hb
    obtain ⟨old, hold, slots, rfl⟩ := mem_pushSlot run hb
    exact h old hold
  | setTerminator id t =>
    obtain ⟨old, lost, gained, -, -, -, rfl⟩ := setTerminator_ok run
    refine carries_setSuccessors h (fun b hterminator hsuccessors e he => ?_)
    rw [Block.terminatorEdges, hterminator] at he
    rw [hsuccessors]
    exact List.mem_append_left _ he
  | addExceptionEdge source handler =>
    obtain ⟨-, old, hold, ⟨-, rfl⟩ | ⟨-, gained, -, rfl⟩⟩ := addExceptionEdge_ok run
    · exact h
    · refine carries_setSuccessors h (fun b hterminator hsuccessors e he => ?_)
      rw [Block.terminatorEdges, hterminator] at he
      rw [hsuccessors]
      exact List.mem_append_left _ (h old (block?_mem hold) e he)
  | addLoop l =>
    cases run
    exact h
  | prune =>
    cases run
    intro b hb
    obtain ⟨old, hold, hsame⟩ := bare_of_mem_prune hb
    have hcarries : old.bare.Carries := h old hold
    rw [← hsame] at hcarries
    exact hcarries
  | ensureDominance =>
    obtain ⟨⟨t, g₁⟩, hensure, rfl⟩ := except_map_ok.mp run
    rcases ensureDominance_ok hensure with ⟨-, rfl⟩ | ⟨-, -, rfl⟩
    · exact h
    · exact h

theorem revise_carries (name : String) (rs : List Revision) :
    ∀ b ∈ ((FlowGraph.new name).revise rs).blocks, b.Carries := by
  refine revise_preserves (P := fun g => ∀ b ∈ g.blocks, b.Carries)
    (fun r _ g g' h run => carries_apply h run) ?_
  intro b hb e he
  obtain rfl := List.mem_singleton.mp hb
  cases he

theorem Revised.closed {made : Nat} (h : Revised made g) (hcarries : ∀ b ∈ g.blocks, b.Carries) :
    g.Closed := by
  have hsuccessors : ∀ b ∈ g.blocks, ∀ e ∈ b.successors, g.contains e.target = true := by
    intro b hb e he
    exact h.linked.closed (target_of_successor
      (mem_successors.mpr ⟨b, block?_of_mem h.once hb, he⟩))
  refine ⟨?_, hsuccessors, fun b hb e he => hsuccessors b hb e (hcarries b hb e he)⟩
  intro b hb p hp
  exact h.linked.contains_source (mem_predecessors.mpr ⟨b, block?_of_mem h.once hb, hp⟩)

/-! The blocks that are left, and the loops. -/

theorem restrict_eq_self (h : ∀ b, l.Names b → keep b = true) : LoopInfo.restrict keep l = l := by
  have hlatch : l.latch.filter keep = l.latch := by
    cases hl : l.latch with
    | none => rfl
    | some b => rw [Option.filter_some, if_pos (h b (.inr (.inl hl)))]
  have hbody : l.body.filter keep = l.body :=
    List.filter_eq_self.mpr (fun b hb => h b (.inr (.inr (.inr hb))))
  rw [LoopInfo.restrict, hlatch, hbody]

/-- Nothing is lost where everything is kept. -/
theorem Closed.cutTo_self (h : g.Closed)
    (hloops : ∀ l ∈ g.loops, ∀ b, l.Names b → g.contains b = true)
    (hkeep : ∀ b, g.contains b = true → keep b = true) : g.CutTo keep g where
  function := rfl
  entry := rfl
  blocks := by
    have hall : g.blocks.filter (fun b => keep b.id) = g.blocks := by
      refine List.filter_eq_self.mpr (fun b hb => hkeep b.id ?_)
      exact mem_blockIds.mp (List.mem_map_of_mem hb)
    rw [hall]
    symm
    calc g.blocks.map (fun b => { b with predecessors := b.predecessors.filter keep })
        = g.blocks.map id := ?_
      _ = g.blocks := List.map_id _
    refine List.map_congr_left (fun b hb => ?_)
    have hpredecessors : b.predecessors.filter keep = b.predecessors :=
      List.filter_eq_self.mpr (fun p hp => hkeep p (h.predecessors b hb p hp))
    rw [hpredecessors, id]
  loops := by
    have hnamed : ∀ l ∈ g.loops, ∀ b, l.Names b → keep b = true :=
      fun l hl b hb => hkeep b (hloops l hl b hb)
    have hall : g.loops.filter (fun l => keep l.header) = g.loops :=
      List.filter_eq_self.mpr (fun l hl => hnamed l hl l.header (.inl rfl))
    rw [hall, List.map_congr_left (fun l hl => restrict_eq_self (hnamed l hl)), List.map_id']

/-- Pruning takes out what the entry does not reach, and no more. -/
theorem Linked.cutTo_prune (h : g.Linked) (closed : g.Closed)
    (hloops : ∀ l ∈ g.loops, ∀ b, l.Names b → g.contains b = true) :
    ∃ keep : BlockId → Bool, (∀ b, keep b = true ↔ g.Reachable b) ∧
      g.prune.1 = g.blockIds.filter (fun b => !keep b) ∧ g.CutTo keep g.prune.2 := by
  let reached : Std.HashSet BlockId := .ofList g.reversePostorder
  refine ⟨reached.contains, fun _ => h.kept_iff, ?_⟩
  unfold FlowGraph.prune
  dsimp only
  split
  · rename_i hnone
    have hremoved := List.isEmpty_iff.mp hnone
    refine ⟨hremoved.symm, closed.cutTo_self hloops (fun b hb => ?_)⟩
    have hkept := List.filter_eq_nil_iff.mp hremoved b (mem_blockIds.mpr hb)
    rwa [Bool.not_eq_true', Bool.not_eq_false] at hkept
  · exact ⟨rfl, rfl, rfl, rfl, rfl⟩

/-- What a loop that is left refers to is left, its exit apart. -/
theorem CutTo.names (cut : g.CutTo keep g') (hl : l ∈ g'.loops) :
    ∃ m ∈ g.loops, keep m.header = true ∧ l = LoopInfo.restrict keep m ∧
      ∀ b, l.Names b → b ≠ l.exit → keep b = true := by
  rw [cut.loops] at hl
  obtain ⟨m, hm, rfl⟩ := List.mem_map.mp hl
  obtain ⟨hm, hheader⟩ := List.mem_filter.mp hm
  refine ⟨m, hm, hheader, rfl, ?_⟩
  rintro b (rfl | hlatch | rfl | hbody) hexit
  · exact hheader
  · exact (Option.filter_eq_some_iff.mp hlatch).2
  · exact absurd rfl hexit
  · exact (List.mem_filter.mp hbody).2

/-- The exits are left with their loops exactly if each loop that is entered can be left. -/
theorem CutTo.exits_iff (cut : g.CutTo keep g') :
    (∀ l ∈ g'.loops, ∀ b, l.Names b → keep b = true) ↔
      ∀ l ∈ g.loops, keep l.header = true → keep l.exit = true := by
  constructor
  · intro hall l hl hheader
    refine hall (LoopInfo.restrict keep l) ?_ l.exit (.inr (.inr (.inl rfl)))
    rw [cut.loops]
    exact List.mem_map_of_mem (List.mem_filter.mpr ⟨hl, hheader⟩)
  · intro hexits l hl b hb
    obtain ⟨m, hm, hheader, rfl, hnames⟩ := cut.names hl
    by_cases hexit : b = m.exit
    · exact hexit ▸ hexits m hm hheader
    · exact hnames b hb hexit

/-- A graph that is pruned is pruned to itself. -/
theorem Linked.prune_idem (h : g.Linked) : g.prune.2.prune = ([], g.prune.2) :=
  h.prune.prune_eq_self
    (fun _ hk => h.reachable_prune (h.contains_prune.mp (mem_blockIds.mp hk)))

/-- Pruning a graph that began new, whose loops refer to its blocks, takes out the blocks that the
entry does not reach and leaves the others as they were but for their predecessors. No list of
predecessors, edge, header, latch or body then refers to a block that is gone, and nothing is taken
out a second time. All exits are left if and only if from no loop that is entered the exit is out of
reach. -/
theorem revise_pruned (name : String) {rs : List Revision}
    (hmade : rs.countP Revision.isCreation ≤ Ident.invalidRaw)
    (hloops : ∀ l ∈ ((FlowGraph.new name).revise rs).loops, ∀ b, l.Names b →
      ((FlowGraph.new name).revise rs).contains b = true) :
    let g := (FlowGraph.new name).revise rs
    let g' := g.prune.2
    (∃ keep : BlockId → Bool, (∀ b, keep b = true ↔ g.Reachable b) ∧
      g.prune.1 = g.blockIds.filter (fun b => !keep b) ∧ g.CutTo keep g') ∧
      g'.Closed ∧ (∀ l ∈ g'.loops, ∀ b, l.Names b → b ≠ l.exit → g'.contains b = true) ∧
      g'.prune = ([], g') ∧
      ((∀ l ∈ g'.loops, ∀ b, l.Names b → g'.contains b = true) ↔
        ∀ l ∈ g.loops, g.Reachable l.header → g.Reachable l.exit) := by
  have hrevised := revised name hmade
  have hcarries := revise_carries name rs
  generalize (FlowGraph.new name).revise rs = g at hrevised hcarries hloops ⊢
  dsimp only
  have hlinked := hrevised.linked
  obtain ⟨keep, hkeep, hremoved, cut⟩ :=
    hlinked.cutTo_prune (hrevised.closed hcarries) hloops
  have hleft : ∀ b, g.prune.2.contains b = true ↔ keep b = true :=
    fun b => hlinked.contains_prune.trans (hkeep b).symm
  refine ⟨⟨keep, hkeep, hremoved, cut⟩, ?_, ?_, hlinked.prune_idem, ?_⟩
  · exact hrevised.prune.closed (carries_apply hcarries (r := .prune) rfl)
  · intro l hl b hb hexit
    obtain ⟨m, -, -, -, hnames⟩ := cut.names hl
    exact (hleft b).mpr (hnames b hb hexit)
  · simp only [hleft, ← hkeep]
    exact cut.exits_iff

def strandedLoop : LoopInfo := ⟨⟨9⟩, ⟨1⟩, some ⟨3⟩, ⟨4⟩, [⟨2⟩, ⟨3⟩], false, 1⟩

/-- The body of a loop returns, so that neither the latch nor the exit is reached. -/
def stranded : List Revision := [
  .createBlock .loopHeader (some ⟨9⟩) 0,
  .createBlock .loopBody (some ⟨9⟩) 1,
  .createBlock .loopLatch (some ⟨9⟩) 1,
  .createBlock .loopExit (some ⟨9⟩) 0,
  .setTerminator ⟨0⟩ (.jump ⟨1⟩ .normal),
  .setTerminator ⟨1⟩ (.jump ⟨2⟩ .normal),
  .setTerminator ⟨2⟩ (.returnWith none),
  .setTerminator ⟨3⟩ (.jump ⟨1⟩ .continueOn),
  .addLoop strandedLoop]

theorem revise_pruned_stranded :
    let g := (FlowGraph.new "f").revise stranded
    let g' := g.prune.2
    stranded.countP Revision.isCreation ≤ Ident.invalidRaw ∧
      (∀ l ∈ g.loops, ∀ b, l.Names b → g.contains b = true) ∧
      g'.Closed ∧ g'.prune = ([], g') ∧
      ¬∀ l ∈ g'.loops, ∀ b, l.Names b → g'.contains b = true := by
  have hmade : stranded.countP Revision.isCreation ≤ Ident.invalidRaw := by decide
  have hloops : ∀ l ∈ ((FlowGraph.new "f").revise stranded).loops, ∀ b, l.Names b →
      ((FlowGraph.new "f").revise stranded).contains b = true := by
    intro l hl
    obtain rfl : l = strandedLoop := List.mem_singleton.mp hl
    rintro b (rfl | hlatch | rfl | hbody)
    · rfl
    · obtain rfl := Option.some.inj hlatch
      rfl
    · rfl
    · rcases hbody with _ | ⟨_, _ | ⟨_, ⟨⟩⟩⟩
      · rfl
      · rfl
  have hreach : ∀ b, ((FlowGraph.new "f").revise stranded).Reachable b →
      b ∈ [(⟨0⟩ : BlockId), ⟨1⟩, ⟨2⟩] := by
    intro b hb
    induction hb with
    | refl => exact List.mem_cons_self
    | tail _ hedge ih =>
      have hclosed : ∀ x ∈ [(⟨0⟩ : BlockId), ⟨1⟩, ⟨2⟩],
          ∀ y ∈ ((FlowGraph.new "f").revise stranded).targets x, y ∈ [(⟨0⟩ : BlockId), ⟨1⟩, ⟨2⟩] := by
        decide
      exact hclosed _ ih _ hedge
  obtain ⟨-, hclosed, -, hagain, hexits⟩ := revise_pruned "f" hmade hloops
  refine ⟨hmade, hloops, hclosed, hagain, fun hall => ?_⟩
  have hheader : ((FlowGraph.new "f").revise stranded).Reachable ⟨1⟩ :=
    .single (show (⟨1⟩ : BlockId) ∈ ((FlowGraph.new "f").revise stranded).targets ⟨0⟩ by decide)
  have hexit := hexits.mp hall strandedLoop List.mem_cons_self hheader
  exact absurd (hreach _ hexit) (by decide)

end FlowGraph

end TypedSsa

import TypedSsa.Proofs.Importing
import TypedSsa.Proofs.Revising

/-!
The dominator tree that a graph keeps. Main statement: `revise_fresh`. An operation drops the tree, or
it changes nothing that the tree is computed from: the entry, the blocks, and the edges between them.
-/

namespace TypedSsa.FlowGraph

variable {g g' : FlowGraph}

/-- A tree is kept only as long as it is the tree of the graph. -/
def Fresh (g : FlowGraph) : Prop :=
  ∀ t, g.dominance = some t → g.buildDominance = .ok t

/-- What the tree is computed from. -/
structure SameEdges (g g' : FlowGraph) : Prop where
  function : g'.function = g.function
  entry : g'.entry = g.entry
  blocks : g'.blockIds = g.blockIds
  targets : g'.targets = g.targets
  predecessors : g'.predecessors = g.predecessors

theorem SameEdges.buildDominance (h : SameEdges g g') : g'.buildDominance = g.buildDominance := by
  have hcontains : g'.contains g'.entry = g.contains g.entry := by
    rw [Bool.eq_iff_iff, ← mem_blockIds, ← mem_blockIds, h.blocks, h.entry]
  have horder : g'.reversePostorder = g.reversePostorder := by
    rw [reversePostorder, reversePostorder, targets_index, targets_index, h.blocks, h.targets,
      h.entry]
  unfold FlowGraph.buildDominance
  rw [hcontains, horder, predecessors_index, predecessors_index, h.function, h.predecessors]

namespace Fresh

theorem of_none (h : g.dominance = none) : g.Fresh := by
  intro t ht
  rw [h] at ht
  cases ht

/-- The tree is left as it is, and so is what it was computed from. -/
theorem keep (h : g.Fresh) (hsame : SameEdges g g') (htree : g'.dominance = g.dominance) :
    g'.Fresh := by
  intro t ht
  rw [hsame.buildDominance]
  exact h t (htree ▸ ht)

theorem pushSlot (h : g.Fresh) {id : BlockId} {slot : Slot} (run : g.pushSlot id slot = .ok g') :
    g'.Fresh := by
  obtain rfl := pushSlot_ok run
  refine h.keep ⟨rfl, rfl, ?_, ?_, ?_⟩ rfl
  · exact g.blockIds_updateBlock id _ (fun _ => rfl)
  · funext k
    exact targets_updateBlock (by exact fun _ => rfl) (by exact fun _ => rfl) k
  · funext k
    exact predecessors_updateBlock (by exact fun _ => rfl) (by exact fun _ => rfl) k

theorem prune (h : g.Fresh) : g.prune.2.Fresh := by
  unfold FlowGraph.prune
  dsimp only
  split
  · exact h
  · exact of_none rfl

theorem apply (h : g.Fresh) {r : Revision} (run : r.apply g = .ok g') : g'.Fresh := by
  cases r with
  | createBlock role construct depth =>
    cases run
    exact of_none rfl
  | pushSlot id slot => exact h.pushSlot run
  | setTerminator id t =>
    obtain ⟨b, lost, gained, -, -, -, rfl⟩ := setTerminator_ok run
    exact of_none rfl
  | addExceptionEdge source handler =>
    obtain ⟨-, b, -, ⟨-, rfl⟩ | ⟨-, gained, -, rfl⟩⟩ := addExceptionEdge_ok run
    · exact h
    · exact of_none rfl
  | addLoop l =>
    cases run
    exact h.keep ⟨rfl, rfl, rfl, rfl, rfl⟩ rfl
  | prune =>
    cases run
    exact h.prune
  | ensureDominance =>
    obtain ⟨⟨t, g₁⟩, hensure, rfl⟩ := except_map_ok.mp run
    rcases ensureDominance_ok hensure with ⟨-, rfl⟩ | ⟨-, hbuild, rfl⟩
    · exact h
    · -- The tree that is kept from now on has just been computed.
      intro t' ht'
      obtain rfl := Option.some.inj ht'
      exact hbuild

/-- Whether a tree was kept makes no difference to what is answered. -/
theorem ensureDominance (h : g.Fresh) : g.ensureDominance.map (·.1) = g.buildDominance := by
  unfold FlowGraph.ensureDominance
  split
  · rename_i t ht
    rw [h t ht]
    rfl
  · cases g.buildDominance <;> rfl

end Fresh

/-- A graph as it is at first: new, or put together from parts. -/
inductive Started : FlowGraph → Prop
  | new (name : String) : Started (FlowGraph.new name)
  | ofParts {name : String} {entry : BlockId} {blocks : List Block} {loops : List LoopInfo}
    {g : FlowGraph} : FlowGraph.ofParts name entry blocks loops = .ok g → Started g

theorem Started.fresh (h : Started g) : g.Fresh := by
  cases h with
  | new name => exact .of_none rfl
  | ofParts run =>
    obtain ⟨-, -, hplain, -⟩ := ofParts_ok run
    exact .of_none hplain

/-- Whatever is done to a graph, a tree that it keeps is the one that is computed from it as it is,
and the tree that is asked for is that one too. -/
theorem revise_fresh (h : Started g) (rs : List Revision) :
    (∀ t, (g.revise rs).dominance = some t → (g.revise rs).buildDominance = .ok t) ∧
      (g.revise rs).ensureDominance.map (·.1) = (g.revise rs).buildDominance := by
  have hfresh : (g.revise rs).Fresh :=
    revise_preserves (fun _ _ _ _ hfresh run => hfresh.apply run) h.fresh
  exact ⟨hfresh, hfresh.ensureDominance⟩

/-- What is kept is asked for after a slot is added and before the entry is given other edges. -/
theorem revise_fresh_wiring :
    let g := (FlowGraph.new "f").revise
      (wiring ++ [.ensureDominance, .pushSlot ⟨0⟩ (.node ⟨0⟩)])
    Started (FlowGraph.new "f") ∧
      ∃ t, g.dominance = some t ∧ g.buildDominance = .ok t ∧
        (g.revise [.setTerminator ⟨0⟩ (.returnWith none)]).dominance = none := by
  have hrevised := revised "f" (show wiring.countP Revision.isCreation ≤ Ident.invalidRaw by decide)
  obtain ⟨t, hbuild, -⟩ := hrevised.linked.consistent.buildDominance
  have hrun : (Revision.ensureDominance.run ((FlowGraph.new "f").revise wiring)).2 =
      { (FlowGraph.new "f").revise wiring with dominance := some t } := by
    have hplain : ((FlowGraph.new "f").revise wiring).dominance = none := rfl
    simp only [Revision.run, Revision.apply, FlowGraph.ensureDominance, hplain, hbuild, Except.map]
  have hkept : ((FlowGraph.new "f").revise
      (wiring ++ [.ensureDominance, .pushSlot ⟨0⟩ (.node ⟨0⟩)])).dominance = some t := by
    rw [List.append_cons, revise_concat, revise_concat, hrun]
    rfl
  have hfresh := (revise_fresh (.new "f")
    (wiring ++ [.ensureDominance, .pushSlot ⟨0⟩ (.node ⟨0⟩)])).1 t hkept
  refine ⟨.new "f", t, hkept, hfresh, ?_⟩
  rw [List.append_cons, revise_concat, revise_concat, hrun]
  rfl

/-- Of a graph that began new, a tree that is kept tells which blocks are passed on every path. -/
theorem dominates_of_kept (name : String) {rs : List Revision}
    (hmade : rs.countP Revision.isCreation ≤ Ident.invalidRaw) {t : DominatorTree}
    (ht : ((FlowGraph.new name).revise rs).dominance = some t) (a b : BlockId) :
    t.dominates a b = true ↔ ((FlowGraph.new name).revise rs).Dominates a b := by
  have hfresh : ((FlowGraph.new name).revise rs).Fresh :=
    revise_preserves (fun _ _ _ _ hfresh run => hfresh.apply run) (Started.new name).fresh
  obtain ⟨t', hbuild, -, hexact⟩ := (revised name hmade).linked.consistent.buildDominance
  obtain rfl := Except.ok.inj ((hfresh t ht).symm.trans hbuild)
  exact hexact.dominates_iff

end TypedSsa.FlowGraph

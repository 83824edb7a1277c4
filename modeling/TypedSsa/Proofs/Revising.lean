import TypedSsa.Proofs.Liveness

/-!
Graphs under any sequence of operations. Main statement: `revise_indexed`. Predecessor lists and
edges tell the same at every time, a refused operation changes nothing, and predecessors that stay
keep their order, for lists are only filtered or added to at the end.
-/

namespace TypedSsa

/-! Lists that change and keep their order. -/

/-- What two lists have in common stands in the same order in both. -/
def KeepsOrder {α : Type} [DecidableEq α] (xs ys : List α) : Prop :=
  xs.filter (· ∈ ys) = ys.filter (· ∈ xs)

namespace KeepsOrder

variable {α : Type} [DecidableEq α] {xs ys : List α}

theorem refl (xs : List α) : KeepsOrder xs xs := rfl

theorem nil (xs : List α) : KeepsOrder xs [] := by
  simp [KeepsOrder]

theorem filter (xs : List α) (p : α → Bool) : KeepsOrder xs (xs.filter p) := by
  have hleft : ∀ x ∈ xs, decide (x ∈ xs.filter p) = p x := by
    intro x hx
    simp [List.mem_filter, hx]
  have hright : ∀ x ∈ xs.filter p, decide (x ∈ xs) = true := by
    intro x hx
    simpa using List.mem_of_mem_filter hx
  rw [KeepsOrder, List.filter_congr hleft, List.filter_eq_self.mpr hright]

theorem concat {x : α} (hx : x ∉ xs) : KeepsOrder xs (xs ++ [x]) := by
  have hleft : ∀ y ∈ xs, decide (y ∈ xs ++ [x]) = true := by
    intro y hy
    simp [hy]
  have hright : ∀ y ∈ xs, decide (y ∈ xs) = true := by simp
  rw [KeepsOrder, List.filter_eq_self.mpr hleft, List.filter_append,
    List.filter_eq_self.mpr hright, List.filter_cons_of_neg (by simpa using hx), List.filter_nil,
    List.append_nil]

end KeepsOrder

/-! Operations. -/

/-- An operation on a graph, which may be refused. -/
inductive Revision where
  | createBlock (role : BlockRole) (construct : Option NodeId) (depth : Nat)
  | pushSlot (id : BlockId) (slot : Slot)
  | setTerminator (id : BlockId) (t : Terminator)
  | addExceptionEdge (source handler : BlockId)
  | addLoop (l : LoopInfo)
  | prune
  | ensureDominance

namespace Revision

def apply (g : FlowGraph) : Revision → Except Fault FlowGraph
  | createBlock role construct depth => .ok (g.createBlock role construct depth).2
  | pushSlot id slot => g.pushSlot id slot
  | setTerminator id t => g.setTerminator id t
  | addExceptionEdge source handler => g.addExceptionEdge source handler
  | addLoop l => .ok (g.addLoop l)
  | prune => .ok g.prune.2
  | ensureDominance => g.ensureDominance.map (·.2)

/-- The outcome, and the graph after it. -/
def run (r : Revision) (g : FlowGraph) : Except Fault Unit × FlowGraph :=
  match r.apply g with
  | .ok g' => (.ok (), g')
  | .error e => (.error e, g)

def isCreation : Revision → Bool
  | createBlock .. => true
  | _ => false

theorem run_cases {r : Revision} {g : FlowGraph} :
    (∃ g', r.apply g = .ok g' ∧ r.run g = (.ok (), g')) ∨
      ∃ e, r.apply g = .error e ∧ r.run g = (.error e, g) := by
  unfold run
  cases happly : r.apply g with
  | ok g' => exact .inl ⟨g', rfl, rfl⟩
  | error e => exact .inr ⟨e, rfl, rfl⟩

end Revision

/-- Exceptions aside, the successors of a block are the edges of its terminator. -/
def Block.Synced (b : Block) : Prop :=
  b.successors.filter (·.kind != .exception) = b.terminatorEdges.filter (·.kind != .exception)

namespace FlowGraph

variable {g g' : FlowGraph} {made : Nat}

/-- One operation after another, those that are refused passed over. -/
def revise (g : FlowGraph) (rs : List Revision) : FlowGraph :=
  rs.foldl (fun g r => (r.run g).2) g

/-- What is kept by each of the operations that is done is kept by all. -/
theorem revise_preserves {P : FlowGraph → Prop} {rs : List Revision}
    (happly : ∀ r ∈ rs, ∀ {g g' : FlowGraph}, P g → r.apply g = .ok g' → P g') (hg : P g) :
    P (g.revise rs) := by
  induction rs generalizing g with
  | nil => exact hg
  | cons r rs ih =>
    have hrun : P (r.run g).2 := by
      rcases r.run_cases (g := g) with ⟨g', hdone, hrun⟩ | ⟨e, -, hrun⟩
      · rw [hrun]
        exact happly r List.mem_cons_self hg hdone
      · rw [hrun]
        exact hg
    exact ih (fun r hr => happly r (List.mem_cons_of_mem _ hr)) hrun

theorem revise_concat (g : FlowGraph) (rs : List Revision) (r : Revision) :
    g.revise (rs ++ [r]) = (r.run (g.revise rs)).2 := by
  rw [revise, List.foldl_append]
  rfl

/-! What an operation makes of the edges. -/

theorem pushSlot_ok {id : BlockId} {slot : Slot} (run : g.pushSlot id slot = .ok g') :
    g' = g.updateBlock id (fun b => { b with slots := b.slots ++ [slot] }) := by
  unfold pushSlot at run
  split at run
  · exact (Except.ok.inj run).symm
  · cases run

/-- A slot changes nothing else of its block. -/
theorem mem_pushSlot {id : BlockId} {slot : Slot} {b : Block}
    (run : g.pushSlot id slot = .ok g') (hb : b ∈ g'.blocks) :
    ∃ old ∈ g.blocks, ∃ slots, b = { old with slots } := by
  obtain rfl := pushSlot_ok run
  obtain ⟨old, hold, rfl⟩ := List.mem_map.mp hb
  split
  · exact ⟨old, hold, _, rfl⟩
  · exact ⟨old, hold, old.slots, rfl⟩

theorem ensureDominance_ok {t : DominatorTree} (run : g.ensureDominance = .ok (t, g')) :
    g.dominance = some t ∧ g' = g ∨
      g.dominance = none ∧ g.buildDominance = .ok t ∧ g' = { g with dominance := some t } := by
  unfold ensureDominance at run
  split at run
  · rename_i t' hcached
    cases run
    exact .inl ⟨hcached, rfl⟩
  · rename_i hnone
    obtain ⟨t', hbuild, hsame⟩ := except_map_ok.mp run
    cases hsame
    exact .inr ⟨hnone, hbuild, rfl⟩

theorem blockIds_updateBlock (g : FlowGraph) (id : BlockId) (change : Block → Block)
    (hchange : ∀ b, (change b).id = b.id) : (g.updateBlock id change).blockIds = g.blockIds := by
  rw [blockIds, updateBlock, List.map_map]
  refine List.map_congr_left (fun b _ => ?_)
  rw [Function.comp_apply]
  split
  · exact hchange b
  · rfl

theorem blockIds_setSuccessors (g : FlowGraph) (id : BlockId) (terminator : Option Terminator)
    (successors : List Edge) (lost gained : List BlockId) :
    (g.setSuccessors id terminator successors lost gained).blockIds = g.blockIds := by
  rw [← g.blockIds_updateBlock id (fun b => { b with terminator, successors }) (fun _ => rfl),
    blockIds, setSuccessors, List.map_map]
  exact List.map_congr_left (fun b _ => relinked_id id lost gained b)

theorem keepsOrder_relinked (source : BlockId) (lost gained : List BlockId) (b : Block) :
    KeepsOrder b.predecessors (relinked source lost gained b).predecessors := by
  unfold relinked
  split
  · exact .filter _ _
  · split
    · rename_i hgained
      simp only [Bool.and_eq_true, Bool.not_eq_true', List.contains_eq_mem,
        decide_eq_false_iff_not] at hgained
      exact .concat hgained.2
    · exact .refl _

theorem keepsOrder_setSuccessors (id : BlockId) (terminator : Option Terminator)
    (successors : List Edge) (lost gained : List BlockId) (b : BlockId) :
    KeepsOrder (g.predecessors b)
      ((g.setSuccessors id terminator successors lost gained).predecessors b) := by
  rw [predecessors, predecessors, block?_setSuccessors]
  cases g.block? b with
  | none => exact .refl _
  | some blk =>
    have hkept := keepsOrder_relinked id lost gained
      (if b = id then { blk with terminator, successors } else blk)
    rwa [show (if b = id then { blk with terminator, successors } else blk).predecessors =
      blk.predecessors by split <;> rfl] at hkept

/-- A block is given its successors and its terminator, or keeps them. -/
theorem mem_setSuccessors {id : BlockId} {terminator : Option Terminator} {successors : List Edge}
    {lost gained : List BlockId} {b : Block}
    (hb : b ∈ (g.setSuccessors id terminator successors lost gained).blocks) :
    b.successors = successors ∧ b.terminator = terminator ∨
      ∃ old ∈ g.blocks, b.successors = old.successors ∧ b.terminator = old.terminator := by
  have hrelinked : ∀ b, (relinked id lost gained b).terminator = b.terminator := by
    intro b
    unfold relinked
    split
    · rfl
    · split <;> rfl
  obtain ⟨changed, hchanged, rfl⟩ := List.mem_map.mp hb
  obtain ⟨old, hold, rfl⟩ := List.mem_map.mp hchanged
  rw [relinked_successors, hrelinked]
  split
  · exact .inl ⟨rfl, rfl⟩
  · exact .inr ⟨old, hold, rfl, rfl⟩

/-! What holds at every time. -/

/-- What holds of a graph in which so many blocks were made after the entry. -/
structure Revised (made : Nat) (g : FlowGraph) : Prop where
  linked : g.Linked
  once : g.blockIds.Nodup
  loops : (g.loops.map (·.construct)).Nodup
  synced : ∀ b ∈ g.blocks, b.Synced
  within : ∀ b ∈ g.blockIds, b.raw ≤ made
  next : g.nextBlock = (made + 1) % (Ident.invalidRaw + 1)

namespace Revised

theorem new (name : String) : Revised 0 (FlowGraph.new name) where
  linked := .new name
  once := List.nodup_singleton _
  loops := List.nodup_nil
  synced b hb := by
    obtain rfl := List.mem_singleton.mp hb
    rfl
  within b hb := by
    obtain rfl := List.mem_singleton.mp hb
    exact Nat.le_refl 0
  next := rfl

/-- The next block has an id that no block has. -/
theorem fresh (h : Revised made g) (hmade : made < Ident.invalidRaw) :
    g.nextBlock = made + 1 ∧ g.contains ⟨g.nextBlock⟩ = false := by
  have hnext : g.nextBlock = made + 1 := h.next.trans (Nat.mod_eq_of_lt (Nat.succ_lt_succ hmade))
  refine ⟨hnext, Bool.eq_false_iff.mpr (fun hcontains => ?_)⟩
  have hle := h.within _ (mem_blockIds.mpr hcontains)
  rw [hnext] at hle
  exact absurd hle (Nat.not_succ_le_self made)

theorem createBlock (h : Revised made g) (hmade : made < Ident.invalidRaw) (role : BlockRole)
    (construct : Option NodeId) (depth : Nat) :
    Revised (made + 1) (g.createBlock role construct depth).2 := by
  obtain ⟨hnext, hfresh⟩ := h.fresh hmade
  exact {
    linked := h.linked.createBlock role construct depth hfresh
    once := nodup_putBy _ h.once
    loops := h.loops
    synced := by
      intro b hb
      rcases mem_putBy hb with rfl | hb
      · rfl
      · exact h.synced b hb
    within := by
      intro b hb
      obtain ⟨blk, hblk, rfl⟩ := List.mem_map.mp hb
      rcases mem_putBy hblk with rfl | hold
      · exact Nat.le_of_eq hnext
      · exact Nat.le_succ_of_le (h.within _ (List.mem_map_of_mem hold))
    next := congrArg (fun n => (n + 1) % (Ident.invalidRaw + 1)) hnext }

/-- Edges are set anew for a block. -/
theorem setSuccessors (h : Revised made g) {id : BlockId} {terminator : Option Terminator}
    {successors : List Edge} {lost gained : List BlockId}
    (linked : Linked (g.setSuccessors id terminator successors lost gained))
    (hsynced : ∀ b : Block, b.successors = successors → b.terminator = terminator → b.Synced) :
    Revised made (g.setSuccessors id terminator successors lost gained) where
  linked := linked
  once := by
    rw [blockIds_setSuccessors]
    exact h.once
  loops := h.loops
  synced := by
    intro b hb
    rcases mem_setSuccessors hb with ⟨hsuccessors, hterminator⟩ | ⟨old, hold, hsame, hsame'⟩
    · exact hsynced b hsuccessors hterminator
    · rw [Block.Synced, hsame, Block.terminatorEdges, hsame']
      exact h.synced old hold
  within := by
    rw [blockIds_setSuccessors]
    exact h.within
  next := h.next

theorem setTerminator (h : Revised made g) {id : BlockId} {t : Terminator}
    (run : g.setTerminator id t = .ok g') : Revised made g' := by
  have linked := h.linked.setTerminator run
  obtain ⟨b, lost, gained, -, -, -, rfl⟩ := setTerminator_ok run
  refine h.setSuccessors linked (fun b' hsuccessors hterminator => ?_)
  have hraised : b.exceptionEdges.filter (·.kind != .exception) = [] := by
    simp [Block.exceptionEdges, List.filter_filter]
  rw [Block.Synced, hsuccessors, List.filter_append, hraised, List.append_nil,
    Block.terminatorEdges, hterminator]
  rfl

theorem addExceptionEdge (h : Revised made g) {source handler : BlockId}
    (run : g.addExceptionEdge source handler = .ok g') : Revised made g' := by
  have linked := h.linked.addExceptionEdge run
  obtain ⟨-, b, hb, ⟨-, rfl⟩ | ⟨-, gained, -, rfl⟩⟩ := addExceptionEdge_ok run
  · exact h
  · refine h.setSuccessors linked (fun b' hsuccessors hterminator => ?_)
    have hsynced := h.synced b (block?_mem hb)
    rw [Block.Synced, hsuccessors, List.filter_append, hsynced, Block.terminatorEdges,
      Block.terminatorEdges, hterminator]
    simp

theorem pushSlot (h : Revised made g) {id : BlockId} {slot : Slot}
    (run : g.pushSlot id slot = .ok g') : Revised made g' := by
  obtain rfl := pushSlot_ok run
  have hids := g.blockIds_updateBlock id (fun b => { b with slots := b.slots ++ [slot] })
    (fun _ => rfl)
  exact {
    linked := h.linked.updateBlock (fun _ => rfl) (fun _ => rfl) (fun _ => rfl)
    once := hids ▸ h.once
    loops := h.loops
    synced := by
      intro b hb
      obtain ⟨old, hold, slots, rfl⟩ := mem_pushSlot run hb
      exact h.synced old hold
    within := hids ▸ h.within
    next := h.next }

theorem prune (h : Revised made g) : Revised made g.prune.2 where
  linked := h.linked.prune
  once := h.once.sublist (sublist_blockIds_prune g)
  loops := h.loops.sublist (sublist_loops_prune g)
  synced := by
    intro b hb
    obtain ⟨old, hold, hsame⟩ := bare_of_mem_prune hb
    have hsynced : old.bare.Synced := h.synced old hold
    rw [← hsame] at hsynced
    exact hsynced
  within := fun b hb => h.within b ((sublist_blockIds_prune g).subset hb)
  next := by
    rw [← h.next]
    unfold FlowGraph.prune
    dsimp only
    split <;> rfl

/-- An operation keeps what holds at every time. Only a creation makes a block. -/
theorem apply (h : Revised made g) {r : Revision}
    (hmade : r.isCreation = true → made < Ident.invalidRaw) (run : r.apply g = .ok g') :
    Revised (made + [r].countP Revision.isCreation) g' := by
  cases r with
  | createBlock role construct depth =>
    cases run
    exact h.createBlock (hmade rfl) role construct depth
  | pushSlot id slot => exact h.pushSlot run
  | setTerminator id t => exact h.setTerminator run
  | addExceptionEdge source handler => exact h.addExceptionEdge run
  | addLoop l =>
    cases run
    exact ⟨⟨h.linked.entry, h.linked.closed, h.linked.sources, h.linked.once⟩, h.once,
      nodup_putBy l h.loops, h.synced, h.within, h.next⟩
  | prune =>
    cases run
    exact h.prune
  | ensureDominance =>
    obtain ⟨⟨t, g₁⟩, hensure, rfl⟩ := except_map_ok.mp run
    rcases ensureDominance_ok hensure with ⟨-, rfl⟩ | ⟨-, -, rfl⟩
    · exact h
    · exact ⟨⟨h.linked.entry, h.linked.closed, h.linked.sources, h.linked.once⟩, h.once, h.loops,
        h.synced, h.within, h.next⟩

theorem run (h : Revised made g) {r : Revision}
    (hmade : r.isCreation = true → made < Ident.invalidRaw) :
    Revised (made + [r].countP Revision.isCreation) (r.run g).2 := by
  rcases r.run_cases (g := g) with ⟨g', happly, hrun⟩ | ⟨e, happly, hrun⟩
  · rw [hrun]
    exact h.apply hmade happly
  · rw [hrun]
    -- Only operations that make no block are refused.
    have hplain : r.isCreation = false := by
      cases r with
      | createBlock => cases happly
      | _ => rfl
    simpa [hplain] using h

theorem revise (h : Revised made g) (rs : List Revision)
    (hmade : made + rs.countP Revision.isCreation ≤ Ident.invalidRaw) :
    Revised (made + rs.countP Revision.isCreation) (g.revise rs) := by
  induction rs generalizing made g with
  | nil => exact h
  | cons r rs ih =>
    have hcount : (r :: rs).countP Revision.isCreation =
        [r].countP Revision.isCreation + rs.countP Revision.isCreation := by
      rw [← List.countP_append]
      rfl
    rw [hcount, ← Nat.add_assoc] at hmade ⊢
    refine ih (h.run (fun hr => ?_)) hmade
    rw [List.countP_singleton, if_pos hr] at hmade
    omega

end Revised

theorem revised (name : String) {rs : List Revision}
    (hmade : rs.countP Revision.isCreation ≤ Ident.invalidRaw) :
    Revised (rs.countP Revision.isCreation) ((FlowGraph.new name).revise rs) := by
  have h := (Revised.new name).revise rs (by rwa [Nat.zero_add])
  rwa [Nat.zero_add] at h

/-! The index of the edges. -/

/-- A block is listed as a predecessor of another, once, just when both are there and an edge of the
one leads to the other. No edge leads elsewhere, and no two blocks have one id. -/
structure Indexed (g : FlowGraph) : Prop where
  sources : ∀ p b, p ∈ g.predecessors b ↔
    g.contains p = true ∧ g.contains b = true ∧ ∃ e ∈ g.successors p, e.target = b
  listed : ∀ b, (g.predecessors b).Nodup
  closed : ∀ p, ∀ e ∈ g.successors p, g.contains e.target = true
  once : g.blockIds.Nodup

theorem mem_targets_iff_successors {p b : BlockId} :
    b ∈ g.targets p ↔ ∃ e ∈ g.successors p, e.target = b := by
  cases h : g.block? p <;> simp [targets, successors, h, Block.mem_targets]

theorem Revised.indexed (h : Revised made g) : g.Indexed where
  sources := by
    intro p b
    rw [h.linked.sources, mem_targets_iff_successors]
    refine ⟨fun hedge => ?_, fun hedge => hedge.2.2⟩
    have htarget := mem_targets_iff_successors.mpr hedge
    exact ⟨h.linked.contains_source (h.linked.sources.mpr htarget), h.linked.closed htarget, hedge⟩
  listed := h.linked.once
  closed := fun p e he => h.linked.closed (target_of_successor he)
  once := h.once

theorem keepsOrder_createBlock (g : FlowGraph) (role : BlockRole) (construct : Option NodeId)
    (depth : Nat) (b : BlockId) : KeepsOrder (g.predecessors b)
      ((g.createBlock role construct depth).2.predecessors b) := by
  rw [predecessors, predecessors, block?_createBlock]
  split
  · exact .nil _
  · exact .refl _

theorem Linked.keepsOrder_prune (h : Linked g) (b : BlockId) :
    KeepsOrder (g.predecessors b) (g.prune.2.predecessors b) := by
  obtain ⟨keep, -, hblock⟩ := h.block?_prune
  rw [predecessors, predecessors, hblock]
  split
  · cases g.block? b with
    | none => exact .refl _
    | some blk => exact .filter _ _
  · exact .nil _

/-- Predecessors that are kept by an operation keep their order. -/
theorem Linked.keepsOrder_apply (h : Linked g) {r : Revision} (run : r.apply g = .ok g')
    (b : BlockId) : KeepsOrder (g.predecessors b) (g'.predecessors b) := by
  cases r with
  | createBlock role construct depth =>
    cases run
    exact g.keepsOrder_createBlock role construct depth b
  | pushSlot id slot =>
    have hsame : g'.predecessors b = g.predecessors b := by
      rw [pushSlot_ok run]
      exact predecessors_updateBlock (by exact fun _ => rfl) (by exact fun _ => rfl) b
    rw [hsame]
    exact .refl _
  | setTerminator id t =>
    obtain ⟨b', lost, gained, -, -, -, rfl⟩ := setTerminator_ok run
    exact keepsOrder_setSuccessors id _ _ lost gained b
  | addExceptionEdge source handler =>
    obtain ⟨-, b', -, ⟨-, rfl⟩ | ⟨-, gained, -, rfl⟩⟩ := addExceptionEdge_ok run
    · exact .refl _
    · exact keepsOrder_setSuccessors source _ _ [] gained b
  | addLoop l =>
    cases run
    exact .refl _
  | prune =>
    cases run
    exact h.keepsOrder_prune b
  | ensureDominance =>
    obtain ⟨⟨t, g₁⟩, hensure, rfl⟩ := except_map_ok.mp run
    rcases ensureDominance_ok hensure with ⟨-, rfl⟩ | ⟨-, -, rfl⟩
    · exact .refl _
    · exact .refl _

/-- Before and after each operation on a graph that began new, the predecessor lists are an index of
the edges. A refused operation changes nothing, a created block is a new one, and predecessors that
stay keep their order. There are ids for the blocks that are created. -/
theorem revise_indexed (name : String) (before : List Revision) (r : Revision)
    (hmade : (before ++ [r]).countP Revision.isCreation ≤ Ident.invalidRaw) :
    let g := (FlowGraph.new name).revise before
    let (outcome, g') := r.run g
    g.Indexed ∧ g'.Indexed ∧ (∀ e, outcome = .error e → g' = g) ∧
      (∀ role construct depth, r = .createBlock role construct depth →
        g.contains (g.createBlock role construct depth).1 = false) ∧
      ∀ b, KeepsOrder (g.predecessors b) (g'.predecessors b) := by
  dsimp only
  have hafter := revised name hmade
  rw [revise_concat] at hafter
  rw [List.countP_append] at hmade
  have hbefore := revised name (Nat.le_trans (Nat.le_add_right _ _) hmade)
  have hfresh : ∀ role construct depth, r = .createBlock role construct depth →
      ((FlowGraph.new name).revise before).contains
        (((FlowGraph.new name).revise before).createBlock role construct depth).1 = false := by
    rintro role construct depth rfl
    exact (hbefore.fresh (Nat.lt_of_succ_le hmade)).2
  refine ⟨hbefore.indexed, hafter.indexed, ?_, hfresh, ?_⟩
  · intro e he
    rcases r.run_cases (g := (FlowGraph.new name).revise before) with
      ⟨g', -, hrun⟩ | ⟨e', -, hrun⟩
    · rw [hrun] at he
      cases he
    · rw [hrun]
  · intro b
    rcases r.run_cases (g := (FlowGraph.new name).revise before) with
      ⟨g', happly, hrun⟩ | ⟨e', -, hrun⟩
    · rw [hrun]
      exact hbefore.linked.keepsOrder_apply happly b
    · rw [hrun]
      exact .refl _

/-- Three edges lead from the entry to a block that leads to itself. One edge, by an exception, is
left when the entry is given another terminator. The last operation is refused. -/
def wiring : List Revision := [
  .createBlock .handler none 0,
  .createBlock .loopHeader none 1,
  .setTerminator ⟨0⟩ (.branch (.expr ⟨0⟩) ⟨2⟩ ⟨2⟩),
  .addExceptionEdge ⟨0⟩ ⟨2⟩,
  .setTerminator ⟨1⟩ (.jump ⟨2⟩ .normal),
  .setTerminator ⟨2⟩ (.jump ⟨2⟩ .continueOn),
  .setTerminator ⟨0⟩ (.jump ⟨1⟩ .normal),
  .setTerminator ⟨2⟩ (.jump ⟨7⟩ .breakOut)]

theorem revise_indexed_wiring :
    let r := Revision.setTerminator ⟨1⟩ (.returnWith none)
    let g := (FlowGraph.new "f").revise wiring
    (wiring ++ [r]).countP Revision.isCreation ≤ Ident.invalidRaw ∧
      g.predecessors ⟨2⟩ = [⟨0⟩, ⟨1⟩, ⟨2⟩] ∧ (r.run g).2.predecessors ⟨2⟩ = [⟨0⟩, ⟨2⟩] ∧
      g.Indexed ∧ (r.run g).2.Indexed ∧ ∀ e, (r.run g).1 = .error e → (r.run g).2 = g := by
  have hmade : (wiring ++ [Revision.setTerminator ⟨1⟩ (.returnWith none)]).countP
      Revision.isCreation ≤ Ident.invalidRaw := by decide
  obtain ⟨hbefore, hafter, hrefused, -⟩ := revise_indexed "f" wiring _ hmade
  exact ⟨hmade, rfl, rfl, hbefore, hafter, hrefused⟩

end FlowGraph

end TypedSsa

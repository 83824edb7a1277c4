import TypedSsa.Proofs.Importing
import TypedSsa.Proofs.Revising

/-!
Which parts a graph is put together from. Main statement: `ofParts_describes`. The checks are for
edges and predecessor lists that tell the same. They do not see a predecessor that is listed again,
nor where among the edges of a terminator the exception edges stand, and of blocks with one id only
the last is looked at. A terminator that goes on as if by an exception they refuse, though the
operations on graphs do not.
-/

namespace TypedSsa

/-- The edges of the terminator come first, and then different exception edges. -/
def Block.Arranged (b : Block) : Prop :=
  ∃ raised, b.successors = b.terminatorEdges ++ raised ∧ raised.Nodup ∧
    ∀ e ∈ raised, e.kind = .exception

/-- The terminator does not go on as if by an exception. -/
def Block.EndsPlain (b : Block) : Prop :=
  ∀ e ∈ b.terminatorEdges, e.kind ≠ .exception

/-- A terminator that is set does not go on as if by an exception. -/
def Revision.EndsPlain : Revision → Prop
  | setTerminator _ t => ∀ e ∈ t.edges, e.kind ≠ .exception
  | _ => True

/-- The exception edges of a block are different if they come after its other edges. -/
theorem Block.Arranged.nodup_exceptionEdges {b : Block} (h : b.Arranged) (hplain : b.EndsPlain) :
    b.exceptionEdges.Nodup := by
  obtain ⟨raised, hsuccessors, hnodup, hraised⟩ := h
  have hnone : b.terminatorEdges.filter (·.kind == .exception) = [] :=
    List.filter_eq_nil_iff.mpr (fun e he => by simpa using hplain e he)
  have hall : raised.filter (·.kind == .exception) = raised :=
    List.filter_eq_self.mpr (fun e he => by simpa using hraised e he)
  rwa [exceptionEdges, hsuccessors, List.filter_append, hnone, hall, List.nil_append]

namespace FlowGraph

variable {g g' : FlowGraph} {made : Nat} {name : String} {entry : BlockId} {blocks : List Block}
  {loops : List LoopInfo}

/-- The blocks are those of a graph that begins at the entry, as the operations on graphs keep them. -/
structure Described (entry : BlockId) (blocks : List Block) : Prop where
  once : (blocks.map Block.id).Nodup
  entry : entry ∈ blocks.map Block.id
  ended : ∀ b ∈ blocks, b.terminator.isSome = true
  closed : ∀ b ∈ blocks, ∀ e ∈ b.successors, e.target ∈ blocks.map Block.id
  arranged : ∀ b ∈ blocks, b.Arranged
  sources : ∀ b ∈ blocks, ∀ p, p ∈ b.predecessors ↔
    ∃ c ∈ blocks, c.id = p ∧ ∃ e ∈ c.successors, e.target = b.id
  listed : ∀ b ∈ blocks, b.predecessors.Nodup

/-- What no check looks at is right. -/
structure Orderly (blocks : List Block) : Prop where
  once : (blocks.map Block.id).Nodup
  arranged : ∀ b ∈ blocks, b.Arranged
  listed : ∀ b ∈ blocks, b.predecessors.Nodup

/-- What the checks look at is right. -/
structure Coherent (entry : BlockId) (blocks : List Block) : Prop where
  entry : entry ∈ blocks.map Block.id
  ended : ∀ b ∈ blocks, b.terminator.isSome = true
  closed : ∀ b ∈ blocks, ∀ e ∈ b.successors, e.target ∈ blocks.map Block.id
  plain : ∀ b ∈ blocks, b.successors.filter (·.kind != .exception) = b.terminatorEdges
  sources : ∀ b ∈ blocks, ∀ p, p ∈ b.predecessors ↔
    ∃ c ∈ blocks, c.id = p ∧ ∃ e ∈ c.successors, e.target = b.id

/-! What the checks accept. -/

theorem exists_mem_targets {p t : BlockId} (honce : g.blockIds.Nodup) :
    t ∈ g.targets p ↔ ∃ c ∈ g.blocks, c.id = p ∧ ∃ e ∈ c.successors, e.target = t := by
  rw [mem_targets]
  constructor
  · rintro ⟨c, hc, ht⟩
    exact ⟨c, block?_mem hc, block?_id hc, Block.mem_targets.mp ht⟩
  · rintro ⟨c, hc, rfl, ht⟩
    exact ⟨c, block?_of_mem honce hc, Block.mem_targets.mpr ht⟩

theorem checks_ok (honce : g.blockIds.Nodup) :
    g.validate = .ok () ∧ g.checkEdges = .ok () ↔ Coherent g.entry g.blocks := by
  rw [validate_ok, checkEdges_ok]
  have hcontains : ∀ b, g.contains b = true ↔ b ∈ g.blocks.map Block.id :=
    fun b => mem_blockIds.symm
  have hpredecessors : ∀ b ∈ g.blocks, g.predecessors b.id = b.predecessors := by
    intro b hb
    rw [predecessors, block?_of_mem honce hb]
    rfl
  constructor
  · rintro ⟨⟨hentry, hblocks⟩, hedges⟩
    refine ⟨(hcontains _).mp hentry, fun b hb => ?_, fun b hb e he => ?_,
      fun b hb => (hedges b hb).1, fun b hb p => ⟨fun hp => ?_, ?_⟩⟩
    · simpa using (hblocks b hb).1
    · exact (hcontains _).mp ((hblocks b hb).2 e he)
    · exact (exists_mem_targets honce).mp ((hedges b hb).2.2 p hp)
    · rintro ⟨c, hc, rfl, hedge⟩
      rw [← hpredecessors b hb]
      exact (hedges c hc).2.1 b.id (Block.mem_targets.mpr hedge)
  · intro h
    refine ⟨⟨(hcontains _).mpr h.entry, fun b hb => ⟨?_, fun e he => ?_⟩⟩,
      fun b hb => ⟨h.plain b hb, fun t ht => ?_, fun p hp => ?_⟩⟩
    · simpa using h.ended b hb
    · exact (hcontains _).mpr (h.closed b hb e he)
    · obtain ⟨e, he, rfl⟩ := Block.mem_targets.mp ht
      obtain ⟨c, hc, hid⟩ := List.mem_map.mp (h.closed b hb e he)
      rw [← hid, hpredecessors c hc, h.sources c hc]
      exact ⟨b, hb, rfl, e, he, hid.symm⟩
    · exact (exists_mem_targets honce).mpr ((h.sources b hb p).mp hp)

theorem exists_ofParts : (∃ g, ofParts name entry blocks loops = .ok g) ↔
    Coherent entry (blocks.foldl (putBy Block.id) []) := by
  refine Iff.trans ?_ (checks_ok (g := assembled name entry blocks loops)
    (nodup_foldl_putBy Block.id blocks))
  constructor
  · rintro ⟨g, run⟩
    obtain ⟨hvalid, hedges, -⟩ := ofParts_eq_ok.mp run
    exact ⟨hvalid, hedges⟩
  · rintro ⟨hvalid, hedges⟩
    exact ⟨_, ofParts_eq_ok.mpr ⟨hvalid, hedges, rfl⟩⟩

/-- What the checks look at and what they do not make up a description, but that the checks ask for
plain ends too. -/
theorem coherent_orderly : Coherent entry blocks ∧ Orderly blocks ↔
    Described entry blocks ∧ ∀ b ∈ blocks, b.EndsPlain := by
  constructor
  · rintro ⟨h, horderly⟩
    refine ⟨⟨horderly.once, h.entry, h.ended, h.closed, horderly.arranged, h.sources,
      horderly.listed⟩, fun b hb e he => ?_⟩
    rw [← h.plain b hb] at he
    simpa using List.of_mem_filter he
  · rintro ⟨h, hplain⟩
    refine ⟨⟨h.entry, h.ended, h.closed, fun b hb => ?_, h.sources⟩,
      ⟨h.once, h.arranged, h.listed⟩⟩
    obtain ⟨raised, hsuccessors, -, hraised⟩ := h.arranged b hb
    have hkept : b.terminatorEdges.filter (·.kind != .exception) = b.terminatorEdges :=
      List.filter_eq_self.mpr (fun e he => by simpa using hplain b hb e he)
    have hgone : raised.filter (·.kind != .exception) = [] :=
      List.filter_eq_nil_iff.mpr (fun e he => by simpa using hraised e he)
    rw [hsuccessors, List.filter_append, hkept, hgone, List.append_nil]

/-! What the operations describe. -/

namespace Revised

/-- The terminators of a graph that operations made pass if no edge of theirs is by an exception. -/
theorem checkEdges_ok (h : Revised made g) :
    g.checkEdges = .ok () ↔ ∀ b ∈ g.blocks, b.EndsPlain := by
  rw [h.linked.checkEdges_ok h.once]
  refine forall₂_congr (fun b hb => ?_)
  rw [h.synced b hb, List.filter_eq_self]
  exact forall₂_congr (fun e _ => bne_iff_ne)

/-- With its edges in their order, a graph that operations made and that is valid is described by its
blocks. -/
theorem described (h : Revised made g) (hvalid : g.validate = .ok ())
    (harranged : ∀ b ∈ g.blocks, b.Arranged) : Described g.entry g.blocks where
  once := h.once
  entry := mem_blockIds.mpr h.linked.entry
  ended := by
    intro b hb
    simpa using ((validate_ok.mp hvalid).2 b hb).1
  closed := by
    intro b hb e he
    exact mem_blockIds.mpr (((validate_ok.mp hvalid).2 b hb).2 e he)
  arranged := harranged
  sources := by
    intro b hb p
    have hindex := h.linked.sources (p := p) (t := b.id)
    rw [exists_mem_targets h.once, predecessors, block?_of_mem h.once hb] at hindex
    exact hindex
  listed := by
    intro b hb
    have hlisted := h.linked.once b.id
    rw [predecessors, block?_of_mem h.once hb] at hlisted
    exact hlisted

end Revised

/-! Operations that set no such terminator. -/

/-- Each block has its edges in their order, and a plain end. -/
def Shaped (g : FlowGraph) : Prop :=
  ∀ b ∈ g.blocks, b.Arranged ∧ b.EndsPlain

namespace Shaped

/-- Edges are set anew for a block. -/
theorem setSuccessors (h : g.Shaped) {id : BlockId} {terminator : Option Terminator}
    {successors raised : List Edge} {lost gained : List BlockId}
    (hsuccessors : successors = (terminator.map (·.edges)).getD [] ++ raised)
    (hnodup : raised.Nodup) (hraised : ∀ e ∈ raised, e.kind = .exception)
    (hplain : ∀ e ∈ (terminator.map (·.edges)).getD [], e.kind ≠ .exception) :
    (g.setSuccessors id terminator successors lost gained).Shaped := by
  intro b hb
  rw [Block.Arranged, Block.EndsPlain, Block.terminatorEdges]
  rcases mem_setSuccessors hb with ⟨hset, hends⟩ | ⟨old, hold, hsame, hends⟩
  · rw [hset, hends]
    exact ⟨⟨raised, hsuccessors, hnodup, hraised⟩, hplain⟩
  · rw [hsame, hends]
    exact h old hold

theorem setTerminator (h : g.Shaped) {id : BlockId} {t : Terminator}
    (hplain : ∀ e ∈ t.edges, e.kind ≠ .exception) (run : g.setTerminator id t = .ok g') :
    g'.Shaped := by
  obtain ⟨b, lost, gained, hb, -, -, rfl⟩ := setTerminator_ok run
  obtain ⟨harranged, hends⟩ := h b (block?_mem hb)
  refine h.setSuccessors rfl (harranged.nodup_exceptionEdges hends) (fun e he => ?_) hplain
  simpa using List.of_mem_filter he

theorem addExceptionEdge (h : g.Shaped) {source handler : BlockId}
    (run : g.addExceptionEdge source handler = .ok g') : g'.Shaped := by
  obtain ⟨-, b, hb, ⟨-, rfl⟩ | ⟨hnew, gained, -, rfl⟩⟩ := addExceptionEdge_ok run
  · exact h
  · obtain ⟨⟨raised, hsuccessors, hnodup, hraised⟩, hends⟩ := h b (block?_mem hb)
    rw [hsuccessors] at hnew ⊢
    refine h.setSuccessors (List.append_assoc _ _ _) ?_ ?_ hends
    · refine List.nodup_append.mpr ⟨hnodup, List.nodup_singleton _, fun e he e' he' => ?_⟩
      rw [List.mem_singleton.mp he']
      rintro rfl
      exact hnew (List.mem_append_right _ he)
    · intro e he
      rcases List.mem_append.mp he with he | he
      · exact hraised e he
      · rw [List.mem_singleton.mp he]

theorem apply (h : g.Shaped) {r : Revision} (hplain : r.EndsPlain) (run : r.apply g = .ok g') :
    g'.Shaped := by
  cases r with
  | createBlock role construct depth =>
    cases run
    intro b hb
    rcases mem_putBy hb with rfl | hb
    · exact ⟨⟨[], rfl, List.nodup_nil, nofun⟩, nofun⟩
    · exact h b hb
  | pushSlot id slot =>
    intro b hb
    obtain ⟨old, hold, slots, rfl⟩ := mem_pushSlot run hb
    exact h old hold
  | setTerminator id t => exact h.setTerminator hplain run
  | addExceptionEdge source handler => exact h.addExceptionEdge run
  | addLoop l =>
    cases run
    exact h
  | prune =>
    cases run
    intro b hb
    obtain ⟨old, hold, hsame⟩ := bare_of_mem_prune hb
    have hshaped : old.bare.Arranged ∧ old.bare.EndsPlain := h old hold
    rw [← hsame] at hshaped
    exact hshaped
  | ensureDominance =>
    obtain ⟨⟨t, g₁⟩, hensure, rfl⟩ := except_map_ok.mp run
    rcases ensureDominance_ok hensure with ⟨-, rfl⟩ | ⟨-, -, rfl⟩
    · exact h
    · exact h

end Shaped

theorem revise_shaped (name : String) {rs : List Revision} (hplain : ∀ r ∈ rs, r.EndsPlain) :
    ((FlowGraph.new name).revise rs).Shaped := by
  refine revise_preserves (fun r hr _ _ hshaped run => hshaped.apply (hplain r hr) run) ?_
  intro b hb
  obtain rfl := List.mem_singleton.mp hb
  exact ⟨⟨[], rfl, List.nodup_nil, nofun⟩, nofun⟩

/-- Parts are accepted just when those of their blocks that are kept are coherent. So parts in which
what no check looks at is right are accepted just when they describe a graph, and no terminator goes
on as if by an exception. A valid graph that operations made is accepted, and comes back, just when
no terminator does; if none was ever set that does, then its blocks describe it. -/
theorem ofParts_describes (name : String) :
    (∀ entry blocks loops,
      ((∃ g, ofParts name entry blocks loops = .ok g) ↔
        Coherent entry (blocks.foldl (putBy Block.id) [])) ∧
      ((∃ g, ofParts name entry blocks loops = .ok g) ∧ Orderly blocks ↔
        Described entry blocks ∧ ∀ b ∈ blocks, b.EndsPlain)) ∧
    ∀ made rs, List.countP Revision.isCreation rs ≤ Ident.invalidRaw →
      let g := (FlowGraph.new made).revise rs
      g.validate = .ok () →
        (∀ g', ofParts name g.entry g.blocks g.loops = .ok g' ↔
          (∀ b ∈ g.blocks, b.EndsPlain) ∧ g' = g.renewed name) ∧
        ((∀ r ∈ rs, r.EndsPlain) →
          Described g.entry g.blocks ∧ ∀ b ∈ g.blocks, b.EndsPlain) := by
  refine ⟨fun entry blocks loops => ⟨exists_ofParts, ?_⟩, fun made rs hmade => ?_⟩
  · rw [← coherent_orderly, exists_ofParts]
    refine and_congr_left (fun horderly => ?_)
    rw [foldl_putBy_eq_self horderly.once]
  · dsimp only
    intro hvalid
    have hrevised := revised made hmade
    refine ⟨fun g' => ?_, fun hplain => ?_⟩
    · rw [ofParts_renewed hrevised.once hrevised.loops hvalid, hrevised.checkEdges_ok]
    · have hshaped := revise_shaped made hplain
      exact ⟨hrevised.described hvalid (fun b hb => (hshaped b hb).1),
        fun b hb => (hshaped b hb).2⟩

/-- A block that lists its predecessor twice. -/
def listedTwice : List Block := [
  { id := ⟨0⟩
    terminator := some (.jump ⟨1⟩ .normal)
    successors := [⟨⟨1⟩, .normal⟩]
    origin := ⟨.entry, 0, none⟩ },
  { id := ⟨1⟩
    terminator := some (.returnWith none)
    predecessors := [⟨0⟩, ⟨0⟩]
    origin := ⟨.join, 0, none⟩ }]

theorem ofParts_describes_wiring :
    let raising := wiring ++ [Revision.setTerminator ⟨1⟩ (.jump ⟨2⟩ .exception)]
    let g := (FlowGraph.new "f").revise wiring
    let g' := (FlowGraph.new "f").revise raising
    raising.countP Revision.isCreation ≤ Ident.invalidRaw ∧
      g.validate = .ok () ∧ ofParts "f" g.entry g.blocks g.loops = .ok (g.renewed "f") ∧
      Described g.entry g.blocks ∧
      g'.validate = .ok () ∧ (¬ ∃ h, ofParts "f" g'.entry g'.blocks g'.loops = .ok h) ∧
      (∃ h, ofParts "f" ⟨0⟩ listedTwice [] = .ok h) ∧ ¬ Described ⟨0⟩ listedTwice := by
  obtain ⟨-, hrevised⟩ := ofParts_describes "f"
  have hmade : (wiring ++ [Revision.setTerminator ⟨1⟩ (.jump ⟨2⟩ .exception)]).countP
      Revision.isCreation ≤ Ident.invalidRaw := by decide
  have hplain : ∀ r ∈ wiring, r.EndsPlain := by
    simp [wiring, Revision.EndsPlain, Terminator.edges]
  obtain ⟨haccepted, hshaped⟩ := hrevised "f" wiring (by decide) rfl
  obtain ⟨hdescribed, hends⟩ := hshaped hplain
  obtain ⟨hrefused, -⟩ := hrevised "f" _ hmade rfl
  refine ⟨hmade, rfl, (haccepted _).mpr ⟨hends, rfl⟩, hdescribed, rfl, ?_, ⟨_, rfl⟩, ?_⟩
  · rintro ⟨h, run⟩
    exact ((hrefused h).mp run).1 _ (List.mem_cons_of_mem _ List.mem_cons_self)
      ⟨⟨2⟩, .exception⟩ List.mem_cons_self rfl
  · intro h
    exact absurd (h.listed _ (List.mem_cons_of_mem _ List.mem_cons_self)) (by decide)

end FlowGraph

end TypedSsa

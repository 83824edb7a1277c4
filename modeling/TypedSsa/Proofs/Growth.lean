import TypedSsa.Proofs.Keys
import TypedSsa.Proofs.Layout

/-!
What a graph keeps while it is lowered. Blocks that have their terminator stay as they are, all but
for the exception edges that a `try` around them adds at its end.
-/

namespace TypedSsa

/-- A block but for its predecessors. -/
def Block.bare (b : Block) : Block :=
  { b with predecessors := [] }

/-- A block that more may be put into. In a guarded region it is empty yet. -/
structure Block.Open (guarded : Bool) (b : Block) : Prop where
  unended : b.terminator = none
  edgeless : b.successors = []
  empty : guarded = true → b.slots = []

/-- No handlers. -/
def uncaught (_ : BlockId) : Prop :=
  False

/-- What may become of a block. Its exceptions come to the given handlers besides. -/
structure Block.Grown (caught : BlockId → Prop) (b b' : Block) : Prop where
  origin : b'.origin = b.origin
  slots : b.slots <+: b'.slots
  ended : ∀ t, b.terminator = some t → b'.terminator = some t ∧ b'.slots = b.slots
  raises : ∀ h, ⟨h, .exception⟩ ∈ b'.successors ↔ ⟨h, .exception⟩ ∈ b.successors ∨ caught h

namespace Block.Grown

variable {b b' b'' : Block} {caught caught₁ caught₂ : BlockId → Prop}

theorem refl (b : Block) : Grown uncaught b b :=
  ⟨rfl, List.prefix_rfl, fun _ h => ⟨h, rfl⟩, fun _ => (or_false _).symm ▸ Iff.rfl⟩

theorem trans (h : Grown caught₁ b b') (h' : Grown caught₂ b' b'')
    (hcaught : ∀ k, caught k ↔ caught₁ k ∨ caught₂ k) : Grown caught b b'' := by
  refine ⟨h'.origin.trans h.origin, h.slots.trans h'.slots, ?_, ?_⟩
  · intro t ht
    obtain ⟨ht', hslots⟩ := h.ended t ht
    obtain ⟨ht'', hslots'⟩ := h'.ended t ht'
    exact ⟨ht'', hslots'.trans hslots⟩
  · intro k
    rw [h'.raises, h.raises, hcaught, or_assoc]

end Block.Grown

namespace FlowGraph

variable {g g' g'' : FlowGraph} {c : BlockId}

def bare? (g : FlowGraph) (c : BlockId) : Option Block :=
  (g.block? c).map Block.bare

theorem exists_bare {P : Block → Prop} (h : ∀ b, P b.bare ↔ P b) :
    (∃ b, g.block? c = some b ∧ P b) ↔ ∃ b, g.bare? c = some b ∧ P b := by
  constructor
  · rintro ⟨b, hb, hP⟩
    exact ⟨b.bare, by rw [bare?, hb]; rfl, (h b).mpr hP⟩
  · rintro ⟨b, hb, hP⟩
    obtain ⟨b₀, hb₀, rfl⟩ := Option.map_eq_some_iff.mp hb
    exact ⟨b₀, hb₀, (h b₀).mp hP⟩

theorem contains_iff_bare : g.contains c = true ↔ ∃ b, g.bare? c = some b := by
  rw [contains_eq_isSome, bare?, ← Option.isSome_map, Option.isSome_iff_exists]

theorem slotAt_iff {k : Nat} {s : Slot} :
    g.SlotAt c k s ↔ ∃ b, g.bare? c = some b ∧ b.slots[k]? = some s :=
  exists_bare (fun _ => Iff.rfl)

theorem endsAt_iff {k : Nat} {t : Terminator} :
    g.EndsAt c k t ↔ ∃ b, g.bare? c = some b ∧ b.slots.length = k ∧ b.terminator = some t :=
  exists_bare (fun _ => Iff.rfl)

theorem raisesTo_iff {handlers : BlockId → Prop} : g.RaisesTo handlers c ↔
    ∃ b, g.bare? c = some b ∧ ∀ h, ⟨h, .exception⟩ ∈ b.successors ↔ handlers h :=
  exists_bare (fun _ => Iff.rfl)

/-- The blocks of a region may have become more. -/
def Grows (caught region : BlockId → Prop) (g g' : FlowGraph) : Prop :=
  ∀ c, region c → ∀ b, g.bare? c = some b → ∃ b', g'.bare? c = some b' ∧ b.Grown caught b'

/-- Of the blocks that there were, those outside of a region have not changed, and in it they may
have become more. -/
structure Frame (region : BlockId → Prop) (g g' : FlowGraph) : Prop where
  entry : g'.entry = g.entry
  next : g.nextBlock ≤ g'.nextBlock
  only : ∀ c, ¬region c → g'.bare? c = g.bare? c
  grows : Grows uncaught (fun _ => True) g g'

/-- A block that exceptions lead to. -/
def Catches (g : FlowGraph) (c : BlockId) : Prop :=
  ∃ b, g.bare? c = some b ∧ b.origin.role = .handler

/-- A block that a terminator may lead to. -/
def Target (g : FlowGraph) (c : BlockId) : Prop :=
  c ≠ g.entry ∧ ∃ b, g.bare? c = some b ∧ b.origin.role ≠ .handler

/-- What holds of a graph at every moment of lowering, as long as the counter of block ids has not
run over. Handlers are entered by exceptions alone, and the entry not at all. -/
structure Sound (g : FlowGraph) : Prop where
  linked : Linked g
  ids : ∀ c, g.contains c = true ↔ c.raw < g.nextBlock
  count : g.blocks.length = g.nextBlock
  synced : ∀ c b, g.bare? c = some b →
    b.successors.filter (·.kind != .exception) = b.terminatorEdges
  aimed : ∀ c b e, g.bare? c = some b → e ∈ b.successors →
    e.target ≠ g.entry ∧ (e.kind = .exception ↔ g.Catches e.target)
  plain : g.dominance = none
  loops : (g.loops.map (·.construct)).Nodup

/-- One block of a graph is replaced. -/
structure Updates (g : FlowGraph) (c : BlockId) (b b' : Block) (g' : FlowGraph) : Prop where
  before : g.bare? c = some b
  after : ∀ k, g'.bare? k = if k = c then some b' else g.bare? k
  entry : g'.entry = g.entry
  next : g'.nextBlock = g.nextBlock
  count : g'.blocks.length = g.blocks.length
  plain : g.dominance = none → g'.dominance = none
  loops : g'.loops = g.loops
  linked : Linked g → Linked g'

/-- A block is added to a graph. -/
structure Creates (g : FlowGraph) (c : BlockId) (origin : BlockOrigin) (g' : FlowGraph) : Prop where
  id : c = ⟨g.nextBlock⟩
  before : g.bare? c = none
  after : ∀ k, g'.bare? k = if k = c then some { id := c, origin } else g.bare? k
  entry : g'.entry = g.entry
  next : g'.nextBlock = g.nextBlock + 1
  sound : Sound g'

/-- One block of a sound graph is now another, and it may only have become more. -/
structure Changes (g : FlowGraph) (c : BlockId) (b : Block) (g' : FlowGraph) : Prop where
  sound : Sound g'
  frame : Frame (· = c) g g'
  next : g'.nextBlock = g.nextBlock
  self : g'.bare? c = some b

/-- The blocks of a region, and no others, have come to raise to the given handlers besides. -/
structure Raises (caught region : BlockId → Prop) (g g' : FlowGraph) : Prop where
  sound : Sound g'
  entry : g'.entry = g.entry
  next : g'.nextBlock = g.nextBlock
  only : ∀ k, ¬region k → g'.bare? k = g.bare? k
  grows : Grows caught region g g'

namespace Grows

variable {caught caught₁ caught₂ region region' : BlockId → Prop}

theorem trans (h : Grows caught₁ region g g') (h' : Grows caught₂ region g' g'')
    (hcaught : ∀ k, caught k ↔ caught₁ k ∨ caught₂ k) : Grows caught region g g'' := by
  intro c hc b hb
  obtain ⟨b', hb', hgrown⟩ := h c hc b hb
  obtain ⟨b'', hb'', hgrown'⟩ := h' c hc b' hb'
  exact ⟨b'', hb'', hgrown.trans hgrown' hcaught⟩

theorem mono (h : Grows caught region g g') (hregion : ∀ c, region' c → region c) :
    Grows caught region' g g' :=
  fun c hc => h c (hregion c hc)

theorem of_only (h : ∀ c, region c → g'.bare? c = g.bare? c) : Grows uncaught region g g' :=
  fun c hc b hb => ⟨b, (h c hc).trans hb, .refl b⟩

theorem slotAt (h : Grows caught region g g') (hc : region c) {k : Nat} {s : Slot} {b : Block}
    (hb : g.bare? c = some b) (hs : b.slots[k]? = some s) : g'.SlotAt c k s := by
  obtain ⟨b', hb', hgrown⟩ := h c hc b hb
  refine slotAt_iff.mpr ⟨b', hb', ?_⟩
  obtain ⟨more, hmore⟩ := hgrown.slots
  obtain ⟨hlt, -⟩ := List.getElem?_eq_some_iff.mp hs
  rw [← hmore, List.getElem?_append_left hlt, hs]

theorem endsAt (h : Grows caught region g g') (hc : region c) {k : Nat} {t : Terminator}
    {b : Block} (hb : g.bare? c = some b) (hk : b.slots.length = k)
    (ht : b.terminator = some t) : g'.EndsAt c k t := by
  obtain ⟨b', hb', hgrown⟩ := h c hc b hb
  obtain ⟨ht', hslots⟩ := hgrown.ended t ht
  exact endsAt_iff.mpr ⟨b', hb', by rw [hslots, hk], ht'⟩

theorem raisesTo (h : Grows caught region g g') (hc : region c) {b : Block}
    (hb : g.bare? c = some b) (hnone : ∀ k, ⟨k, .exception⟩ ∉ b.successors) :
    g'.RaisesTo caught c := by
  obtain ⟨b', hb', hgrown⟩ := h c hc b hb
  refine raisesTo_iff.mpr ⟨b', hb', fun k => ?_⟩
  rw [hgrown.raises]
  exact ⟨fun h => h.resolve_left (hnone k), .inr⟩

end Grows

namespace Frame

variable {caught region region' : BlockId → Prop}

theorem refl (region : BlockId → Prop) (g : FlowGraph) : Frame region g g :=
  ⟨rfl, Nat.le_refl _, fun _ _ => rfl, .of_only (fun _ _ => rfl)⟩

theorem trans (h : Frame region g g') (h' : Frame region g' g'') : Frame region g g'' :=
  ⟨h'.entry.trans h.entry, Nat.le_trans h.next h'.next,
    fun c hc => (h'.only c hc).trans (h.only c hc),
    h.grows.trans h'.grows (fun _ => ⟨.inl, fun h => h.elim id id⟩)⟩

theorem mono (h : Frame region g g') (hregion : ∀ c, region c → region' c) :
    Frame region' g g' :=
  ⟨h.entry, h.next, fun c hc => h.only c (fun hmem => hc (hregion c hmem)), h.grows⟩

/-- What comes later is still to come before. -/
theorem before (h : Frame region g g') (h' : Grows caught region' g' g'') :
    Grows caught region' g g'' :=
  (h.grows.mono (fun _ _ => trivial)).trans h' (fun _ => ⟨.inr, fun h => h.elim False.elim id⟩)

/-- Blocks that are new since the beginning may be changed at will. -/
theorem thenNew (h : Frame region g g') (hg : Sound g) (hentry : g''.entry = g'.entry)
    (hnext : g''.nextBlock = g'.nextBlock)
    (honly : ∀ c, ¬(region c ∧ g.nextBlock ≤ c.raw) → g''.bare? c = g'.bare? c) :
    Frame region g g'' := by
  refine ⟨hentry.trans h.entry, hnext ▸ h.next, ?_, ?_⟩
  · intro c hc
    exact (honly c (fun hmem => hc hmem.1)).trans (h.only c hc)
  · intro c hc b hb
    obtain ⟨b', hb', hgrown⟩ := h.grows c hc b hb
    refine ⟨b', (honly c ?_).trans hb', hgrown⟩
    intro hmem
    have := (hg.ids c).mp (contains_iff_bare.mpr ⟨b, hb⟩)
    omega

theorem target (h : Frame region g g') (hc : g.Target c) : g'.Target c := by
  obtain ⟨hentry, b, hb, hrole⟩ := hc
  obtain ⟨b', hb', hgrown⟩ := h.grows c trivial b hb
  exact ⟨h.entry ▸ hentry, b', hb', hgrown.origin ▸ hrole⟩

end Frame

theorem Frame.addLoop {region : BlockId → Prop} (h : Frame region g g') (l : LoopInfo) :
    Frame region g (g'.addLoop l) :=
  ⟨h.entry, h.next, h.only, h.grows⟩

namespace Sound

/-- The loops have no part in the blocks. -/
theorem addLoop (h : Sound g) (l : LoopInfo) : Sound (g.addLoop l) :=
  ⟨⟨h.linked.entry, h.linked.closed, h.linked.sources, h.linked.once⟩, h.ids, h.count, h.synced,
    h.aimed, h.plain, nodup_putBy l h.loops⟩

theorem synced' (h : Sound g) : g.Synced := by
  intro c b hb e
  have hsynced := h.synced c b.bare (by rw [bare?, hb]; rfl)
  rw [show b.terminatorEdges = b.bare.terminatorEdges from rfl, ← hsynced, List.mem_filter]
  simp [Block.bare]

theorem lt_of_bare (h : Sound g) {b : Block} (hb : g.bare? c = some b) : c.raw < g.nextBlock :=
  (h.ids c).mp (contains_iff_bare.mpr ⟨b, hb⟩)

theorem bare?_none (h : Sound g) (hc : g.nextBlock ≤ c.raw) : g.bare? c = none := by
  cases hb : g.bare? c with
  | none => rfl
  | some b => exact absurd (h.lt_of_bare hb) (by omega)

end Sound

namespace Updates

variable {b b' : Block}

theorem self (h : Updates g c b b' g') : g'.bare? c = some b' := by
  rw [h.after, if_pos rfl]

theorem other (h : Updates g c b b' g') {k : BlockId} (hk : k ≠ c) : g'.bare? k = g.bare? k := by
  rw [h.after, if_neg hk]

theorem catches (h : Updates g c b b' g') (horigin : b'.origin = b.origin) (k : BlockId) :
    g'.Catches k ↔ g.Catches k := by
  unfold Catches
  by_cases hk : k = c
  · subst hk
    simp [h.self, h.before, horigin]
  · rw [h.other hk]

theorem sound (h : Updates g c b b' g') (hg : Sound g) (horigin : b'.origin = b.origin)
    (hsynced : b'.successors.filter (·.kind != .exception) = b'.terminatorEdges)
    (haimed : ∀ e ∈ b'.successors, e.target ≠ g.entry ∧
      (e.kind = .exception ↔ g.Catches e.target)) : Sound g' where
  linked := h.linked hg.linked
  ids := by
    intro k
    rw [h.next, ← hg.ids k, contains_iff_bare, contains_iff_bare]
    by_cases hk : k = c
    · subst hk
      simp [h.self, h.before]
    · rw [h.other hk]
  count := by
    rw [h.count, h.next, hg.count]
  synced := by
    intro k x hx
    rw [h.after] at hx
    split at hx
    · cases hx
      exact hsynced
    · exact hg.synced k x hx
  aimed := by
    intro k x e hx he
    rw [h.entry, h.catches horigin]
    rw [h.after] at hx
    split at hx
    · cases hx
      exact haimed e he
    · exact hg.aimed k x e hx he
  plain := h.plain hg.plain
  loops := by rw [h.loops]; exact hg.loops

theorem frame (h : Updates g c b b' g') (hgrown : b.Grown uncaught b') :
    Frame (· = c) g g' := by
  refine ⟨h.entry, Nat.le_of_eq h.next.symm, fun k hk => h.other hk, ?_⟩
  intro k _ x hx
  by_cases hk : k = c
  · subst hk
    obtain rfl := Option.some.inj (h.before.symm.trans hx)
    exact ⟨b', h.self, hgrown⟩
  · exact ⟨x, (h.other hk).trans hx, .refl x⟩

end Updates

namespace Creates

variable {origin : BlockOrigin}

theorem self (h : Creates g c origin g') : g'.bare? c = some { id := c, origin } := by
  rw [h.after, if_pos rfl]

theorem other (h : Creates g c origin g') {k : BlockId} {b : Block} (hk : g.bare? k = some b) :
    g'.bare? k = some b := by
  have hne : k ≠ c := by
    rintro rfl
    rw [h.before] at hk
    cases hk
  rw [h.after, if_neg hne, hk]

theorem frame (h : Creates g c origin g') : Frame (g.nextBlock ≤ ·.raw) g g' := by
  refine ⟨h.entry, by rw [h.next]; omega, ?_, ?_⟩
  · intro k hk
    rw [h.after, if_neg]
    rintro rfl
    exact hk (Nat.le_of_eq (congrArg Ident.raw h.id).symm)
  · exact fun k _ x hx => ⟨x, h.other hx, .refl x⟩

theorem ne_entry (h : Creates g c origin g') (hg : Sound g) : c ≠ g'.entry := by
  rintro rfl
  have hentry := (hg.ids g.entry).mp hg.linked.entry
  have hid := h.id
  rw [h.entry] at hid
  rw [hid] at hentry
  exact Nat.lt_irrefl _ hentry

theorem target (h : Creates g c origin g') (hg : Sound g) (hrole : origin.role ≠ .handler) :
    g'.Target c :=
  ⟨h.ne_entry hg, _, h.self, hrole⟩

end Creates

/-! What each operation does. -/

theorem relinked_bare (source : BlockId) (lost gained : List BlockId) (b : Block) :
    (relinked source lost gained b).bare = b.bare := by
  unfold relinked
  split
  · rfl
  · split <;> rfl

theorem bare?_setSuccessors (id : BlockId) (terminator : Option Terminator)
    (successors : List Edge) (lost gained : List BlockId) {b : Block} (hb : g.bare? id = some b)
    (k : BlockId) : (g.setSuccessors id terminator successors lost gained).bare? k =
      if k = id then some { b with terminator, successors } else g.bare? k := by
  rw [bare?, block?_setSuccessors, Option.map_map]
  by_cases hk : k = id
  · subst hk
    rw [if_pos rfl]
    obtain ⟨b₀, hb₀, rfl⟩ := Option.map_eq_some_iff.mp hb
    simp only [hb₀, Option.map_some, Function.comp_apply, if_true, relinked_bare]
    rfl
  · simp [hk, bare?, Function.comp_def, relinked_bare]

theorem length_setSuccessors (id : BlockId) (terminator : Option Terminator)
    (successors : List Edge) (lost gained : List BlockId) :
    (g.setSuccessors id terminator successors lost gained).blocks.length = g.blocks.length := by
  simp [setSuccessors, updateBlock]

section
variable {change : Block → Block}

theorem contains_updateBlock (hid : ∀ b, (change b).id = b.id) (k : BlockId) :
    (g.updateBlock c change).contains k = g.contains k := by
  rw [contains_eq_isSome, contains_eq_isSome, block?_updateBlock g c k change hid,
    Option.isSome_map]

theorem targets_updateBlock (hid : ∀ b, (change b).id = b.id)
    (hsuccessors : ∀ b, (change b).successors = b.successors) (k : BlockId) :
    (g.updateBlock c change).targets k = g.targets k := by
  rw [FlowGraph.targets, FlowGraph.targets, block?_updateBlock g c k change hid]
  cases g.block? k with
  | none => rfl
  | some b =>
    simp only [Option.map_some, Option.getD_some, Block.targets]
    split
    · rw [hsuccessors]
    · rfl

theorem predecessors_updateBlock (hid : ∀ b, (change b).id = b.id)
    (hpredecessors : ∀ b, (change b).predecessors = b.predecessors) (k : BlockId) :
    (g.updateBlock c change).predecessors k = g.predecessors k := by
  rw [FlowGraph.predecessors, FlowGraph.predecessors, block?_updateBlock g c k change hid]
  cases g.block? k with
  | none => rfl
  | some b =>
    simp only [Option.map_some, Option.getD_some]
    split
    · rw [hpredecessors]
    · rfl

/-- Slots have no part in the links. -/
theorem Linked.updateBlock (h : Linked g) (hid : ∀ b, (change b).id = b.id)
    (hsuccessors : ∀ b, (change b).successors = b.successors)
    (hpredecessors : ∀ b, (change b).predecessors = b.predecessors) :
    Linked (g.updateBlock c change) where
  entry := (contains_updateBlock hid _).trans h.entry
  closed := fun ht => (contains_updateBlock hid _).trans
    (h.closed (targets_updateBlock hid hsuccessors _ ▸ ht))
  sources := by
    intro p t
    rw [predecessors_updateBlock hid hpredecessors, targets_updateBlock hid hsuccessors]
    exact h.sources
  once := by
    intro t
    rw [predecessors_updateBlock hid hpredecessors]
    exact h.once t

end

theorem pushSlot_updates {slot : Slot} (run : g.pushSlot c slot = .ok g') :
    ∃ b, Updates g c b { b with slots := b.slots ++ [slot] } g' := by
  unfold pushSlot at run
  split at run
  · rename_i hc
    obtain ⟨b, hb⟩ := contains_iff_bare.mp hc
    obtain ⟨b₀, hb₀, rfl⟩ := Option.map_eq_some_iff.mp hb
    rw [← Except.ok.inj run]
    refine ⟨b₀.bare, hb, ?_, rfl, rfl, by simp [updateBlock], id, rfl,
      fun h => h.updateBlock (fun _ => rfl) (fun _ => rfl) (fun _ => rfl)⟩
    intro k
    rw [bare?, block?_updateBlock g c k (fun b => { b with slots := b.slots ++ [slot] })
      (fun _ => rfl)]
    by_cases hk : k = c
    · subst hk
      simp [hb₀, Block.bare]
    · simp [hk, bare?]
  · cases run

theorem setSuccessors_updates {b : Block} (hb : g.block? c = some b)
    {terminator : Option Terminator} {successors : List Edge} {lost gained : List BlockId}
    (linked : Linked g → Linked (g.setSuccessors c terminator successors lost gained)) :
    Updates g c b.bare { b.bare with terminator, successors }
      (g.setSuccessors c terminator successors lost gained) := by
  have hbare : g.bare? c = some b.bare := by rw [bare?, hb]; rfl
  exact ⟨hbare, fun k => bare?_setSuccessors _ _ _ _ _ hbare k, rfl, rfl,
    length_setSuccessors _ _ _ _ _, fun _ => rfl, rfl, linked⟩

theorem setTerminator_updates {t : Terminator} (run : g.setTerminator c t = .ok g') :
    ∃ b, Updates g c b
      { b with terminator := some t, successors := t.edges ++ b.exceptionEdges } g' := by
  have linked : Linked g → Linked g' := fun h => h.setTerminator run
  obtain ⟨b, lost, gained, hb, -, -, rfl⟩ := setTerminator_ok run
  exact ⟨b.bare, setSuccessors_updates hb linked⟩

theorem addExceptionEdge_updates {handler : BlockId}
    (run : g.addExceptionEdge c handler = .ok g') : g.contains handler = true ∧
      ∃ b successors, Updates g c b { b with successors } g' ∧
        (∀ e, e ∈ successors ↔ e ∈ b.successors ∨ e = ⟨handler, .exception⟩) ∧
        successors.filter (·.kind != .exception) =
          b.successors.filter (·.kind != .exception) := by
  have linked : Linked g → Linked g' := fun h => h.addExceptionEdge run
  obtain ⟨hhandler, b, hb, ⟨hsame, rfl⟩ | ⟨-, gained, -, rfl⟩⟩ := addExceptionEdge_ok run
  · have hbare : g'.bare? c = some b.bare := by rw [bare?, hb]; rfl
    refine ⟨hhandler, b.bare, b.successors, ⟨hbare, fun k => ?_, rfl, rfl, rfl, id, rfl, id⟩,
      fun e => ⟨.inl, fun h => h.elim id ?_⟩, rfl⟩
    · split
      · rename_i hk
        rw [hk, hbare]
        rfl
      · rfl
    · rintro rfl
      exact hsame
  · exact ⟨hhandler, b.bare, _, setSuccessors_updates hb linked, fun e => by simp [Block.bare],
      by simp [Block.bare]⟩

namespace Sound

theorem createBlock (h : Sound g) (role : BlockRole) (construct : Option NodeId) (depth : Nat)
    (hcount : (g.createBlock role construct depth).2.blocks.length ≤ Ident.invalidRaw) :
    Creates g ⟨g.nextBlock⟩ ⟨role, depth, construct⟩ (g.createBlock role construct depth).2 := by
  have hfresh : g.contains ⟨g.nextBlock⟩ = false := by
    rw [← Bool.not_eq_true, h.ids]
    exact Nat.lt_irrefl _
  have hbefore : g.bare? ⟨g.nextBlock⟩ = none := h.bare?_none (Nat.le_refl _)
  have hafter : ∀ k, (g.createBlock role construct depth).2.bare? k =
      if k = ⟨g.nextBlock⟩ then some { id := ⟨g.nextBlock⟩, origin := ⟨role, depth, construct⟩ }
      else g.bare? k := by
    intro k
    rw [bare?, block?_createBlock]
    split
    · rename_i hk
      rw [hk]
      rfl
    · rfl
  have hlength : (g.createBlock role construct depth).2.blocks.length = g.nextBlock + 1 := by
    have hput := putBy_length Block.id g.blocks
      { id := ⟨g.nextBlock⟩, origin := ⟨role, depth, construct⟩ }
    have habsent : (g.blocks.any (·.id == ⟨g.nextBlock⟩)) = false := hfresh
    rw [habsent, h.count] at hput
    exact hput
  have hnext : (g.createBlock role construct depth).2.nextBlock = g.nextBlock + 1 := by
    rw [hlength] at hcount
    exact Nat.mod_eq_of_lt (Nat.lt_succ_of_le hcount)
  have hcatches : ∀ k, g.contains k = true →
      ((g.createBlock role construct depth).2.Catches k ↔ g.Catches k) := by
    intro k hk
    have hne : k ≠ ⟨g.nextBlock⟩ := by
      rintro rfl
      rw [hfresh] at hk
      cases hk
    rw [Catches, Catches, hafter, if_neg hne]
  refine ⟨rfl, hbefore, hafter, rfl, hnext, ?_⟩
  refine ⟨h.linked.createBlock role construct depth hfresh, ?_, hlength.trans hnext.symm, ?_, ?_,
    rfl, h.loops⟩
  · intro k
    rw [contains_iff_bare, hafter, hnext]
    split
    · rename_i hk
      subst hk
      simp
    · rename_i hk
      rw [← contains_iff_bare, h.ids]
      have : k.raw ≠ g.nextBlock := fun hraw => hk (by cases k; cases hraw; rfl)
      omega
  · intro k b hb
    rw [hafter] at hb
    split at hb
    · cases hb
      rfl
    · exact h.synced k b hb
  · intro k b e hb he
    rw [hafter] at hb
    split at hb
    · cases hb
      cases he
    · obtain ⟨b₀, hb₀, rfl⟩ := Option.map_eq_some_iff.mp hb
      have hk := h.linked.closed (mem_targets.mpr ⟨b₀, hb₀, Block.mem_targets.mpr ⟨e, he, rfl⟩⟩)
      rw [hcatches _ hk]
      exact h.aimed k b₀.bare e hb he

theorem pushSlot (h : Sound g) {slot : Slot} {b : Block} (hb : g.bare? c = some b)
    (hopen : b.terminator = none) (run : g.pushSlot c slot = .ok g') :
    Changes g c { b with slots := b.slots ++ [slot] } g' := by
  obtain ⟨b', hupdates⟩ := pushSlot_updates run
  obtain rfl := Option.some.inj (hupdates.before.symm.trans hb)
  refine ⟨hupdates.sound h rfl (h.synced c b' hb) (fun e he => h.aimed c b' e hb he),
    hupdates.frame ⟨rfl, List.prefix_append _ _, ?_, ?_⟩, hupdates.next, hupdates.self⟩
  · intro t ht
    rw [hopen] at ht
    cases ht
  · exact fun k => ⟨.inl, fun h => h.elim id False.elim⟩

theorem endBlock (h : Sound g) {t : Terminator} {guarded : Bool} {b : Block}
    (hb : g.bare? c = some b) (hopen : b.Open guarded)
    (htargets : ∀ e ∈ t.edges, e.kind ≠ .exception ∧ g.Target e.target)
    (run : g.setTerminator c t = .ok g') :
    Changes g c { b with terminator := some t, successors := t.edges } g' := by
  obtain ⟨b', hupdates⟩ := setTerminator_updates run
  obtain rfl := Option.some.inj (hupdates.before.symm.trans hb)
  have hedges : t.edges ++ b'.exceptionEdges = t.edges := by
    simp [Block.exceptionEdges, hopen.edgeless]
  rw [hedges] at hupdates
  refine ⟨hupdates.sound h rfl ?_ ?_, hupdates.frame ⟨rfl, List.prefix_rfl, ?_, ?_⟩,
    hupdates.next, hupdates.self⟩
  · refine List.filter_eq_self.mpr (fun e he => ?_)
    simpa using (htargets e he).1
  · intro e he
    obtain ⟨hkind, hentry, b, hb, hrole⟩ := htargets e he
    refine ⟨hentry, fun h => absurd h hkind, ?_⟩
    rintro ⟨b', hb', hrole'⟩
    obtain rfl := Option.some.inj (hb.symm.trans hb')
    exact absurd hrole' hrole
  · intro t ht
    rw [hopen.unended] at ht
    cases ht
  · intro k
    rw [hopen.edgeless]
    constructor
    · exact fun hk => absurd rfl (htargets _ hk).1
    · rintro (hk | hk)
      · cases hk
      · exact False.elim hk

end Sound

theorem Sound.addExceptionEdge (h : Sound g) {handler : BlockId} (hcatches : g.Catches handler)
    (hentry : handler ≠ g.entry) (run : g.addExceptionEdge c handler = .ok g') :
    Raises (· = handler) (· = c) g g' := by
  obtain ⟨-, b, successors, hupdates, hmem, hplain⟩ := addExceptionEdge_updates run
  have hb := hupdates.before
  refine ⟨hupdates.sound h rfl (hplain.trans (h.synced c b hb)) ?_, hupdates.entry, hupdates.next,
    fun k hk => hupdates.other hk, ?_⟩
  · intro e he
    rcases (hmem e).mp he with he | rfl
    · exact h.aimed c b e hb he
    · exact ⟨hentry, fun _ => hcatches, fun _ => rfl⟩
  · rintro k rfl x hx
    obtain rfl := Option.some.inj (hx.symm.trans hb)
    refine ⟨_, hupdates.self, rfl, List.prefix_rfl, fun _ ht => ⟨ht, rfl⟩, fun k => ?_⟩
    rw [hmem]
    simp

namespace Raises

variable {caught caught₁ caught₂ region region' : BlockId → Prop}

theorem none (h : Sound g) (region : BlockId → Prop) : Raises uncaught region g g :=
  ⟨h, rfl, rfl, fun _ _ => rfl, .of_only (fun _ _ => rfl)⟩

theorem nowhere (h : Sound g) (caught : BlockId → Prop) : Raises caught uncaught g g :=
  ⟨h, rfl, rfl, fun _ _ => rfl, fun _ hk => hk.elim⟩

theorem trans (h : Raises caught₁ region g g') (h' : Raises caught₂ region g' g'')
    (hcaught : ∀ k, caught k ↔ caught₁ k ∨ caught₂ k) : Raises caught region g g'' :=
  ⟨h'.sound, h'.entry.trans h.entry, h'.next.trans h.next,
    fun k hk => (h'.only k hk).trans (h.only k hk), h.grows.trans h'.grows hcaught⟩

theorem union (h : Raises caught region g g') (h' : Raises caught region' g' g'') :
    Raises caught (fun k => region k ∨ region' k) g g'' := by
  refine ⟨h'.sound, h'.entry.trans h.entry, h'.next.trans h.next, ?_, ?_⟩
  · intro k hk
    exact (h'.only k (fun hmem => hk (.inr hmem))).trans (h.only k (fun hmem => hk (.inl hmem)))
  · intro k hk b hb
    by_cases hfirst : region k
    · obtain ⟨b', hb', hgrown⟩ := h.grows k hfirst b hb
      by_cases hthen : region' k
      · obtain ⟨b'', hb'', hgrown'⟩ := h'.grows k hthen b' hb'
        exact ⟨b'', hb'', hgrown.trans hgrown' (fun _ => ⟨.inl, fun h => h.elim id id⟩)⟩
      · exact ⟨b', (h'.only k hthen).trans hb', hgrown⟩
    · exact h'.grows k (hk.resolve_left hfirst) b ((h.only k hfirst).trans hb)

theorem mono (h : Raises caught region g g') (hcaught : ∀ k, caught₁ k ↔ caught k)
    (hregion : ∀ k, region' k ↔ region k) : Raises caught₁ region' g g' := by
  have hcaught : caught₁ = caught := funext (fun k => propext (hcaught k))
  have hregion : region' = region := funext (fun k => propext (hregion k))
  rw [hcaught, hregion]
  exact h

theorem catches (h : Raises caught region g g') {k : BlockId} (hk : g.Catches k) :
    g'.Catches k := by
  obtain ⟨b, hb, hrole⟩ := hk
  by_cases hmem : region k
  · obtain ⟨b', hb', hgrown⟩ := h.grows k hmem b hb
    exact ⟨b', hb', hgrown.origin ▸ hrole⟩
  · exact ⟨b, (h.only k hmem).trans hb, hrole⟩

theorem target (h : Raises caught region g g') {k : BlockId} (hk : g.Target k) : g'.Target k := by
  obtain ⟨hentry, b, hb, hrole⟩ := hk
  refine ⟨h.entry ▸ hentry, ?_⟩
  by_cases hmem : region k
  · obtain ⟨b', hb', hgrown⟩ := h.grows k hmem b hb
    exact ⟨b', hb', hgrown.origin ▸ hrole⟩
  · exact ⟨b, (h.only k hmem).trans hb, hrole⟩

end Raises

end FlowGraph

end TypedSsa

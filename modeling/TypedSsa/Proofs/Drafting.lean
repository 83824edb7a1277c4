import TypedSsa.Proofs.Leaving
import TypedSsa.Proofs.Retreating

/-!
Which edges come about while code is lowered, step by step. Main statements: `Drafted.trans`, by
which pieces of code do as much one after another, with `Drafted.create`, `Drafted.push`,
`Drafted.close`, `Drafted.part` and `Drafted.raises` for the single steps, and `Drafted.join`, by
which what a whole construct adds is seen from outside.
-/

namespace TypedSsa
open LowerM FlowGraph

/-- A block with one statement at most, and nothing is tested after the statement. -/
structure Block.Calm (b : Block) : Prop where
  short : b.slots.length ≤ 1
  jumps : b.slots ≠ [] → ∀ t, b.terminator = some t → ∃ target kind, t = .jump target kind

/-- A block in a protected region, or one with an exception edge, is calm. -/
def Block.Quiet (guarded : Bool) (b : Block) : Prop :=
  guarded = true ∨ (∃ h, ⟨h, .exception⟩ ∈ b.successors) → b.Calm

/-- The ways out of the loop around. -/
def Scope.Leaves (scope : Scope) (b : BlockId) : Prop :=
  ∃ l, scope.loop = some l ∧ (b = l.breakTo ∨ b = l.continueTo)

section
variable {scope : Scope} {guarded : Bool} {g : FlowGraph} {b : Block} {c : BlockId}

theorem Block.Open.quiet (h : b.Open guarded) : b.Quiet guarded := by
  intro hcase
  rcases hcase with hguarded | ⟨handler, hmem⟩
  · exact ⟨by simp [h.empty hguarded], fun hne => absurd (h.empty hguarded) hne⟩
  · rw [h.edgeless] at hmem
    cases hmem

theorem Scope.Leaves.lt (h : scope.Leaves c) (hfits : scope.Fits g) (hg : g.Sound) :
    c.raw < g.nextBlock := by
  obtain ⟨l, hl, hc⟩ := h
  obtain ⟨⟨-, blk, hbreak, -⟩, ⟨-, blk', hcontinue, -⟩⟩ := hfits l hl
  rcases hc with rfl | rfl
  · exact hg.lt_of_bare hbreak
  · exact hg.lt_of_bare hcontinue

end

namespace FlowGraph

/-- An edge from a block or new ones to new ones, or to some blocks that were there. -/
def Onward (g : FlowGraph) (c : Option BlockId) (aims : BlockId → Prop) (x y : BlockId) : Prop :=
  g.Since c x ∧ (g.nextBlock ≤ y.raw ∨ aims y)

/-- Code has been put into a block and new ones. All new edges are of the given kind, and those that
lead back to blocks from `k` on are hedged, as the loops are. -/
structure Drafted (arcs : BlockId → BlockId → Prop) (guarded : Bool) (k : Nat) (g : FlowGraph)
    (c : Option BlockId) (g' : FlowGraph) : Prop where
  sound : Sound g'
  frame : Frame (g.Since c) g g'
  edges : ∀ x y : BlockId, y ∈ g'.targets x → y ∈ g.targets x ∨ arcs x y
  quiet : ∀ x blk, g.Since c x → g'.bare? x = some blk → blk.Quiet guarded
  enclosed : g'.Enclosed k g'.nextBlock
  loops : ∀ l ∈ g'.loops, l ∈ g.loops ∨ g'.Rings k g'.nextBlock l

section
variable {g g' g₁ g₂ : FlowGraph} {b c d start : BlockId} {cur c₁ c₂ : Option BlockId}
  {arcs arcs' : BlockId → BlockId → Prop} {aims : BlockId → Prop} {guarded guarded' : Bool}
  {k k' lo hi gate : Nat} {blk : Block} {scope : Scope} {role : BlockRole} {s : Lowering}

theorem Sound.lt_target {x y : BlockId} (h : Sound g) (hy : y ∈ g.targets x) :
    y.raw < g.nextBlock :=
  (h.ids y).mp (h.linked.closed hy)

theorem Sound.lt_source {x y : BlockId} (h : Sound g) (hy : y ∈ g.targets x) :
    x.raw < g.nextBlock := by
  obtain ⟨blk, hblk, -⟩ := mem_targets.mp hy
  exact (h.ids x).mp (contains_iff.mpr ⟨blk, hblk⟩)

namespace Drafted

/-- To do nothing. -/
theorem refl (hg : Sound g) (hk : g.nextBlock ≤ k)
    (hopen : ∀ b, c₁ = some b → ∃ blk, g.bare? b = some blk ∧ blk.Open guarded) :
    Drafted (fun _ _ => False) guarded k g c₁ g where
  sound := hg
  frame := .refl _ g
  edges _ _ := .inl
  quiet x blk hx hblk := by
    rcases hx with hx | hx
    · obtain ⟨blk', hblk', hopen⟩ := hopen x hx
      exact Option.some.inj (hblk'.symm.trans hblk) ▸ hopen.quiet
    · exact absurd (hg.lt_of_bare hblk) (Nat.not_lt.mpr hx)
  enclosed := .none g hk
  loops _ := .inl

/-- To start in a block that more may be put into. -/
theorem ofOpen (hg : Sound g) (hb : g.bare? c = some blk) (hopen : blk.Open guarded)
    (hk : g.nextBlock ≤ k) : Drafted (fun _ _ => False) guarded k g (some c) g :=
  .refl hg hk (fun _ hc => ⟨blk, Option.some.inj hc ▸ hb, hopen⟩)

theorem mono (h : Drafted arcs guarded k g c₁ g') (harcs : ∀ x y : BlockId, x.raw < g'.nextBlock →
      y.raw < g'.nextBlock → arcs x y → arcs' x y)
    (hguarded : guarded' = true → guarded = true) : Drafted arcs' guarded' k g c₁ g' where
  sound := h.sound
  frame := h.frame
  edges x y hy := (h.edges x y hy).imp_right
    (harcs x y (h.sound.lt_source hy) (h.sound.lt_target hy))
  quiet x blk hx hblk hcase := h.quiet x blk hx hblk (hcase.imp_left hguarded)
  enclosed := h.enclosed
  loops := h.loops

/-- What comes later leads to none of the blocks between `k` and its own. -/
theorem trans (h : Drafted arcs guarded k g c₁ g₁) (h' : Drafted arcs' guarded k' g₁ c₂ g₂)
    (hsince : ∀ b, c₂ = some b → g.Since c₁ b)
    (harcs : ∀ x y, arcs' x y → y.raw < k ∨ g₁.nextBlock ≤ y.raw) (hk : k ≤ k')
    (hk' : k' ≤ k ∨ k' ≤ g₁.nextBlock) :
    Drafted (fun x y => arcs x y ∨ arcs' x y) guarded k g c₁ g₂ := by
  have hregion : ∀ b, g₁.Since c₂ b → g.Since c₁ b := by
    intro b hb
    rcases hb with hb | hb
    · exact hsince b hb
    · exact .inr (Nat.le_trans h.frame.next hb)
  have hlater : Later k g₁ g₂ :=
    h'.frame.later (fun x y hy => (h'.edges x y hy).imp_right (harcs x y))
  have hnext := h'.frame.next
  exact {
    sound := h'.sound
    frame := h.frame.trans (h'.frame.mono hregion)
    edges := by
      intro x y hy
      rw [← or_assoc]
      exact (h'.edges x y hy).imp_left (h.edges x y)
    quiet := by
      intro x blk hx hblk
      by_cases hin : g₁.Since c₂ x
      · exact h'.quiet x blk hin hblk
      · exact h.quiet x blk hx ((h'.frame.only x hin).symm.trans hblk)
    enclosed := by
      intro x y hy hn hlt hle
      by_cases hold : y.raw < g₁.nextBlock
      · exact (hlater.enclosed h.enclosed (Nat.le_refl _) x y hy hn hold hle).mono hnext
      · exact h'.enclosed x y hy (by omega) hlt hle
    loops := by
      intro l hl
      rcases h'.loops l hl with hl | hrings
      · exact (h.loops l hl).imp_right
          (fun hrings => (hlater.rings hrings (Nat.le_refl _)).mono (Nat.le_refl _) hnext)
      · exact .inr (hrings.mono hk (Nat.le_refl _)) }

/-! Single steps. -/

theorem create (h : Drafted arcs guarded k g c₁ g₁)
    (run : newBlock scope role ⟨g₁, cur⟩ = .ok (d, s))
    (hcount : s.graph.blocks.length ≤ Ident.invalidRaw) (hk : g₁.nextBlock < k) :
    ∃ g₂, s = ⟨g₂, cur⟩ ∧ Drafted arcs guarded k g c₁ g₂ ∧
      Waits g g₂ d ⟨role, scope.depth, scope.construct⟩ ∧ d.raw = g₁.nextBlock ∧
      g₂.nextBlock = g₁.nextBlock + 1 ∧ ∀ x b, g₁.bare? x = some b → g₂.bare? x = some b := by
  obtain ⟨-, hs⟩ := newBlock_ok run
  obtain ⟨g₂, rfl, hcreates⟩ := newBlock_creates h.sound run hcount
  have htable : g₂.loops = g₁.loops := by
    obtain rfl := congrArg Lowering.graph hs
    rfl
  have step : Drafted (fun _ _ => False) guarded k g₁ none g₂ := by
    refine ⟨hcreates.sound, hcreates.frame.mono (fun _ => .inr), fun x y hy => ?_,
      fun x blk hx hblk => ?_, .none g₂ (by rw [hcreates.next]; exact hk),
      fun l hl => .inl (htable ▸ hl)⟩
    · exact ((hcreates.spreads.targets x y).mp hy).imp_right (fun h => h.1)
    · rw [hcreates.after] at hblk
      split at hblk
      · exact Option.some.inj hblk ▸ (fresh_open guarded _ _).quiet
      · rw [h.sound.bare?_none (hx.resolve_left nofun)] at hblk
        cases hblk
  have hid : d.raw = g₁.nextBlock := congrArg Ident.raw hcreates.id
  exact ⟨g₂, rfl, (h.trans step nofun nofun (Nat.le_refl _) (.inl (Nat.le_refl _))).mono
    (fun _ _ _ _ h => h.resolve_right id) id, ⟨hcreates.self, hid ▸ h.frame.next⟩, hid,
    hcreates.next, fun x b => hcreates.other⟩

/-- One block that belongs to the code is changed, and leads to more blocks. -/
theorem change {x' : Block} (h : Drafted arcs guarded k g c₁ g₁) (hd : g.Since c₁ d)
    (hchanges : Changes g₁ d x' g₂) (htable : g₂.loops = g₁.loops) (hquiet : x'.Quiet guarded)
    {sources aims : BlockId → Prop} (hspreads : Spreads sources aims g₁ g₂)
    (haims : ∀ y, aims y → y.raw < k) :
    Drafted (fun x y => arcs x y ∨ sources x ∧ aims y) guarded k g c₁ g₂ := by
  have step : Drafted (fun x y => sources x ∧ aims y) guarded (max k g₁.nextBlock) g₁ (some d)
      g₂ := by
    refine ⟨hchanges.sound, hchanges.frame.mono (fun x hx => .inl (congrArg some hx.symm)),
      fun x y => (hspreads.targets x y).mp, fun x blk hx hblk => ?_,
      .none g₂ (by rw [hchanges.next]; omega), fun l hl => .inl (htable ▸ hl)⟩
    rcases hx with hx | hx
    · obtain rfl := Option.some.inj hx
      exact Option.some.inj (hchanges.self.symm.trans hblk) ▸ hquiet
    · have hlt := hchanges.sound.lt_of_bare hblk
      rw [hchanges.next] at hlt
      exact absurd hlt (Nat.not_lt.mpr hx)
  exact h.trans step (fun b hb => Option.some.inj hb ▸ hd) (fun x y hxy => .inl (haims y hxy.2))
    (by omega) (by omega)

theorem push {slot : Slot} (h : Drafted arcs guarded k g c₁ g₁) (hd : g.Since c₁ d)
    (hb : g₁.bare? d = some blk) (hopen : blk.Open guarded) (run : g₁.pushSlot d slot = .ok g₂) :
    Drafted arcs guarded k g c₁ g₂ ∧ Changes g₁ d { blk with slots := blk.slots ++ [slot] } g₂ := by
  have hchanges := h.sound.pushSlot hb hopen.unended run
  obtain ⟨b', hupdates⟩ := pushSlot_updates run
  have hquiet : Block.Quiet guarded { blk with slots := blk.slots ++ [slot] } := by
    intro hcase
    rcases hcase with hguarded | ⟨handler, hmem⟩
    · refine ⟨by simp [hopen.empty hguarded], fun _ t ht => ?_⟩
      rw [hopen.unended] at ht
      cases ht
    · rw [hopen.edgeless] at hmem
      cases hmem
  exact ⟨(h.change hd hchanges hupdates.loops hquiet (hchanges.spreads_none hb) nofun).mono
    (fun _ _ _ _ h => h.resolve_right (fun h => h.1)) id, hchanges⟩

theorem close {t : Terminator} (h : Drafted arcs guarded k g c₁ g₁) (hd : g.Since c₁ d)
    (hb : g₁.bare? d = some blk) (hopen : blk.Open guarded')
    (hcalm : guarded = true → blk.slots.length ≤ 1 ∧
      (blk.slots ≠ [] → ∃ target kind, t = .jump target kind))
    (htargets : ∀ e ∈ t.edges, e.kind ≠ .exception ∧ g₁.Target e.target)
    (hk : ∀ e ∈ t.edges, e.target.raw < k) (run : g₁.setTerminator d t = .ok g₂) :
    Drafted (fun x y => arcs x y ∨ x = d ∧ ∃ e ∈ t.edges, e.target = y) guarded k g c₁ g₂ ∧
      Changes g₁ d { blk with terminator := some t, successors := t.edges } g₂ := by
  have hchanges := h.sound.endBlock hb hopen htargets run
  obtain ⟨b', hupdates⟩ := setTerminator_updates run
  have hquiet : Block.Quiet guarded { blk with terminator := some t, successors := t.edges } := by
    intro hcase
    rcases hcase with hguarded | ⟨handler, hmem⟩
    · obtain ⟨hshort, hjumps⟩ := hcalm hguarded
      exact ⟨hshort, fun hne _ ht => Option.some.inj ht ▸ hjumps hne⟩
    · exact absurd rfl (htargets _ hmem).1
  refine ⟨h.change hd hchanges hupdates.loops hquiet (hchanges.spreads hb hopen.edgeless) ?_,
    hchanges⟩
  intro y hy
  obtain ⟨e, he, rfl⟩ := hy
  exact hk e he

theorem jump {target : BlockId} (h : Drafted arcs guarded k g c₁ g₁) (hd : g.Since c₁ d)
    (hb : g₁.bare? d = some blk) (hopen : blk.Open guarded')
    (hshort : guarded = true → blk.slots.length ≤ 1) (htarget : g₁.Target target)
    (hk : target.raw < k) (run : g₁.setTerminator d (.jump target .normal) = .ok g₂) :
    Drafted (fun x y => arcs x y ∨ x.raw = d.raw ∧ y.raw = target.raw) guarded k g c₁ g₂ ∧
      Changes g₁ d { blk with
        terminator := some (.jump target .normal)
        successors := (Terminator.jump target .normal).edges } g₂ := by
  obtain ⟨hclosed, hchanges⟩ := h.close hd hb hopen
    (fun hguarded => ⟨hshort hguarded, fun _ => ⟨_, _, rfl⟩⟩) (jump_targets .normal nofun htarget)
    (fun e he => target_of_jump he ▸ hk) run
  refine ⟨hclosed.mono (fun x y _ _ harc => harc.imp_right (fun harc => ?_)) (fun h => h),
    hchanges⟩
  obtain ⟨rfl, e, he, rfl⟩ := harc
  exact ⟨rfl, congrArg Ident.raw (target_of_jump he)⟩

/-- A part is put into a block of its own. It leads on to older blocks than `k` alone. -/
theorem part (h : Drafted arcs guarded k g c₁ g₁)
    (hpart : Drafted (g₁.Onward (some start) aims) guarded' g₁.nextBlock g₁ (some start) g₂)
    (hstart : g.Since c₁ start) (haims : ∀ y, aims y → y.raw < k) (hk : k ≤ g₁.nextBlock)
    (hguarded : guarded = true → guarded' = true) :
    Drafted (fun x y => arcs x y ∨ ((x.raw = start.raw ∨ g₁.nextBlock ≤ x.raw) ∧
      x.raw < g₂.nextBlock ∧ (g₁.nextBlock ≤ y.raw ∨ aims y))) guarded k g c₁ g₂ := by
  have bounded : Drafted (fun x y => (x.raw = start.raw ∨ g₁.nextBlock ≤ x.raw) ∧
      x.raw < g₂.nextBlock ∧ (g₁.nextBlock ≤ y.raw ∨ aims y)) guarded g₁.nextBlock g₁ (some start)
      g₂ := by
    refine hpart.mono (fun x y hx _ harc => ⟨harc.1.imp_left (fun h => ?_), hx, harc.2⟩) hguarded
    exact congrArg Ident.raw (Option.some.inj h).symm
  refine h.trans bounded (fun b hb => Option.some.inj hb ▸ hstart) (fun x y harc => ?_) hk
    (.inr (Nat.le_refl _))
  exact (harc.2.2.imp_right (haims y)).symm

end Drafted

/-! Exception edges. -/

/-- Some blocks have come to raise to some handlers, and nothing else is new in any block. -/
def Arms (blocks handlers : List BlockId) (g g' : FlowGraph) : Prop :=
  ∀ x blk', g'.bare? x = some blk' → ∃ blk, g.bare? x = some blk ∧ blk'.slots = blk.slots ∧
    blk'.terminator = blk.terminator ∧
    ∀ e ∈ blk'.successors, e ∈ blk.successors ∨ x ∈ blocks ∧ e.target ∈ handlers

theorem Arms.refl (blocks handlers : List BlockId) (g : FlowGraph) : Arms blocks handlers g g :=
  fun _ blk h => ⟨blk, h, rfl, rfl, fun _ => .inl⟩

theorem Arms.trans {blocks handlers : List BlockId} (h : Arms blocks handlers g g₁)
    (h' : Arms blocks handlers g₁ g₂) : Arms blocks handlers g g₂ := by
  intro x blk₂ hblk₂
  obtain ⟨blk₁, hblk₁, hslots₁, hterm₁, hedges₁⟩ := h' x blk₂ hblk₂
  obtain ⟨blk, hblk, hslots, hterm, hedges⟩ := h x blk₁ hblk₁
  refine ⟨blk, hblk, hslots₁.trans hslots, hterm₁.trans hterm, fun e he => ?_⟩
  exact (hedges₁ e he).elim (hedges e) .inr

theorem addExceptionEdge_arms {blocks handlers : List BlockId} {handler : BlockId}
    (hb : b ∈ blocks) (hhandler : handler ∈ handlers)
    (run : g.addExceptionEdge b handler = .ok g') : Arms blocks handlers g g' := by
  obtain ⟨-, blk, successors, hupdates, hmem, -⟩ := addExceptionEdge_updates run
  intro x blk' hblk'
  rw [hupdates.after] at hblk'
  split at hblk'
  · rename_i hx
    subst hx
    obtain rfl := Option.some.inj hblk'
    refine ⟨blk, hupdates.before, rfl, rfl, fun e he => ((hmem e).mp he).imp_right ?_⟩
    rintro rfl
    exact ⟨hb, hhandler⟩
  · exact Arms.refl blocks handlers g x blk' hblk'

theorem forM_arms {α : Type} {blocks handlers : List BlockId} {f : α → LowerM PUnit} {xs : List α}
    {s s' : Lowering} {u : Unit} (hf : ∀ x ∈ xs, ∀ s u s', f x s = .ok (u, s') →
      Arms blocks handlers s.graph s'.graph) (run : xs.forM f s = .ok (u, s')) :
    Arms blocks handlers s.graph s'.graph := by
  induction xs generalizing s with
  | nil =>
    obtain ⟨-, rfl⟩ := pure_ok run
    exact .refl _ _ _
  | cons x xs ih =>
    obtain ⟨u', s₁, hone, run⟩ := bind_ok run
    exact (hf x List.mem_cons_self s u' s₁ hone).trans
      (ih (fun y hy => hf y (List.mem_cons_of_mem x hy)) run)

theorem raiseTo_arms {entries : List (NodeId × BlockId)} {blocks : List BlockId} {s s' : Lowering}
    {u : Unit} (run : raiseTo entries blocks s = .ok (u, s')) :
    Arms blocks (entries.map (·.2)) s.graph s'.graph := by
  refine forM_arms (fun block hblock s u s' run => forM_arms (fun x hx s u s' run => ?_) run) run
  obtain ⟨g', hadd, rfl⟩ := change_ok run
  exact addExceptionEdge_arms hblock (List.mem_map_of_mem hx) hadd

theorem Arms.targets {blocks handlers : List BlockId} (h : Arms blocks handlers g g')
    {x y : BlockId} (hy : y ∈ g'.targets x) : y ∈ g.targets x ∨ x ∈ blocks ∧ y ∈ handlers := by
  obtain ⟨blk', hblk', e, he, rfl⟩ := mem_targets_bare.mp hy
  obtain ⟨blk, hblk, -, -, hedges⟩ := h x blk' hblk'
  exact (hedges e he).imp_left (fun he => mem_targets_bare.mpr ⟨blk, hblk, e, he, rfl⟩)

theorem Arms.quiet {blocks handlers : List BlockId} (h : Arms blocks handlers g g') {x : BlockId}
    {blk' : Block} (hblk' : g'.bare? x = some blk')
    (hquiet : ∀ blk, g.bare? x = some blk → blk.Quiet guarded)
    (hcalm : x ∈ blocks → ∀ blk, g.bare? x = some blk → blk.Calm) : blk'.Quiet guarded := by
  obtain ⟨blk, hblk, hslots, hterm, hedges⟩ := h x blk' hblk'
  intro hcase
  have calm : blk.Calm := by
    rcases hcase with hguarded | ⟨handler, hmem⟩
    · exact hquiet blk hblk (.inl hguarded)
    · rcases hedges _ hmem with hmem | ⟨hx, -⟩
      · exact hquiet blk hblk (.inr ⟨handler, hmem⟩)
      · exact hcalm hx blk hblk
  exact ⟨hslots ▸ calm.short, hslots ▸ hterm ▸ calm.jumps⟩

/-- Calm blocks of the code come to raise to handlers that are older than `k`. -/
theorem Drafted.raises {caught region : BlockId → Prop} {blocks handlers : List BlockId}
    (h : Drafted arcs guarded k g c₁ g₁) (hg : Sound g) (hraises : Raises caught region g₁ g₂)
    (harms : Arms blocks handlers g₁ g₂) (htable : g₂.loops = g₁.loops)
    (hregion : ∀ x, region x → g.Since c₁ x ∧ g.nextBlock ≤ x.raw)
    (hcalm : ∀ x ∈ blocks, ∀ blk, g₁.bare? x = some blk → blk.Calm)
    (hhandlers : ∀ y ∈ handlers, y.raw < k) :
    Drafted (fun x y => arcs x y ∨ x ∈ blocks ∧ y ∈ handlers) guarded k g c₁ g₂ := by
  have hlater : Later k g₁ g₂ :=
    hraises.later (fun x y hy => (harms.targets hy).imp_right (fun h => .inl (hhandlers y h.2)))
  exact {
    sound := hraises.sound
    frame :=
      h.frame.thenNew hg hraises.entry hraises.next
        (fun x hx => hraises.only x (fun hmem => hx (hregion x hmem)))
    edges := by
      intro x y hy
      rw [← or_assoc]
      exact (harms.targets hy).imp_left (h.edges x y)
    quiet := fun x blk' hx hblk' => harms.quiet hblk' (fun blk => h.quiet x blk hx) (hcalm x)
    enclosed := by
      rw [hraises.next]
      exact hlater.enclosed h.enclosed (Nat.le_refl _)
    loops := by
      intro l hl
      rw [htable] at hl
      rw [hraises.next]
      exact (h.loops l hl).imp_right (fun hrings => hlater.rings hrings (Nat.le_refl _)) }

/-! A whole construct. -/

namespace Drafted

theorem site (h : Drafted arcs guarded k g (some c) g') (hg : Sound g) (hfits : scope.Fits g) :
    Site scope g c g' :=
  ⟨hg, h.sound, hfits.frame h.frame, h.frame⟩

/-- What is entered by no other of the new edges is not entered by old ones. -/
theorem seals (h : Drafted arcs guarded k g c₁ g') (hg : Sound g) (hlo : g.nextBlock ≤ lo)
    (harcs : ∀ x y, arcs x y → x.raw < g'.nextBlock → lo ≤ y.raw → y.raw < hi →
      lo ≤ x.raw ∧ x.raw < hi ∨ x.raw = gate) : g'.Sealed lo hi gate := by
  intro x y hy hle hlt
  rcases h.edges x y hy with hold | harc
  · have := hg.lt_target hold
    omega
  · exact harcs x y harc (h.sound.lt_source hy) hle hlt

/-- Seen from outside, the edges come from the block that code was put into or from new ones. -/
theorem enclose (h : Drafted arcs guarded k g c₁ g') (hg : Sound g) (hk : g.nextBlock ≤ k)
    (harcs : ∀ x y, arcs x y → g.Onward c₁ aims x y)
    (hhedged : ∀ x y, arcs x y → x.raw < g'.nextBlock → g.nextBlock ≤ y.raw → y.raw < k →
      y.raw ≤ x.raw → g'.Hedged g'.nextBlock x y) :
    Drafted (g.Onward c₁ aims) guarded g.nextBlock g c₁ g' := by
  refine ⟨h.sound, h.frame, fun x y hy => (h.edges x y hy).imp_right (harcs x y), h.quiet, ?_, ?_⟩
  · intro x y hy hn hlt hle
    by_cases hyk : y.raw < k
    · rcases h.edges x y hy with hold | harc
      · have := hg.lt_target hold
        omega
      · exact hhedged x y harc (h.sound.lt_source hy) hn hyk hle
    · exact h.enclosed x y hy (by omega) hlt hle
  · exact fun l hl => (h.loops l hl).imp_right (fun hrings => hrings.mono hk (Nat.le_refl _))

/-- The oldest block of a construct is where all its other blocks may go on. These are entered from
the block before the construct alone. -/
theorem join (h : Drafted arcs scope.guarded k g (some c) g') (hg : Sound g)
    (hb : g.bare? c = some blk) (hk : g.nextBlock ≤ k)
    (harcs : ∀ x y, arcs x y → x.raw = c.raw ∧ g.nextBlock ≤ y.raw ∨
      g.nextBlock < x.raw ∧ (g.nextBlock ≤ y.raw ∨ scope.Leaves y))
    (hhedged : ∀ x y, arcs x y → x.raw < g'.nextBlock → g.nextBlock < y.raw → y.raw < k →
      y.raw ≤ x.raw → g'.Hedged g'.nextBlock x y) :
    Drafted (g.Onward (some c) scope.Leaves) scope.guarded g.nextBlock g (some c) g' := by
  have hc := hg.lt_of_bare hb
  refine h.enclose hg hk (fun x y harc => ?_) (fun x y harc hx hn hyk hle => ?_)
  · rcases harcs x y harc with ⟨hx, hy⟩ | ⟨hx, hy⟩
    · exact ⟨.inl (congrArg some (congrArg Ident.mk hx.symm)), .inl hy⟩
    · exact ⟨.inr (Nat.le_of_lt hx), hy⟩
  · by_cases hy : y.raw = g.nextBlock
    · refine ⟨g.nextBlock + 1, g'.nextBlock, c.raw,
        h.seals hg (by omega) (fun u v harc hu hlo _ => ?_), by omega, ?_, hx, Nat.le_refl _,
        .inl (by omega)⟩
      · rcases harcs u v harc with ⟨hu, -⟩ | ⟨hlt, -⟩
        · exact .inr hu
        · exact .inl ⟨hlt, hu⟩
      · rcases harcs x y harc with hx | hx <;> omega
    · exact hhedged x y harc hx (by omega) hyk hle

theorem addLoop (h : Drafted arcs guarded k g c₁ g') {l : LoopInfo}
    (hl : g'.Rings k g'.nextBlock l) : Drafted arcs guarded k g c₁ (g'.addLoop l) where
  sound := h.sound.addLoop l
  frame := h.frame.addLoop l
  edges := h.edges
  quiet := h.quiet
  enclosed := h.enclosed
  loops m hm := by
    rcases mem_putBy hm with rfl | hm
    · exact .inr ⟨hl.header, hl.base, hl.range⟩
    · exact (h.loops m hm).imp_right (fun hrings => ⟨hrings.header, hrings.base, hrings.range⟩)

end Drafted

end

end FlowGraph

end TypedSsa

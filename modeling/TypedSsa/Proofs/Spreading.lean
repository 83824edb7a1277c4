import TypedSsa.Proofs.Lowering

/-!
What the entry of a graph reaches while the graph is made, and which blocks that it reaches leave a
loop. Main statements: `Goes.close`, what it does to end a block, and `Goes.trans`, by which pieces
of code that are lowered one after another do as much together.
-/

namespace TypedSsa

/-- The ways out that a loop may forbid: a `return`, or a `break` to the given block. -/
def Terminator.quits? : Terminator → Option (Option BlockId)
  | returnWith _ => some none
  | jump target .breakOut => some (some target)
  | _ => none

/-- The blocks of a loop that is made. -/
def LoopInfo.Holds (l : LoopInfo) (b : BlockId) : Prop :=
  b = l.header ∨ b ∈ l.body

namespace FlowGraph

variable {g g' g₁ g₂ : FlowGraph} {b c d s t : BlockId}

/-- How a block ends, if it does yet. -/
def ends? (g : FlowGraph) (b : BlockId) : Option Terminator :=
  (g.bare? b).bind (·.terminator)

theorem ends?_some {y : Terminator} :
    g.ends? b = some y ↔ ∃ blk, g.bare? b = some blk ∧ blk.terminator = some y :=
  Option.bind_eq_some_iff

theorem contains_of_ends {y : Terminator} (h : g.ends? b = some y) : g.contains b = true := by
  obtain ⟨blk, hblk, -⟩ := ends?_some.mp h
  exact contains_iff_bare.mpr ⟨blk, hblk⟩

theorem ends?_of_bare {blk : Block} (h : g.bare? b = some blk) : g.ends? b = blk.terminator := by
  rw [ends?, h]
  rfl

theorem ends?_congr (h : g'.bare? b = g.bare? b) : g'.ends? b = g.ends? b := by
  rw [ends?, ends?, h]

theorem Frame.ends {region : BlockId → Prop} (h : Frame region g g') {y : Terminator}
    (hy : g.ends? b = some y) : g'.ends? b = some y := by
  obtain ⟨blk, hblk, hterm⟩ := ends?_some.mp hy
  obtain ⟨blk', hblk', hgrown⟩ := h.grows b trivial blk hblk
  exact ends?_some.mpr ⟨blk', hblk', (hgrown.ended y hterm).1⟩

theorem Frame.contains {region : BlockId → Prop} (h : Frame region g g')
    (hb : g.contains b = true) : g'.contains b = true := by
  obtain ⟨blk, hblk⟩ := contains_iff_bare.mp hb
  obtain ⟨blk', hblk', -⟩ := h.grows b trivial blk hblk
  exact contains_iff_bare.mpr ⟨blk', hblk'⟩

theorem mem_targets_bare :
    t ∈ g.targets s ↔ ∃ blk, g.bare? s = some blk ∧ ∃ e ∈ blk.successors, e.target = t := by
  rw [mem_targets]
  simp only [Block.mem_targets]
  exact exists_bare (fun _ => Iff.rfl)

theorem targets_congr (h : g'.bare? s = g.bare? s) : t ∈ g'.targets s ↔ t ∈ g.targets s := by
  rw [mem_targets_bare, mem_targets_bare, h]

theorem Sound.lt_of_reachable (h : Sound g) (hb : g.Reachable b) : b.raw < g.nextBlock :=
  (h.ids b).mp (h.linked.contains_of_reachable hb)

/-! Edges that are added. -/

/-- Edges are added from each of some blocks to each of some others. -/
structure Spreads (sources targets : BlockId → Prop) (g g' : FlowGraph) : Prop where
  entry : g'.entry = g.entry
  targets : ∀ s t, t ∈ g'.targets s ↔ t ∈ g.targets s ∨ sources s ∧ targets t

/-- Where the new edges lead to, if anywhere, is all that is reached besides, unless there is more
to reach from there. -/
theorem Spreads.reachable {sources targets : BlockId → Prop} (h : Spreads sources targets g g')
    (honward : ∀ c t u, sources c → g.Reachable c → targets t → u ∈ g.targets t →
      g.Reachable u ∨ targets u) :
    g'.Reachable b ↔ g.Reachable b ∨ targets b ∧ ∃ c, sources c ∧ g.Reachable c := by
  have old : ∀ {b}, g.Reachable b → g'.Reachable b := by
    intro b hb
    unfold Reachable at hb ⊢
    rw [h.entry]
    exact Relation.ReflTransGen.mono (fun s t ht => (h.targets s t).mpr (.inl ht)) _ _ hb
  constructor
  · intro hb
    unfold Reachable at hb
    rw [h.entry] at hb
    induction hb with
    | refl => exact .inl .refl
    | @tail s t _ ht ih =>
      rcases (h.targets s t).mp ht with ht | ⟨hs, ht⟩
      · rcases ih with ih | ⟨hs, c, hc, hreach⟩
        · exact .inl (ih.tail ht)
        · exact (honward c s t hc hreach hs ht).imp_right (fun ht => ⟨ht, c, hc, hreach⟩)
      · rcases ih with ih | ⟨-, hc⟩
        · exact .inr ⟨ht, s, hs, ih⟩
        · exact .inr ⟨ht, hc⟩
  · intro hb
    rcases hb with hb | ⟨hb, c, hc, hreach⟩
    · exact old hb
    · exact (old hreach).tail ((h.targets c b).mpr (.inr ⟨hc, hb⟩))

/-- No edge is added. -/
theorem Spreads.none (hentry : g'.entry = g.entry)
    (htargets : ∀ s t, t ∈ g'.targets s ↔ t ∈ g.targets s) :
    Spreads (fun _ => False) (fun _ => False) g g' :=
  ⟨hentry, fun s t => by simp [htargets]⟩

theorem Spreads.reachable_none (h : Spreads (fun _ => False) (fun _ => False) g g') :
    g'.Reachable b ↔ g.Reachable b := by
  rw [h.reachable (fun _ _ _ hc => hc.elim)]
  simp

theorem Creates.spreads {origin : BlockOrigin} (h : Creates g c origin g') :
    Spreads (fun _ => False) (fun _ => False) g g' := by
  refine .none h.entry (fun s t => ?_)
  by_cases hs : s = c
  · subst hs
    simp [mem_targets_bare, h.self, h.before]
  · rw [targets_congr]
    rw [h.after, if_neg hs]

theorem Changes.spreads {blk : Block} {t : Terminator} (hb : g.bare? c = some blk)
    (hopen : blk.successors = [])
    (h : Changes g c { blk with terminator := some t, successors := t.edges } g') :
    Spreads (· = c) (fun b => ∃ e ∈ t.edges, e.target = b) g g' := by
  refine ⟨h.frame.entry, fun s u => ?_⟩
  by_cases hs : s = c
  · subst hs
    simp [mem_targets_bare, h.self, hb, hopen]
  · rw [targets_congr (h.frame.only s hs)]
    simp [hs]

theorem Changes.spreads_none {blk : Block} {slots : List Slot} (hb : g.bare? c = some blk)
    (h : Changes g c { blk with slots } g') :
    Spreads (fun _ => False) (fun _ => False) g g' := by
  refine .none h.frame.entry (fun s t => ?_)
  by_cases hs : s = c
  · subst hs
    simp [mem_targets_bare, h.self, hb]
  · rw [targets_congr (h.frame.only s hs)]

/-- Ended blocks that come to raise to handlers. -/
theorem Raises.spreads {caught region : BlockId → Prop} (h : Raises caught region g g')
    (hg : Sound g) (hended : ∀ b, region b → g.contains b = true → ∃ y, g.ends? b = some y)
    (hcontains : ∀ b, region b → g.contains b = true) : Spreads region caught g g' := by
  refine ⟨h.entry, fun s t => ?_⟩
  by_cases hs : region s
  · obtain ⟨y, hy⟩ := hended s hs (hcontains s hs)
    obtain ⟨blk, hblk, hterm⟩ := ends?_some.mp hy
    obtain ⟨blk', hblk', hgrown⟩ := h.grows s hs blk hblk
    have hplain : ∀ e : Edge, e.kind ≠ .exception → (e ∈ blk'.successors ↔ e ∈ blk.successors) := by
      intro e he
      have hsynced := hg.synced s blk hblk
      have hsynced' := h.sound.synced s blk' hblk'
      have hterm' := (hgrown.ended y hterm).1
      rw [Block.terminatorEdges, hterm] at hsynced
      rw [Block.terminatorEdges, hterm', ← hsynced] at hsynced'
      have hmem := congrArg (e ∈ ·) hsynced'
      simpa [List.mem_filter, he] using hmem
    -- A handler is entered by exceptions alone.
    rw [mem_targets_bare, mem_targets_bare, hblk, hblk']
    simp only [Option.some.injEq, exists_eq_left', hs, true_and]
    constructor
    · intro ht
      obtain ⟨e, he, rfl⟩ := ht
      by_cases hkind : e.kind = .exception
      · have he : (⟨e.target, .exception⟩ : Edge) ∈ blk'.successors := hkind ▸ he
        exact ((hgrown.raises e.target).mp he).imp_left
          (fun he => ⟨⟨e.target, .exception⟩, he, rfl⟩)
      · exact .inl ⟨e, (hplain e hkind).mp he, rfl⟩
    · intro ht
      rcases ht with ⟨e, he, rfl⟩ | ht
      · by_cases hkind : e.kind = .exception
        · have he : (⟨e.target, .exception⟩ : Edge) ∈ blk.successors := hkind ▸ he
          exact ⟨_, (hgrown.raises e.target).mpr (.inl he), rfl⟩
        · exact ⟨e, (hplain e hkind).mpr he, rfl⟩
      · exact ⟨_, (hgrown.raises t).mpr (.inr ht), rfl⟩
  · rw [targets_congr (h.only s hs)]
    simp [hs]

/-! The blocks that leave a loop. -/

/-- Control comes to a block and quits there. -/
def Quits (g : FlowGraph) (b : BlockId) (x : Option BlockId) : Prop :=
  g.Reachable b ∧ (g.ends? b).bind (·.quits?) = some x

/-- Control quits in one of the blocks made since the counter stood at `n`. -/
def QuitsSince (g : FlowGraph) (n : Nat) (x : Option BlockId) : Prop :=
  ∃ b : BlockId, n ≤ b.raw ∧ g.Quits b x

/-- Control comes to a parallel loop, and in its body to a block that leaves it early. -/
def LeftEarly (g : FlowGraph) (l : LoopInfo) : Prop :=
  l.parallel = true ∧ g.Reachable l.header ∧
    ∃ b ∈ l.body, g.Quits b none ∨ g.Quits b (some l.exit)

/-- Control comes to the block that lowering is at. -/
def At (g : FlowGraph) (c : Option BlockId) : Prop :=
  ∃ b, c = some b ∧ g.Reachable b

/-- The loops made so far, in the order in which they were put into the table. -/
structure Past (g : FlowGraph) (loops : List LoopInfo) : Prop where
  table : g.loops = loops.foldl (putBy LoopInfo.construct) []
  ended : ∀ l ∈ loops, ∀ b, l.Holds b → ∃ y, g.ends? b = some y

/-- When an edge comes to lead to a block, no other block comes to be reached, and no loop made so
far comes to be left early. -/
structure Receives (g : FlowGraph) (loops : List LoopInfo) (t : BlockId) : Prop where
  onward : ∀ u ∈ g.targets t, g.Reachable u
  still : g.Reachable t ∨
    (∀ y, g.ends? t = some y → y.quits? = none) ∧ ∀ l ∈ loops, ¬l.Holds t

/-- More blocks come to be aimed at, and are reached under some condition. Blocks that have their
terminator keep it. -/
structure Joins (aims : BlockId → Prop) (whenever : Prop) (loops : List LoopInfo)
    (g g' : FlowGraph) : Prop where
  reachable : ∀ b, g'.Reachable b ↔ g.Reachable b ∨ aims b ∧ whenever
  receives : whenever → ∀ b, aims b → g.Receives loops b
  ends : ∀ b y, g.ends? b = some y → g'.ends? b = some y
  table : g'.loops = g.loops

/-- What a piece of code does that is lowered from a block on: which blocks made before come to be
aimed at, which of the blocks stay open, in what ways control quits in it, and whether control comes
to leave a parallel loop in it. -/
structure Goes (aims : BlockId → Prop) (loops : List LoopInfo) (g : FlowGraph)
    (c : Option BlockId) (loops' : List LoopInfo) (g' : FlowGraph) (opened : BlockId → Prop)
    (quits : Option BlockId → Prop) (early : Prop) : Prop where
  sound : Sound g'
  frame : Frame (g.Since c) g g'
  reached : ∀ b, g.Reachable b → g'.Reachable b
  kept : ∀ b, g.contains b = true → g'.Reachable b → g.Reachable b ∨ aims b ∧ g.At c
  entered : ∀ b : BlockId, g.nextBlock ≤ b.raw → g'.Reachable b → g.At c
  ended : ∀ b, g.Since c b → g'.contains b = true → opened b ∨ ∃ y, g'.ends? b = some y
  quits : ∀ n x, n ≤ g.nextBlock → (∀ b, c = some b → n ≤ b.raw) →
    (∀ t : BlockId, x = some t → t.raw < g.nextBlock) →
    (g'.QuitsSince n x ↔ g.QuitsSince n x ∨ g.At c ∧ quits x)
  past : Past g' loops'
  added : ∀ l ∈ loops', l ∈ loops ∨ ∀ b : BlockId, l.Holds b → g.nextBlock ≤ b.raw
  early : (∃ l ∈ loops', g'.LeftEarly l) ↔ (∃ l ∈ loops, g.LeftEarly l) ∨ g.At c ∧ early

section
variable {aims aims' opened opened' : BlockId → Prop} {quits quits' : Option BlockId → Prop}
  {early early' between : Prop} {loops loops' loops₁ loops₂ : List LoopInfo}
  {c₁ cur : Option BlockId}

@[simp] theorem at_some : g.At (some b) ↔ g.Reachable b := by
  simp [At]

@[simp] theorem not_at_none : ¬g.At none := by
  simp [At]

/-- A block that nothing has been put into yet, or that is still to be made. -/
theorem Past.receives (h : Past g loops)
    (hb : ∀ blk, g.bare? b = some blk → blk.terminator = none ∧ blk.successors = []) :
    Receives g loops b := by
  have hends : ∀ y, g.ends? b ≠ some y := by
    intro y hy
    obtain ⟨blk, hblk, hterm⟩ := ends?_some.mp hy
    rw [(hb blk hblk).1] at hterm
    cases hterm
  refine ⟨fun u hu => ?_, .inr ⟨fun y hy => absurd hy (hends y), fun l hl hholds => ?_⟩⟩
  · obtain ⟨blk, hblk, e, he, -⟩ := mem_targets_bare.mp hu
    rw [(hb blk hblk).2] at he
    cases he
  · obtain ⟨y, hy⟩ := h.ended l hl b hholds
    exact hends y hy

theorem Past.receives_fresh {origin : BlockOrigin} (h : Past g loops)
    (hb : g.bare? b = some { id := b, origin }) : Receives g loops b := by
  refine h.receives (fun blk hblk => ?_)
  obtain rfl := Option.some.inj (hb.symm.trans hblk)
  exact ⟨rfl, rfl⟩

namespace Joins

variable {whenever : Prop} (h : Joins aims whenever loops g g')
include h

/-- Control quits nowhere else. -/
theorem quits_iff {x : Option BlockId} (hends : g'.ends? b = g.ends? b) :
    g'.Quits b x ↔ g.Quits b x := by
  rw [Quits, Quits, hends, h.reachable]
  constructor
  · intro hquits
    obtain ⟨hreach | ⟨haim, hwhen⟩, hx⟩ := hquits
    · exact ⟨hreach, hx⟩
    · rcases (h.receives hwhen b haim).still with hreach | ⟨hplain, -⟩
      · exact ⟨hreach, hx⟩
      · obtain ⟨y, hy, hx⟩ := Option.bind_eq_some_iff.mp hx
        rw [hplain y hy] at hx
        cases hx
  · exact fun hquits => ⟨.inl hquits.1, hquits.2⟩

theorem past (hpast : Past g loops) : Past g' loops := by
  refine ⟨h.table.trans hpast.table, fun l hl b hholds => ?_⟩
  obtain ⟨y, hy⟩ := hpast.ended l hl b hholds
  exact ⟨y, h.ends b y hy⟩

theorem leftEarly_iff (hpast : Past g loops) {l : LoopInfo} (hl : l ∈ loops) :
    g'.LeftEarly l ↔ g.LeftEarly l := by
  have hheader : g'.Reachable l.header ↔ g.Reachable l.header := by
    rw [h.reachable, or_iff_left_iff_imp]
    intro haim
    rcases (h.receives haim.2 _ haim.1).still with hreach | ⟨-, hapart⟩
    · exact hreach
    · exact absurd (.inl rfl) (hapart l hl)
  have hquits : ∀ b ∈ l.body, ∀ x, g'.Quits b x ↔ g.Quits b x := by
    intro b hb x
    obtain ⟨y, hy⟩ := hpast.ended l hl b (.inr hb)
    exact h.quits_iff ((h.ends b y hy).trans hy.symm)
  rw [LeftEarly, LeftEarly, hheader]
  refine and_congr_right (fun _ => and_congr_right (fun _ => exists_congr (fun b => ?_)))
  exact and_congr_right (fun hb => by rw [hquits b hb, hquits b hb])

theorem early_iff (hpast : Past g loops) :
    (∃ l ∈ loops, g'.LeftEarly l) ↔ ∃ l ∈ loops, g.LeftEarly l :=
  exists_congr (fun _ => and_congr_right (fun hl => h.leftEarly_iff hpast hl))

end Joins

namespace Goes

theorem of_congr (h : Goes aims loops g cur loops' g' opened quits early)
    (haims : ∀ b, g.contains b = true → aims b → g.At cur → g.Reachable b ∨ aims' b)
    (hopened : ∀ b, opened b → opened' b)
    (hquits : ∀ x, (∀ t : BlockId, x = some t → t.raw < g.nextBlock) → (quits x ↔ quits' x))
    (hearly : early ↔ early') : Goes aims' loops g cur loops' g' opened' quits' early' where
  sound := h.sound
  frame := h.frame
  reached := h.reached
  kept b hb hreach := (h.kept b hb hreach).elim .inl
    (fun haim => (haims b hb haim.1 haim.2).imp_right (fun haim' => ⟨haim', haim.2⟩))
  entered := h.entered
  ended b hb hin := (h.ended b hb hin).imp_left (hopened b)
  quits n x hn hc hx := by rw [h.quits n x hn hc hx, hquits x hx]
  past := h.past
  added := h.added
  early := by rw [h.early, hearly]

/-- Where control does not come, it neither quits nor leaves a loop. -/
theorem unreached (h : Goes aims loops g none loops' g' opened quits early)
    (hopened : ∀ b, opened b → opened' b) :
    Goes aims' loops g none loops' g' opened' quits' early' where
  sound := h.sound
  frame := h.frame
  reached := h.reached
  kept b hb hreach := (h.kept b hb hreach).elim .inl (fun haim => absurd haim.2 not_at_none)
  entered := h.entered
  ended b hb hin := (h.ended b hb hin).imp_left (hopened b)
  quits n x hn hc hx := by simp [h.quits n x hn hc hx]
  past := h.past
  added := h.added
  early := by simp [h.early]

/-- To do nothing. -/
theorem refl (hg : Sound g) (hpast : Past g loops) :
    Goes aims loops g cur loops g (fun b => cur = some b) (fun _ => False) False where
  sound := hg
  frame := .refl _ g
  reached _ hb := hb
  kept _ _ hb := .inl hb
  entered b hb hreach := absurd (hg.lt_of_reachable hreach) (by omega)
  ended b hb hin := hb.imp_right (fun hb => absurd ((hg.ids b).mp hin) (by omega))
  quits _ _ _ _ _ := by simp
  past := hpast
  added _ hl := .inl hl
  early := by simp

/-- To make a block, where control does not come so far. -/
theorem create {origin : BlockOrigin} (hg : Sound g) (hpast : Past g loops)
    (h : Creates g d origin g') (htable : g'.loops = g.loops) :
    Goes aims loops g none loops g' (· = d) quits early := by
  have hreach : ∀ b, g'.Reachable b ↔ g.Reachable b := fun b => h.spreads.reachable_none
  have hjoins : Joins (fun _ => False) False loops g g' :=
    ⟨fun b => by simp [hreach], nofun, fun b y => h.frame.ends, htable⟩
  have hends : ∀ b, g'.ends? b = g.ends? b := by
    intro b
    by_cases hb : b = d
    · rw [hb, ends?_of_bare h.self, ends?, h.before]
      rfl
    · exact ends?_congr ((h.after b).trans (if_neg hb))
  refine ⟨h.sound, h.frame.mono (fun _ => .inr), fun b => (hreach b).mpr,
    fun b _ hb => .inl ((hreach b).mp hb), ?_, ?_, ?_, hjoins.past hpast, fun l => .inl, ?_⟩
  · intro b hb hin
    have hlt := hg.lt_of_reachable ((hreach b).mp hin)
    omega
  · intro b hb hin
    left
    by_contra hne
    obtain ⟨blk, hblk⟩ := contains_iff_bare.mp hin
    rw [h.after, if_neg hne] at hblk
    rcases hb with hb | hb
    · cases hb
    · exact absurd (hg.lt_of_bare hblk) (Nat.not_lt.mpr hb)
  · intro n x _ _ _
    simp only [not_at_none, false_and, or_false]
    exact exists_congr (fun b => and_congr_right (fun _ => hjoins.quits_iff (hends b)))
  · simp only [not_at_none, false_and, or_false]
    exact hjoins.early_iff hpast

/-- What comes later starts in a block that is open now. -/
theorem trans (h : Goes aims loops g cur loops₁ g₁ opened quits early)
    (hsince : ∀ b, c₁ = some b → g.Since cur b) (hat : g₁.At c₁ ↔ g.At cur ∧ between)
    (h' : Goes aims' loops₁ g₁ c₁ loops₂ g₂ opened' quits' early') :
    Goes (fun b => aims b ∨ aims' b) loops g cur loops₂ g₂
      (fun b => opened b ∧ c₁ ≠ some b ∨ opened' b) (fun x => quits x ∨ between ∧ quits' x)
      (early ∨ between ∧ early') := by
  have hregion : ∀ b, g₁.Since c₁ b → g.Since cur b := by
    intro b hb
    rcases hb with hb | hb
    · exact hsince b hb
    · exact .inr (Nat.le_trans h.frame.next hb)
  exact {
    sound := h'.sound
    frame := h.frame.trans (h'.frame.mono hregion)
    reached := fun b hb => h'.reached b (h.reached b hb)
    kept := by
      intro b hb hreach
      rcases h'.kept b (h.frame.contains hb) hreach with hreach | ⟨haim, hat'⟩
      · exact (h.kept b hb hreach).imp_right (fun haim => ⟨.inl haim.1, haim.2⟩)
      · exact .inr ⟨.inr haim, (hat.mp hat').1⟩
    entered := by
      intro b hb hreach
      by_cases hin : g₁.contains b = true
      · rcases h'.kept b hin hreach with hreach | ⟨-, hat'⟩
        · exact h.entered b hb hreach
        · exact (hat.mp hat').1
      · have hnew : g₁.nextBlock ≤ b.raw := by
          rw [h.sound.ids] at hin
          omega
        exact (hat.mp (h'.entered b hnew hreach)).1
    ended := by
      intro b hb hin
      by_cases hsince' : g₁.Since c₁ b
      · exact (h'.ended b hsince' hin).imp_left .inr
      · have hin₁ : g₁.contains b = true := by
          rw [h.sound.ids]
          exact Nat.lt_of_not_le (fun hle => hsince' (.inr hle))
        rcases h.ended b hb hin₁ with hopened | ⟨y, hy⟩
        · exact .inl (.inl ⟨hopened, fun hc => hsince' (.inl hc)⟩)
        · exact .inr ⟨y, h'.frame.ends hy⟩
    quits := by
      intro n x hn hc hx
      have hc₁ : ∀ b, c₁ = some b → n ≤ b.raw := by
        intro b hb
        rcases hsince b hb with hb | hb
        · exact hc b hb
        · exact Nat.le_trans hn hb
      rw [h'.quits n x (Nat.le_trans hn h.frame.next) hc₁
        (fun t ht => Nat.lt_of_lt_of_le (hx t ht) h.frame.next), h.quits n x hn hc hx, hat,
        and_or_left, or_assoc, and_assoc]
    past := h'.past
    added := by
      intro l hl
      rcases h'.added l hl with hl | hnew
      · exact h.added l hl
      · exact .inr (fun b hb => Nat.le_trans h.frame.next (hnew b hb))
    early := by
      rw [h'.early, h.early, hat, and_or_left, or_assoc, and_assoc] }

/-- To end a block. -/
theorem close {blk : Block} {y : Terminator} {guarded : Bool} (hg : Sound g) (hpast : Past g loops)
    (hb : g.bare? d = some blk) (hopen : blk.Open guarded)
    (htargets : ∀ e ∈ y.edges, e.kind ≠ .exception ∧ g.Target e.target)
    (run : g.setTerminator d y = .ok g')
    (hreceives : g.Reachable d → ∀ e ∈ y.edges, g.Receives loops e.target) :
    Joins (fun b => ∃ e ∈ y.edges, e.target = b) (g.Reachable d) loops g g' ∧
      Goes (fun b => ∃ e ∈ y.edges, e.target = b) loops g (some d) loops g' (fun _ => False)
        (fun x => y.quits? = some x) False := by
  have hchanges := hg.endBlock hb hopen htargets run
  have hjoins : Joins (fun b => ∃ e ∈ y.edges, e.target = b) (g.Reachable d) loops g g' := by
    refine ⟨fun b => ?_, ?_, fun b z => hchanges.frame.ends, ?_⟩
    · rw [(hchanges.spreads hb hopen.edgeless).reachable]
      · simp
      · intro c t u hc hreach ht hu
        obtain ⟨e, he, rfl⟩ := ht
        exact .inl ((hreceives (hc ▸ hreach) e he).onward u hu)
    · intro hreach b haim
      obtain ⟨e, he, rfl⟩ := haim
      exact hreceives hreach e he
    · obtain ⟨blk', hupdates⟩ := setTerminator_updates run
      exact hupdates.loops
  have hself : g'.ends? d = some y := ends?_of_bare hchanges.self
  have hunended : g.ends? d = none := (ends?_of_bare hb).trans hopen.unended
  refine ⟨hjoins, ?_⟩
  exact {
    sound := hchanges.sound
    frame := hchanges.frame.mono (fun b hb => .inl (congrArg some hb.symm))
    reached := fun b h => (hjoins.reachable b).mpr (.inl h)
    kept := by
      intro b _ h
      simpa using (hjoins.reachable b).mp h
    entered := by
      intro b hnew h
      rcases (hjoins.reachable b).mp h with h | h
      · exact absurd (hg.lt_of_reachable h) (by omega)
      · exact at_some.mpr h.2
    ended := by
      intro b hsince hin
      rcases hsince with hsince | hsince
      · obtain rfl := Option.some.inj hsince
        exact .inr ⟨y, hself⟩
      · rw [hchanges.sound.ids, hchanges.next] at hin
        omega
    quits := by
      intro n x _ hn _
      have hother : ∀ b, b ≠ d → (g'.Quits b x ↔ g.Quits b x) :=
        fun b hne => hjoins.quits_iff (ends?_congr (hchanges.frame.only b hne))
      constructor
      · intro h
        obtain ⟨b, hle, h⟩ := h
        by_cases hne : b = d
        · subst hne
          obtain ⟨hreach, hx⟩ := h
          rw [hself, Option.bind_some] at hx
          exact .inr ⟨at_some.mpr (((hjoins.reachable b).mp hreach).elim id (·.2)), hx⟩
        · exact .inl ⟨b, hle, (hother b hne).mp h⟩
      · intro h
        rcases h with ⟨b, hle, h⟩ | ⟨hat, hx⟩
        · refine ⟨b, hle, (hother b ?_).mpr h⟩
          rintro rfl
          obtain ⟨-, hx⟩ := h
          rw [hunended] at hx
          cases hx
        · refine ⟨d, hn d rfl, (hjoins.reachable d).mpr (.inl (at_some.mp hat)), ?_⟩
          rw [hself, Option.bind_some, hx]
    past := hjoins.past hpast
    added := fun l => .inl
    early := by
      rw [and_false, or_false]
      exact hjoins.early_iff hpast }

/-- Blocks made since then come to raise to handlers that nothing has been put into yet. -/
theorem raises {caught region : BlockId → Prop}
    (h : Goes aims loops g cur loops₁ g₁ opened quits early) (hg : Sound g)
    (hraises : Raises caught region g₁ g₂) (htable : g₂.loops = g₁.loops)
    (hregion : ∀ b, region b → g.Since cur b ∧ g.nextBlock ≤ b.raw ∧ ∃ y, g₁.ends? b = some y)
    (hcaught : ∀ b, caught b → g.nextBlock ≤ b.raw ∧ g₁.Receives loops₁ b)
    (hat : g.At cur → ∃ b, region b ∧ g₁.Reachable b) :
    Joins caught (g.At cur) loops₁ g₁ g₂ ∧
      Goes aims loops g cur loops₁ g₂ opened quits early := by
  have hends : ∀ b, g₂.ends? b = g₁.ends? b := by
    intro b
    by_cases hb : region b
    · obtain ⟨-, -, y, hy⟩ := hregion b hb
      obtain ⟨blk, hblk, hterm⟩ := ends?_some.mp hy
      obtain ⟨blk', hblk', hgrown⟩ := hraises.grows b hb blk hblk
      rw [hy, ends?_of_bare hblk', (hgrown.ended y hterm).1]
    · exact ends?_congr (hraises.only b hb)
  have hspreads : Spreads region caught g₁ g₂ := by
    refine hraises.spreads h.sound (fun b hb _ => (hregion b hb).2.2) (fun b hb => ?_)
    obtain ⟨-, -, y, hy⟩ := hregion b hb
    exact contains_of_ends hy
  have hiff : (∃ b, region b ∧ g₁.Reachable b) ↔ g.At cur := by
    refine ⟨fun hsome => ?_, hat⟩
    obtain ⟨b, hb, hreach⟩ := hsome
    exact h.entered b (hregion b hb).2.1 hreach
  have hjoins : Joins caught (g.At cur) loops₁ g₁ g₂ := by
    refine ⟨fun b => ?_, fun _ b hb => (hcaught b hb).2, fun b y hy => (hends b).trans hy, htable⟩
    rw [hspreads.reachable, hiff]
    exact fun c t u _ _ ht hu => .inl ((hcaught t ht).2.onward u hu)
  refine ⟨hjoins, ?_⟩
  exact {
    sound := hraises.sound
    frame := by
      refine h.frame.thenNew hg hraises.entry hraises.next (fun b hb => hraises.only b ?_)
      exact fun hmem => hb ⟨(hregion b hmem).1, (hregion b hmem).2.1⟩
    reached := fun b hb => (hjoins.reachable b).mpr (.inl (h.reached b hb))
    kept := by
      intro b hb hreach
      rcases (hjoins.reachable b).mp hreach with hreach | ⟨hmem, -⟩
      · exact h.kept b hb hreach
      · have hnew := (hcaught b hmem).1
        rw [hg.ids] at hb
        omega
    entered := by
      intro b hb hreach
      rcases (hjoins.reachable b).mp hreach with hreach | ⟨-, hat⟩
      · exact h.entered b hb hreach
      · exact hat
    ended := by
      intro b hb hin
      rw [hends]
      refine h.ended b hb ?_
      rw [h.sound.ids, ← hraises.next, ← hraises.sound.ids]
      exact hin
    quits := by
      intro n x hn hc hx
      rw [← h.quits n x hn hc hx]
      exact exists_congr (fun b => and_congr_right (fun _ => hjoins.quits_iff (hends b)))
    past := hjoins.past h.past
    added := h.added
    early := by
      rw [hjoins.early_iff h.past, h.early] }

/-- A loop whose blocks have been made since then is put into the table. -/
theorem addLoop {l : LoopInfo} (h : Goes aims loops g cur loops₁ g₁ opened quits early)
    (hholds : ∀ b, l.Holds b → g.nextBlock ≤ b.raw ∧ ∃ y, g₁.ends? b = some y)
    (hleft : g₁.LeftEarly l ↔ g.At cur ∧ early') :
    Goes aims loops g cur (loops₁ ++ [l]) (g₁.addLoop l) opened quits (early ∨ early') := by
  refine ⟨h.sound.addLoop l, h.frame.addLoop l, h.reached, h.kept, h.entered, h.ended, h.quits,
    ⟨?_, ?_⟩, ?_, ?_⟩
  · rw [List.foldl_append, ← h.past.table]
    rfl
  · intro m hm b hb
    rcases List.mem_append.mp hm with hm | hm
    · exact h.past.ended m hm b hb
    · obtain rfl := List.mem_singleton.mp hm
      exact (hholds b hb).2
  · intro m hm
    rcases List.mem_append.mp hm with hm | hm
    · exact h.added m hm
    · obtain rfl := List.mem_singleton.mp hm
      exact .inr (fun b hb => (hholds b hb).1)
  · rw [and_or_left, ← or_assoc, ← h.early, ← hleft]
    simp only [List.mem_append, List.mem_singleton, or_and_right, exists_or, exists_eq_left]
    exact Iff.rfl

end Goes

end

end FlowGraph

end TypedSsa

import TypedSsa.Proofs.Drafting

/-!
The shape of what statements are lowered to. Each construct adds a range of blocks, of which the
oldest is where lowering goes on; edges that lead back into the range are hedged. Main statement:
`lower_shaped`.
-/

namespace TypedSsa
open LowerM FlowGraph

/-- What a piece of code adds to a graph, seen from outside. -/
abbrev Shaped (scope : Scope) (s s' : Lowering) : Prop :=
  Drafted (s.graph.Onward s.current scope.Leaves) scope.guarded s.graph.nextBlock s.graph s.current
    s'.graph

/-- Lists of statements are lowered in shape. -/
structure Shaping (a : Arena) (lower : Scope → List NodeId → LowerM Unit) : Prop where
  lowers : Lowers a lower
  shaped : ∀ scope ids s s', s.Valid scope.guarded → scope.Fits s.graph →
    lower scope ids s = .ok ((), s') → s'.graph.blocks.length ≤ Ident.invalidRaw →
    Shaped scope s s'

section
variable {a : Arena} {scope : Scope} {g g' g₁ : FlowGraph} {b : Block} {c start target : BlockId}
  {arcs : BlockId → BlockId → Prop} {k : Nat} {s s₁ s' : Lowering} {u : Unit} {ids : List NodeId}
  {lower : Scope → List NodeId → LowerM Unit} {id : NodeId}

/-! One piece after another. -/

theorem Shaped.trans (h : Shaped scope s s₁) (h' : Shaped scope s₁ s') (hg : s.graph.Sound)
    (hfits : scope.Fits s.graph)
    (howned : ∀ b, s₁.current = some b → s.graph.Since s.current b) : Shaped scope s s' := by
  refine (Drafted.trans h h' howned (fun x y harc => ?_) h.frame.next
    (.inr (Nat.le_refl _))).mono (fun x y _ _ harc => ?_) id
  · exact (harc.2.imp_right (fun hleaves => hleaves.lt hfits hg)).symm
  · rcases harc with harc | ⟨hx, hy⟩
    · exact harc
    · refine ⟨hx.elim (howned x) (fun hx => .inr (Nat.le_trans h.frame.next hx)), ?_⟩
      exact hy.imp_left (Nat.le_trans h.frame.next)

/-- A statement that control does not reach is lowered from a block of its own, to which nothing
leads. -/
theorem ensureBlock_shaped (hvalid : s.Valid scope.guarded) (hfits : scope.Fits s.graph)
    (run : ensureBlock scope s = .ok (c, s₁))
    (hcount : s₁.graph.blocks.length ≤ Ident.invalidRaw) (h : Shaped scope s₁ s') :
    Shaped scope s s' := by
  obtain ⟨g, cur⟩ := s
  rcases ensureBlock_ok run with ⟨-, rfl⟩ | ⟨hnone, s₂, hnew, rfl⟩
  · exact h
  · obtain rfl : cur = none := hnone
    have hstart : Drafted (fun _ _ => False) scope.guarded (g.nextBlock + 1) g none g :=
      .refl hvalid.sound (by omega) nofun
    obtain ⟨g₁, rfl, h₁, -, hid, hnext, -⟩ := hstart.create hnew hcount (by omega)
    have h : Drafted (g₁.Onward (some c) scope.Leaves) scope.guarded g₁.nextBlock g₁ (some c)
      s'.graph := h
    have howned : ∀ b, some c = some b → g.Since none b :=
      fun b hb => .inr (Option.some.inj hb ▸ Nat.le_of_eq hid.symm)
    have hlt : ∀ y, scope.Leaves y → y.raw < g.nextBlock := fun y hy => hy.lt hfits hvalid.sound
    refine (h₁.trans h howned (fun x y harc => ?_) (Nat.le_of_eq hnext.symm)
      (.inr (Nat.le_refl _))).enclose hvalid.sound (by omega) (fun x y harc => ?_)
      (fun x y harc _ hn hk _ => ?_)
    · rcases harc.2 with hy | hy
      · exact .inr hy
      · have := hlt y hy
        omega
    · rcases harc with harc | ⟨hx, hy⟩
      · exact harc.elim
      · refine ⟨hx.elim (howned x) (fun hx => .inr ?_), hy.imp_left (fun hy => ?_)⟩ <;> omega
    · rcases harc with harc | ⟨-, hy | hy⟩
      · exact harc.elim
      · omega
      · have := hlt y hy
        omega

/-! Statements without parts. -/

theorem Block.Open.short (h : b.Open scope.guarded) {t : Terminator}
    (hguarded : scope.guarded = true) :
    b.slots.length ≤ 1 ∧ (b.slots ≠ [] → ∃ target kind, t = .jump target kind) := by
  rw [h.empty hguarded]
  exact ⟨Nat.zero_le _, fun hne => absurd rfl hne⟩

theorem simple_shaped (hvalid : s.Valid scope.guarded) (hfits : scope.Fits s.graph)
    (run : simple scope id s = .ok (u, s')) (hcount : s'.graph.blocks.length ≤ Ident.invalidRaw) :
    Shaped scope s s' := by
  obtain ⟨c, g, g₁, hensure, hpushed, hcount₁, hrest⟩ := simple_ok run hcount
  refine ensureBlock_shaped hvalid hfits hensure hcount₁ ?_
  obtain ⟨g, b, hs₁, hsound, hfits, hb, hopen, -⟩ :=
    ensureBlock_starts hvalid hfits hensure hcount₁
  cases hs₁
  have hlt := hsound.lt_of_bare hb
  have hc : g.Since (some c) c := .inl rfl
  have h₀ : Drafted (fun _ _ => False) scope.guarded (g.nextBlock + 1) g (some c) g :=
    .ofOpen hsound hb hopen (by omega)
  obtain ⟨h₁, hchanges⟩ := h₀.push hc hb hopen hpushed
  rcases hrest with ⟨hguarded, next, g₂, g₃, hnew, hend, rfl, hcount₂⟩ | ⟨hguarded, rfl⟩
  · have hnext := hchanges.next
    obtain ⟨g₂, hs₂, h₂, hnext₂, hid, -, hold⟩ := h₁.create hnew hcount₂ (by omega)
    cases hs₂
    have hopen₁ : Block.Open false { b with slots := b.slots ++ [.node id] } :=
      ⟨hopen.unended, hopen.edgeless, nofun⟩
    obtain ⟨h₃, -⟩ := h₂.jump hc (hold _ _ hchanges.self) hopen₁
      (fun _ => by simp [hopen.empty hguarded])
      ((h₂.site hsound hfits).target hnext₂ (by simp)) (by omega) hend
    refine h₃.join hsound hb (by omega) (fun x y harc => .inl ?_) (fun x y harc => by omega)
    obtain ⟨hx, hy⟩ := harc.resolve_left not_false
    exact ⟨hx, hy ▸ hnext₂.new⟩
  · exact h₁.enclose hsound (by omega) (fun _ _ harc => harc.elim)
      (fun _ _ harc => harc.elim)

theorem terminate_shaped {t : Terminator} (hvalid : s.Valid scope.guarded)
    (hfits : scope.Fits s.graph) (run : terminate scope t s = .ok (u, s'))
    (hcount : s'.graph.blocks.length ≤ Ident.invalidRaw)
    (htargets : ∀ e ∈ t.edges, e.kind ≠ .exception ∧ scope.Leaves e.target) :
    Shaped scope s s' := by
  obtain ⟨c, s₁, hensure, run⟩ := bind_ok run
  have hkeeps := widens.andThen (widens.endBlock c t trivial) (fun _ => widens.setCurrent none)
  have hcount₁ := Nat.le_trans (hkeeps s₁ u s' run) hcount
  refine ensureBlock_shaped hvalid hfits hensure hcount₁ ?_
  obtain ⟨g, b, rfl, hsound, hfits, hb, hopen, -⟩ :=
    ensureBlock_starts hvalid hfits hensure hcount₁
  obtain ⟨u', s₂, hend, run⟩ := bind_ok run
  obtain ⟨g', hended, rfl⟩ := change_ok hend
  obtain rfl := setCurrent_ok run
  have hfit : ∀ e ∈ t.edges, e.kind ≠ .exception ∧ g.Target e.target := by
    intro e he
    obtain ⟨hkind, l, hl, htarget⟩ := htargets e he
    refine ⟨hkind, ?_⟩
    rcases htarget with htarget | htarget
    · exact htarget ▸ (hfits l hl).1
    · exact htarget ▸ (hfits l hl).2
  obtain ⟨h, -⟩ := (Drafted.ofOpen hsound hb hopen (Nat.le_refl _)).close (.inl rfl) hb hopen
    hopen.short hfit (fun e he => (htargets e he).2.lt hfits hsound) hended
  refine h.mono (fun x y _ _ harc => ?_) (fun h => h)
  obtain ⟨rfl, e, he, rfl⟩ := harc.resolve_left not_false
  exact ⟨.inl rfl, .inr (htargets e he).2⟩

/-! Parts of a statement. -/

/-- A body, and then the way on. -/
theorem Shaping.part (h : Shaping a lower) {origin : BlockOrigin} (hg : g.Sound)
    (hstart : g.bare? start = some { id := start, origin }) (hfits : scope.Fits g)
    (htarget : g.Target target) (run : lower scope ids ⟨g, some start⟩ = .ok (u, s))
    (fall : fallTo target s = .ok (u, s')) (hcount : s'.graph.blocks.length ≤ Ident.invalidRaw) :
    Part a scope ids start target g s' ∧
      Drafted (g.Onward (some start) (fun y => scope.Leaves y ∨ y = target)) scope.guarded
        g.nextBlock g (some start) s'.graph := by
  refine ⟨h.lowers.part hg hstart hfits htarget run fall hcount, ?_⟩
  have hcount₁ := Nat.le_trans (widens.fallTo target s u s' fall) hcount
  have hvalid : (⟨g, some start⟩ : Lowering).Valid scope.guarded :=
    ⟨hg, fun c hc => ⟨_, Option.some.inj hc ▸ hstart, fresh_open _ _ _⟩⟩
  have hlowered := h.lowers.lowered scope ids _ s hvalid hfits run hcount₁
  have hshaped : Drafted (g.Onward (some start) scope.Leaves) scope.guarded g.nextBlock g
      (some start) s.graph := h.shaped scope ids _ s hvalid hfits run hcount₁
  rcases fallTo_ok fall with ⟨-, rfl⟩ | ⟨c, g', hc, hend, rfl⟩
  · exact hshaped.mono (fun _ _ _ _ harc => ⟨harc.1, harc.2.imp_right .inl⟩) (fun h => h)
  · obtain ⟨b, hb, hopen⟩ := hlowered.valid.opened c hc
    have hlt : target.raw < g.nextBlock := by
      obtain ⟨-, blk, hblk, -⟩ := htarget
      exact hg.lt_of_bare hblk
    obtain ⟨hclosed, -⟩ := hshaped.close (hlowered.owned c hc) hb hopen hopen.short
      (jump_targets .normal nofun (hlowered.frame.target htarget))
      (fun e he => target_of_jump he ▸ hlt) hend
    refine hclosed.mono (fun x y _ _ harc => ?_) (fun h => h)
    rcases harc with harc | ⟨rfl, e, he, rfl⟩
    · exact ⟨harc.1, harc.2.imp_right .inl⟩
    · exact ⟨hlowered.owned x hc, .inr (.inr (target_of_jump he))⟩

/-- A part of a construct leads out of the loop around, or on to where the construct goes on. -/
theorem Shaping.limb (h : Shaping a lower) {scope' : Scope} {origin : BlockOrigin} {n : Nat}
    (hg : g.Sound) (hstart : g.bare? start = some { id := start, origin }) (hfits : scope.Fits g)
    (htarget : g.Target target) (run : lower scope' ids ⟨g, some start⟩ = .ok (u, s))
    (fall : fallTo target s = .ok (u, s')) (hcount : s'.graph.blocks.length ≤ Ident.invalidRaw)
    (hloop : scope'.loop = scope.loop) (hn : ∀ y, scope.Leaves y → y.raw < n) :
    Part a scope' ids start target g s' ∧
      Drafted (g.Onward (some start) (fun y => scope.Leaves y ∧ y.raw < n ∨ y.raw = target.raw))
        scope'.guarded g.nextBlock g (some start) s'.graph := by
  have hfits : scope'.Fits g := by
    rw [Scope.Fits, hloop]
    exact hfits
  obtain ⟨hlaid, hpart⟩ := h.part hg hstart hfits htarget run fall hcount
  refine ⟨hlaid, hpart.mono (fun x y _ _ harc => ⟨harc.1, harc.2.imp_right (fun hy => ?_)⟩)
    (fun h => h)⟩
  have hleaves : scope'.Leaves y ↔ scope.Leaves y := by rw [Scope.Leaves, Scope.Leaves, hloop]
  exact hy.imp (fun hy => ⟨hleaves.mp hy, hn y (hleaves.mp hy)⟩) (congrArg Ident.raw)

/-- The body of a loop leads on to the exit and to where the loop goes on. -/
theorem Shaping.body (h : Shaping a lower) {origin : BlockOrigin} {exit next : BlockId}
    (hg : g.Sound) (hstart : g.bare? start = some { id := start, origin }) (hexit : g.Target exit)
    (hnext : g.Target next)
    (run : lower (scope.inLoop id exit next) ids ⟨g, some start⟩ = .ok (u, s))
    (fall : fallTo next s = .ok (u, s')) (hcount : s'.graph.blocks.length ≤ Ident.invalidRaw) :
    Drafted (g.Onward (some start) (fun y => y.raw = exit.raw ∨ y.raw = next.raw)) scope.guarded
      g.nextBlock g (some start) s'.graph := by
  have hfits : (scope.inLoop id exit next).Fits g := by
    intro l hl
    obtain rfl := Option.some.inj hl
    exact ⟨hexit, hnext⟩
  obtain ⟨-, hpart⟩ := h.part hg hstart hfits hnext run fall hcount
  refine hpart.mono (fun x y _ _ harc => ⟨harc.1, harc.2.imp_right (fun hy => ?_)⟩) (fun h => h)
  rcases hy with ⟨l, hl, hy⟩ | rfl
  · obtain rfl := Option.some.inj hl
    exact hy.imp (congrArg Ident.raw) (congrArg Ident.raw)
  · exact .inr rfl

end

/-! Statements with parts. -/

section
variable {a : Arena} {scope : Scope} {g g' g₁ : FlowGraph} {b blk : Block}
  {c exit header start : BlockId} {arcs : BlockId → BlockId → Prop} {guarded : Bool} {k : Nat}
  {s s' : Lowering} {lower : Scope → List NodeId → LowerM Unit} {id : NodeId}
  {exitOrigin headerOrigin startOrigin : BlockOrigin}

namespace FlowGraph.Drafted

/-- The blocks of a loop are entered at its header alone. -/
theorem loop (h : Drafted arcs scope.guarded k g (some c) g') (hg : Sound g)
    (hb : g.bare? c = some b) (hk : g.nextBlock + 2 ≤ k) {l : LoopInfo}
    (hheader : l.header.raw = g.nextBlock + 1) (hrole : g'.HasRole l.header .loopHeader)
    (hends : ∃ condition start, g'.ends? l.header = some (.branch condition start l.exit))
    (hmem : ∀ b, l.latch = some b ∨ b ∈ l.body → g.nextBlock + 2 ≤ b.raw ∧ b.raw < g'.nextBlock)
    (harcs : ∀ x y, arcs x y → x.raw = c.raw ∧ y.raw = g.nextBlock + 1 ∨
      x.raw = g.nextBlock + 1 ∧ g.nextBlock ≤ y.raw ∧ y.raw ≠ g.nextBlock + 1 ∨
      g.nextBlock + 2 ≤ x.raw ∧ g.nextBlock ≤ y.raw)
    (hhedged : ∀ x y, arcs x y → x.raw < g'.nextBlock → g.nextBlock + 2 ≤ y.raw → y.raw < k →
      y.raw ≤ x.raw → g'.Hedged g'.nextBlock x y) :
    Drafted (g.Onward (some c) scope.Leaves) scope.guarded g.nextBlock g (some c)
      (g'.addLoop l) := by
  have hseals : g'.Sealed (g.nextBlock + 2) g'.nextBlock (g.nextBlock + 1) := by
    refine h.seals hg (by omega) (fun x y harc hx hlo _ => ?_)
    rcases harcs x y harc with h | h | h <;> omega
  have hc := hg.lt_of_bare hb
  refine (h.join hg hb (by omega) (fun x y harc => ?_)
    (fun x y harc hx hn hyk hle => ?_)).addLoop
      ⟨hends, by omega, g'.nextBlock, Nat.le_refl _, ?_, ?_⟩
  · rcases harcs x y harc with h | h | h
    · exact .inl ⟨h.1, by omega⟩
    · exact .inr ⟨by omega, .inl h.2.1⟩
    · exact .inr ⟨by omega, .inl h.2⟩
  · by_cases hy : y.raw = g.nextBlock + 1
    · have hlo : g.nextBlock + 2 ≤ x.raw := by
        rcases harcs x y harc with h | h | h <;> omega
      have hyl : y = l.header := congrArg Ident.mk (hy.trans hheader.symm)
      exact ⟨_, _, _, hseals, by omega, hlo, hx, Nat.le_refl _,
        .inr ⟨hy.symm, by omega, hyl ▸ hrole⟩⟩
    · exact hhedged x y harc hx (by omega) hyk hle
  · rw [hheader]
    exact hseals
  · intro b hb
    have := hmem b hb
    omega

/-- The block before a loop leads to its header, and that to the body and the exit. -/
theorem head (h : Drafted (fun _ _ => False) scope.guarded k g (some c) g₁) (hg : Sound g)
    (hfits : scope.Fits g) (hb : g.bare? c = some b) (hblk : g₁.bare? c = some blk)
    (hopen : blk.Open guarded) (hshort : scope.guarded = true → blk.slots.length ≤ 1)
    (hexit : Waits g g₁ exit exitOrigin) (hexit_role : exitOrigin.role ≠ .handler)
    (hheader : Waits g g₁ header headerOrigin) (hheader_role : headerOrigin.role ≠ .handler)
    (hstart : Waits g g₁ start startOrigin) (hstart_role : startOrigin.role ≠ .handler)
    (hk : exit.raw < k ∧ header.raw < k ∧ start.raw < k) {condition : Condition}
    {g₂ : FlowGraph} (run : g₁.setTerminator c (.jump header .normal) = .ok g₂)
    (run' : g₂.setTerminator header (.branch condition start exit) = .ok g') :
    Drafted (fun x y => x.raw = c.raw ∧ y.raw = header.raw ∨
        x.raw = header.raw ∧ (y.raw = start.raw ∨ y.raw = exit.raw)) scope.guarded k g (some c) g' ∧
      (∀ d origin, d ≠ header → Waits g g₁ d origin → Waits g g' d origin) ∧
      g'.ends? header = some (.branch condition start exit) ∧
      g'.HasRole header headerOrigin.role ∧ g'.Target header ∧ g'.nextBlock = g₁.nextBlock := by
  have hsite := h.site hg hfits
  obtain ⟨h₂, hjumps⟩ := h.jump (.inl rfl) hblk hopen hshort
    (hsite.target hheader hheader_role) hk.2.1 run
  have hkeep : ∀ d origin, Waits g g₁ d origin → Waits g g₂ d origin :=
    fun d origin hd => hd.change hjumps (hsite.ne hb hd)
  have hsite₂ := h₂.site hg hfits
  have hheader₂ := hkeep _ _ hheader
  obtain ⟨h₃, htests⟩ := h₂.close hheader₂.since hheader₂.self (fresh_open false _ _)
    (fun _ => ⟨Nat.zero_le _, fun hne => absurd rfl hne⟩)
    (branch_targets condition (hsite₂.target (hkeep _ _ hstart) hstart_role)
      (hsite₂.target (hkeep _ _ hexit) hexit_role))
    (fun e he => by rcases target_of_branch condition he with htarget | htarget <;>
      rw [htarget] <;> omega) run'
  refine ⟨h₃.mono (fun x y _ _ harc => ?_) (fun h => h),
    fun d origin hd hwaits => (hkeep d origin hwaits).change htests hd,
    ends?_of_bare htests.self, hasRole_iff.mpr ⟨_, htests.self, rfl⟩,
    htests.frame.target (hsite₂.target hheader₂ hheader_role), htests.next.trans hjumps.next⟩
  rcases harc with harc | ⟨rfl, e, he, rfl⟩
  · exact .inl (harc.resolve_left not_false)
  · exact .inr ⟨rfl, (target_of_branch condition he).imp (congrArg Ident.raw) (congrArg Ident.raw)⟩

end FlowGraph.Drafted

/-- The two parts of a branch, of which the second may be missing. -/
theorem branchParts_shaped (ih : Shaping a lower) {test : NodeId} {body : List NodeId}
    (orelse : List NodeId) {thenBlock join : BlockId} {elseBlock : Option BlockId} {g₀ : FlowGraph}
    (h : Drafted (fun _ _ => False) scope.guarded g.nextBlock g₀ (some c) g) (hg₀ : Sound g₀)
    (hfits : scope.Fits g₀) (hb₀ : g₀.bare? c = some b) (hb : g.bare? c = some b)
    (hopen : b.Open scope.guarded)
    (hjoin : Waits g₀ g join ⟨.join, scope.depth, scope.construct⟩)
    (hid : join.raw = g₀.nextBlock)
    (hthen : Waits g₀ g thenBlock ⟨.thenPart, scope.depth, some id⟩)
    (helse : ∀ block, elseBlock = some block → Waits g₀ g block ⟨.elsePart, scope.depth, some id⟩)
    (run : branchParts lower scope id test body orelse c thenBlock join elseBlock ⟨g, some c⟩ =
      .ok ((), s'))
    (hcount : s'.graph.blocks.length ≤ Ident.invalidRaw) : Shaped scope ⟨g₀, some c⟩ s' := by
  obtain ⟨g₁, s₃, s₄, hended, hbody, hfall, hcount₄, hrest⟩ :=
    branchParts_ok ih.lowers.keeps run hcount
  have hsite := h.site hg₀ hfits
  have hlt : ∀ {d origin}, Waits g₀ g d origin → g₀.nextBlock ≤ d.raw ∧ d.raw < g.nextBlock :=
    fun hd => ⟨hd.new, h.sound.lt_of_bare hd.self⟩
  have hfalse : g.Target (elseBlock.getD join) ∧ g₀.nextBlock ≤ (elseBlock.getD join).raw ∧
      (elseBlock.getD join).raw < g.nextBlock := by
    cases elseBlock with
    | none => exact ⟨hsite.target hjoin (by simp), hlt hjoin⟩
    | some block => exact ⟨hsite.target (helse block rfl) (by simp), hlt (helse block rfl)⟩
  have htrue := hlt hthen
  obtain ⟨h₁, hends⟩ := h.close (.inl rfl) hb hopen hopen.short
    (branch_targets (.expr test) (hsite.target hthen (by simp)) hfalse.1)
    (fun e he => (target_of_branch _ he).elim (fun ht => ht ▸ htrue.2) (fun ht => ht ▸ hfalse.2.2))
    hended
  have h₁ : Drafted (fun x y => x.raw = c.raw ∧ g₀.nextBlock ≤ y.raw) scope.guarded g.nextBlock
      g₀ (some c) g₁ := h₁.mono (fun x y _ _ harc => ?_) (fun h => h)
  · have hthen₁ := hthen.change hends (hsite.ne hb₀ hthen)
    have hjoin₁ := hjoin.change hends (hsite.ne hb₀ hjoin)
    have hne := hjoin.ne hthen (by simp)
    have hnext := hends.next
    have hsite₁ := h₁.site hg₀ hfits
    have hleaves : ∀ y, scope.Leaves y → y.raw < g₀.nextBlock := fun y hy => hy.lt hfits hg₀
    obtain ⟨hlaid, hpart⟩ := ih.limb h₁.sound hthen₁.self hsite₁.fits
      (hsite₁.target hjoin₁ (by simp)) hbody hfall hcount₄ rfl hleaves
    have h₄ := h₁.part hpart hthen₁.since (fun y hy => by omega) (by omega) (fun h => h)
    have hjoin₄ := hjoin₁.part hlaid h₁.sound hne
    have hc := hg₀.lt_of_bare hb₀
    have hthen_lt : g₀.nextBlock < thenBlock.raw :=
      Nat.lt_of_le_of_ne hthen.new (fun heq => hne (congrArg Ident.mk (hid.trans heq)))
    rcases hrest with ⟨rfl, rfl⟩ | ⟨block, s₆, s₇, rfl, hbody', hfall', rfl⟩
    · exact h₄.join hg₀ hb₀ (by omega) (fun x y harc => by grind) (fun x y harc => by omega)
    · have helse := helse block rfl
      have hne' := hjoin.ne helse (by simp)
      have helse_lt : g₀.nextBlock < block.raw :=
        Nat.lt_of_le_of_ne helse.new (fun heq => hne' (congrArg Ident.mk (hid.trans heq)))
      have helse₄ := (helse.change hends (hsite.ne hb₀ helse)).part hlaid h₁.sound
        (helse.ne hthen (by simp))
      have hsite₄ := h₄.site hg₀ hfits
      obtain ⟨-, hpart'⟩ := ih.limb h₄.sound helse₄.self hsite₄.fits
        (hsite₄.target hjoin₄ (by simp)) hbody' hfall' hcount rfl hleaves
      have hnext₄ := hpart.frame.next
      have helse_hi := (hlt helse).2
      have h₇ := h₄.part hpart' helse₄.since (fun y hy => by omega) (by omega) (fun h => h)
      exact h₇.join hg₀ hb₀ (by omega) (fun x y harc => by grind) (fun x y harc => by omega)
  · obtain ⟨rfl, e, he, rfl⟩ := harc.resolve_left not_false
    refine ⟨rfl, ?_⟩
    rcases target_of_branch _ he with ht | ht
    · exact ht ▸ htrue.1
    · exact ht ▸ hfalse.2.1

theorem ifElse_shaped (ih : Shaping a lower) {test : NodeId} {body orelse : List NodeId}
    (hvalid : s.Valid scope.guarded) (hfits : scope.Fits s.graph)
    (run : ifElse lower scope id test body orelse s = .ok ((), s'))
    (hcount : s'.graph.blocks.length ≤ Ident.invalidRaw) : Shaped scope s s' := by
  obtain ⟨c, s₁, join, s₂, thenBlock, s₃, elseBlock, s₄, hensure, hjoin, hthen, helse, run,
    hcounts⟩ := ifElse_ok ih.lowers.keeps run hcount
  refine ensureBlock_shaped hvalid hfits hensure (by omega) ?_
  obtain ⟨g, b, rfl, hsound, hfits, hb, hopen, -⟩ :=
    ensureBlock_starts hvalid hfits hensure (by omega)
  rcases helse with ⟨-, rfl, rfl⟩ | ⟨block, rfl, hblock⟩
  · have h₁ : Drafted (fun _ _ => False) scope.guarded (g.nextBlock + 2) g (some c) g :=
      .ofOpen hsound hb hopen (by omega)
    obtain ⟨g₂, rfl, h₂, hjoin₂, hid, hnext₂, hold₂⟩ := h₁.create hjoin (by omega) (by omega)
    obtain ⟨g₃, rfl, h₃, hthen₃, -, hnext₃, hold₃⟩ := h₂.create hthen (by omega) (by omega)
    have hnext : g.nextBlock + 2 = g₃.nextBlock := by omega
    exact branchParts_shaped ih orelse (hnext ▸ h₃) hsound hfits hb (hold₃ _ _ (hold₂ _ _ hb)) hopen
      ⟨hold₃ _ _ hjoin₂.self, hjoin₂.new⟩ hid hthen₃ (fun _ h => by cases h) run hcount
  · have h₁ : Drafted (fun _ _ => False) scope.guarded (g.nextBlock + 3) g (some c) g :=
      .ofOpen hsound hb hopen (by omega)
    obtain ⟨g₂, rfl, h₂, hjoin₂, hid, hnext₂, hold₂⟩ := h₁.create hjoin (by omega) (by omega)
    obtain ⟨g₃, rfl, h₃, hthen₃, -, hnext₃, hold₃⟩ := h₂.create hthen (by omega) (by omega)
    obtain ⟨g₄, rfl, h₄, helse₄, -, hnext₄, hold₄⟩ := h₃.create hblock (by omega) (by omega)
    have hnext : g.nextBlock + 3 = g₄.nextBlock := by omega
    have helse : ∀ k, some block = some k → Waits g g₄ k ⟨.elsePart, scope.depth, some id⟩ := by
      intro k hk
      obtain rfl := Option.some.inj hk
      exact helse₄
    exact branchParts_shaped ih orelse (hnext ▸ h₄) hsound hfits hb
      (hold₄ _ _ (hold₃ _ _ (hold₂ _ _ hb))) hopen
      ⟨hold₄ _ _ (hold₃ _ _ hjoin₂.self), hjoin₂.new⟩ hid ⟨hold₄ _ _ hthen₃.self, hthen₃.new⟩
      helse run hcount

theorem whileLoop_shaped (ih : Shaping a lower) {test : NodeId} {body : List NodeId}
    (hvalid : s.Valid scope.guarded) (hfits : scope.Fits s.graph)
    (run : whileLoop lower scope id test body s = .ok ((), s'))
    (hcount : s'.graph.blocks.length ≤ Ident.invalidRaw) : Shaped scope s s' := by
  obtain ⟨c, s₁, exit, s₂, header, s₃, start, s₅, g₆, g₇, s₉, s₁₀, hensure, hexit, hheader, hstart,
    hended, htested, hlower, hfall, rfl, hcounts⟩ := whileLoop_ok ih.lowers.keeps run hcount
  refine ensureBlock_shaped hvalid hfits hensure (by omega) ?_
  obtain ⟨g, b, rfl, hsound, hfits, hb, hopen, -⟩ :=
    ensureBlock_starts hvalid hfits hensure (by omega)
  have h₁ : Drafted (fun _ _ => False) scope.guarded (g.nextBlock + 3) g (some c) g :=
    .ofOpen hsound hb hopen (by omega)
  obtain ⟨g₂, rfl, h₂, hexit₂, hexit_id, hnext₂, hold₂⟩ := h₁.create hexit (by omega) (by omega)
  obtain ⟨g₃, rfl, h₃, hheader₃, hheader_id, hnext₃, hold₃⟩ :=
    h₂.create hheader (by omega) (by omega)
  obtain ⟨g₅, rfl, h₅, hstart₅, hstart_id, hnext₅, hold₅⟩ := h₃.create hstart (by omega) (by omega)
  have hexit₅ : Waits g g₅ exit _ := ⟨hold₅ _ _ (hold₃ _ _ hexit₂.self), hexit₂.new⟩
  have hheader₅ : Waits g g₅ header _ := ⟨hold₅ _ _ hheader₃.self, hheader₃.new⟩
  obtain ⟨h₇, hkeep, hheads, hrole, htarget, hnext₇⟩ := h₅.head hsound hfits hb
    (hold₅ _ _ (hold₃ _ _ (hold₂ _ _ hb))) hopen (fun hguarded => by simp [hopen.empty hguarded])
    hexit₅ (by simp) hheader₅ (by simp) hstart₅ (by simp) (by omega) hended htested
  have hexit₇ := hkeep _ _ (hexit₅.ne hheader₅ (by simp)) hexit₅
  have hstart₇ := hkeep _ _ (hstart₅.ne hheader₅ (by simp)) hstart₅
  have hpart := ih.body h₇.sound hstart₇.self ((h₇.site hsound hfits).target hexit₇ (by simp))
    htarget hlower hfall (by omega)
  have h₁₀ := h₇.part hpart hstart₇.since (fun y hy => by omega) (by omega) (fun h => h)
  refine h₁₀.loop hsound hb (by omega) (by dsimp only; omega) (hpart.frame.hasRole hrole)
    ⟨_, _, hpart.frame.ends hheads⟩ (fun x hx => ?_) (fun x y harc => by omega)
    (fun x y harc _ hn hk hle => by omega)
  have hx : x ∈ s₁₀.graph.blockIds ∧ g₃.nextBlock ≤ x.raw := by simpa using hx
  have hlt := (h₁₀.sound.ids x).mp (mem_blockIds.mp hx.1)
  omega

theorem forLoop_shaped (ih : Shaping a lower) {body : List NodeId} {parallel : Bool}
    (hvalid : s.Valid scope.guarded) (hfits : scope.Fits s.graph)
    (run : forLoop lower scope id body parallel s = .ok ((), s'))
    (hcount : s'.graph.blocks.length ≤ Ident.invalidRaw) : Shaped scope s s' := by
  obtain ⟨c, s₁, g₂, exit, s₃, header, s₄, start, s₆, latch, s₇, g₈, g₉, g₁₀, g₁₁, s₁₃, s₁₄,
    hensure, hpushed, hexit, hheader, hstart, hlatch, hended, htested, hstepped, hbacked, hlower,
    hfall, rfl, hcounts⟩ := forLoop_ok ih.lowers.keeps run hcount
  refine ensureBlock_shaped hvalid hfits hensure (by omega) ?_
  obtain ⟨g, b, rfl, hsound, hfits, hb, hopen, -⟩ :=
    ensureBlock_starts hvalid hfits hensure (by omega)
  have h₁ : Drafted (fun _ _ => False) scope.guarded (g.nextBlock + 4) g (some c) g :=
    .ofOpen hsound hb hopen (by omega)
  obtain ⟨h₂, hinits⟩ := h₁.push (.inl rfl) hb hopen hpushed
  have hnext₂ := hinits.next
  obtain ⟨g₃, rfl, h₃, hexit₃, hexit_id, hnext₃, hold₃⟩ := h₂.create hexit (by omega) (by omega)
  obtain ⟨g₄, rfl, h₄, hheader₄, hheader_id, hnext₄, hold₄⟩ :=
    h₃.create hheader (by omega) (by omega)
  obtain ⟨g₆, rfl, h₆, hstart₆, hstart_id, hnext₆, hold₆⟩ := h₄.create hstart (by omega) (by omega)
  obtain ⟨g₇, rfl, h₇, hlatch₇, hlatch_id, hnext₇, hold₇⟩ := h₆.create hlatch (by omega) (by omega)
  have hexit₇ : Waits g g₇ exit _ :=
    ⟨hold₇ _ _ (hold₆ _ _ (hold₄ _ _ hexit₃.self)), hexit₃.new⟩
  have hheader₇ : Waits g g₇ header _ := ⟨hold₇ _ _ (hold₆ _ _ hheader₄.self), hheader₄.new⟩
  have hstart₇ : Waits g g₇ start _ := ⟨hold₇ _ _ hstart₆.self, hstart₆.new⟩
  have hopen₇ : Block.Open false { b with slots := b.slots ++ [.loopInit id] } :=
    ⟨hopen.unended, hopen.edgeless, nofun⟩
  obtain ⟨h₉, hkeep, hheads, hrole, htarget, hnext₉⟩ := h₇.head hsound hfits hb
    (hold₇ _ _ (hold₆ _ _ (hold₄ _ _ (hold₃ _ _ hinits.self)))) hopen₇
    (fun hguarded => by simp [hopen.empty hguarded])
    hexit₇ (by simp) hheader₇ (by simp) hstart₇ (by simp) (by omega) hended htested
  have hlatch₉ := hkeep _ _ (hlatch₇.ne hheader₇ (by simp)) hlatch₇
  -- The latch steps and leads back to the header.
  obtain ⟨h₁₀, hsteps⟩ := h₉.push hlatch₉.since hlatch₉.self (fresh_open _ _ _) hstepped
  obtain ⟨h₁₁, hbacks⟩ := h₁₀.jump hlatch₉.since hsteps.self
    (⟨rfl, rfl, nofun⟩ : Block.Open false _) (fun _ => Nat.le_refl 1)
    (hsteps.frame.target htarget) (by omega) hbacked
  have hlater : ∀ d origin, d ≠ header → d ≠ latch → Waits g g₇ d origin →
      Waits g g₁₁ d origin := fun d origin hd hd' hwaits =>
    ((hkeep d origin hd hwaits).change hsteps hd').change hbacks hd'
  have hexit₁₁ := hlater _ _ (hexit₇.ne hheader₇ (by simp)) (hexit₇.ne hlatch₇ (by simp)) hexit₇
  have hstart₁₁ :=
    hlater _ _ (hstart₇.ne hheader₇ (by simp)) (hstart₇.ne hlatch₇ (by simp)) hstart₇
  have hnext₁₁ : g₁₁.nextBlock = g₉.nextBlock := hbacks.next.trans hsteps.next
  have htlatch := hbacks.frame.target
    (hsteps.frame.target ((h₉.site hsound hfits).target hlatch₉ (by simp)))
  have hpart := ih.body h₁₁.sound hstart₁₁.self
    ((h₁₁.site hsound hfits).target hexit₁₁ (by simp)) htlatch hlower hfall (by omega)
  have h₁₄ := h₁₁.part hpart hstart₁₁.since (fun y hy => by omega) (by omega) (fun h => h)
  refine h₁₄.loop hsound hb (by omega) (by dsimp only; omega)
    (hpart.frame.hasRole (hbacks.frame.hasRole (hsteps.frame.hasRole hrole)))
    ⟨_, _, hpart.frame.ends (hbacks.frame.ends (hsteps.frame.ends hheads))⟩ (fun x hx => ?_)
    (fun x y harc => by omega) (fun x y harc hx hn hk hle => ?_)
  · have hle := hpart.frame.next
    have hx : some latch = some x ∨ x ∈ s₁₄.graph.blockIds ∧ g₄.nextBlock ≤ x.raw := by
      simpa using hx
    rcases hx with hx | hx
    · obtain rfl := Option.some.inj hx
      omega
    · have hlt := (h₁₄.sound.ids x).mp (mem_blockIds.mp hx.1)
      omega
  · -- The way back to the latch is in blocks that the body alone leads into.
    refine ⟨g.nextBlock + 4, s₁₄.graph.nextBlock, start.raw, h₁₄.seals hsound (by omega)
      (fun u v harc hu hlo hhi => by omega), by omega, by omega, hx, Nat.le_refl _, .inl (by omega)⟩

/-! Handlers. -/

theorem FlowGraph.Drafted.createEntries {handlers : List NodeId}
    {entries : List (NodeId × BlockId)} {scope' : Scope} {cur : Option BlockId}
    (h : Drafted arcs guarded k g (some c) g₁)
    (run : entryBlocks scope' handlers ⟨g₁, cur⟩ = .ok (entries, s))
    (hcount : s.graph.blocks.length ≤ Ident.invalidRaw)
    (hk : g₁.nextBlock + handlers.length ≤ k) :
    Drafted arcs guarded k g (some c) s.graph ∧
      s.graph.nextBlock = g₁.nextBlock + handlers.length := by
  induction handlers generalizing g₁ entries with
  | nil =>
    obtain ⟨rfl, rfl⟩ := entryBlocks_nil run
    exact ⟨h, rfl⟩
  | cons handler handlers ih =>
    obtain ⟨entry, s₁, rest, rfl, hnew, hall⟩ := entryBlocks_cons run
    have hle := widens.entryBlocks _ handlers _ _ _ hall
    rw [List.length_cons] at hk ⊢
    obtain ⟨g₂, rfl, h₂, -, -, hnext, -⟩ := h.create hnew (by omega) (by omega)
    obtain ⟨h₃, hnext₃⟩ := ih h₂ hall (by omega)
    exact ⟨h₃, by omega⟩

/-- The handlers lead to none of the blocks between `k` and `m`, which are those of the body. -/
theorem handlerParts_shaped (ih : Shaping a lower) {entries : List (NodeId × BlockId)}
    {after : BlockId} {origin origin' : BlockOrigin} {construct : Option NodeId} {g₀ : FlowGraph}
    {cur : Option BlockId} {u : Unit} {lo m : Nat}
    (h : Drafted arcs scope.guarded k g₀ (some c) g) (hg₀ : Sound g₀) (hfits : scope.Fits g₀)
    (hentries : ∀ x ∈ entries, Waits g₀ g x.2 origin ∧ lo ≤ x.2.raw)
    (hnodup : (entries.map (·.2)).Nodup) (hafter : Waits g₀ g after origin')
    (hhandler : origin.role = .handler) (hrole : origin'.role ≠ .handler)
    (hafter_lt : after.raw < k) (hn : g₀.nextBlock ≤ k) (hlo : lo ≤ k) (hk : k ≤ m)
    (hm : m ≤ g.nextBlock)
    (run : handlerParts a lower { scope with construct } entries after ⟨g, cur⟩ = .ok (u, s))
    (hcount : s.graph.blocks.length ≤ Ident.invalidRaw) :
    Drafted (fun x y => arcs x y ∨ lo ≤ x.raw ∧ (m ≤ y.raw ∨
      scope.Leaves y ∧ y.raw < g₀.nextBlock ∨ y.raw = after.raw)) scope.guarded k g₀ (some c)
      s.graph ∧ g.nextBlock ≤ s.graph.nextBlock := by
  induction entries generalizing g cur arcs with
  | nil =>
    obtain ⟨-, rfl⟩ := pure_ok run
    exact ⟨h.mono (fun _ _ _ _ => .inl) (fun h => h), Nat.le_refl _⟩
  | cons x xs ih' =>
    obtain ⟨body, s₄, s₁, -, hlower, hfall, run⟩ := handlerParts_cons run
    have hle : s₁.graph.blocks.length ≤ s.graph.blocks.length :=
      widens.handlerParts { scope with construct } after (fun _ _ ids _ => (ih.lowers.keeps · ids)) _ _ _
        run
    rw [List.map_cons, List.nodup_cons] at hnodup
    obtain ⟨hx, hx_lo⟩ := hentries x (by simp)
    have hsite := h.site hg₀ hfits
    obtain ⟨hlaid, hpart⟩ := ih.limb h.sound hx.self hsite.fits (hsite.target hafter hrole) hlower
      hfall (Nat.le_trans hle hcount) rfl (fun y hy => hy.lt hfits hg₀)
    have hnext := hpart.frame.next
    have h₁ : Drafted (fun x y => arcs x y ∨ lo ≤ x.raw ∧ (m ≤ y.raw ∨
        scope.Leaves y ∧ y.raw < g₀.nextBlock ∨ y.raw = after.raw)) scope.guarded k g₀ (some c)
        s₁.graph :=
      (h.part hpart hx.since (fun y hy => by omega) (by omega) (fun h => h)).mono
        (fun x y _ _ harc => by grind) (fun h => h)
    have hxs : ∀ y ∈ xs, Waits g₀ s₁.graph y.2 origin ∧ lo ≤ y.2.raw := by
      intro y hy
      obtain ⟨hwaits, hy_lo⟩ := hentries y (by simp [hy])
      refine ⟨hwaits.part hlaid h.sound (fun heq => ?_), hy_lo⟩
      exact hnodup.1 (List.mem_map.mpr ⟨y, hy, heq⟩)
    obtain ⟨g₁, cur₁⟩ := s₁
    obtain ⟨h₂, hnext₂⟩ := ih' h₁ hxs hnodup.2
      (hafter.part hlaid h.sound (hafter.ne hx (hhandler ▸ hrole))) (Nat.le_trans hm hnext) run
    exact ⟨h₂.mono (fun x y _ _ harc => harc.elim (fun h => h) .inr) (fun h => h),
      Nat.le_trans hnext hnext₂⟩

/-- The blocks of a body come to raise to handlers that wait. Other blocks wait on. -/
theorem FlowGraph.Drafted.guard {entries : List (NodeId × BlockId)} {origin : BlockOrigin}
    {g₀ : FlowGraph} {cur : Option BlockId} {u : Unit}
    (h : Drafted arcs guarded k g (some c) g₁) (hg : Sound g) (hfits : scope.Fits g)
    (hstart : Waits g g₀ start startOrigin) (hnext : g.nextBlock ≤ g₀.nextBlock)
    (hquiet : ∀ x blk, g₀.Since (some start) x → g₁.bare? x = some blk → blk.Quiet true)
    (hentries : ∀ x ∈ entries, Waits g g₁ x.2 origin ∧ x.2.raw < k)
    (hhandler : origin.role = .handler)
    (run : raiseTo entries (start :: g₁.blockIds.filter (fun b => g₀.nextBlock ≤ b.raw)) ⟨g₁, cur⟩ =
      .ok (u, s)) :
    ∃ g₂, s = ⟨g₂, cur⟩ ∧ g₂.nextBlock = g₁.nextBlock ∧
      Drafted (fun x y => arcs x y ∨ (x.raw = start.raw ∨ g₀.nextBlock ≤ x.raw) ∧
        x.raw < g₁.nextBlock ∧ y ∈ entries.map (·.2)) guarded k g (some c) g₂ ∧
      ∀ d origin, d ≠ start → d.raw < g₀.nextBlock → Waits g g₁ d origin → Waits g g₂ d origin := by
  obtain ⟨g₂, rfl, hraises⟩ := raiseTo_raises h.sound (fun x hx =>
    ⟨⟨_, (hentries x hx).1.self, hhandler⟩, (h.site hg hfits).ne_entry (hentries x hx).1⟩) run
  have hblocks : ∀ x, x ∈ start :: g₁.blockIds.filter (fun b => g₀.nextBlock ≤ b.raw) →
      x = start ∨ g₀.nextBlock ≤ x.raw := by
    intro x hx
    refine (List.mem_cons.mp hx).imp_right (fun hx => ?_)
    exact of_decide_eq_true (List.mem_filter.mp hx).2
  refine ⟨g₂, rfl, hraises.next, ?_, fun d origin hd hlt hwaits => hwaits.raises hraises ?_⟩
  · refine (h.raises hg hraises (raiseTo_arms run) (raiseTo_table run) (fun x hx => ?_)
      (fun x hx blk hblk => hquiet x blk ?_ hblk (.inl rfl)) (fun y hy => ?_)).mono
      (fun x y hlt _ harc => ?_) (fun h => h)
    · rcases hblocks x hx with rfl | hx
      · exact ⟨hstart.since, hstart.new⟩
      · exact ⟨.inr (Nat.le_trans hnext hx), Nat.le_trans hnext hx⟩
    · exact (hblocks x hx).imp_left (fun hx => congrArg some hx.symm)
    · obtain ⟨x, hx, rfl⟩ := List.mem_map.mp hy
      exact (hentries x hx).2
    · exact harc.imp_right (fun harc =>
        ⟨(hblocks x harc.1).imp_left (congrArg Ident.raw), hraises.next ▸ hlt, harc.2⟩)
  · exact fun hmem => (hblocks d hmem).elim hd (Nat.not_le.mpr hlt)

theorem tryCatch_shaped (ih : Shaping a lower) {body handlers : List NodeId}
    (hvalid : s.Valid scope.guarded) (hfits : scope.Fits s.graph)
    (run : LowerM.tryCatch a lower scope id body handlers s = .ok ((), s'))
    (hcount : s'.graph.blocks.length ≤ Ident.invalidRaw) : Shaped scope s s' := by
  obtain ⟨c, s₁, after, s₂, tryBlock, s₃, entries, s₄, g₅, s₈, s₉, s₁₁, s₁₂, hensure, hafter, htry,
    hentries, hended, hlower, hfall, hedges, hhandlers, rfl, hcounts⟩ :=
    tryCatch_ok ih.lowers.keeps run hcount
  refine ensureBlock_shaped hvalid hfits hensure (by omega) ?_
  obtain ⟨g, b, rfl, hsound, hfits, hb, hopen, -⟩ :=
    ensureBlock_starts hvalid hfits hensure (by omega)
  have h₁ : Drafted (fun _ _ => False) scope.guarded (g.nextBlock + 2 + handlers.length) g (some c)
      g := .ofOpen hsound hb hopen (by omega)
  obtain ⟨g₂, rfl, h₂, hafter₂, hafter_id, hnext₂, hold₂⟩ := h₁.create hafter (by omega) (by omega)
  obtain ⟨g₃, rfl, h₃, htry₃, htry_id, hnext₃, hold₃⟩ := h₂.create htry (by omega) (by omega)
  obtain ⟨h₄, hnext₄⟩ := h₃.createEntries hentries (by omega) (by omega)
  obtain ⟨g₄, rfl, -, -, hentries₄, hnodup, hold₄⟩ :=
    entryBlocks_created (h₃.site hsound hfits) hentries (by omega)
  have hnext₄ : g₄.nextBlock = g₃.nextBlock + handlers.length := hnext₄
  have hafter₄ : Waits g g₄ after _ := ⟨hold₄ _ _ (hold₃ _ _ hafter₂.self), hafter₂.new⟩
  have htry₄ : Waits g g₄ tryBlock _ := ⟨hold₄ _ _ htry₃.self, htry₃.new⟩
  -- The block before the `try`.
  have hsite₄ := h₄.site hsound hfits
  obtain ⟨h₅, hends⟩ := h₄.jump (.inl rfl) (hold₄ _ _ (hold₃ _ _ (hold₂ _ _ hb))) hopen
    (fun hguarded => by simp [hopen.empty hguarded])
    (hsite₄.target htry₄ (by simp)) (by omega) hended
  have hkeep : ∀ d origin, Waits g g₄ d origin → Waits g g₅ d origin :=
    fun d origin hd => hd.change hends (hsite₄.ne hb hd)
  have hafter₅ := hkeep _ _ hafter₄
  have htry₅ := hkeep _ _ htry₄
  have hentries₅ : ∀ x ∈ entries, Waits g g₅ x.2 ⟨.handler, scope.depth, some id⟩ :=
    fun x hx => hkeep _ _ (hentries₄ x hx).1
  have hnext₅ := hends.next
  -- The body.
  have hsite₅ := h₅.site hsound hfits
  have hne := hafter₅.ne htry₅ (by simp)
  obtain ⟨hlaid, hpart⟩ := ih.limb h₅.sound htry₅.self hsite₅.fits
    (hsite₅.target hafter₅ (by simp)) hlower hfall (by omega) rfl
    (fun y hy => hy.lt hfits hsound)
  have h₉ := h₅.part hpart htry₅.since (fun y hy => by omega) (by omega) (fun _ => rfl)
  obtain ⟨g₉, cur⟩ := s₉
  have hnext₉ : g₅.nextBlock ≤ g₉.nextBlock := hpart.frame.next
  have hentries₉ : ∀ x ∈ entries, Waits g g₉ x.2 ⟨.handler, scope.depth, some id⟩ := fun x hx =>
    (hentries₅ x hx).part hlaid h₅.sound ((hentries₅ x hx).ne htry₅ (by simp))
  -- The exception edges.
  have hhandler_ids : ∀ x ∈ entries, g.nextBlock + 2 ≤ x.2.raw ∧
      x.2.raw < g.nextBlock + 2 + handlers.length := by
    intro x hx
    have hle := (hentries₄ x hx).2
    have hlt := h₄.sound.lt_of_bare (hentries₄ x hx).1.self
    omega
  obtain ⟨g₁₁, rfl, hnext₁₁, h₁₁, hkeep₁₁⟩ := h₉.guard hsound hfits htry₅ (by omega) hpart.quiet
    (fun x hx => ⟨hentries₉ x hx, (hhandler_ids x hx).2⟩) rfl hedges
  have hnext₁₁ : g₁₁.nextBlock = g₉.nextBlock := hnext₁₁
  have hentries₁₁ : ∀ x ∈ entries, Waits g g₁₁ x.2 ⟨.handler, scope.depth, some id⟩ := fun x hx =>
    hkeep₁₁ _ _ ((hentries₅ x hx).ne htry₅ (by simp)) (h₅.sound.lt_of_bare (hentries₅ x hx).self)
      (hentries₉ x hx)
  have hafter₁₁ := hkeep₁₁ _ _ hne (h₅.sound.lt_of_bare hafter₅.self)
    (hafter₅.part hlaid h₅.sound hne)
  have h₁₁ : Drafted (fun x y => x.raw = c.raw ∧ y.raw = tryBlock.raw ∨
      (x.raw = tryBlock.raw ∨ g₅.nextBlock ≤ x.raw) ∧ x.raw < g₉.nextBlock ∧
        (g.nextBlock + 2 ≤ y.raw ∨ scope.Leaves y ∧ y.raw < g.nextBlock ∨ y.raw = after.raw))
      scope.guarded (g.nextBlock + 2 + handlers.length) g (some c) g₁₁ := by
    refine h₁₁.mono (fun x y _ _ harc => ?_) (fun h => h)
    rcases harc with harc | ⟨hx, hlt, hy⟩
    · grind
    · obtain ⟨handler, hmem, rfl⟩ := List.mem_map.mp hy
      exact .inr ⟨hx, hlt, .inl (hhandler_ids handler hmem).1⟩
  -- The handlers.
  obtain ⟨h₁₂, hnext₁₂⟩ := handlerParts_shaped ih h₁₁ hsound hfits
    (fun x hx => ⟨hentries₁₁ x hx, (hhandler_ids x hx).1⟩) hnodup hafter₁₁ rfl (by simp)
    (by omega) (by omega) (by omega) (by omega) (Nat.le_of_eq hnext₁₁.symm) hhandlers hcount
  have hc := hsound.lt_of_bare hb
  refine h₁₂.join hsound hb (by omega) (fun x y harc => by grind) (fun x y harc hx hn hk hle => ?_)
  -- What raises to a handler is in the body, into which the first block of the `try` alone leads.
  exact ⟨g.nextBlock + 2 + handlers.length, g₉.nextBlock, tryBlock.raw,
    h₁₂.seals hsound (by omega) (fun u v harc hu hlo hhi => by omega), by omega, by omega, by omega,
    by omega, .inl (by omega)⟩

end

/-! All statements. -/

section
variable {a : Arena} {scope : Scope} {s s' : Lowering} {id : NodeId} {u : Unit}

theorem leaveLoop_shaped {reason : String} {kind : EdgeKind} {target : LoopTargets → BlockId}
    (hvalid : s.Valid scope.guarded) (hfits : scope.Fits s.graph)
    (run : leaveLoop scope id reason kind target s = .ok (u, s'))
    (hcount : s'.graph.blocks.length ≤ Ident.invalidRaw) (hkind : kind ≠ .exception)
    (htarget : ∀ l, target l = l.breakTo ∨ target l = l.continueTo) : Shaped scope s s' := by
  unfold leaveLoop at run
  cases hloop : scope.loop with
  | none =>
    rw [hloop] at run
    cases run
  | some l =>
    rw [hloop] at run
    refine terminate_shaped hvalid hfits run hcount (fun e he => ?_)
    obtain rfl := List.mem_singleton.mp he
    exact ⟨hkind, l, hloop, htarget l⟩

theorem shaping_forM {f : Scope → NodeId → LowerM PUnit} (hkeeps : ∀ scope id, Keeps (f scope id))
    (hlowered : ∀ scope id s s', s.Valid scope.guarded → scope.Fits s.graph →
      f scope id s = .ok ((), s') → s'.graph.blocks.length ≤ Ident.invalidRaw →
      ∃ st, a.statement id = .ok st ∧ Lowered a scope (.one id st) s s')
    (h : ∀ scope id s s', s.Valid scope.guarded → scope.Fits s.graph →
      f scope id s = .ok ((), s') → s'.graph.blocks.length ≤ Ident.invalidRaw →
      Shaped scope s s') : Shaping a (fun scope ids => ids.forM (f scope)) := by
  refine ⟨lowers_forM hkeeps hlowered, ?_⟩
  intro scope ids
  induction ids with
  | nil =>
    intro s s' hvalid _ run _
    obtain ⟨-, rfl⟩ := pure_ok run
    exact (Drafted.refl hvalid.sound (Nat.le_refl _) hvalid.opened).mono
      (fun _ _ _ _ harc => harc.elim) (fun h => h)
  | cons id ids ih =>
    intro s s' hvalid hfits run hcount
    obtain ⟨u, s₁, hone, run⟩ := bind_ok run
    have hle := widens.forM (fun id _ => hkeeps scope id) _ _ _ run
    obtain ⟨st, -, hs₁⟩ := hlowered scope id s s₁ hvalid hfits hone (by omega)
    have hshaped := h scope id s s₁ hvalid hfits hone (by omega)
    exact hshaped.trans (ih s₁ s' hs₁.valid (hfits.frame hs₁.frame) run hcount) hvalid.sound hfits
      hs₁.owned

theorem statement_shaped (fuel : Nat) : ∀ scope id s s', s.Valid scope.guarded →
    scope.Fits s.graph → LowerM.statement a fuel scope id s = .ok ((), s') →
    s'.graph.blocks.length ≤ Ident.invalidRaw → Shaped scope s s' := by
  induction fuel with
  | zero =>
    intro scope id s s' _ _ run
    cases run
  | succ fuel ih =>
    intro scope id s s' hvalid hfits run hcount
    have hlower := shaping_forM (keeps_statement a fuel) (statement_lowered fuel) ih
    obtain ⟨st, s₁, hlift, run⟩ := bind_ok run
    obtain ⟨-, rfl⟩ := lift_ok hlift
    cases st with
    | assign | expr => exact simple_shaped hvalid hfits run hcount
    | ifElse => exact ifElse_shaped hlower hvalid hfits run hcount
    | whileLoop => exact whileLoop_shaped hlower hvalid hfits run hcount
    | forLoop => exact forLoop_shaped hlower hvalid hfits run hcount
    | tryCatch => exact tryCatch_shaped hlower hvalid hfits run hcount
    | breakStmt => exact leaveLoop_shaped hvalid hfits run hcount nofun (fun _ => .inl rfl)
    | continueStmt => exact leaveLoop_shaped hvalid hfits run hcount nofun (fun _ => .inr rfl)
    | returnStmt | raise => exact terminate_shaped hvalid hfits run hcount (fun _ he => by cases he)

end

/-! The whole body of a function. -/

namespace FlowGraph

/-- The shape of the graph of a whole body, unreachable blocks included. -/
structure Shape (g : FlowGraph) : Prop where
  entry : g.entry = ⟨0⟩
  unentered : ∀ x, g.entry ∉ g.targets x
  quiet : ∀ x blk, g.bare? x = some blk → blk.Quiet false
  enclosed : g.Enclosed 0 g.nextBlock
  loops : ∀ l ∈ g.loops, g.Rings 1 g.nextBlock l

theorem Drafted.shape {arcs : BlockId → BlockId → Prop} {name : String} {g : FlowGraph}
    (h : Drafted arcs false 1 (.new name) (some ⟨0⟩) g) (harcs : ∀ x y, arcs x y → 1 ≤ y.raw) :
    g.Shape := by
  have hentry : g.entry = ⟨0⟩ := h.frame.entry
  have hnew : ∀ x y, y ∈ g.targets x → 1 ≤ y.raw := by
    intro x y hy
    rcases h.edges x y hy with hy | harc
    · obtain ⟨b, hb, e, he, -⟩ := mem_targets_bare.mp hy
      rw [bare?_new] at hb
      split at hb
      · obtain rfl := Option.some.inj hb
        cases he
      · cases hb
    · exact harcs x y harc
  refine ⟨hentry, fun x hx => ?_, fun x blk => h.quiet x blk (since_new name x),
    fun x y hy _ => h.enclosed x y hy (hnew x y hy), fun l hl => (h.loops l hl).resolve_left nofun⟩
  have hlt := hnew x _ hx
  rw [hentry] at hlt
  exact Nat.not_succ_le_zero 0 hlt

theorem lower_shaped {a : Arena} {view : FunctionView} {g : FlowGraph}
    (run : FlowGraph.lower a view = .ok g) (hcount : g.blocks.length ≤ Ident.invalidRaw) :
    g.Shape := by
  unfold FlowGraph.lower at run
  obtain ⟨⟨u, s⟩, hbody, run⟩ := except_bind_ok run
  have hlower := shaping_forM (LowerM.keeps_statement a a.nodes.size)
    (statement_lowered a.nodes.size) (statement_shaped a.nodes.size)
  have hvalid : (⟨.new view.name, some ⟨0⟩⟩ : Lowering).Valid false := .new view.name
  have hshaped := fun hcount => hlower.shaped {} view.body _ s hvalid nofun hbody hcount
  have honward : ∀ x y : BlockId,
      (FlowGraph.new view.name).Onward (some ⟨0⟩) (Scope.Leaves {}) x y → 1 ≤ y.raw := by
    intro x y harc
    refine harc.2.resolve_right (fun hleaves => ?_)
    obtain ⟨l, hl, -⟩ := hleaves
    cases hl
  cases hcurrent : s.current with
  | none =>
    simp only [hcurrent] at run
    obtain rfl := Except.ok.inj run
    exact (hshaped hcount).shape honward
  | some c =>
    simp only [hcurrent] at run
    obtain ⟨b', hupdates⟩ := setTerminator_updates run
    have hcount : s.graph.blocks.length ≤ Ident.invalidRaw := hupdates.count ▸ hcount
    have hlowered := hlower.lowers.lowered {} view.body _ s hvalid nofun hbody hcount
    obtain ⟨b, hb, hopen⟩ := hlowered.valid.opened c hcurrent
    obtain ⟨h, -⟩ := (hshaped hcount).close (since_new view.name c) hb hopen nofun
      (exit_targets rfl) (fun _ he => by cases he) run
    refine h.shape (fun x y harc => harc.elim (honward x y) (fun hnone => ?_))
    obtain ⟨-, e, he, -⟩ := hnone
    cases he

end FlowGraph

end TypedSsa

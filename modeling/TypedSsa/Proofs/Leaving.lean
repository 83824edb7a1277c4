import TypedSsa.Proofs.Tracking

/-!
Control in lowered loops and `try` statements follows the statements. Main statement:
`statement_flows`.
-/

namespace TypedSsa
open LowerM FlowGraph

/-- The body of a loop, and whether the loop is parallel. -/
def Statement.repeats? : Statement → Option (Bool × List NodeId)
  | whileLoop _ body => some (false, body)
  | forLoop loop => some (loop.parallel, loop.body)
  | _ => none

section
variable {a : Arena} {scope : Scope} {g g' g₀ : FlowGraph} {b c d exit header next start : BlockId}
  {opened reached : BlockId → Prop} {loops loops' : List LoopInfo} {s s' : Lowering} {fuel : Nat}
  {lower : Scope → List NodeId → LowerM Unit} {id : NodeId} {body : List NodeId} {n : Nat}
  {st : Statement} {p guarded : Bool} {b₀ blk : Block} {u u' : Unit} {g₁ : FlowGraph}
  {exitOrigin headerOrigin startOrigin : BlockOrigin}

/-! Loops. -/

theorem comes_loop {passes : Bool → Code → Prop} {sort : List Bool → Statement → Prop}
    (hst : st.repeats? = some (p, body)) (hsort : ¬sort [] st) :
    Comes a passes sort [] guarded (.one id st) ↔ Comes a passes sort [p] guarded (.all body) := by
  cases st with
  | whileLoop =>
    cases hst
    exact comes_whileLoop hsort
  | forLoop =>
    cases hst
    exact comes_forLoop hsort
  | _ => cases hst

theorem ends_loop (hst : st.repeats? = some (p, body)) :
    a.Ends guarded (.one id st) := by
  cases st with
  | whileLoop => exact ends_whileLoop
  | forLoop => exact ends_forLoop
  | _ => cases hst

theorem loop_plain (hst : st.repeats? = some (p, body)) :
    st.isTry = false ∧ ¬Returns [] st ∧ ¬Breaks [] st ∧ ¬LeavesParallel [] st ∧ ¬Strays [] st := by
  cases st with
  | whileLoop | forLoop => simp [Statement.isTry, Returns, Breaks, LeavesParallel, Strays]
  | _ => cases hst

/-- The blocks of a loop are ready for its body, which takes the blocks from `n` on. Control comes
to all but those where the loop goes on, and from there to no others. -/
structure LoopReady (scope : Scope) (g₀ : FlowGraph) (c : BlockId) (g : FlowGraph)
    (exit header next start : BlockId) (n : Nat) : Prop where
  prepared : Prepared scope g₀ c g (fun b => b = header ∨ b = start ∨ b = exit)
    (fun b => b = exit ∨ b = start)
  exits : ∃ origin, Waits g₀ g exit origin ∧ origin.role ≠ .handler
  starts : ∃ origin, Waits g₀ g start origin ∧ start ≠ exit
  tests : ∃ y, g.ends? header = some y
  steps : ∃ y, g.ends? next = some y
  target : g.Target next
  fresh : g₀.nextBlock ≤ next.raw
  onward : ∀ u ∈ g.targets next, u = header ∨ u = start ∨ u = exit
  before : exit.raw < n
  within : n ≤ start.raw

namespace LoopReady

variable (h : LoopReady scope g₀ c g exit header next start n)
include h

theorem reachable (hb : b = header ∨ b = start ∨ b = exit) : g.Reachable b ↔ g₀.Reachable c := by
  rw [h.prepared.reachable_new (h.prepared.fresh b hb), and_iff_right hb]

theorem aims (hpast : Past g₀ loops) :
    (scope.inLoop id exit next).Aims loops g (some start) := by
  intro l hl
  obtain rfl := Option.some.inj hl
  refine ⟨h.steps, fun hat => ?_⟩
  rw [at_some, h.reachable (.inr (.inl rfl))] at hat
  refine ⟨(h.reachable (.inr (.inr rfl))).mpr hat, fun u hu => ?_, .inr ⟨fun y hy => ?_, ?_⟩⟩
  · exact (h.reachable (h.onward u hu)).mpr hat
  · refine (h.prepared.plain _ y hy).resolve_left (fun hold => ?_)
    have hlt := (h.prepared.site.base.ids _).mp (contains_of_ends hold)
    exact absurd hlt (Nat.not_lt.mpr h.fresh)
  · intro l hl hholds
    obtain ⟨y, hy⟩ := hpast.ended l hl _ hholds
    have hlt := (h.prepared.site.base.ids _).mp (contains_of_ends hy)
    exact absurd hlt (Nat.not_lt.mpr h.fresh)

theorem fits : (scope.inLoop id exit next).Fits g := by
  intro l hl
  obtain rfl := Option.some.inj hl
  obtain ⟨origin, hexit, hrole⟩ := h.exits
  exact ⟨h.prepared.site.target hexit hrole, h.target⟩

/-- Control has quit in none of the blocks of the loop so far. -/
theorem not_quitsSince (x : Option BlockId) : ¬g.QuitsSince n x := by
  intro hquits
  obtain ⟨b, hle, -, hx⟩ := hquits
  obtain ⟨y, hy, hx⟩ := Option.bind_eq_some_iff.mp hx
  rcases h.prepared.plain b y hy with hold | hplain
  · have hlt := (h.prepared.site.base.ids _).mp (contains_of_ends hold)
    obtain ⟨origin, hexit, -⟩ := h.exits
    have hnew := hexit.new
    have hfirst := h.before
    omega
  · rw [hplain] at hx
    cases hx

/-! What there is after the body, which control comes to just as it comes to the loop. -/

section
variable {lowered : List NodeId} {loops' : List LoopInfo}
  (hpart : PartFlows a lowered (scope.inLoop id exit next) body loops g start next loops' g')
include hpart

theorem reachable_after (hb : b = header ∨ b = start ∨ b = exit) :
    g'.Reachable b ↔ g₀.Reachable c := by
  rw [← h.reachable hb]
  have hin : g.contains b = true := by
    obtain ⟨origin, hexit, -⟩ := h.exits
    obtain ⟨origin', hstart, -⟩ := h.starts
    obtain ⟨y, hy⟩ := h.tests
    rcases hb with rfl | rfl | rfl
    · exact contains_of_ends hy
    · exact contains_iff_bare.mpr ⟨_, hstart.self⟩
    · exact contains_iff_bare.mpr ⟨_, hexit.self⟩
  refine ⟨fun hreach => ?_, hpart.goes.reached b⟩
  rcases hpart.goes.kept b hin hreach with hreach | ⟨-, hat⟩
  · exact hreach
  · rw [h.reachable hb, ← h.reachable (.inr (.inl rfl))]
    exact at_some.mp hat

theorem quitsSince_after {x : Option BlockId}
    (hx : ∀ t : BlockId, x = some t → t.raw < g.nextBlock) :
    g'.QuitsSince n x ↔ g₀.Reachable c ∧ a.Quits (scope.inLoop id exit next) (.all body) x := by
  obtain ⟨origin, hstart, -⟩ := h.starts
  have hlt := h.prepared.site.sound.lt_of_bare hstart.self
  have hwithin := h.within
  rw [hpart.goes.quits n x (by omega) (fun b hb => Option.some.inj hb ▸ hwithin) hx, at_some,
    h.reachable (.inr (.inl rfl)), or_iff_right (h.not_quitsSince x)]

/-- Control leaves the loop early just if the body says so. -/
theorem leftEarly_after {l : LoopInfo} (hheader : l.header = header) (hexit : l.exit = exit)
    (hbody : l.body = g'.blockIds.filter (fun b => n ≤ b.raw)) :
    g'.LeftEarly l ↔ g₀.Reachable c ∧ l.parallel = true ∧
      (Comes a a.Ends Returns [] scope.guarded (.all body) ∨
        Comes a a.Ends Breaks [] scope.guarded (.all body)) := by
  have hquits : ∀ x, (∃ b ∈ l.body, g'.Quits b x) ↔ g'.QuitsSince n x := by
    intro x
    refine exists_congr (fun b => and_congr_left (fun hb => ?_))
    rw [hbody, List.mem_filter, mem_blockIds, decide_eq_true_iff]
    exact and_iff_right (hpart.goes.sound.linked.contains_of_reachable hb.1)
  obtain ⟨origin, hexits, -⟩ := h.exits
  have hreturns := h.quitsSince_after hpart (x := none) nofun
  have hbreaks := h.quitsSince_after hpart (x := some exit)
    (fun t ht => Option.some.inj ht ▸ h.prepared.site.sound.lt_of_bare hexits.self)
  have hinner : ∃ m, (scope.inLoop id exit next).loop = some m ∧ m.breakTo = exit := ⟨_, rfl, rfl⟩
  simp only [LeftEarly, and_or_left, exists_or, hquits, hheader, hexit,
    h.reachable_after hpart (.inl rfl), hreturns, hbreaks, Arena.Quits, hinner, true_and]
  have honce : ∀ P : Prop, l.parallel = true ∧ g₀.Reachable c ∧ g₀.Reachable c ∧ P ↔
      g₀.Reachable c ∧ l.parallel = true ∧ P := fun P => by rw [and_self_left, and_left_comm]
  exact or_congr (honce _) (honce _)

end

end LoopReady

/-- The body of a loop is lowered, and the loop is put into the table. -/
theorem loop_flows (ih : Flowing a fuel lower) (hst : st.repeats? = some (p, body))
    (hparallel : p = true →
      ∃ loop, a.statement id = .ok (.forLoop loop) ∧ loop.parallel = true)
    (h : LoopReady scope g₀ c g exit header next start n) (hpast : Past g₀ loops)
    (run : lower (scope.inLoop id exit next) body ⟨g, some start⟩ = .ok (u, s))
    (fall : fallTo next s = .ok (u', s')) (hcount : s'.graph.blocks.length ≤ Ident.invalidRaw)
    {latch : Option BlockId} {depth : Nat} :
    ∃ loops', Flows a (id :: body.flatMap (a.nested fuel)) scope (.one id st) loops ⟨g₀, some c⟩
      loops' ⟨s'.graph.addLoop {
        construct := id, header, latch, exit, parallel := p, depth := depth,
        body := s'.graph.blockIds.filter (fun b => n ≤ b.raw) }, some exit⟩ := by
  generalize hl : (LoopInfo.mk ..) = l
  have hg₀ := h.prepared.site.base
  have hg := h.prepared.site.sound
  obtain ⟨origin, hexit, -⟩ := h.exits
  obtain ⟨origin', hstart, hne⟩ := h.starts
  obtain ⟨htry, hreturns, hbreaks, hleaves, hstrays⟩ := loop_plain hst
  have hprepared := h.prepared.goes hpast
  obtain ⟨loops', hpart⟩ := ih.part hg hstart.self h.fits hprepared.past (h.aims hpast) h.target
    (.inl ⟨_, rfl, rfl⟩) run fall hcount
  have hgoes := hprepared.part hstart.new (h.reachable (.inr (.inl rfl))) hpart.goes
  have hafter := h.reachable_after hpart (.inr (.inr rfl))
  have hrest := h.within
  have hfirst := h.before
  have hexit_new := hexit.new
  have hholds : ∀ b, l.Holds b → g₀.nextBlock ≤ b.raw ∧ ∃ y, s'.graph.ends? b = some y := by
    intro b hb
    rcases hb with rfl | hb
    · rw [← hl]
      obtain ⟨y, hy⟩ := h.tests
      exact ⟨h.prepared.fresh header (.inl rfl), y, hpart.goes.frame.ends hy⟩
    · rw [← hl, List.mem_filter, mem_blockIds, decide_eq_true_iff] at hb
      have hnew : g₀.nextBlock ≤ b.raw := by omega
      refine ⟨hnew, (hgoes.ended b (.inr hnew) hb.1).resolve_left ?_⟩
      intro hopened
      obtain ⟨rfl | rfl, hne⟩ := hopened
      · omega
      · exact hne rfl
  have hleft : s'.graph.LeftEarly l ↔ g₀.At (some c) ∧ p = true ∧
      (Comes a a.Ends Returns [] scope.guarded (.all body) ∨
        Comes a a.Ends Breaks [] scope.guarded (.all body)) := by
    subst hl
    rw [at_some]
    exact h.leftEarly_after hpart rfl rfl rfl
  refine ⟨loops' ++ [l], (hgoes.addLoop hholds hleft).compound hexit.new ?_ ?_ ?_ ?_ ?_ ?_ ?_ ?_⟩
  · intro b hb haim
    have hlt := (hg₀.ids b).mp hb
    rcases haim with haim | ⟨m, hm, rfl⟩ | rfl
    · exact haim.elim
    · obtain rfl := Option.some.inj hm
      exact absurd hlt (Nat.not_lt.mpr h.fresh)
    · exact absurd hlt (Nat.not_lt.mpr h.fresh)
  · intro b hb
    obtain ⟨rfl | rfl, hne⟩ := hb
    · rfl
    · exact absurd rfl hne
  · intro x hx
    rw [false_or]
    cases x with
    | none => exact comes_returns.symm.trans (comes_loop hst hreturns).symm
    | some t =>
      simp only [Arena.Quits, comes_loop hst hbreaks, not_comes_breaks, and_false, iff_false]
      intro hquit
      obtain ⟨⟨m, hm, rfl⟩, -⟩ := hquit
      obtain rfl := Option.some.inj hm
      exact absurd (hx _ rfl) (Nat.not_lt.mpr hexit_new)
  · rw [comes_loop hst hleaves, comes_leavesParallel, false_or]
    exact Iff.rfl
  · rw [and_iff_left (ends_loop hst)]
    exact hafter
  · exact fun _ => throws_of_not_try htry
  · intro _
    rw [comes_loop hst hstrays]
    exact not_comes_strays
  · have hid : l.construct = id := by rw [← hl]
    have hp : l.parallel = p := by rw [← hl]
    exact hpart.entered.addLoop hid (hp ▸ hparallel)

/-- The block before a loop leads to its header, and that to the body and the exit. -/
theorem Prepared.head (h : Prepared scope g₀ c g (fun _ => False) opened)
    (hb₀ : g₀.bare? c = some b₀) (hb : g.bare? c = some blk) (hopen : blk.Open guarded)
    (hexit : Waits g₀ g exit exitOrigin) (hexit_role : exitOrigin.role ≠ .handler)
    (hheader : Waits g₀ g header headerOrigin) (hheader_role : headerOrigin.role ≠ .handler)
    (hstart : Waits g₀ g start startOrigin) (hstart_role : startOrigin.role ≠ .handler)
    {condition : Condition}
    (run : g.setTerminator c (.jump header .normal) = .ok g₁)
    (run' : g₁.setTerminator header (.branch condition start exit) = .ok g') :
    Prepared scope g₀ c g' (fun b => b = header ∨ b = start ∨ b = exit)
        (fun b => (opened b ∧ b ≠ c) ∧ b ≠ header) ∧
      (∀ d origin, d ≠ header → Waits g₀ g d origin → Waits g₀ g' d origin) ∧
      g'.ends? header = some (.branch condition start exit) ∧ g'.Target header ∧
      ∀ u ∈ g'.targets header, u = start ∨ u = exit := by
  obtain ⟨h₁, hends⟩ := h.jump (.inl rfl) hb hopen h.reachable_self hheader hheader_role run
  have hkeep : ∀ d origin, Waits g₀ g d origin → Waits g₀ g₁ d origin :=
    fun d origin hd => hd.change hends (h.site.ne hb₀ hd)
  have hheader₁ := hkeep _ _ hheader
  have hat₁ : g₁.Reachable header ↔ g₀.Reachable c := by
    rw [h₁.reachable_new hheader.new]
    simp
  obtain ⟨h₂, htests⟩ := h₁.branch hheader₁.since hheader₁.self (fresh_open false _ _) hat₁
    (hkeep _ _ hstart) hstart_role (hkeep _ _ hexit) hexit_role run'
  refine ⟨h₂.of_congr (fun b => by simp) (fun _ hb => hb),
    fun d origin hd hwaits => (hkeep d origin hwaits).change htests hd,
    ends?_of_bare htests.self, htests.frame.target (h₁.site.target hheader₁ hheader_role), ?_⟩
  intro u hu
  obtain ⟨x, hx, e, he, rfl⟩ := mem_targets_bare.mp hu
  obtain rfl := Option.some.inj (htests.self.symm.trans hx)
  exact target_of_branch condition he

theorem whileLoop_flows (ih : Flowing a fuel lower) {test : NodeId} (hvalid : s.Valid scope.guarded)
    (hfits : scope.Fits s.graph) (hpast : Past s.graph loops)
    (haims : scope.Aims loops s.graph s.current)
    (run : whileLoop lower scope id test body s = .ok ((), s'))
    (hcount : s'.graph.blocks.length ≤ Ident.invalidRaw) :
    ∃ loops', Flows a (id :: body.flatMap (a.nested fuel)) scope (.one id (.whileLoop test body))
      loops s loops' s' := by
  obtain ⟨c, s₁, exit, s₂, header, s₃, start, s₅, g₆, g₇, s₉, s₁₀, hensure, hexit, hheader, hstart,
    hended, htested, hlower, hfall, rfl, hcounts⟩ := whileLoop_ok ih.lowers.keeps run hcount
  obtain ⟨g, b, rfl, hsound, hfits, hb, hopen, hpast, haims, hstarts⟩ :=
    ensureBlock_flows hvalid hfits hpast haims hensure (by omega)
  obtain ⟨g₂, rfl, hprepared₂, hexit₂, hold₂⟩ :=
    (Prepared.start hsound hfits c).create hexit (by omega)
  obtain ⟨g₃, rfl, hprepared₃, hheader₃, hold₃⟩ := hprepared₂.create hheader (by omega)
  obtain ⟨hid, -⟩ := newBlock_ok hstart
  obtain ⟨g₅, rfl, hprepared₅, hstart₅, hold₅⟩ := hprepared₃.create hstart (by omega)
  have hexit₅ : Waits g g₅ exit _ := ⟨hold₅ _ _ (hold₃ _ _ hexit₂.self), hexit₂.new⟩
  have hheader₅ : Waits g g₅ header _ := ⟨hold₅ _ _ hheader₃.self, hheader₃.new⟩
  obtain ⟨hprepared, hkeep, hheads, htarget, honward⟩ := hprepared₅.head hb
    (hold₅ _ _ (hold₃ _ _ (hold₂ _ _ hb))) hopen hexit₅ (by simp) hheader₅ (by simp) hstart₅
    (by simp) hended htested
  have hready : LoopReady scope g c g₇ exit header header start g₃.nextBlock := by
    refine ⟨hprepared.of_congr (fun _ => Iff.rfl) (fun k ⟨⟨hk, hne⟩, hne'⟩ => by
        simpa only [hne, hne', false_or, or_false] using hk),
      ⟨_, hkeep _ _ (hexit₅.ne hheader₅ (by simp)) hexit₅, by simp⟩,
      ⟨_, hkeep _ _ (hstart₅.ne hheader₅ (by simp)) hstart₅, hstart₅.ne hexit₅ (by simp)⟩,
      ⟨_, hheads⟩, ⟨_, hheads⟩, htarget, hheader₅.new, fun u hu => .inr (honward u hu), ?_, ?_⟩
    · exact hprepared₃.site.sound.lt_of_bare (hold₃ _ _ hexit₂.self)
    · rw [hid]
  have hst : (Statement.whileLoop test body).repeats? = some (false, body) := rfl
  obtain ⟨loops', hflows⟩ := loop_flows ih hst nofun hready hpast hlower hfall hcount
  exact ⟨loops', hstarts _ _ _ _ hflows⟩

theorem forLoop_flows (ih : Flowing a fuel lower) {loop : CountedLoop}
    (hst : a.statement id = .ok (.forLoop loop)) (hvalid : s.Valid scope.guarded)
    (hfits : scope.Fits s.graph) (hpast : Past s.graph loops)
    (haims : scope.Aims loops s.graph s.current)
    (run : forLoop lower scope id loop.body loop.parallel s = .ok ((), s'))
    (hcount : s'.graph.blocks.length ≤ Ident.invalidRaw) :
    ∃ loops', Flows a (id :: loop.body.flatMap (a.nested fuel)) scope (.one id (.forLoop loop))
      loops s loops' s' := by
  obtain ⟨c, s₁, g₂, exit, s₃, header, s₄, start, s₆, latch, s₇, g₈, g₉, g₁₀, g₁₁, s₁₃, s₁₄,
    hensure, hinit, hexit, hheader, hstart, hlatch, hended, htested, hstepped, hbacked, hlower,
    hfall, rfl, hcounts⟩ := forLoop_ok ih.lowers.keeps run hcount
  obtain ⟨g, b, rfl, hsound, hfits, hb, hopen, hpast, haims, hstarts⟩ :=
    ensureBlock_flows hvalid hfits hpast haims hensure (by omega)
  obtain ⟨hprepared₂, hpushed⟩ :=
    (Prepared.start hsound hfits c).push (.inl rfl) hb hopen.unended hinit
  obtain ⟨g₃, rfl, hprepared₃, hexit₃, hold₃⟩ := hprepared₂.create hexit (by omega)
  obtain ⟨g₄, rfl, hprepared₄, hheader₄, hold₄⟩ := hprepared₃.create hheader (by omega)
  obtain ⟨hid, -⟩ := newBlock_ok hstart
  obtain ⟨g₆, rfl, hprepared₆, hstart₆, hold₆⟩ := hprepared₄.create hstart (by omega)
  obtain ⟨g₇, rfl, hprepared₇, hlatch₇, hold₇⟩ := hprepared₆.create hlatch (by omega)
  have hexit₇ : Waits g g₇ exit _ :=
    ⟨hold₇ _ _ (hold₆ _ _ (hold₄ _ _ hexit₃.self)), hexit₃.new⟩
  have hheader₇ : Waits g g₇ header _ := ⟨hold₇ _ _ (hold₆ _ _ hheader₄.self), hheader₄.new⟩
  have hstart₇ : Waits g g₇ start _ := ⟨hold₇ _ _ hstart₆.self, hstart₆.new⟩
  have hopen₇ : Block.Open false { b with slots := b.slots ++ [.loopInit id] } :=
    ⟨hopen.unended, hopen.edgeless, nofun⟩
  obtain ⟨hprepared₉, hkeep, hheads, htarget, honward⟩ := hprepared₇.head hb
    (hold₇ _ _ (hold₆ _ _ (hold₄ _ _ (hold₃ _ _ hpushed.self)))) hopen₇ hexit₇ (by simp) hheader₇
    (by simp) hstart₇ (by simp) hended htested
  -- The latch waits at the end of the body, where control has not come yet.
  have hlatch₉ := hkeep _ _ (hlatch₇.ne hheader₇ (by simp)) hlatch₇
  obtain ⟨hprepared₁₀, hsteps⟩ := hprepared₉.push hlatch₉.since hlatch₉.self rfl hstepped
  have hunreached : g₁₀.Reachable latch ↔ False ∧ g.Reachable c := by
    rw [hprepared₁₀.reachable_new hlatch₉.new]
    simp [hlatch₇.ne hheader₇ (by simp), hlatch₇.ne hstart₇ (by simp), hlatch₇.ne hexit₇ (by simp)]
  obtain ⟨hprepared₁₁, hbacks⟩ := hprepared₁₀.close hlatch₉.since hsteps.self
    (⟨rfl, rfl, nofun⟩ : Block.Open false _)
    (jump_targets .normal nofun (hsteps.frame.target htarget)) rfl hunreached
    (fun e he => target_of_jump he ▸ hheader₇.new) (fun h => h.elim) hbacked
  have hlater : ∀ d origin, d ≠ header → d ≠ latch → Waits g g₇ d origin →
      Waits g g₁₁ d origin := fun d origin hd hd' hwaits =>
    ((hkeep d origin hd hwaits).change hsteps hd').change hbacks hd'
  have hready : LoopReady scope g c g₁₁ exit header latch start g₄.nextBlock := by
    refine ⟨hprepared₁₁.of_congr (fun k => by simp) (fun k ⟨⟨⟨hk, hne⟩, hne'⟩, hne''⟩ => by
        simpa only [hne, hne', hne'', false_or, or_false] using hk),
      ⟨_, hlater _ _ (hexit₇.ne hheader₇ (by simp)) (hexit₇.ne hlatch₇ (by simp)) hexit₇, by simp⟩,
      ⟨_, hlater _ _ (hstart₇.ne hheader₇ (by simp)) (hstart₇.ne hlatch₇ (by simp)) hstart₇,
        hstart₇.ne hexit₇ (by simp)⟩,
      ⟨_, hbacks.frame.ends (hsteps.frame.ends hheads)⟩, ⟨_, ends?_of_bare hbacks.self⟩,
      ?_, hlatch₇.new, ?_, ?_, ?_⟩
    · exact hbacks.frame.target (hsteps.frame.target (hprepared₉.site.target hlatch₉ (by simp)))
    · intro u hu
      obtain ⟨x, hx, e, he, rfl⟩ := mem_targets_bare.mp hu
      obtain rfl := Option.some.inj (hbacks.self.symm.trans hx)
      exact .inl (target_of_jump he)
    · exact hprepared₄.site.sound.lt_of_bare (hold₄ _ _ hexit₃.self)
    · rw [hid]
  have hrepeats : (Statement.forLoop loop).repeats? = some (loop.parallel, loop.body) := rfl
  obtain ⟨loops', hflows⟩ :=
    loop_flows ih hrepeats (fun hp => ⟨loop, hst, hp⟩) hready hpast hlower hfall hcount
  exact ⟨loops', hstarts _ _ _ _ hflows⟩

end

/-! Handlers. -/

/-- The code of some handler has a property. -/
def Arena.Caught (a : Arena) (handlers : List NodeId) (P : List NodeId → Prop) : Prop :=
  ∃ handler ∈ handlers, ∃ caught, a.handlerBody handler = .ok caught ∧ P caught

section
variable {a : Arena} {scope scope' : Scope} {g g' g₀ : FlowGraph} {b c d after : BlockId}
  {aims opened reached : BlockId → Prop} {quits : Option BlockId → Prop} {early : Prop}
  {loops loops₀ : List LoopInfo} {s s' : Lowering} {fuel : Nat}
  {lower : Scope → List NodeId → LowerM Unit} {id handler : NodeId}
  {body handlers caught : List NodeId} {entries : List (NodeId × BlockId)} {cur : Option BlockId}
  {origin origin' : BlockOrigin} {u : Unit} {P Q : List NodeId → Prop}

theorem not_caught_nil : ¬a.Caught [] P := by
  simp [Arena.Caught]

theorem caught_cons (hbody : a.handlerBody handler = .ok caught) :
    a.Caught (handler :: handlers) P ↔ P caught ∨ a.Caught handlers P := by
  simp [Arena.Caught, hbody]

theorem forM_table {α : Type} {f : α → LowerM PUnit} {xs : List α}
    (h : ∀ x s u s', f x s = .ok (u, s') → s'.graph.loops = s.graph.loops)
    (run : xs.forM f s = .ok (u, s')) : s'.graph.loops = s.graph.loops := by
  induction xs generalizing s with
  | nil =>
    obtain ⟨-, rfl⟩ := pure_ok run
    rfl
  | cons x xs ih =>
    obtain ⟨u', s₁, hone, run⟩ := bind_ok run
    exact (ih run).trans (h x s u' s₁ hone)

/-- The edges to handlers leave the table of loops as it is. -/
theorem raiseTo_table {blocks : List BlockId}
    (run : raiseTo entries blocks s = .ok (u, s')) :
    s'.graph.loops = s.graph.loops := by
  refine forM_table (fun block s u s' run => forM_table (fun x s u s' run => ?_) run) run
  obtain ⟨g', hadd, rfl⟩ := change_ok run
  obtain ⟨-, b, successors, hupdates, -⟩ := addExceptionEdge_updates hadd
  exact hupdates.loops

theorem Prepared.createEntries (h : Prepared scope g₀ c g reached opened)
    (run : entryBlocks scope' handlers ⟨g, cur⟩ = .ok (entries, s))
    (hcount : s.graph.blocks.length ≤ Ident.invalidRaw) :
    Prepared scope g₀ c s.graph reached (fun b => opened b ∨ b ∈ entries.map (·.2)) := by
  induction handlers generalizing g entries opened with
  | nil =>
    obtain ⟨rfl, rfl⟩ := entryBlocks_nil run
    exact h.of_congr (fun _ => Iff.rfl) (fun _ => .inl)
  | cons handler handlers ih =>
    obtain ⟨entry, s₁, rest, rfl, hnew, hall⟩ := entryBlocks_cons run
    have hle := widens.entryBlocks _ handlers _ _ _ hall
    obtain ⟨g₁, rfl, h₁, -, -⟩ := h.create hnew (by omega)
    exact (ih h₁ hall).of_congr (fun _ => Iff.rfl) (fun b => by simp [or_assoc])

/-- Handlers are lowered one after another. Control comes to each as it comes to the `try`. -/
theorem handlerParts_flows (ih : Flowing a fuel lower)
    (h : Amid scope g₀ c loops₀ g loops aims (fun b => b = after ∨ b ∈ entries.map (·.2)) quits
      early)
    (hentries : ∀ x ∈ entries, Waits g₀ g x.2 origin)
    (hnodup : (entries.map (·.2)).Nodup) (hafter : Waits g₀ g after origin')
    (hhandler : origin.role = .handler) (hrole : origin'.role ≠ .handler)
    (hat : ∀ x ∈ entries, g.Reachable x.2 ↔ g₀.Reachable c)
    (run : handlerParts a lower scope' entries after ⟨g, cur⟩ = .ok (u, s))
    (hcount : s.graph.blocks.length ≤ Ident.invalidRaw) (hloop : scope'.loop = scope.loop) :
    ∃ loops', Amid scope g₀ c loops₀ s.graph loops'
        (fun b => aims b ∨ scope.Continues b ∨ b = after) (· = after)
        (fun x => quits x ∨ a.Caught (entries.map (·.1)) (fun ids => a.Quits scope' (.all ids) x))
        (early ∨ a.Caught (entries.map (·.1))
          (fun ids => Comes a a.Ends LeavesParallel [] scope'.guarded (.all ids))) ∧
      (s.graph.Reachable after ↔ g.Reachable after ∨ g₀.Reachable c ∧
        a.Caught (entries.map (·.1)) (fun ids => a.Ends scope'.guarded (.all ids))) ∧
      (scope'.loop = none → ¬a.Caught (entries.map (·.1))
        (fun ids => Comes a (fun _ _ => True) Strays [] scope'.guarded (.all ids))) ∧
      Entered a (((entries.map (·.1)).flatMap (fun handler =>
        (a.handlerBody handler).toOption.getD [])).flatMap (a.nested fuel)) loops loops' := by
  induction entries generalizing g cur loops aims quits early with
  | nil =>
    obtain ⟨-, rfl⟩ := pure_ok run
    refine ⟨loops, h.of_congr (fun _ _ haim => .inl haim) (fun b hb => ?_) (fun x => ?_) ?_, ?_, ?_,
      .refl⟩
    · simpa using hb
    · simp [not_caught_nil]
    · simp [not_caught_nil]
    · simp [not_caught_nil]
    · exact fun _ => not_caught_nil
  | cons x xs ih' =>
    obtain ⟨body, s₄, s₁, hbody, hlower, hfall, run⟩ := handlerParts_cons run
    have hle : s₁.graph.blocks.length ≤ s.graph.blocks.length :=
      widens.handlerParts scope' after (fun _ _ ids _ => (ih.lowers.keeps · ids)) _ _ _ run
    rw [List.map_cons, List.nodup_cons] at hnodup
    have hx := hentries x (by simp)
    have hatx := hat x (by simp)
    have hapart : ∀ y ∈ x :: xs, y.2 ≠ after :=
      fun y hy => ((hafter.ne (hentries y hy) (hhandler ▸ hrole))).symm
    obtain ⟨loops₁, hpart, h₁⟩ := h.part ih hx hafter hrole (hapart x (by simp)).symm hatx hlower
      hfall (Nat.le_trans hle hcount) hloop
    have hafter₁ := h.waits hpart hafter (hapart x (by simp)).symm
    obtain ⟨g₁, cur₁⟩ := s₁
    have hentries₁ : ∀ y ∈ xs, Waits g₀ g₁ y.2 origin := by
      intro y hy
      refine h.waits hpart (hentries y (by simp [hy])) (fun heq => ?_)
      exact hnodup.1 (List.mem_map.mpr ⟨y, hy, heq⟩)
    have hat₁ : ∀ y ∈ xs, g₁.Reachable y.2 ↔ g₀.Reachable c := by
      intro y hy
      rw [h.reachable_part hpart hatx (hentries y (by simp [hy])) hloop, hat y (by simp [hy]),
        or_iff_left]
      exact fun h => hapart y (by simp [hy]) h.1
    have hleft : ∀ b, (b = after ∨ b ∈ (x :: xs).map (·.2)) ∧ b ≠ x.2 →
        b = after ∨ b ∈ xs.map (·.2) :=
      fun b hb => hb.1.imp_right (fun hmem => (List.mem_cons.mp hmem).resolve_left hb.2)
    obtain ⟨loops', h', hreach, hplaced, hentered⟩ := ih' (h₁.of_congr (fun _ _ haim => haim) hleft
      (fun _ => Iff.rfl) Iff.rfl) hentries₁ hnodup.2 hafter₁ hat₁ run
    refine ⟨loops', h'.of_congr (fun b _ haim => ?_) (fun _ hb => hb) (fun y => ?_) ?_, ?_, ?_, ?_⟩
    · exact haim.elim (fun h => h) .inr
    · rw [List.map_cons, caught_cons hbody, or_assoc]
    · rw [List.map_cons, caught_cons hbody, or_assoc]
    · rw [hreach, h.reachable_part hpart hatx hafter hloop, List.map_cons, caught_cons hbody,
        eq_self, true_and, or_assoc, ← and_or_left]
    · intro hloop
      rw [List.map_cons, caught_cons hbody]
      exact fun h => h.elim (hpart.placed hloop) (hplaced hloop)
    · simp only [List.map_cons, List.flatMap_cons, hbody, Except.toOption, Option.getD_some,
        List.flatMap_append]
      exact hpart.entered.trans hentered

/-- Ended blocks come to raise to the handlers, which wait on. -/
theorem Amid.raises (h : Amid scope g₀ c loops₀ g loops aims opened quits early)
    (hentries : ∀ x ∈ entries, Waits g₀ g x.2 origin) (hhandler : origin.role = .handler)
    {blocks : List BlockId}
    (hblocks : ∀ k ∈ blocks, g₀.nextBlock ≤ k.raw ∧ ∃ y, g.ends? k = some y)
    (hat : g₀.Reachable c → ∃ k ∈ blocks, g.Reachable k)
    (run : raiseTo entries blocks ⟨g, cur⟩ = .ok (u, s)) :
    ∃ g', s = ⟨g', cur⟩ ∧ Amid scope g₀ c loops₀ g' loops aims opened quits early ∧
      (∀ k, g'.Reachable k ↔ g.Reachable k ∨ k ∈ entries.map (·.2) ∧ g₀.Reachable c) ∧
      ∀ d origin, Waits g₀ g d origin → Waits g₀ g' d origin := by
  obtain ⟨g', rfl, hraises⟩ := raiseTo_raises h.site.sound
    (fun x hx => ⟨⟨_, (hentries x hx).self, hhandler⟩, h.site.ne_entry (hentries x hx)⟩) run
  have hsince : ∀ k ∈ blocks, g₀.Since (some c) k ∧ g₀.nextBlock ≤ k.raw ∧
      ∃ y, g.ends? k = some y := fun k hk => ⟨.inr (hblocks k hk).1, hblocks k hk⟩
  have hcaught : ∀ k, k ∈ entries.map (·.2) → g₀.nextBlock ≤ k.raw ∧ g.Receives loops k := by
    intro k hk
    obtain ⟨x, hx, rfl⟩ := List.mem_map.mp hk
    exact ⟨(hentries x hx).new, h.goes.past.receives_fresh (hentries x hx).self⟩
  obtain ⟨hjoins, hgoes⟩ := h.goes.raises h.site.base hraises (raiseTo_table run) hsince hcaught
    (fun hreach => hat (at_some.mp hreach))
  refine ⟨g', rfl, ⟨h.site.raises hraises (fun k hk => ⟨(hsince k hk).1, (hsince k hk).2.1⟩), hgoes,
    h.unended, h.around⟩, fun k => by rw [hjoins.reachable, at_some], fun d origin hd => ?_⟩
  refine hd.raises hraises (fun hmem => ?_)
  -- A block that waits has no end.
  obtain ⟨-, y, hy⟩ := hblocks d hmem
  rw [ends?_of_bare hd.self] at hy
  cases hy

theorem Arena.quits_tryCatch (x : Option BlockId) :
    a.Quits scope (.one id (.tryCatch body handlers)) x ↔
      a.Quits { scope with construct := some id, guarded := true } (.all body) x ∨
        a.Caught handlers (fun ids => a.Quits scope (.all ids) x) := by
  cases x with
  | none => exact comes_tryCatch (by simp [Returns])
  | some t =>
    simp only [Arena.Quits, comes_tryCatch (show ¬Breaks [] _ by simp [Breaks]), Arena.Caught,
      and_or_left]
    refine or_congr_right ⟨fun h => ?_, fun h => ?_⟩
    · obtain ⟨hl, handler, hmem, caught, hcaught, h⟩ := h
      exact ⟨handler, hmem, caught, hcaught, hl, h⟩
    · obtain ⟨handler, hmem, caught, hcaught, hl, h⟩ := h
      exact ⟨hl, handler, hmem, caught, hcaught, h⟩

theorem tryCatch_flows (ih : Flowing a fuel lower) (hvalid : s.Valid scope.guarded)
    (hfits : scope.Fits s.graph) (hpast : Past s.graph loops)
    (haims : scope.Aims loops s.graph s.current)
    (run : LowerM.tryCatch a lower scope id body handlers s = .ok ((), s'))
    (hcount : s'.graph.blocks.length ≤ Ident.invalidRaw) :
    ∃ loops', Flows a (id :: (a.inner (.tryCatch body handlers)).flatMap (a.nested fuel)) scope
      (.one id (.tryCatch body handlers)) loops s loops' s' := by
  obtain ⟨c, s₁, after, s₂, tryBlock, s₃, entries, s₄, g₅, s₈, s₉, s₁₁, s₁₂, hensure, hafter, htry,
    hentries, hended, hlower, hfall, hedges, hhandlers, rfl, hcounts⟩ :=
    tryCatch_ok ih.lowers.keeps run hcount
  obtain ⟨g, b, rfl, hsound, hfits, hb, hopen, hpast, haims, hstarts⟩ :=
    ensureBlock_flows hvalid hfits hpast haims hensure (by omega)
  obtain ⟨g₂, rfl, hprepared₂, hafter₂, hold₂⟩ :=
    (Prepared.start hsound hfits c).create hafter (by omega)
  obtain ⟨g₃, rfl, hprepared₃, htry₃, hold₃⟩ := hprepared₂.create htry (by omega)
  have hprepared₄ := hprepared₃.createEntries hentries (by omega)
  obtain ⟨g₄, rfl, -, hmap, hentries₄, hnodup, hold₄⟩ :=
    entryBlocks_created hprepared₃.site hentries (by omega)
  have hafter₄ : Waits g g₄ after _ := ⟨hold₄ _ _ (hold₃ _ _ hafter₂.self), hafter₂.new⟩
  have htry₄ : Waits g g₄ tryBlock _ := ⟨hold₄ _ _ htry₃.self, htry₃.new⟩
  -- The block before the `try`.
  obtain ⟨hprepared₅, hends⟩ := hprepared₄.jump (.inl rfl) (hold₄ _ _ (hold₃ _ _ (hold₂ _ _ hb)))
    hopen hprepared₄.reachable_self htry₄ (by simp) hended
  have hkeep : ∀ d origin, Waits g g₄ d origin → Waits g g₅ d origin :=
    fun d origin hd => hd.change hends (hprepared₄.site.ne hb hd)
  have hafter₅ := hkeep _ _ hafter₄
  have htry₅ := hkeep _ _ htry₄
  have hentries₅ : ∀ x ∈ entries, Waits g g₅ x.2 ⟨.handler, scope.depth, some id⟩ :=
    fun x hx => hkeep _ _ (hentries₄ x hx).1
  have hreached : ∀ d origin, Waits g g₅ d origin →
      (g₅.Reachable d ↔ d = tryBlock ∧ g.Reachable c) := by
    intro d origin hd
    rw [hprepared₅.reachable_new hd.new, false_or]
  -- The body.
  have h₅ := hprepared₅.amid hpast ((ends?_of_bare hb).trans hopen.unended) haims
  have hat₅ : g₅.Reachable tryBlock ↔ g.Reachable c := by rw [hreached _ _ htry₅, eq_self, true_and]
  have hne := hafter₅.ne htry₅ (by simp)
  obtain ⟨loops₁, hpart, h₉⟩ :=
    h₅.part ih htry₅ hafter₅ (by simp) hne hat₅ hlower hfall (by omega) rfl
  obtain ⟨g₉, cur⟩ := s₉
  have hentries₉ : ∀ x ∈ entries, Waits g g₉ x.2 ⟨.handler, scope.depth, some id⟩ :=
    fun x hx => h₅.waits hpart (hentries₅ x hx) ((hentries₅ x hx).ne htry₅ (by simp))
  -- The exception edges, from all blocks of the body.
  obtain ⟨g₁₁, rfl, h₁₁, hreach, hkeep₁₁⟩ := h₉.raises hentries₉ rfl
    (h₅.ended_part hpart htry₅)
    (fun hat => ⟨tryBlock, by simp, hpart.goes.reached _ (hat₅.mpr hat)⟩) hedges
  -- The handlers.
  have hat₁₁ : ∀ x ∈ entries, g₁₁.Reachable x.2 ↔ g.Reachable c := by
    intro x hx
    rw [hreach, and_iff_right (List.mem_map_of_mem hx), or_iff_right_iff_imp]
    exact fun h => at_some.mp (h₉.goes.entered _ (hentries₉ x hx).new h)
  have hleft : ∀ k, ((((k = c ∨ k = after) ∨ k = tryBlock) ∨ k ∈ entries.map (·.2)) ∧ k ≠ c) ∧
      k ≠ tryBlock → k = after ∨ k ∈ entries.map (·.2) := by
    rintro k ⟨⟨hk, hne⟩, hne'⟩
    simpa only [hne, hne', false_or, or_false] using hk
  obtain ⟨loops', h₁₂, hafter₁₂, hplaced, hentered⟩ := handlerParts_flows ih
    (h₁₁.of_congr (fun _ _ haim => haim) hleft (fun _ => Iff.rfl) Iff.rfl)
    (fun x hx => hkeep₁₁ _ _ (hentries₉ x hx)) hnodup (hkeep₁₁ _ _ (h₅.waits hpart hafter₅ hne)) rfl
    (by simp) hat₁₁ hhandlers hcount rfl
  rw [hmap] at h₁₂ hafter₁₂ hplaced hentered
  have hfalls : g₉.Reachable after ↔ g.Reachable c ∧ a.Ends true (.all body) := by
    rw [h₅.reachable_part hpart hat₅ hafter₅ rfl, hreached _ _ hafter₅, eq_self, true_and]
    exact or_iff_right (fun h => hne h.1)
  have hapart : after ∉ entries.map (·.2) := by
    intro hmem
    obtain ⟨x, hx, heq⟩ := List.mem_map.mp hmem
    exact hafter₅.ne (hentries₅ x hx) (by simp) heq.symm
  refine ⟨loops', hstarts _ _ _ _ (h₁₂.goes.compound hafter₂.new ?_ ?_ ?_ ?_ ?_ ?_ ?_ ?_)⟩
  · intro k hk haim
    have hlt := (hsound.ids k).mp hk
    rcases haim with (haim | haim | rfl) | haim | rfl
    · exact haim.elim
    · exact haim
    · exact absurd hlt (Nat.not_lt.mpr hafter₂.new)
    · exact haim
    · exact absurd hlt (Nat.not_lt.mpr hafter₂.new)
  · exact fun _ hk => hk
  · intro x _
    rw [Arena.quits_tryCatch, false_or]
    simp only [Arena.quits_construct]
  · rw [comes_tryCatch (by simp [LeavesParallel]), false_or]
    rfl
  · rw [hafter₁₂, ends_tryCatch (hpart.throws rfl), hreach, hfalls, and_or_left]
    exact or_congr_left (or_iff_left (fun h => hapart h.1))
  · exact fun _ => throws_tryCatch (hpart.throws rfl)
  · intro hloop
    rw [comes_tryCatch (by simp [Strays])]
    exact fun h => h.elim (hpart.placed hloop) (hplaced hloop)
  · rw [Arena.inner, List.flatMap_append]
    exact (hpart.entered.trans hentered).cons id

end

/-! All statements. -/

section
variable {a : Arena} {scope : Scope} {loops : List LoopInfo} {s s' : Lowering} {fuel : Nat}
  {id : NodeId} {st : Statement} {u : Unit}

theorem nested_succ (hst : a.statement id = .ok st) :
    a.nested (fuel + 1) id = id :: (a.inner st).flatMap (a.nested fuel) := by
  simp [Arena.nested, hst, Except.toOption]

theorem return_flows {value : Option NodeId} (hvalid : s.Valid scope.guarded)
    (hfits : scope.Fits s.graph) (hpast : Past s.graph loops)
    (haims : scope.Aims loops s.graph s.current)
    (run : terminate scope (.returnWith value) s = .ok (u, s'))
    (hcount : s'.graph.blocks.length ≤ Ident.invalidRaw) :
    Flows a [id] scope (.one id (.returnStmt value)) loops s loops s' := by
  have hleaf : (Statement.returnStmt value).Leaf a := ⟨rfl, rfl⟩
  refine terminate_flows hleaf hvalid hfits hpast haims run hcount (fun _ _ => exit_targets rfl)
    nofun (fun x => ?_) (not_ends (by simp)) (by simp [LeavesParallel]) (by simp [Strays])
  cases x <;> simp [Terminator.quits?, Arena.Quits, comes_leaf_iff hleaf, Returns, Breaks]

theorem raise_flows {value : Option NodeId} (hvalid : s.Valid scope.guarded)
    (hfits : scope.Fits s.graph) (hpast : Past s.graph loops)
    (haims : scope.Aims loops s.graph s.current)
    (run : terminate scope (.raise value) s = .ok (u, s'))
    (hcount : s'.graph.blocks.length ≤ Ident.invalidRaw) :
    Flows a [id] scope (.one id (.raise value)) loops s loops s' := by
  have hleaf : (Statement.raise value).Leaf a := ⟨rfl, rfl⟩
  refine terminate_flows hleaf hvalid hfits hpast haims run hcount (fun _ _ => exit_targets rfl)
    nofun (fun x => ?_) (not_ends (by simp)) (by simp [LeavesParallel]) (by simp [Strays])
  cases x <;> simp [Terminator.quits?, Arena.Quits, comes_leaf_iff hleaf, Returns, Breaks]

/-- A `break` or a `continue` leads to an end of the loop around it. -/
theorem leaveLoop_flows {reason : String} {kind : EdgeKind} {target : LoopTargets → BlockId}
    (hleaf : st.Leaf a) (hvalid : s.Valid scope.guarded) (hfits : scope.Fits s.graph)
    (hpast : Past s.graph loops) (haims : scope.Aims loops s.graph s.current)
    (run : leaveLoop scope id reason kind target s = .ok (u, s'))
    (hcount : s'.graph.blocks.length ≤ Ident.invalidRaw)
    (hst : st = .breakStmt ∧ kind = .breakOut ∧ target = (·.breakTo) ∨
      st = .continueStmt ∧ kind = .continueOn ∧ target = (·.continueTo)) :
    Flows a [id] scope (.one id st) loops s loops s' := by
  unfold leaveLoop at run
  cases hloop : scope.loop with
  | none =>
    rw [hloop] at run
    cases run
  | some l =>
    rw [hloop] at run
    have hkind : kind ≠ .exception := by
      rcases hst with ⟨-, rfl, -⟩ | ⟨-, rfl, -⟩ <;> nofun
    have htarget : target l = l.breakTo ∨ target l = l.continueTo := by
      rcases hst with ⟨-, -, rfl⟩ | ⟨-, -, rfl⟩
      · exact .inl rfl
      · exact .inr rfl
    refine terminate_flows hleaf hvalid hfits hpast haims run hcount (fun g hfits => ?_)
      (fun e he => ?_) (fun x => ?_) (not_ends ?_) ?_ (fun h => absurd h (by simp [hloop]))
    · refine jump_targets kind hkind ?_
      rcases htarget with htarget | htarget
      · exact htarget ▸ (hfits l hloop).1
      · exact htarget ▸ (hfits l hloop).2
    · obtain rfl := List.mem_singleton.mp he
      exact ⟨l, hloop, htarget⟩
    · rcases hst with ⟨rfl, rfl, rfl⟩ | ⟨rfl, rfl, rfl⟩ <;> cases x <;>
        simp [Terminator.quits?, Arena.Quits, comes_leaf_iff hleaf, Returns, Breaks, hloop]
    · rcases hst with ⟨rfl, -⟩ | ⟨rfl, -⟩ <;> simp
    · rcases hst with ⟨rfl, -⟩ | ⟨rfl, -⟩ <;> simp [LeavesParallel]

theorem flowing_forM {f : Scope → NodeId → LowerM PUnit} (hkeeps : ∀ scope id, Keeps (f scope id))
    (hlowered : ∀ scope id s s', s.Valid scope.guarded → scope.Fits s.graph →
      f scope id s = .ok ((), s') → s'.graph.blocks.length ≤ Ident.invalidRaw →
      ∃ st, a.statement id = .ok st ∧ Lowered a scope (.one id st) s s')
    (h : ∀ scope id st loops s s', a.statement id = .ok st → s.Valid scope.guarded →
      scope.Fits s.graph → Past s.graph loops → scope.Aims loops s.graph s.current →
      f scope id s = .ok ((), s') → s'.graph.blocks.length ≤ Ident.invalidRaw →
      ∃ loops', Flows a (a.nested fuel id) scope (.one id st) loops s loops' s') :
    Flowing a fuel (fun scope ids => ids.forM (f scope)) := by
  refine ⟨lowers_forM hkeeps hlowered, ?_⟩
  intro scope ids
  induction ids with
  | nil =>
    intro loops s s' hvalid _ hpast _ run _
    obtain ⟨-, rfl⟩ := pure_ok run
    exact ⟨loops, .all_nil hvalid hpast⟩
  | cons id ids ih =>
    intro loops s s' hvalid hfits hpast haims run hcount
    obtain ⟨u, s₁, hone, run⟩ := bind_ok run
    have hle := widens.forM (fun id _ => hkeeps scope id) _ _ _ run
    obtain ⟨st, hst, hs₁⟩ := hlowered scope id s s₁ hvalid hfits hone (by omega)
    obtain ⟨loops₁, hflows⟩ := h scope id st loops s s₁ hst hvalid hfits hpast haims hone (by omega)
    have hopen : ∀ b, s.current = some b → s.graph.ends? b = none := by
      intro b hb
      obtain ⟨blk, hblk, hopen⟩ := hvalid.opened b hb
      exact (ends?_of_bare hblk).trans hopen.unended
    have haims₁ := haims.later hflows.goes hvalid.sound hopen (fun hat => (hflows.ends.mp hat).1)
    obtain ⟨loops', hflows'⟩ := ih loops₁ s₁ s' hs₁.valid (hfits.frame hs₁.frame)
      hflows.goes.past haims₁ run hcount
    exact ⟨loops', hflows.all_cons hst hflows'⟩

theorem statement_flows (fuel : Nat) : ∀ scope id st loops s s', a.statement id = .ok st →
    s.Valid scope.guarded → scope.Fits s.graph → Past s.graph loops →
    scope.Aims loops s.graph s.current → LowerM.statement a fuel scope id s = .ok ((), s') →
    s'.graph.blocks.length ≤ Ident.invalidRaw →
    ∃ loops', Flows a (a.nested fuel id) scope (.one id st) loops s loops' s' := by
  induction fuel with
  | zero =>
    intro scope id st loops s s' _ _ _ _ _ run
    cases run
  | succ fuel ih =>
    intro scope id st loops s s' hst hvalid hfits hpast haims run hcount
    have hlower := flowing_forM (keeps_statement a fuel) (statement_lowered fuel) ih
    obtain ⟨st', s₁, hlift, run⟩ := bind_ok run
    obtain ⟨hst', rfl⟩ := lift_ok hlift
    obtain rfl := Except.ok.inj (hst.symm.trans hst')
    rw [nested_succ hst]
    cases st with
    | assign | expr => exact ⟨_, simple_flows rfl hvalid hfits hpast haims run hcount⟩
    | ifElse => exact ifElse_flows hlower hvalid hfits hpast haims run hcount
    | whileLoop => exact whileLoop_flows hlower hvalid hfits hpast haims run hcount
    | forLoop => exact forLoop_flows hlower hst hvalid hfits hpast haims run hcount
    | tryCatch => exact tryCatch_flows hlower hvalid hfits hpast haims run hcount
    | breakStmt =>
      exact ⟨_, leaveLoop_flows ⟨rfl, rfl⟩ hvalid hfits hpast haims run hcount (by simp)⟩
    | continueStmt =>
      exact ⟨_, leaveLoop_flows ⟨rfl, rfl⟩ hvalid hfits hpast haims run hcount (by simp)⟩
    | returnStmt => exact ⟨_, return_flows hvalid hfits hpast haims run hcount⟩
    | raise => exact ⟨_, raise_flows hvalid hfits hpast haims run hcount⟩

end

/-! The whole body of a function. -/

/-- What is known of the graph of a whole body, with the loops that were put into its table. -/
structure LoweredBody (a : Arena) (body : List NodeId) (loops : List LoopInfo) (g : FlowGraph) :
    Prop where
  sound : g.Sound
  past : Past g loops
  ended : ∀ b, g.contains b = true → ∃ y, g.ends? b = some y
  early : (∃ l ∈ loops, g.LeftEarly l) ↔ Comes a a.Ends LeavesParallel [] false (.all body)
  placed : ¬Comes a (fun _ _ => True) Strays [] false (.all body)
  entered : Entered a (body.flatMap (a.nested a.nodes.size)) [] loops

theorem lower_flows {a : Arena} {view : FunctionView} {g : FlowGraph}
    (run : FlowGraph.lower a view = .ok g) (hcount : g.blocks.length ≤ Ident.invalidRaw) :
    ∃ loops, LoweredBody a view.body loops g := by
  unfold FlowGraph.lower at run
  obtain ⟨⟨u, s⟩, hbody, run⟩ := except_bind_ok run
  have hlower := flowing_forM (LowerM.keeps_statement a a.nodes.size)
    (statement_lowered a.nodes.size) (statement_flows a.nodes.size)
  have hvalid : (⟨FlowGraph.new view.name, some ⟨0⟩⟩ : Lowering).Valid false := .new view.name
  have hpast : Past (FlowGraph.new view.name) [] := ⟨rfl, nofun⟩
  have hsince := since_new view.name
  have hstart : (FlowGraph.new view.name).At (some ⟨0⟩) := at_some.mpr .refl
  -- Whatever is done to the last block, control comes as it comes in the statements.
  have finish : ∀ {loops : List LoopInfo} {g : FlowGraph} {aims opened : BlockId → Prop}
      {quits : Option BlockId → Prop} {early : Prop},
      Goes aims [] (FlowGraph.new view.name) (some ⟨0⟩) loops g opened quits early →
      (∀ b, ¬opened b) → (early ↔ Comes a a.Ends LeavesParallel [] false (.all view.body)) →
      ¬Comes a (fun _ _ => True) Strays [] false (.all view.body) →
      Entered a (view.body.flatMap (a.nested a.nodes.size)) [] loops →
      LoweredBody a view.body loops g := by
    intro loops g aims opened quits early hgoes hopened hearly hplaced hentered
    refine ⟨hgoes.sound, hgoes.past,
      fun b hb => (hgoes.ended b (hsince b) hb).resolve_left (hopened b), ?_, hplaced, hentered⟩
    rw [hgoes.early, and_iff_right hstart, hearly]
    simp
  cases hcurrent : s.current with
  | none =>
    simp only [hcurrent] at run
    obtain rfl := Except.ok.inj run
    obtain ⟨loops, hflows⟩ :=
      hlower.flows {} view.body [] _ s hvalid nofun hpast nofun hbody hcount
    refine ⟨loops, finish hflows.goes ?_ Iff.rfl (hflows.placed rfl) hflows.entered⟩
    simp [hcurrent]
  | some c =>
    simp only [hcurrent] at run
    obtain ⟨b', hupdates⟩ := setTerminator_updates run
    have hcount : s.graph.blocks.length ≤ Ident.invalidRaw := hupdates.count ▸ hcount
    obtain ⟨loops, hflows⟩ :=
      hlower.flows {} view.body [] _ s hvalid nofun hpast nofun hbody hcount
    have hlowered := hlower.lowers.lowered {} view.body _ s hvalid nofun hbody hcount
    obtain ⟨b, hb, hopen⟩ := hlowered.valid.opened c hcurrent
    obtain ⟨-, hclose⟩ := Goes.close hflows.goes.sound hflows.goes.past hb hopen
      (exit_targets rfl) run nofun
    have howned : ∀ b, some c = some b → (FlowGraph.new view.name).Since (some ⟨0⟩) b :=
      fun b _ => hsince b
    have hends := hflows.ends
    rw [hcurrent] at hends
    refine ⟨loops, finish (hflows.goes.trans howned hends hclose) ?_ ?_ (hflows.placed rfl)
      hflows.entered⟩
    · simp [hcurrent]
    · simp

end TypedSsa

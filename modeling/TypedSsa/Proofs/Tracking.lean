import TypedSsa.Proofs.Preparing

/-!
Control in lowered code follows the statements. Main statements: `Flows.all_cons`,
`terminate_flows` and `ifElse_flows`: where lowering goes on, control comes if it may go on after
the statements, and it quits in their blocks if it comes to a statement that quits.
-/

namespace TypedSsa
open LowerM FlowGraph

/-- The blocks that a `continue` leads to. -/
def Scope.Continues (scope : Scope) (b : BlockId) : Prop :=
  ∃ l, scope.loop = some l ∧ b = l.continueTo

/-- From where lowering is, control may come to both ends of the loop around it without anything
else being reached. -/
def Scope.Aims (scope : Scope) (loops : List LoopInfo) (g : FlowGraph) (c : Option BlockId) :
    Prop :=
  ∀ l, scope.loop = some l → (∃ y, g.ends? l.continueTo = some y) ∧
    (g.At c → g.Reachable l.breakTo ∧ g.Receives loops l.continueTo)

/-- The ways in which control may quit in a piece of code. -/
def Arena.Quits (a : Arena) (scope : Scope) (code : Code) : Option BlockId → Prop
  | none => Comes a a.Ends Returns [] scope.guarded code
  | some t => (∃ l, scope.loop = some l ∧ l.breakTo = t) ∧
      Comes a a.Ends Breaks [] scope.guarded code

/-- Of the statements that have been lowered each loop has been put into the table once at most.
What is parallel there is a parallel `for`. -/
structure Entered (a : Arena) (lowered : List NodeId) (loops loops' : List LoopInfo) : Prop where
  count : ∀ id, (loops'.map (·.construct)).count id ≤
    (loops.map (·.construct)).count id + lowered.count id
  parallel : ∀ l ∈ loops', l ∈ loops ∨ (l.parallel = true →
    ∃ loop, a.statement l.construct = .ok (.forLoop loop) ∧ loop.parallel = true)

namespace Entered

variable {a : Arena} {lowered lowered' : List NodeId} {loops loops₁ loops' : List LoopInfo}

theorem refl : Entered a lowered loops loops :=
  ⟨fun _ => Nat.le_add_right _ _, fun _ => .inl⟩

theorem trans (h : Entered a lowered loops loops₁) (h' : Entered a lowered' loops₁ loops') :
    Entered a (lowered ++ lowered') loops loops' := by
  refine ⟨fun id => ?_, fun l hl => ?_⟩
  · have hle := h.count id
    have hle' := h'.count id
    rw [List.count_append]
    omega
  · rcases h'.parallel l hl with hl | hl
    · exact h.parallel l hl
    · exact .inr hl

theorem cons (h : Entered a lowered loops loops') (id : NodeId) :
    Entered a (id :: lowered) loops loops' := by
  refine ⟨fun k => ?_, h.parallel⟩
  have hle := h.count k
  rw [List.count_cons]
  omega

theorem addLoop (h : Entered a lowered loops loops') {l : LoopInfo} {id : NodeId}
    (hid : l.construct = id) (hparallel : l.parallel = true →
      ∃ loop, a.statement id = .ok (.forLoop loop) ∧ loop.parallel = true) :
    Entered a (id :: lowered) loops (loops' ++ [l]) := by
  subst hid
  refine ⟨fun id => ?_, fun m hm => ?_⟩
  · have hle := h.count id
    rw [List.map_append, List.count_append, List.count_cons]
    simp only [List.map_cons, List.map_nil, List.count_singleton]
    omega
  · rcases List.mem_append.mp hm with hm | hm
    · exact h.parallel m hm
    · exact .inr (List.mem_singleton.mp hm ▸ hparallel)

end Entered

/-- A piece of code has been lowered, and control goes in its blocks as it does in the code. -/
structure Flows (a : Arena) (lowered : List NodeId) (scope : Scope) (code : Code)
    (loops : List LoopInfo) (s : Lowering) (loops' : List LoopInfo) (s' : Lowering) : Prop where
  goes : Goes scope.Continues loops s.graph s.current loops' s'.graph
    (fun b => s'.current = some b) (a.Quits scope code)
    (Comes a a.Ends LeavesParallel [] scope.guarded code)
  owned : ∀ b, s'.current = some b → s.graph.Since s.current b
  ends : s'.graph.At s'.current ↔ s.graph.At s.current ∧ a.Ends scope.guarded code
  throws : scope.guarded = true → a.Throws code
  placed : scope.loop = none → ¬Comes a (fun _ _ => True) Strays [] scope.guarded code
  entered : Entered a lowered loops loops'

/-- Statements have been lowered into a block of their own, after which control falls to a
target. -/
structure PartFlows (a : Arena) (lowered : List NodeId) (scope : Scope) (ids : List NodeId)
    (loops : List LoopInfo) (g : FlowGraph) (start target : BlockId) (loops' : List LoopInfo)
    (g' : FlowGraph) : Prop where
  goes : Goes (fun b => scope.Continues b ∨ b = target) loops g (some start) loops' g'
    (fun _ => False) (a.Quits scope (.all ids))
    (Comes a a.Ends LeavesParallel [] scope.guarded (.all ids))
  reachable : ∀ b, g.contains b = true → ¬scope.Continues b → (g'.Reachable b ↔
    g.Reachable b ∨ b = target ∧ g.Reachable start ∧ a.Ends scope.guarded (.all ids))
  throws : scope.guarded = true → a.Throws (.all ids)
  placed : scope.loop = none → ¬Comes a (fun _ _ => True) Strays [] scope.guarded (.all ids)
  entered : Entered a lowered loops loops'

/-- Lists of statements are lowered so that control goes as it should. -/
structure Flowing (a : Arena) (fuel : Nat) (lower : Scope → List NodeId → LowerM Unit) : Prop where
  lowers : Lowers a lower
  flows : ∀ scope ids loops s s', s.Valid scope.guarded → scope.Fits s.graph →
    Past s.graph loops → scope.Aims loops s.graph s.current → lower scope ids s = .ok ((), s') →
    s'.graph.blocks.length ≤ Ident.invalidRaw →
    ∃ loops', Flows a (ids.flatMap (a.nested fuel)) scope (.all ids) loops s loops' s'

section
variable {a : Arena} {scope : Scope} {g g' g₀ : FlowGraph} {b c d : BlockId}
  {cur cur' : Option BlockId} {aims opened : BlockId → Prop} {quits : Option BlockId → Prop}
  {early : Prop} {loops loops' : List LoopInfo} {s s' : Lowering} {blk : Block} {code : Code}

/-! What a piece of code leaves as it was. -/

theorem FlowGraph.Receives.later (h : g.Receives loops b)
    (hgoes : Goes aims loops g cur loops' g' opened quits early) (hin : g.contains b = true)
    (hsame : g'.bare? b = g.bare? b) (hg : Sound g) : g'.Receives loops' b := by
  refine ⟨fun u hu => hgoes.reached u (h.onward u ((targets_congr hsame).mp hu)), ?_⟩
  rw [ends?_congr hsame]
  refine h.still.imp (hgoes.reached b) (fun hplain => ⟨hplain.1, fun l hl hholds => ?_⟩)
  rcases hgoes.added l hl with hl | hnew
  · exact hplain.2 l hl hholds
  · have hle := hnew b hholds
    rw [hg.ids] at hin
    omega

theorem Scope.Aims.later (h : scope.Aims loops g cur)
    (hgoes : Goes aims loops g cur loops' g' opened quits early) (hg : Sound g)
    (hopen : ∀ b, cur = some b → g.ends? b = none) (hat : g'.At cur' → g.At cur) :
    scope.Aims loops' g' cur' := by
  intro l hl
  obtain ⟨⟨y, hy⟩, haims⟩ := h l hl
  have hin := contains_of_ends hy
  have hsame : g'.bare? l.continueTo = g.bare? l.continueTo := by
    refine hgoes.frame.only _ (fun hsince => ?_)
    rcases hsince with hcur | hnew
    · rw [hopen _ hcur] at hy
      cases hy
    · rw [hg.ids] at hin
      omega
  refine ⟨⟨y, (ends?_congr hsame).trans hy⟩, fun hat' => ?_⟩
  obtain ⟨hbreak, hreceives⟩ := haims (hat hat')
  exact ⟨hgoes.reached _ hbreak, hreceives.later hgoes hin hsame hg⟩

theorem FlowGraph.Goes.reachable_iff (h : Goes aims loops g cur loops' g' opened quits early)
    (hin : g.contains b = true) (haims : ¬aims b) : g'.Reachable b ↔ g.Reachable b :=
  ⟨fun hreach => (h.kept b hin hreach).resolve_right (fun haim => haims haim.1), h.reached b⟩

/-! One piece after another. -/

section
variable {lowered lowered' : List NodeId} {id : NodeId} {st : Statement} {ids : List NodeId}
  {loops₁ : List LoopInfo} {s₁ : Lowering}

theorem Flows.all_nil (hvalid : s.Valid scope.guarded) (hpast : Past s.graph loops) :
    Flows a [] scope (.all []) loops s loops s where
  goes := by
    refine (Goes.refl hvalid.sound hpast).of_congr (fun _ _ haim _ => .inr haim) (fun _ h => h)
      (fun x _ => ?_) ?_
    · cases x <;> simp [Arena.Quits, not_comes_nil]
    · simp [not_comes_nil]
  owned _ hb := .inl hb
  ends := by simp [ends_nil]
  throws _ := throws_nil
  placed _ := not_comes_nil
  entered := .refl

theorem Arena.quits_cons (hst : a.statement id = .ok st) (x : Option BlockId) :
    a.Quits scope (.all (id :: ids)) x ↔ a.Quits scope (.one id st) x ∨
      a.Ends scope.guarded (.one id st) ∧ a.Quits scope (.all ids) x := by
  cases x with
  | none => exact comes_cons hst
  | some t =>
    simp only [Arena.Quits, comes_cons hst]
    exact and_or_left.trans (or_congr_right and_left_comm)

theorem Flows.all_cons (hst : a.statement id = .ok st)
    (h : Flows a lowered scope (.one id st) loops s loops₁ s₁)
    (h' : Flows a lowered' scope (.all ids) loops₁ s₁ loops' s') :
    Flows a (lowered ++ lowered') scope (.all (id :: ids)) loops s loops' s' where
  goes := by
    refine (h.goes.trans h.owned h.ends h'.goes).of_congr (fun _ _ => ?_) (fun _ => ?_)
      (fun x _ => (Arena.quits_cons hst x).symm) (comes_cons hst).symm
    · exact fun haim _ => .inr (haim.elim (fun h => h) (fun h => h))
    · exact fun hopen => hopen.elim (fun hopen => absurd hopen.1 hopen.2) (fun h => h)
  owned b hb := by
    rcases h'.owned b hb with hb | hb
    · exact h.owned b hb
    · exact .inr (Nat.le_trans h.goes.frame.next hb)
  ends := by rw [h'.ends, h.ends, ends_cons hst, and_assoc]
  throws hguarded := throws_cons hst (h.throws hguarded) (h'.throws hguarded)
  placed hloop := by
    rw [comes_cons hst]
    exact fun hcomes => hcomes.elim (h.placed hloop) (fun hcomes => h'.placed hloop hcomes.2)
  entered := h.entered.trans h'.entered

end

/-! Statements without parts. -/

section
variable {id : NodeId} {st : Statement} {lowered : List NodeId} {s₁ : Lowering} {u : Unit}

/-- A statement that control does not reach is lowered from a block of its own. -/
theorem ensureBlock_flows (hvalid : s.Valid scope.guarded) (hfits : scope.Fits s.graph)
    (hpast : Past s.graph loops) (haims : scope.Aims loops s.graph s.current)
    (run : ensureBlock scope s = .ok (c, s₁))
    (hcount : s₁.graph.blocks.length ≤ Ident.invalidRaw) :
    ∃ g b, s₁ = ⟨g, some c⟩ ∧ g.Sound ∧ scope.Fits g ∧ g.bare? c = some b ∧
      b.Open scope.guarded ∧ Past g loops ∧ scope.Aims loops g (some c) ∧
      ∀ lowered code loops' s', Flows a lowered scope code loops ⟨g, some c⟩ loops' s' →
        Flows a lowered scope code loops s loops' s' := by
  obtain ⟨g, cur⟩ := s
  rcases ensureBlock_ok run with ⟨hc, rfl⟩ | ⟨hnone, s₂, hnew, rfl⟩
  · obtain rfl : cur = some c := hc
    obtain ⟨b, hb, hopen⟩ := hvalid.opened c rfl
    exact ⟨g, b, rfl, hvalid.sound, hfits, hb, hopen, hpast, haims, fun _ _ _ _ h => h⟩
  · obtain rfl : cur = none := hnone
    obtain ⟨hid, hs⟩ := newBlock_ok hnew
    obtain ⟨g', rfl, hcreates⟩ := newBlock_creates hvalid.sound hnew hcount
    have htable : g'.loops = g.loops := by
      obtain rfl := congrArg Lowering.graph hs
      rfl
    have hcreated : Goes scope.Continues loops g none loops g' (· = c) (fun _ => False) False :=
      Goes.create hvalid.sound hpast hcreates htable
    have hunreached : ¬g'.Reachable c := by
      rw [hcreates.spreads.reachable_none]
      intro hreach
      have hlt := hvalid.sound.lt_of_reachable hreach
      rw [hid] at hlt
      exact Nat.lt_irrefl _ hlt
    have hat : g'.At (some c) ↔ g.At none ∧ False := by simp [hunreached]
    have hnew : g.nextBlock ≤ c.raw := Nat.le_of_eq (congrArg Ident.raw hid).symm
    refine ⟨g', _, rfl, hcreates.sound, hfits.frame hcreates.frame, hcreates.self,
      fresh_open _ _ _, hcreated.past, haims.later hcreated hvalid.sound nofun (fun h => ?_), ?_⟩
    · exact (hat.mp h).1
    · intro lowered code loops' s' h
      have howned : ∀ b, some c = some b → g.Since none b :=
        fun b hb => .inr (Option.some.inj hb ▸ hnew)
      refine ⟨(hcreated.trans howned hat h.goes).unreached (fun b hopened => ?_), ?_, ?_, h.throws,
        h.placed, h.entered⟩
      · exact hopened.elim (fun hopened => absurd (congrArg some hopened.1.symm) hopened.2)
          (fun h => h)
      · intro b hb
        rcases h.owned b hb with hb | hb
        · exact howned b hb
        · exact .inr (Nat.le_trans hcreates.frame.next hb)
      · rw [h.ends, hat]
        simp

/-- A statement that nothing is inside of. -/
structure Statement.Leaf (a : Arena) (st : Statement) : Prop where
  inner : a.inner st = []
  isTry : st.isTry = false

theorem comes_leaf_iff {passes : Bool → Code → Prop} {sort : List Bool → Statement → Prop}
    {loops : List Bool} {guarded : Bool} (h : st.Leaf a) :
    Comes a passes sort loops guarded (.one id st) ↔ sort loops st := by
  refine comes_leaf h.inner (fun body handlers hst => ?_)
  have hno := h.isTry
  rw [hst] at hno
  cases hno

/-- A step stays in its block, or in a guarded region is followed by a new one. -/
theorem simple_flows (hst : st.isSimple = true) (hvalid : s.Valid scope.guarded)
    (hfits : scope.Fits s.graph) (hpast : Past s.graph loops)
    (haims : scope.Aims loops s.graph s.current) (run : simple scope id s = .ok (u, s'))
    (hcount : s'.graph.blocks.length ≤ Ident.invalidRaw) :
    Flows a [id] scope (.one id st) loops s loops s' := by
  have hleaf : st.Leaf a := by
    cases st with
    | assign | expr => exact ⟨rfl, rfl⟩
    | _ => cases hst
  have hplain : ∀ loops, ¬Returns loops st ∧ ¬Breaks loops st ∧ ¬LeavesParallel loops st ∧
      ¬Strays loops st := by
    intro loops
    cases st with
    | assign | expr => simp [Returns, Breaks, LeavesParallel, Strays]
    | _ => cases hst
  -- Whichever block lowering goes on in, control comes there as it comes to the statement.
  have finish : ∀ {g g' : FlowGraph} {c d : BlockId} {reached opened : BlockId → Prop},
      Past g loops → Prepared scope g c g' reached opened → (∀ b, opened b → d = b) →
      g.Since (some c) d → (g'.Reachable d ↔ g.Reachable c) →
      Flows a [id] scope (.one id st) loops ⟨g, some c⟩ loops ⟨g', some d⟩ := by
    intro g g' c d reached opened hpast hprepared hopened hd hreach
    refine ⟨(hprepared.goes hpast).of_congr (by simp) (fun b hb => congrArg some (hopened b hb))
      (fun x _ => ?_) ?_, fun b hb => Option.some.inj hb ▸ hd, ?_, ?_, ?_, .refl⟩
    · cases x <;> simp [Arena.Quits, comes_leaf_iff hleaf, hplain]
    · simp [comes_leaf_iff hleaf, hplain]
    · simp [hreach, ends_simple hst]
    · exact fun _ => throws_of_not_try hleaf.isTry
    · rw [comes_leaf_iff hleaf]
      exact fun _ => (hplain []).2.2.2
  obtain ⟨c, g, g₁, hensure, hput, hcount₁, hrest⟩ := simple_ok run hcount
  obtain ⟨g, b, hs₁, hsound, hfits, hb, hopen, hpast, -, hstarts⟩ :=
    ensureBlock_flows hvalid hfits hpast haims hensure hcount₁
  cases hs₁
  refine hstarts _ _ _ _ ?_
  have hc : g.Since (some c) c := .inl rfl
  obtain ⟨hprepared₁, hpushed⟩ :=
    (Prepared.start hsound hfits c).push hc hb hopen.unended hput
  rcases hrest with ⟨hguarded, next, g₂, g₃, hnew, hend, rfl, hcount₂⟩ | ⟨hguarded, rfl⟩
  · obtain ⟨g₂, hs₂, hprepared₂, hnext, hold⟩ := hprepared₁.create hnew hcount₂
    cases hs₂
    have hopen₁ : Block.Open false { b with slots := b.slots ++ [.node id] } :=
      ⟨hopen.unended, hopen.edgeless, by simp⟩
    obtain ⟨hprepared₃, -⟩ := hprepared₂.jump hc (hold _ _ hpushed.self) hopen₁
      hprepared₂.reachable_self hnext (by simp) hend
    refine finish hpast hprepared₃ ?_ hnext.since ?_
    · intro b hb
      obtain ⟨rfl | rfl, hne⟩ := hb
      · exact absurd rfl hne
      · rfl
    · rw [hprepared₃.reachable_new hnext.new]
      simp
  · refine finish hpast hprepared₁ (fun b hb => hb.symm) hc ?_
    rw [hprepared₁.reachable]
    simp

/-- A statement that ends its block for good. What is not the end of the function leads to an end of
the loop around it. -/
theorem terminate_flows {y : Terminator} (hleaf : st.Leaf a) (hvalid : s.Valid scope.guarded)
    (hfits : scope.Fits s.graph) (hpast : Past s.graph loops)
    (haims : scope.Aims loops s.graph s.current) (run : terminate scope y s = .ok (u, s'))
    (hcount : s'.graph.blocks.length ≤ Ident.invalidRaw)
    (htargets : ∀ g, scope.Fits g → ∀ e ∈ y.edges, e.kind ≠ .exception ∧ g.Target e.target)
    (hedges : ∀ e ∈ y.edges, ∃ l, scope.loop = some l ∧
      (e.target = l.breakTo ∨ e.target = l.continueTo))
    (hquits : ∀ x, y.quits? = some x ↔ a.Quits scope (.one id st) x)
    (hends : ¬a.Ends scope.guarded (.one id st)) (hearly : ¬LeavesParallel [] st)
    (hplaced : scope.loop = none → ¬Strays [] st) :
    Flows a [id] scope (.one id st) loops s loops s' := by
  obtain ⟨c, s₁, hensure, run⟩ := bind_ok run
  have hkeeps := widens.andThen (widens.endBlock c y trivial) (fun _ => widens.setCurrent none)
  obtain ⟨g, b, rfl, hsound, hfits, hb, hopen, hpast, haims, hstarts⟩ :=
    ensureBlock_flows hvalid hfits hpast haims hensure (Nat.le_trans (hkeeps s₁ u s' run) hcount)
  refine hstarts _ _ _ _ ?_
  obtain ⟨u', s₂, hend, run⟩ := bind_ok run
  obtain ⟨g', hended, rfl⟩ := change_ok hend
  obtain rfl := setCurrent_ok run
  have hreceives : g.Reachable c → ∀ e ∈ y.edges, g.Receives loops e.target := by
    intro hreach e he
    obtain ⟨l, hl, htarget⟩ := hedges e he
    obtain ⟨hbreak, hcontinue⟩ := (haims l hl).2 (at_some.mpr hreach)
    rcases htarget with htarget | htarget
    · rw [htarget]
      exact ⟨fun t ht => hbreak.tail ht, .inl hbreak⟩
    · exact htarget ▸ hcontinue
  obtain ⟨-, hclose⟩ := Goes.close hsound hpast hb hopen (htargets g hfits) hended hreceives
  refine ⟨hclose.of_congr ?_ nofun (fun x _ => hquits x) ?_, nofun, ?_,
    fun _ => throws_of_not_try hleaf.isTry, fun hloop => ?_, .refl⟩
  · intro k _ haim hat
    obtain ⟨e, he, rfl⟩ := haim
    obtain ⟨l, hl, htarget | htarget⟩ := hedges e he
    · exact .inl (htarget ▸ ((haims l hl).2 hat).1)
    · exact .inr ⟨l, hl, htarget⟩
  · simp [comes_leaf_iff hleaf, hearly]
  · simp [hends]
  · rw [comes_leaf_iff hleaf]
    exact hplaced hloop

end

/-! Parts of a statement. -/

section
variable {lowered : List NodeId} {ids : List NodeId} {start target : BlockId} {u : Unit}

/-- After the end of a part, control falls to its target. -/
theorem Flows.fall (h : Flows a lowered scope (.all ids) loops ⟨g, some start⟩ loops' s)
    (hvalid : s.Valid scope.guarded) (htarget : s.graph.Target target)
    (hreceives : s.graph.At s.current → s.graph.Receives loops' target)
    (run : fallTo target s = .ok (u, s')) :
    PartFlows a lowered scope ids loops g start target loops' s'.graph := by
  have hends : s.graph.At s.current ↔ g.At (some start) ∧ a.Ends scope.guarded (.all ids) := h.ends
  have hgoes : Goes scope.Continues loops g (some start) loops' s.graph
    (fun b => s.current = some b) (a.Quits scope (.all ids))
    (Comes a a.Ends LeavesParallel [] scope.guarded (.all ids)) := h.goes
  rcases fallTo_ok run with ⟨hnone, rfl⟩ | ⟨c, g₁, hc, hend, rfl⟩
  · rw [hnone, at_some] at hends
    refine ⟨hgoes.of_congr (fun _ _ haim _ => .inr (.inl haim)) (fun b hb => ?_)
        (fun _ _ => Iff.rfl) Iff.rfl,
      fun b hin hnot => ?_, h.throws, h.placed, h.entered⟩
    · rw [hnone] at hb
      cases hb
    · rw [hgoes.reachable_iff hin hnot, iff_comm, or_iff_left_iff_imp]
      exact fun hcome => absurd (hends.mpr hcome.2) not_at_none
  · obtain ⟨blk, hblk, hopen⟩ := hvalid.opened c hc
    rw [hc] at hends hreceives
    obtain ⟨hjoins, hclose⟩ := Goes.close hvalid.sound hgoes.past hblk hopen
      (jump_targets .normal nofun htarget) hend
      (fun hreach e he => target_of_jump he ▸ hreceives (at_some.mpr hreach))
    have howned : ∀ b, some c = some b → g.Since (some start) b :=
      fun b hb => h.owned b (hc.trans hb)
    refine ⟨(hgoes.trans howned hends hclose).of_congr (fun b _ => ?_) (fun b => ?_)
      (fun x _ => ?_) ?_, fun b hin hnot => ?_, h.throws, h.placed, h.entered⟩
    · exact fun haim _ =>
        .inr (haim.imp_right (fun ⟨e, he, htarget⟩ => htarget ▸ target_of_jump he))
    · rw [hc]
      exact fun hb => hb.elim (fun hb => hb.2 hb.1) id
    · simp [Terminator.quits?]
    · simp
    · rw [hjoins.reachable, hgoes.reachable_iff hin hnot, ← at_some (b := c), hends, at_some]
      refine or_congr_right (and_congr_left (fun _ => ⟨?_, ?_⟩))
      · exact fun ⟨e, he, htarget⟩ => htarget ▸ target_of_jump he
      · rintro rfl
        exact ⟨_, List.mem_singleton_self _, rfl⟩

/-- Statements are lowered into a block that is made for them. -/
theorem Flowing.part {fuel : Nat} {lower : Scope → List NodeId → LowerM Unit}
    (ih : Flowing a fuel lower) {origin : BlockOrigin} (hg : Sound g)
    (hstart : g.bare? start = some { id := start, origin }) (hfits : scope.Fits g)
    (hpast : Past g loops) (haims : scope.Aims loops g (some start)) (htarget : g.Target target)
    (hreceives : scope.Continues target ∨
      target ≠ start ∧ ∃ origin, g.bare? target = some { id := target, origin })
    (run : lower scope ids ⟨g, some start⟩ = .ok (u, s)) (fall : fallTo target s = .ok (u, s'))
    (hcount : s'.graph.blocks.length ≤ Ident.invalidRaw) :
    ∃ loops', PartFlows a (ids.flatMap (a.nested fuel)) scope ids loops g start target loops'
      s'.graph := by
  have hvalid : (⟨g, some start⟩ : Lowering).Valid scope.guarded :=
    ⟨hg, fun c hc => ⟨_, Option.some.inj hc ▸ hstart, fresh_open _ _ _⟩⟩
  have hcount := Nat.le_trans (widens.fallTo target s u s' fall) hcount
  obtain ⟨loops', hflows⟩ := ih.flows scope ids loops _ s hvalid hfits hpast haims run hcount
  have hlowered := ih.lowers.lowered scope ids _ s hvalid hfits run hcount
  have hopen : ∀ b, some start = some b → g.ends? b = none := by
    intro b hb
    rw [← Option.some.inj hb, ends?_of_bare hstart]
  refine ⟨loops', hflows.fall hlowered.valid (hlowered.frame.target htarget) (fun hat => ?_) fall⟩
  rcases hreceives with ⟨l, hl, rfl⟩ | ⟨hne, origin, htarget⟩
  · exact ((haims.later hflows.goes hg hopen (fun hat => (hflows.ends.mp hat).1)) l hl).2 hat |>.2
  · have hlt := hg.lt_of_bare htarget
    refine hflows.goes.past.receives_fresh ((hlowered.frame.only target ?_).trans htarget)
    rintro (hsince | hsince)
    · exact hne (Option.some.inj hsince).symm
    · exact absurd hlt (Nat.not_lt.mpr hsince)

end

end

/-! Statements with parts. -/

section
variable {a : Arena} {scope scope' : Scope} {g g' g₀ : FlowGraph} {b c d : BlockId}
  {aims opened : BlockId → Prop} {quits : Option BlockId → Prop} {early : Prop}
  {loops loops' loops₀ : List LoopInfo} {code : Code} {start : BlockId} {origin : BlockOrigin}
  {lowered : List NodeId}

/-- A part does not touch what waits beside it. -/
theorem Waits.goes (h : Waits g₀ g d origin) (hg : Sound g)
    (hgoes : Goes aims loops g (some start) loops' g' opened quits early) (hne : d ≠ start) :
    Waits g₀ g' d origin := by
  refine ⟨(hgoes.frame.only d ?_).trans h.self, h.new⟩
  rintro (hd | hd)
  · exact hne (Option.some.inj hd).symm
  · exact absurd (hg.lt_of_bare h.self) (Nat.not_lt.mpr hd)

theorem Site.goes (h : Site scope g₀ c g)
    (hgoes : Goes aims loops g (some start) loops' g' opened quits early)
    (hstart : g₀.Since (some c) start) : Site scope g₀ c g' := by
  refine ⟨h.base, hgoes.sound, h.fits.frame hgoes.frame, h.frame.trans (hgoes.frame.mono ?_)⟩
  exact fun k => h.since hstart

/-- A part does as much for the whole, if control comes to where it starts. -/
theorem FlowGraph.Goes.part {aims' : BlockId → Prop} {quits' : Option BlockId → Prop}
    {early' : Prop} (h : Goes aims loops₀ g₀ (some c) loops g opened quits early)
    (hstart : g₀.nextBlock ≤ start.raw) (hat : g.Reachable start ↔ g₀.Reachable c)
    (h' : Goes aims' loops g (some start) loops' g' (fun _ => False) quits' early') :
    Goes (fun b => aims b ∨ aims' b) loops₀ g₀ (some c) loops' g'
      (fun b => opened b ∧ b ≠ start) (fun x => quits x ∨ quits' x) (early ∨ early') := by
  have hat : g.At (some start) ↔ g₀.At (some c) ∧ True := by simpa using hat
  refine (h.trans (fun b hb => .inr (Option.some.inj hb ▸ hstart)) hat h').of_congr
    (fun _ _ haim _ => .inr haim) (fun b hb => ?_) (fun x _ => by simp) (by simp)
  exact hb.elim (fun hb => ⟨hb.1, fun hne => hb.2 (congrArg some hne.symm)⟩) False.elim

/-- Code from a block on, after which lowering goes on in a new block. -/
theorem FlowGraph.Goes.compound (h : Goes aims loops g (some c) loops' g' opened quits early)
    (hd : g.nextBlock ≤ d.raw)
    (haims : ∀ b, g.contains b = true → aims b → scope.Continues b)
    (hopened : ∀ b, opened b → b = d)
    (hquits : ∀ x, (∀ t : BlockId, x = some t → t.raw < g.nextBlock) →
      (quits x ↔ a.Quits scope code x))
    (hearly : early ↔ Comes a a.Ends LeavesParallel [] scope.guarded code)
    (hends : g'.Reachable d ↔ g.Reachable c ∧ a.Ends scope.guarded code)
    (hthrows : scope.guarded = true → a.Throws code)
    (hplaced : scope.loop = none → ¬Comes a (fun _ _ => True) Strays [] scope.guarded code)
    (hentered : Entered a lowered loops loops') :
    Flows a lowered scope code loops ⟨g, some c⟩ loops' ⟨g', some d⟩ where
  goes := h.of_congr (fun b hb haim _ => .inr (haims b hb haim))
    (fun b hb => congrArg some (hopened b hb).symm) hquits hearly
  owned b hb := .inr (Option.some.inj hb ▸ hd)
  ends := by simpa using hends
  throws := hthrows
  placed := hplaced
  entered := hentered

theorem Arena.quits_construct {construct : Option NodeId} (x : Option BlockId) :
    a.Quits { scope with construct } code x ↔ a.Quits scope code x := by
  cases x <;> exact Iff.rfl

theorem Arena.quits_ifElse {id test : NodeId} {body orelse : List NodeId} (x : Option BlockId) :
    a.Quits scope (.one id (.ifElse test body orelse)) x ↔
      a.Quits scope (.all body) x ∨ a.Quits scope (.all orelse) x := by
  cases x with
  | none => exact comes_ifElse (by simp [Returns])
  | some t =>
    simp only [Arena.Quits, comes_ifElse (show ¬Breaks [] _ by simp [Breaks]), and_or_left]

/-- A statement is being lowered from a block on, and control goes in what there is of it so far as
it should. -/
structure Amid (scope : Scope) (g₀ : FlowGraph) (c : BlockId) (loops₀ : List LoopInfo)
    (g : FlowGraph) (loops : List LoopInfo) (aims opened : BlockId → Prop)
    (quits : Option BlockId → Prop) (early : Prop) : Prop where
  site : Site scope g₀ c g
  goes : Goes aims loops₀ g₀ (some c) loops g opened quits early
  unended : g₀.ends? c = none
  around : scope.Aims loops₀ g₀ (some c)

theorem Prepared.amid {reached : BlockId → Prop} (h : Prepared scope g₀ c g reached opened)
    (hpast : Past g₀ loops) (hunended : g₀.ends? c = none)
    (haround : scope.Aims loops g₀ (some c)) :
    Amid scope g₀ c loops g loops (fun _ => False) opened (fun _ => False) False :=
  ⟨h.site, h.goes hpast, hunended, haround⟩

namespace Amid

variable {fuel : Nat} {lower : Scope → List NodeId → LowerM Unit} {ids : List NodeId}
  {target : BlockId} {origin' : BlockOrigin} {s s' : Lowering} {u u' : Unit}
  (h : Amid scope g₀ c loops₀ g loops aims opened quits early)
include h

theorem of_congr {aims' opened' : BlockId → Prop} {quits' : Option BlockId → Prop} {early' : Prop}
    (haims : ∀ b, g₀.contains b = true → aims b → aims' b) (hopened : ∀ b, opened b → opened' b)
    (hquits : ∀ x, quits x ↔ quits' x) (hearly : early ↔ early') :
    Amid scope g₀ c loops₀ g loops aims' opened' quits' early' :=
  ⟨h.site, h.goes.of_congr (fun b hb haim _ => .inr (haims b hb haim)) hopened
    (fun x _ => hquits x) hearly, h.unended, h.around⟩

theorem not_continues (hd : Waits g₀ g d origin) : ¬scope.Continues d := by
  intro hcontinues
  obtain ⟨l, hl, rfl⟩ := hcontinues
  obtain ⟨⟨y, hy⟩, -⟩ := h.around l hl
  have hlt := (h.site.base.ids _).mp (contains_of_ends hy)
  exact absurd hlt (Nat.not_lt.mpr hd.new)

/-- A part is lowered into a block that waits, if control comes there as it comes to the whole. -/
theorem part (ih : Flowing a fuel lower)
    (hstart : Waits g₀ g start origin) (htarget : Waits g₀ g target origin')
    (hrole : origin'.role ≠ .handler) (hne : target ≠ start)
    (hat : g.Reachable start ↔ g₀.Reachable c) (run : lower scope' ids ⟨g, some start⟩ = .ok (u, s))
    (fall : fallTo target s = .ok (u', s')) (hcount : s'.graph.blocks.length ≤ Ident.invalidRaw)
    (hloop : scope'.loop = scope.loop) :
    ∃ loops', PartFlows a (ids.flatMap (a.nested fuel)) scope' ids loops g start target loops'
        s'.graph ∧
      Amid scope g₀ c loops₀ s'.graph loops' (fun b => aims b ∨ scope.Continues b ∨ b = target)
        (fun b => opened b ∧ b ≠ start) (fun x => quits x ∨ a.Quits scope' (.all ids) x)
        (early ∨ Comes a a.Ends LeavesParallel [] scope'.guarded (.all ids)) := by
  have hfits : scope'.Fits g := by
    rw [Scope.Fits, hloop]
    exact h.site.fits
  have haims : scope'.Aims loops g (some start) := by
    rw [Scope.Aims, hloop]
    refine h.around.later h.goes h.site.base (fun b hb => ?_) (fun hreach => ?_)
    · rw [← Option.some.inj hb, h.unended]
    · exact at_some.mpr (hat.mp (at_some.mp hreach))
  obtain ⟨loops', hpart⟩ := ih.part h.site.sound hstart.self hfits h.goes.past haims
    (h.site.target htarget hrole) (.inr ⟨hne, _, htarget.self⟩) run fall hcount
  have hcontinues : ∀ b, scope'.Continues b ↔ scope.Continues b :=
    fun b => by rw [Scope.Continues, Scope.Continues, hloop]
  refine ⟨loops', hpart, h.site.goes hpart.goes hstart.since, ?_, h.unended, h.around⟩
  simpa only [hcontinues] using h.goes.part hstart.new hat hpart.goes

/-- Of the blocks that wait, a part leads to its target alone. -/
theorem reachable_part {lowered : List NodeId}
    (hpart : PartFlows a lowered scope' ids loops g start target loops' g')
    (hat : g.Reachable start ↔ g₀.Reachable c) (hd : Waits g₀ g d origin)
    (hloop : scope'.loop = scope.loop) :
    g'.Reachable d ↔
      g.Reachable d ∨ d = target ∧ g₀.Reachable c ∧ a.Ends scope'.guarded (.all ids) := by
  rw [hpart.reachable d (contains_iff_bare.mpr ⟨_, hd.self⟩), hat]
  rw [Scope.Continues, hloop]
  exact h.not_continues hd

/-- All the blocks of a part have an end. -/
theorem ended_part {lowered : List NodeId}
    (hpart : PartFlows a lowered scope' ids loops g start target loops' g')
    (hstart : Waits g₀ g start origin) :
    ∀ k ∈ start :: g'.blockIds.filter (fun b => g.nextBlock ≤ b.raw),
      g₀.nextBlock ≤ k.raw ∧ ∃ y, g'.ends? k = some y := by
  intro k hk
  have hsince : g.Since (some start) k ∧ g'.contains k = true := by
    rcases List.mem_cons.mp hk with rfl | hk
    · exact ⟨.inl rfl, hpart.goes.frame.contains (contains_iff_bare.mpr ⟨_, hstart.self⟩)⟩
    · rw [List.mem_filter, mem_blockIds, decide_eq_true_iff] at hk
      exact ⟨.inr hk.2, hk.1⟩
  refine ⟨?_, (hpart.goes.ended k hsince.1 hsince.2).resolve_left (fun h => h)⟩
  rcases hsince.1 with hk | hk
  · exact Option.some.inj hk ▸ hstart.new
  · exact Nat.le_trans h.site.frame.next hk

/-- What waits beside a part waits on. -/
theorem waits {lowered : List NodeId}
    (hpart : PartFlows a lowered scope' ids loops g start target loops' g')
    (hd : Waits g₀ g d origin) (hne : d ≠ start) : Waits g₀ g' d origin :=
  hd.goes h.site.sound hpart.goes hne

end Amid

section
variable {fuel : Nat} {lower : Scope → List NodeId → LowerM Unit} {id test : NodeId}
  {body orelse : List NodeId} {thenBlock elseBlock join : BlockId} {s s' s₃ s₄ : Lowering}
  {thenOrigin elseOrigin joinOrigin : BlockOrigin}

/-- A branch that may be left out. -/
theorem ifThen_flows (ih : Flowing a fuel lower)
    (h : Amid scope g₀ c loops g loops (fun _ => False) (fun b => b = join ∨ b = thenBlock)
      (fun _ => False) False)
    (hthen : Waits g₀ g thenBlock thenOrigin) (hjoin : Waits g₀ g join joinOrigin)
    (hrole : joinOrigin.role ≠ .handler) (hne : join ≠ thenBlock)
    (hreached : ∀ b, b = thenBlock ∨ b = join → (g.Reachable b ↔ g₀.Reachable c))
    (hbody : lower { scope with construct := some id } body ⟨g, some thenBlock⟩ = .ok ((), s))
    (hfall : fallTo join s = .ok ((), s')) (hcount : s'.graph.blocks.length ≤ Ident.invalidRaw) :
    ∃ loops', Flows a (id :: body.flatMap (a.nested fuel)) scope (.one id (.ifElse test body []))
      loops ⟨g₀, some c⟩ loops' ⟨s'.graph, some join⟩ := by
  have hat := hreached thenBlock (.inl rfl)
  obtain ⟨loops', hpart, h'⟩ := h.part ih hthen hjoin hrole hne hat hbody hfall hcount rfl
  refine ⟨loops', h'.goes.compound hjoin.new ?_ ?_ ?_ ?_ ?_ ?_ ?_ ?_⟩
  · intro b hb haim
    rcases haim with haim | haim | rfl
    · exact haim.elim
    · exact haim
    · have hlt := (h.site.base.ids _).mp hb
      exact absurd hlt (Nat.not_lt.mpr hjoin.new)
  · exact fun b hb => hb.1.resolve_right hb.2
  · intro x _
    rw [Arena.quits_ifElse, Arena.quits_construct, false_or, iff_self_or]
    cases x <;> simp [Arena.Quits, not_comes_nil]
  · rw [comes_ifElse (by simp [LeavesParallel]), false_or, iff_self_or]
    exact fun h => absurd h not_comes_nil
  · rw [h.reachable_part hpart hat hjoin rfl, hreached join (.inr rfl), ends_ifElse]
    simp only [ends_nil, or_true, and_true]
    exact or_iff_left_of_imp (fun h => h.2.1)
  · exact fun _ => throws_of_not_try rfl
  · intro hloop
    rw [comes_ifElse (by simp [Strays])]
    exact fun h => h.elim (hpart.placed hloop) not_comes_nil
  · exact hpart.entered.cons id

/-- Two branches. -/
theorem ifThenElse_flows (ih : Flowing a fuel lower)
    (h : Amid scope g₀ c loops g loops (fun _ => False)
      (fun b => b = join ∨ b = thenBlock ∨ b = elseBlock) (fun _ => False) False)
    (hthen : Waits g₀ g thenBlock thenOrigin) (helse : Waits g₀ g elseBlock elseOrigin)
    (hjoin : Waits g₀ g join joinOrigin) (hrole : joinOrigin.role ≠ .handler)
    (hne : join ≠ thenBlock) (hne' : join ≠ elseBlock) (hapart : elseBlock ≠ thenBlock)
    (hreached : ∀ b, b = thenBlock ∨ b = elseBlock → (g.Reachable b ↔ g₀.Reachable c))
    (hunreached : ¬g.Reachable join)
    (hbody : lower { scope with construct := some id } body ⟨g, some thenBlock⟩ = .ok ((), s))
    (hfall : fallTo join s = .ok ((), s₃)) (hcount₃ : s₃.graph.blocks.length ≤ Ident.invalidRaw)
    (hbody' : lower { scope with construct := some id } orelse ⟨s₃.graph, some elseBlock⟩ =
      .ok ((), s₄))
    (hfall' : fallTo join s₄ = .ok ((), s')) (hcount : s'.graph.blocks.length ≤ Ident.invalidRaw) :
    ∃ loops', Flows a (id :: (body ++ orelse).flatMap (a.nested fuel)) scope
      (.one id (.ifElse test body orelse)) loops ⟨g₀, some c⟩ loops' ⟨s'.graph, some join⟩ := by
  have hat := hreached thenBlock (.inl rfl)
  obtain ⟨loops₁, hpart, h₃⟩ := h.part ih hthen hjoin hrole hne hat hbody hfall hcount₃ rfl
  have helse₃ := h.waits hpart helse hapart
  have hjoin₃ := h.waits hpart hjoin hne
  have hat₃ : s₃.graph.Reachable elseBlock ↔ g₀.Reachable c := by
    rw [h.reachable_part hpart hat helse rfl, hreached elseBlock (.inr rfl), or_iff_left]
    exact fun h => hne' h.1.symm
  obtain ⟨loops', hpart', h₆⟩ := h₃.part ih helse₃ hjoin₃ hrole hne' hat₃ hbody' hfall' hcount rfl
  refine ⟨loops', h₆.goes.compound hjoin.new ?_ ?_ ?_ ?_ ?_ ?_ ?_ ?_⟩
  · intro b hb haim
    have hlt := (h.site.base.ids _).mp hb
    rcases haim with (haim | haim | rfl) | haim | rfl
    · exact haim.elim
    · exact haim
    · exact absurd hlt (Nat.not_lt.mpr hjoin.new)
    · exact haim
    · exact absurd hlt (Nat.not_lt.mpr hjoin.new)
  · exact fun b hb => (hb.1.1.resolve_right (fun hb' => hb'.elim hb.1.2 hb.2))
  · intro x _
    simp only [Arena.quits_ifElse, Arena.quits_construct, false_or]
  · rw [comes_ifElse (by simp [LeavesParallel]), false_or]
  · rw [h₃.reachable_part hpart' hat₃ hjoin₃ rfl, h.reachable_part hpart hat hjoin rfl, ends_ifElse]
    simp only [hunreached, false_or, true_and, and_or_left]
  · exact fun _ => throws_of_not_try rfl
  · intro hloop
    rw [comes_ifElse (by simp [Strays])]
    exact fun h => h.elim (hpart.placed hloop) (hpart'.placed hloop)
  · rw [List.flatMap_append]
    exact (hpart.entered.trans hpart'.entered).cons id

theorem ifElse_flows (ih : Flowing a fuel lower) {s : Lowering} (hvalid : s.Valid scope.guarded)
    (hfits : scope.Fits s.graph) (hpast : Past s.graph loops)
    (haims : scope.Aims loops s.graph s.current)
    (run : ifElse lower scope id test body orelse s = .ok ((), s'))
    (hcount : s'.graph.blocks.length ≤ Ident.invalidRaw) :
    ∃ loops', Flows a (id :: (body ++ orelse).flatMap (a.nested fuel)) scope
      (.one id (.ifElse test body orelse)) loops s loops' s' := by
  obtain ⟨c, s₁, join, s₂, thenBlock, s₃, elseBlock, s₄, hensure, hjoin, hthen, helse, run,
    hcounts⟩ := ifElse_ok ih.lowers.keeps run hcount
  obtain ⟨g₅, s₅, s₆, hended, hbody, hfall, hcount₆, hrest⟩ :=
    branchParts_ok ih.lowers.keeps run hcount
  obtain ⟨g, b, rfl, hsound, hfits, hb, hopen, hpast, haims, hstarts⟩ :=
    ensureBlock_flows (a := a) hvalid hfits hpast haims hensure (by omega)
  obtain ⟨g₁, rfl, hprepared₁, hjoin₁, hold₁⟩ :=
    (Prepared.start hsound hfits c).create hjoin (by omega)
  obtain ⟨g₂, rfl, hprepared₂, hthen₂, hold₂⟩ := hprepared₁.create hthen (by omega)
  have hb₂ := hold₂ _ _ (hold₁ _ _ hb)
  have hjoin₂ : Waits g g₂ join _ := ⟨hold₂ _ _ hjoin₁.self, hjoin₁.new⟩
  have hunended := (ends?_of_bare hb).trans hopen.unended
  rcases helse with ⟨rfl, rfl, rfl⟩ | ⟨block, rfl, hblock⟩
  · rcases hrest with ⟨-, rfl⟩ | ⟨block, s₇, s₈, hnone, -⟩
    swap
    · cases hnone
    obtain ⟨hprepared₅, hends⟩ := hprepared₂.branch (.inl rfl) hb₂ hopen
      hprepared₂.reachable_self hthen₂ (by simp) hjoin₂ (by simp) hended
    have hkeep : ∀ {d origin}, Waits g g₂ d origin → Waits g g₅ d origin :=
      fun hd => hd.change hends (hprepared₂.site.ne hb hd)
    have hamid := (hprepared₅.amid hpast hunended haims).of_congr
      (fun _ _ haim => haim) (fun k hk => by simpa [hk.2] using hk.1) (fun _ => Iff.rfl) Iff.rfl
    have hreached : ∀ k, k = thenBlock ∨ k = join → (g₅.Reachable k ↔ g.Reachable c) := by
      intro k hk
      rw [hprepared₅.reachable_new (hprepared₅.fresh k (.inr hk)), and_iff_right (.inr hk)]
    obtain ⟨loops', hflows⟩ := ifThen_flows ih hamid (hkeep hthen₂) (hkeep hjoin₂) (by simp)
      (hjoin₂.ne hthen₂ (by simp)) hreached hbody hfall hcount
    rw [List.append_nil]
    exact ⟨loops', hstarts _ _ _ _ hflows⟩
  · rcases hrest with ⟨hnone, -⟩ | ⟨block', s₇, s₈, hblock', hbody', hfall', rfl⟩
    · cases hnone
    obtain rfl := Option.some.inj hblock'
    obtain ⟨g₃, rfl, hprepared₃, helse₃, hold₃⟩ := hprepared₂.create hblock (by omega)
    have hjoin₃ : Waits g g₃ join _ := ⟨hold₃ _ _ hjoin₂.self, hjoin₂.new⟩
    have hthen₃ : Waits g g₃ thenBlock _ := ⟨hold₃ _ _ hthen₂.self, hthen₂.new⟩
    obtain ⟨hprepared₅, hends⟩ := hprepared₃.branch (.inl rfl) (hold₃ _ _ hb₂) hopen
      hprepared₃.reachable_self hthen₃ (by simp) helse₃ (by simp) hended
    have hkeep : ∀ {d origin}, Waits g g₃ d origin → Waits g g₅ d origin :=
      fun hd => hd.change hends (hprepared₃.site.ne hb hd)
    have hamid := (hprepared₅.amid hpast hunended haims).of_congr
      (fun _ _ haim => haim) (fun k hk => by simpa [hk.2, or_assoc] using hk.1) (fun _ => Iff.rfl)
      Iff.rfl
    have hreached : ∀ k, k = thenBlock ∨ k = block → (g₅.Reachable k ↔ g.Reachable c) := by
      intro k hk
      rw [hprepared₅.reachable_new (hprepared₅.fresh k (.inr hk)), and_iff_right (.inr hk)]
    have hne := hjoin₃.ne hthen₃ (by simp)
    have hne' := hjoin₃.ne helse₃ (by simp)
    have hunreached : ¬g₅.Reachable join := by
      rw [hprepared₅.reachable_new hjoin₃.new]
      simp [hne, hne']
    obtain ⟨loops', hflows⟩ := ifThenElse_flows ih hamid (hkeep hthen₃) (hkeep helse₃)
      (hkeep hjoin₃) (by simp) hne hne' (helse₃.ne hthen₃ (by simp)) hreached hunreached hbody
      hfall hcount₆ hbody' hfall' hcount
    exact ⟨loops', hstarts _ _ _ _ hflows⟩

end

end

end TypedSsa

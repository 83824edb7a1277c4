import TypedSsa.Proofs.Evaluating
import TypedSsa.Proofs.Values

/-!
Renaming never lacks a value. Main statement: `unchecked_total`. A variable that is live where it has
no phi is written in the block above or is live there too, so the values at the end of the block
above are all that a block needs.
-/

namespace TypedSsa

open FlowGraph

namespace FlowGraph

variable {a : Arena} {g : FlowGraph} {t : DominatorTree} {effects : EffectMap} {b d : BlockId}
  {v : String}

/-- Some predecessor stands before a block. -/
theorem Exact.earlier (h : g.Exact t) (consistent : Consistent g) {i : Nat} (hi : t.order[i]? = some b)
    (hne : b ≠ g.entry) : ∃ j p, j < i ∧ t.order[j]? = some p ∧ b ∈ g.targets p := by
  have hi : t.order.toList[i]? = some b := by rwa [Array.getElem?_toList]
  have hzero : i ≠ 0 := by
    intro hzero
    subst hzero
    exact hne (Option.some.inj (hi.symm.trans h.inOrder.first))
  have hsize : i < (g.positions t.order.toList).size := by
    rw [InOrder.size_positions]
    exact (List.getElem?_eq_some_iff.mp hi).1
  obtain ⟨j, hlt, hinto⟩ := (h.inOrder.ordered consistent).early i hzero hsize
  obtain ⟨p, b', hj, hi', hp⟩ := (h.inOrder.into_iff consistent).mp hinto
  obtain rfl : b' = b := Option.some.inj (hi'.symm.trans hi)
  exact ⟨j, p, hlt, by rwa [Array.getElem?_toList] at hj, hp⟩

section
variable (h : g.Effected a effects) (hexact : g.Exact t)
include h hexact

/-- What lies between a block without a phi and the block above it neither writes the variable nor
merges values of it. -/
theorem Effected.between {y : BlockId} (hy : g.Reachable y)
    (hseed : y ∉ SsaForm.seeds g t effects v) : y ≠ g.entry ∧ writes (effects.of y) v = false ∧
      (g.Live effects v y → (SsaForm.handlers g).contains y = false) := by
  simp only [SsaForm.mem_seeds hexact, not_or, not_and] at hseed
  obtain ⟨hwriter, hentry, hcaught⟩ := hseed
  refine ⟨hentry, ?_, fun hlive => ?_⟩
  · rw [← Bool.not_eq_true]
    exact fun hwrites => hwriter ((EffectMap.mem_blocksWhere h.keys rfl).mpr hwrites)
  · rw [← Bool.not_eq_true]
    exact hcaught hy hlive

/-- A variable that is live where no phi of it is was written in the block above, or is live there. -/
theorem Effected.live_above (i : Nat) : ∀ b d, t.order[i]? = some b → b ≠ g.entry →
    t.immediateDominator? b = some d → g.Live effects v b →
    b ∉ t.iteratedFrontier (SsaForm.seeds g t effects v) →
    (SsaForm.handlers g).contains b = false →
    writes (effects.of d) v = true ∨ g.Live effects v d := by
  induction i using Nat.strongRecOn with
  | ind i ih =>
    intro b d hi hne heq hlive hjoin hcaught
    have consistent := h.finished.linked.consistent
    obtain ⟨j, p, hji, hj, hp⟩ := hexact.earlier consistent hi hne
    have hreach : g.Reachable p := hexact.exists_position.mp ⟨j, hj⟩
    have hnormal : ⟨b, .exception⟩ ∉ g.successors p := by
      intro he
      rw [(SsaForm.mem_handlers h.finished.once).mpr ⟨p, he⟩] at hcaught
      cases hcaught
    -- up from the predecessor to the block above
    have climb (k : Nat) : ∀ y, t.order[k]? = some y → k < i → g.Dominates d y →
        g.Dominates y p → y ≠ d → g.Live effects v y →
        writes (effects.of d) v = true ∨ g.Live effects v d := by
      induction k using Nat.strongRecOn with
      | ind k ihk =>
        intro y hk hki hdy hyp hyd hlivey
        obtain ⟨hseed, hfrontier⟩ :=
          hexact.not_between consistent hreach hp hne heq hjoin hdy hyp hyd
        obtain ⟨hentry, -, hcaughty⟩ := h.between hexact hyp.1 hseed
        obtain ⟨hzero, e, he, heqy⟩ := hexact.immediateDominator?_eq hk hentry
        obtain ⟨e', heqy', hey, -, hleast⟩ := hexact.immediateDominator?_some hyp.1 hentry
        obtain rfl : e' = e := Option.some.inj (heqy'.symm.trans heqy)
        have hlt := hexact.tree.earlier (hexact.lt_size hk) hzero
        have habove := ih k hki y e' hk hentry heqy hlivey hfrontier (hcaughty hlivey)
        have hde := hleast d hdy (fun hd => hyd hd.symm)
        by_cases hed : e' = d
        · rwa [hed] at habove
        · have hep := hey.trans hyp
          have hseede := (hexact.not_between consistent hreach hp hne heq hjoin hde hep hed).1
          have hsilent := (h.between hexact hep.1 hseede).2.1
          rw [hsilent] at habove
          exact ihk _ hlt e' he (by omega) hde hep hed (habove.resolve_left nofun)
    obtain ⟨d', heq', hdb, hdne, -⟩ := hexact.immediateDominator?_some (hreach.tail hp) hne
    obtain rfl : d' = d := Option.some.inj (heq'.symm.trans heq)
    have hdp : g.Dominates d' p := ⟨hdb.1, hreach, fun before hpath =>
      (List.mem_cons.mp (hdb.2.2 _ (hpath.step hp))).resolve_left hdne⟩
    have hpp : g.Dominates p p := ⟨hreach, hreach, fun _ _ => List.mem_cons_self⟩
    by_cases hpd : p = d'
    · subst hpd
      cases hwrites : writes (effects.of p) v with
      | true => exact .inl rfl
      | false => exact .inr (h.live_of_edge hp hlive (.inr hwrites))
    · have hseed := (hexact.not_between consistent hreach hp hne heq hjoin hdp hpp hpd).1
      have hsilent := (h.between hexact hreach hseed).2.1
      exact climb j p hj hji hdp hpp hpd (h.live_of_edge hp hlive (.inr hsilent))

end

end FlowGraph

/-- Steps that never fail come to an end. -/
theorem foldlM_total {σ α : Type} {step : σ → α → Except Fault σ} : ∀ {xs : List α},
    (∀ x ∈ xs, ∀ s, ∃ s', step s x = .ok s') → ∀ s, ∃ s', xs.foldlM step s = .ok s'
  | [], _, s => ⟨s, rfl⟩
  | x :: xs, hstep, s => by
    obtain ⟨s₁, hrun⟩ := hstep x List.mem_cons_self s
    obtain ⟨s₂, hruns⟩ := foldlM_total (fun y hy => hstep y (List.mem_cons_of_mem _ hy)) s₁
    exact ⟨s₂, by rw [List.foldlM_cons, hrun]; exact hruns⟩

namespace SsaForm

/-- There is a value of a variable. -/
def Env.Has (env : Env) (v : String) : Prop :=
  ∃ i, env.get? v = some i

theorem Env.Has.cons {env : Env} {v : String} (h : Env.Has env v) (w : String) (i : DefId) :
    Env.Has ((w, i) :: env) v := by
  unfold Env.Has
  rw [Env.get?_cons]
  split
  · exact ⟨i, rfl⟩
  · exact h

theorem Env.has_cons_self (env : Env) (v : String) (i : DefId) : Env.Has ((v, i) :: env) v :=
  ⟨i, Env.get?_cons.trans (if_pos rfl)⟩

/-! The effects of a block. -/

theorem Stepped.tail {e : Effect} {es : List Effect} (h : Stepped (e :: es))
    (he : ∀ w construct, e ≠ .read w (.loopStep construct)) : Stepped es := by
  intro before v construct step after hes
  obtain ⟨w, hw⟩ := h (e :: before) v construct step after (by rw [hes, List.cons_append])
  rcases List.mem_cons.mp hw with hw | hw
  · exact absurd hw.symm (he w construct)
  · exact ⟨w, hw⟩

theorem rename_total {a : Arena} {b : BlockId} (es : List Effect) (p : Point)
    (hreads : ∀ v, readsFirst es v = true → Env.Has p.env v)
    (hstep : p.stepRead.isSome = true ∨ Stepped es) :
    ∃ p', es.foldlM (rename a b) p = .ok p' ∧
      ∀ v, writes es v = true ∨ Env.Has p.env v → Env.Has p'.env v := by
  induction es generalizing p with
  | nil =>
    refine ⟨p, rfl, fun v hv => ?_⟩
    rcases hv with hv | hv
    · cases hv
    · exact hv
  | cons effect es ih =>
    cases effect with
    | read name site =>
      obtain ⟨i, hi⟩ := hreads name (by simp [readsFirst_cons, Effect.name, Effect.isRead])
      obtain ⟨p₁, hrun, henv, hread⟩ : ∃ p₁, rename a b p (.read name site) = .ok p₁ ∧
          p₁.env = p.env ∧ p₁.stepRead =
            if isStepSite site then some ⟨p.form.nextUse⟩ else p.stepRead := by
        simp only [rename, reaching, hi, Bind.bind, Except.bind]
        exact ⟨_, rfl, rfl, rfl⟩
      have hreads₁ : ∀ v, readsFirst es v = true → Env.Has p₁.env v := by
        intro v hv
        rw [henv]
        by_cases hname : name = v
        · exact hname ▸ ⟨i, hi⟩
        · exact hreads v (by rw [readsFirst_cons, Effect.name, if_neg hname]; exact hv)
      have hstep₁ : p₁.stepRead.isSome = true ∨ Stepped es := by
        rw [hread]
        cases hsite : isStepSite site with
        | true => exact .inl rfl
        | false =>
          refine hstep.imp_right (fun h => Stepped.tail h (fun w construct hsame => ?_))
          cases hsame
          cases hsite
      obtain ⟨p', hruns, hafter⟩ := ih p₁ hreads₁ hstep₁
      refine ⟨p', by rw [List.foldlM_cons, hrun]; exact hruns, fun v hv => hafter v ?_⟩
      rwa [writes_read, ← henv] at hv
    | write name origin =>
      obtain ⟨made, hkind⟩ : ∃ made, kindOf a p b origin = .ok made := by
        cases origin with
        | assign | loopInit => exact ⟨_, rfl⟩
        | loopStep construct step =>
          cases hread : p.stepRead with
          | some previous => exact ⟨_, by rw [kindOf, hread]⟩
          | none =>
            have hstepped : Stepped (.write name (.loopStep construct step) :: es) := by
              simpa [hread] using hstep
            obtain ⟨w, hw⟩ := hstepped [] name construct step es rfl
            cases hw
      obtain ⟨p₁, i, hrun, henv, hread⟩ : ∃ p₁ i, rename a b p (.write name origin) = .ok p₁ ∧
          p₁.env = (name, i) :: p.env ∧ p₁.stepRead = p.stepRead := by
        simp only [rename, hkind, Bind.bind, Except.bind]
        exact ⟨_, _, rfl, rfl, rfl⟩
      have hself : Env.Has p₁.env name := henv ▸ Env.has_cons_self p.env name i
      have hreads₁ : ∀ v, readsFirst es v = true → Env.Has p₁.env v := by
        intro v hv
        by_cases hname : name = v
        · exact hname ▸ hself
        · rw [henv]
          exact (hreads v
            (by rw [readsFirst_cons, Effect.name, if_neg hname]; exact hv)).cons name i
      have hstep₁ : p₁.stepRead.isSome = true ∨ Stepped es :=
        hread ▸ hstep.imp_right (fun h => Stepped.tail h (fun _ _ hsame => by cases hsame))
      obtain ⟨p', hruns, hafter⟩ := ih p₁ hreads₁ hstep₁
      refine ⟨p', by rw [List.foldlM_cons, hrun]; exact hruns, fun v hv => hafter v ?_⟩
      rw [writes_write, Bool.or_eq_true, beq_iff_eq] at hv
      rcases hv with (rfl | hv) | hv
      · exact .inr hself
      · exact .inl hv
      · exact .inr (henv ▸ hv.cons name i)

/-! Slots of phis. -/

section
variable {s : Setting} {env : Env} {b c : BlockId}

theorem fillSlot_total {slot : Nat} {phi : Def} (h : Env.Has env phi.name) (f : SsaForm) :
    ∃ f', fillSlot env b slot f phi = .ok f' := by
  obtain ⟨i, hi⟩ := h
  simp only [fillSlot, reaching, hi, Bind.bind, Except.bind]
  exact ⟨_, rfl⟩

theorem fillSlots_total {exceptional : Bool}
    (h : ∀ c ∈ s.blocks.targets b, s.blocks.raisesInto b c = exceptional →
      ∀ v, s.HasPhi v c → Env.Has env v) (f : SsaForm) :
    ∃ f', fillSlots s exceptional env b f = .ok f' := by
  refine foldlM_total (fun c hc f => ?_) f
  obtain ⟨hc, hraises⟩ := List.mem_filter.mp hc
  unfold fillSlotsOf
  split
  · exact foldlM_total (fun phi hphi f =>
      fillSlot_total (h c hc (eq_of_beq hraises) phi.name ⟨phi, hphi, rfl⟩) f) f
  · exact ⟨f, rfl⟩

end

/-! Blocks. -/

theorem renameBlock_eq {s : Setting} {r : Renaming} {b : BlockId} {f₁ f₃ : SsaForm} {p : Point}
    (hraised : fillSlots s true (s.before r.envAfter b) b r.form = .ok f₁)
    (heffects : (s.effects.of b).foldlM (rename s.arena b)
      { form := f₁, env := s.before r.envAfter b } = .ok p)
    (hnormal : fillSlots s false p.env b p.form = .ok f₃) :
    renameBlock s r b = .ok { form := f₃, ends := (b, p.env) :: r.ends } := by
  change (fillSlots s true (s.before r.envAfter b) b r.form).bind _ = _
  rw [hraised]
  change ((s.effects.of b).foldlM (rename s.arena b)
    { form := f₁, env := s.before r.envAfter b }).bind _ = _
  rw [heffects]
  change (fillSlots s false p.env b p.form).bind _ = _
  rw [hnormal]
  rfl

section
variable {a : Arena} {g : FlowGraph} {view : FunctionView} {s : Setting} {f₁ f₀ : SsaForm}
  {b d : BlockId} {v : String}

/-- The values at the end of a block: those of all variables that it writes or that are live at its
start. -/
def Setting.Leaves (s : Setting) (g : FlowGraph) (env : Env) (b : BlockId) : Prop :=
  ∀ v, writes (s.effects.of b) v = true ∨ g.Live s.effects v b → Env.Has env v

variable (h : Begun a g view s f₁ f₀)
include h

theorem Begun.has_before {after : BlockId → Env} (hb : g.Reachable b)
    (habove : ∀ d, s.tree.immediateDominator? b = some d → s.Leaves g (after d) d)
    (hlive : g.Live s.effects v b) : Env.Has (s.before after b) v := by
  by_cases hphi : s.HasPhi v b
  · obtain ⟨phi, -, -, hget⟩ := get?_before_of_hasPhi after hphi
    exact ⟨phi.id, hget⟩
  · rw [Env.Has, get?_before_of_not_hasPhi hphi, Setting.above]
    by_cases hne : b = g.entry
    · subst hne
      rw [h.exact.immediateDominator?_none.mpr (.inl rfl)]
      obtain ⟨i, hi, -⟩ := h.initial v hlive
      exact ⟨i, hi⟩
    · obtain ⟨d, heq, -⟩ := h.exact.immediateDominator?_some hb hne
      obtain ⟨i, hi⟩ := h.exact.exists_position.mpr hb
      obtain ⟨-, p, -, -, hp⟩ := h.exact.earlier h.effected.finished.linked.consistent hi hne
      obtain ⟨hjoin, hcaught⟩ := not_or.mp ((h.hasPhi_iff hp hlive hne).not.mp hphi)
      rw [heq]
      exact habove d heq v (h.effected.live_above h.exact i b d hi hne heq hlive hjoin
        (by simpa using hcaught))

theorem Begun.renameBlock_total {r : Renaming} (hb : g.Reachable b)
    (habove : ∀ d, s.tree.immediateDominator? b = some d → s.Leaves g (r.envAfter d) d)
    (hstepped : Stepped (s.effects.of b)) : ∃ r', renameBlock s r b = .ok r' ∧
      s.Leaves g (r'.envAfter b) b ∧ ∀ c, c ≠ b → r'.envAfter c = r.envAfter c := by
  have hbefore : ∀ v, g.Live s.effects v b → Env.Has (s.before r.envAfter b) v :=
    fun v hlive => h.has_before hb habove hlive
  have hcontains := h.effected.finished.linked.contains_of_reachable hb
  have hlive : ∀ c ∈ s.blocks.targets b, ∀ v, s.HasPhi v c →
      c ∈ g.targets b ∧ g.Live s.effects v c := by
    intro c hc v hphi
    rw [h.blocks, targets_index] at hc
    exact ⟨hc, (h.of_hasPhi hphi).2.2.1⟩
  obtain ⟨f₂, hraised⟩ : ∃ f₂, fillSlots s true (s.before r.envAfter b) b r.form = .ok f₂ := by
    refine fillSlots_total (fun c hc hraises v hphi => ?_) r.form
    obtain ⟨hc, hlivec⟩ := hlive c hc v hphi
    rw [h.blocks] at hraises
    exact hbefore v (h.effected.live_of_edge hc hlivec (.inl (raisesInto_index.mp hraises)))
  obtain ⟨p, heffects, hafter⟩ := rename_total (a := s.arena) (b := b) (s.effects.of b)
    { form := f₂, env := s.before r.envAfter b }
    (fun v hreads => hbefore v (h.effected.live_of_reads hcontains hreads)) (.inr hstepped)
  have hleaves : s.Leaves g p.env b := fun v hv => hafter v (hv.imp_right (hbefore v))
  obtain ⟨f₃, hnormal⟩ : ∃ f₃, fillSlots s false p.env b p.form = .ok f₃ := by
    refine fillSlots_total (fun c hc _ v hphi => ?_) p.form
    obtain ⟨hc, hlivec⟩ := hlive c hc v hphi
    cases hwrites : writes (s.effects.of b) v with
    | true => exact hleaves v (.inl hwrites)
    | false => exact hleaves v (.inr (h.effected.live_of_edge hc hlivec (.inr hwrites)))
  refine ⟨{ form := f₃, ends := (b, p.env) :: r.ends }, ?_, ?_, fun c hc => ?_⟩
  · exact renameBlock_eq hraised heffects hnormal
  · rw [envAfter_cons, if_pos rfl]
    exact hleaves
  · rw [envAfter_cons, if_neg hc]
    rfl

/-- No block lacks a value when it is renamed. -/
theorem Begun.foldlM_renameBlock_total (hstepped : ∀ b, g.Reachable b → Stepped (s.effects.of b))
    (rest : List BlockId) : ∀ done r, s.tree.preorder = done ++ rest →
      (∀ b ∈ done, s.Leaves g (r.envAfter b) b) → ∃ r', rest.foldlM (renameBlock s) r = .ok r' := by
  induction rest with
  | nil => exact fun done r _ _ => ⟨r, rfl⟩
  | cons b rest ih =>
    intro done r horder hdone
    have hb : g.Reachable b := h.exact.mem_preorder.mp (by rw [horder]; simp)
    have hnew := h.fit.new horder
    obtain ⟨r₁, hrun, hleaves, hothers⟩ := h.renameBlock_total hb
      (fun d heq => hdone d (h.fit.above done b rest d horder heq)) (hstepped b hb)
    obtain ⟨r', hruns⟩ := ih (done ++ [b]) r₁ (by rw [horder]; simp) (fun c hc => by
      rcases List.mem_append.mp hc with hc | hc
      · rw [hothers c (fun he => hnew (he ▸ hc))]
        exact hdone c hc
      · rw [List.mem_singleton.mp hc]
        exact hleaves)
    exact ⟨r', by rw [List.foldlM_cons, hrun]; exact hruns⟩

/-- Renaming never lacks a value. -/
theorem Begun.renaming_total (hstepped : ∀ b, g.Reachable b → Stepped (s.effects.of b)) :
    ∃ r, s.tree.preorder.foldlM (renameBlock s) { form := f₀ } = .ok r :=
  h.foldlM_renameBlock_total hstepped s.tree.preorder [] { form := f₀ } rfl nofun

end

/-- The form of a graph whose effects are found is made. -/
theorem unchecked_total {a : Arena} {g : FlowGraph} {fn : NodeId} {view : FunctionView}
    {effects : EffectMap} (hview : a.function fn = .ok view) (hg : g.Finished)
    (heffects : g.effects a = .ok effects)
    (hstepped : ∀ b, g.Reachable b → Stepped (effects.of b)) :
    ∃ f g', unchecked a g fn = .ok (f, g') := by
  obtain ⟨t, hbuild, -, hexact⟩ := hg.linked.consistent.buildDominance
  have hensured : g.ensureDominance = .ok (t, { g with dominance := some t }) := by
    rw [ensureDominance, hg.plain, hbuild]
    rfl
  have hbegun : Begun a g view (.of a view g t effects) (started view g t effects).1
      (withPhiDefs view g t effects) := begun view ⟨hg, effects_ok heffects⟩ hexact
  obtain ⟨r, hr⟩ := hbegun.renaming_total hstepped
  have hagain : { g with dominance := some t }.effects a = .ok effects := heffects
  refine ⟨r.form, { g with dominance := some t }, ?_⟩
  simp only [unchecked, hview, hensured, hagain, Bind.bind, Except.bind]
  change (List.foldlM (renameBlock (.of a view g t effects))
    { form := withPhiDefs view g t effects } t.preorder).bind _ = _
  rw [show t.preorder.foldlM (renameBlock (.of a view g t effects))
    { form := withPhiDefs view g t effects } = .ok r from hr]
  rfl

end SsaForm

end TypedSsa

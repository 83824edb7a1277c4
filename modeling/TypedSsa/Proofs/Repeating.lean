import TypedSsa.Proofs.Enriching
import TypedSsa.Proofs.Replacing
import TypedSsa.Proofs.Rising
import TypedSsa.Proofs.Routes

/-!
The passes of promotion. Main statement: `SsaForm.promote_reconciled`. They end, with no more passes
that change something than there are phis; then every phi with a type reads values of this type
only, and each other one reads a value without a type or is reported.
-/

namespace TypedSsa

theorem Lattice.fallback_of_error {l : Lattice} {types : List Ty} {e : Fault}
    (h : l.joinAll types = .error e) : l.fallback = none := by
  by_contra hsome
  obtain ⟨fallback, hfallback⟩ := Option.ne_none_iff_exists'.mp hsome
  have hextend : ∀ outcome ty, ∃ next, l.extend outcome ty = .ok next := by
    intro outcome ty
    cases outcome with
    | fallback current cause => exact ⟨_, rfl⟩
    | joined current =>
      rw [extend, joinOrFallback, hfallback]
      cases l.join current ty <;> exact ⟨_, rfl⟩
  have hfold : ∀ (types : List Ty) outcome, ∃ last, types.foldlM l.extend outcome = .ok last := by
    intro types
    induction types with
    | nil => exact fun outcome => ⟨outcome, rfl⟩
    | cons ty types ih =>
      intro outcome
      obtain ⟨next, hnext⟩ := hextend outcome ty
      rw [List.foldlM_cons, hnext]
      exact ih next
  cases types with
  | nil => cases h
  | cons ty types =>
    obtain ⟨last, hlast⟩ := hfold types (.joined ty)
    rw [joinAll, hlast] at h
    cases h

namespace SsaForm

variable {a : Arena} {view : FunctionView} {l : Lattice} {f₀ f f' : SsaForm} {s s' : Promoting}
  {T : DefId → Nat → Prop} {m : Nat} {i : DefId}

/-! Phis without a type. -/

def lacksType (f : SsaForm) (i : DefId) : Bool :=
  (f.definition? i).any (fun d => d.isPhi && d.declared.isNone)

theorem lacksType_iff : f.lacksType i = true ↔
    ∃ d, f.definition? i = some d ∧ d.isPhi = true ∧ d.declared = none := by
  simp [lacksType, Option.any_eq_true]

/-- All operands of the phi have types, which do not join, and nothing makes up for that. -/
def Refused (l : Lattice) (f : SsaForm) (i : DefId) (e : Fault) : Prop :=
  f.lacksType i = true ∧ l.fallback = none ∧
    ∃ types, f.incomingTypes? i = some types ∧ l.joinAll types = .error e

/-- An operand of the phi has no type, if it has operands. -/
def Stuck (f : SsaForm) (i : DefId) : Prop :=
  ∀ types, f.incomingTypes? i = some types → types = []

theorem Refused.not_stuck {e : Fault} (h : f.Refused l i e) : ¬f.Stuck i := by
  intro hstuck
  obtain ⟨-, -, types, htypes, hjoin⟩ := h
  rw [hstuck types htypes] at hjoin
  cases hjoin

theorem Stuck.operand {incoming : List UseId} (h : f.Stuck i)
    (hincoming : f.incoming? i = some incoming) (hne : incoming ≠ []) :
    ∃ u ∈ incoming, f.declaredOf? u = none := by
  have htypes : f.incomingTypes? i = incoming.mapM f.declaredOf? := by
    rw [incomingTypes?, hincoming, Option.bind_some]
  cases hmap : incoming.mapM f.declaredOf? with
  | none => exact List.mem_map.mp (mapM_eq_none hmap)
  | some types =>
    have hlength := (forall₂_of_mapM_some hmap).length_eq
    rw [h types (htypes.trans hmap)] at hlength
    exact absurd (List.length_eq_zero_iff.mp hlength) hne

theorem promotePhi_stuck (l : Lattice) (h : s.form.Stuck i) : promotePhi l s i = s := by
  unfold promotePhi
  cases htypes : s.form.incomingTypes? i with
  | none => rfl
  | some types =>
    rw [h types htypes]
    rfl

theorem promotePhi_refused {e : Fault} (h : s.form.Refused l i e) : promotePhi l s i = { s with
    report := { s.report with errors := s.report.errors ++ [e] }
    failed := i :: s.failed } := by
  obtain ⟨-, -, types, htypes, hjoin⟩ := h
  unfold promotePhi
  rw [htypes]
  dsimp only
  rw [hjoin]

/-! What promotions leave of the types of reads. -/

theorem Inlaid.declaredOf?_kept (h : Inlaid T m f f') {u : UseId} {ty : Ty}
    (hu : f.declaredOf? u = some ty) : f'.declaredOf? u = some ty := by
  obtain ⟨read, d, hread, hd, hty⟩ := declaredOf?_eq_some.mp hu
  obtain ⟨site, hread'⟩ := h.use?_kept hread
  obtain ⟨kind, declared, hd', htyped⟩ := h.definition?_kept hd
  exact declaredOf?_eq_some.mpr ⟨_, _, hread', hd', htyped ty hty⟩

theorem Inlaid.lacksType_before (h : Inlaid T m f f') (hf : Numbered f)
    (hlacks : f'.lacksType i = true) : f.lacksType i = true := by
  obtain ⟨d', hd', hphi, hdeclared⟩ := lacksType_iff.mp hlacks
  rcases h.definition?_cases hf hd' with ⟨d, hd⟩ | ⟨n, -, -, source, phi, hkind⟩
  · refine lacksType_iff.mpr ⟨d, hd, ?_⟩
    cases hphi₀ : d.isPhi with
    | false =>
      obtain rfl := Option.some.inj (hd'.symm.trans (h.plain i d hd hphi₀))
      rw [hphi] at hphi₀
      cases hphi₀
    | true =>
      obtain ⟨incoming, hkind⟩ := DefKind.isPhi_iff.mp hphi₀
      obtain ⟨now, declared, hd₂, -, htyped⟩ := h.merged i d incoming hd hkind
      obtain rfl := Option.some.inj (hd'.symm.trans hd₂)
      refine ⟨rfl, Option.eq_none_iff_forall_ne_some.mpr fun ty hty => ?_⟩
      cases hdeclared.symm.trans (htyped ty hty)
  · rw [Def.isPhi, hkind] at hphi
    cases hphi

theorem mapM_mono {α β : Type} {p q : α → Option β} (h : ∀ x y, p x = some y → q x = some y) :
    ∀ {xs : List α} {ys : List β}, xs.mapM p = some ys → xs.mapM q = some ys := by
  intro xs
  induction xs with
  | nil => exact id
  | cons x xs ih =>
    intro ys hys
    rw [List.mapM_cons] at hys ⊢
    obtain ⟨y, hy, hys⟩ := Option.bind_eq_some_iff.mp hys
    obtain ⟨rest, hrest, hys⟩ := Option.bind_eq_some_iff.mp hys
    rw [h x y hy]
    simpa [ih hrest] using hys

/-- A phi that is refused stays so while others get their types. -/
theorem Refused.kept {e : Fault} (h : f.Refused l i e) (hinlaid : Inlaid T m f f')
    (hsame : ∀ d, f.definition? i = some d → f'.definition? i = some d) : f'.Refused l i e := by
  obtain ⟨hlacks, hfallback, types, htypes, hjoin⟩ := h
  obtain ⟨d, hd, hphi, hdeclared⟩ := lacksType_iff.mp hlacks
  refine ⟨lacksType_iff.mpr ⟨d, hsame d hd, hphi, hdeclared⟩, hfallback, types, ?_, hjoin⟩
  rw [incomingTypes?, incoming?, hd] at htypes
  rw [incomingTypes?, incoming?, hsame d hd]
  obtain ⟨incoming, hincoming, htypes⟩ := Option.bind_eq_some_iff.mp htypes
  exact Option.bind_eq_some_iff.mpr
    ⟨incoming, hincoming, mapM_mono (fun u ty => hinlaid.declaredOf?_kept) htypes⟩

/-! The turn of one phi. -/

/-- What the turn of a phi does. -/
structure Turned (a : Arena) (view : FunctionView) (l : Lattice) (s : Promoting) (i : DefId)
    (s' : Promoting) : Prop where
  settled : Settled a view s'.form
  others : ∀ j d, j ≠ i → s.form.definition? j = some d → s'.form.definition? j = some d
  inlaid : ∃ m, Inlaid (fun _ _ => True) m s.form s'.form
  tallied : ∀ f₀ base, Merging a view f₀ →
    Tallied (fun j _ => s.form.lacksType j = false) f₀ base s →
    Tallied (fun j _ => s'.form.lacksType j = false) f₀ base s'
  passes : s'.report.passes = s.report.passes
  outcome : (s.form.Stuck i ∧ s' = s) ∨
    (∃ e, s.form.Refused l i e ∧ s' = { s with
      report := { s.report with errors := s.report.errors ++ [e] }
      failed := i :: s.failed }) ∨
    s'.form.lacksType i = false ∧ s'.changed = true ∧ s'.failed = s.failed ∧
      s'.report.errors = s.report.errors

theorem Filling.typePhi_typed {phi : Def} {incoming : List UseId} {types : List Ty} {target : Ty}
    (h : Filling a view s.form phi incoming types target 0 s.form)
    (hoperands : s.form.incoming? phi.id = some incoming) (hdeclared : phi.declared = none) :
    (typePhi phi.id types target s).form.lacksType phi.id = false := by
  have hend := Filling.foldl_operands h.types.length_eq.symm hdeclared incoming.length 0 s
    (by omega) h
  obtain ⟨now, hnow, -⟩ := hend.operands
  obtain ⟨declared, hd, ⟨-, rfl⟩ | ⟨hne, -⟩⟩ := hend.merging.numbered.kept_type phi.id target hnow
  · rw [List.drop_zero] at hd
    rw [typePhi, hoperands, Option.getD_some, lacksType, hd]
    simp
  · exact absurd rfl hne

theorem typePhi_rest (i : DefId) (types : List Ty) (target : Ty) (s : Promoting) :
    ∃ form inserted, typePhi i types target s = { s with
      form := form, report := { s.report with inserted := inserted }, changed := true } := by
  obtain ⟨form, inserted, hrest⟩ := foldl_promoteOperand_rest i target
    (((s.form.incoming? i).getD []).zip types).zipIdx s
  refine ⟨form.updateDef i (fun d => { d with declared := some target }), inserted, ?_⟩
  rw [typePhi, hrest]

/-- A phi whose operands have a join gets its type, and what it gets inserted is listed. -/
theorem Filling.turned {phi : Def} {incoming : List UseId} {types : List Ty} {target : Ty}
    (h : Filling a view s.form phi incoming types target 0 s.form)
    (hf : Settled a view s.form) (hphi : s.form.definition? phi.id = some phi)
    (hisPhi : phi.isPhi = true) (hdeclared : phi.declared = none)
    (hoperands : s.form.incoming? phi.id = some incoming) :
    (typePhi phi.id types target s).form.lacksType phi.id = false ∧
      (∃ m, Inlaid (fun _ _ => True) m s.form (typePhi phi.id types target s).form) ∧
      ∀ f₀ base, Merging a view f₀ → Tallied (fun j _ => s.form.lacksType j = false) f₀ base s →
        Tallied (fun j _ => (typePhi phi.id types target s).form.lacksType j = false) f₀ base
          (typePhi phi.id types target s) := by
  have htyped := Filling.typePhi_typed h hoperands hdeclared
  have hlacks : s.form.lacksType phi.id = true := lacksType_iff.mpr ⟨phi, hphi, hisPhi, hdeclared⟩
  have hnone : Tallied (fun _ _ => False) s.form s.report.inserted s :=
    ⟨0, .refl hf.numbered, by simp⟩
  obtain ⟨m, hinlaid, -⟩ :=
    Filling.typePhi_tallied (P := fun _ => False) h hoperands hdeclared hf.toMerging id hnone
  refine ⟨htyped, ⟨m, hinlaid.mono fun _ _ _ => trivial⟩, fun f₀ base hf₀ ht => ?_⟩
  refine (Filling.typePhi_tallied (P := fun j => s.form.lacksType j = false) h hoperands hdeclared
    hf₀ (by simp [hlacks]) ht).mono fun j _ hj => ?_
  rw [← Bool.not_eq_true]
  intro hlacks'
  rcases hj with hj | rfl
  · rw [hinlaid.lacksType_before hf.numbered hlacks'] at hj
    cases hj
  · rw [htyped] at hlacks'
    cases hlacks'

theorem promotePhi_turned (h : Settled a view s.form) (hlacks : s.form.lacksType i = true) :
    Turned a view l s i (promotePhi l s i) := by
  obtain ⟨phi, hphi, hisPhi, hdeclared⟩ := lacksType_iff.mp hlacks
  obtain rfl := h.numbered.definition?_id hphi
  obtain ⟨hsettled, hothers⟩ := promotePhi_settled (l := l) h hphi hdeclared
  rcases promotePhi_cases (l := l) h hphi with
    ⟨hsame, hstuck⟩ | ⟨types, e, htypes, hjoin, hsame⟩ |
    ⟨incoming, types, target, warnings, hoperands, -, hstart, hrun⟩
  · rw [hsame]
    exact ⟨h, fun _ _ _ hd => hd, ⟨0, .refl h.numbered⟩, fun _ _ _ ht => ht, rfl,
      .inl ⟨hstuck, rfl⟩⟩
  · rw [hsame]
    exact ⟨h, fun _ _ _ hd => hd, ⟨0, .refl h.numbered⟩, fun _ _ _ ht => ht, rfl,
      .inr (.inl ⟨e, ⟨hlacks, Lattice.fallback_of_error hjoin, types, htypes, hjoin⟩, rfl⟩)⟩
  · obtain ⟨htyped, hinlaid, htally⟩ :=
      Filling.turned (s := { s with report := { s.report with warnings := warnings } })
        hstart h hphi hisPhi hdeclared hoperands
    obtain ⟨form, inserted, hrest⟩ := typePhi_rest phi.id types target
      { s with report := { s.report with warnings := warnings } }
    rw [← hrun] at htyped hinlaid htally hrest
    exact ⟨hsettled, hothers, hinlaid, htally, by rw [hrest],
      .inr (.inr ⟨htyped, by rw [hrest], by rw [hrest], by rw [hrest]⟩)⟩

/-! A pass over all phis without a type. -/

/-- What holds between the turns, of the form that promotion started from. -/
structure Underway (a : Arena) (view : FunctionView) (l : Lattice) (f₀ : SsaForm) (s : Promoting) :
    Prop where
  settled : Settled a view s.form
  tallied : Tallied (fun i _ => s.form.lacksType i = false) f₀ [] s
  distinct : s.failed.Nodup
  refused : List.Forall₂ (s.form.Refused l) s.failed.reverse s.report.errors

theorem Turned.underway (hturn : Turned a view l s i s') (hf₀ : Merging a view f₀)
    (h : Underway a view l f₀ s) (hi : i ∉ s.failed) : Underway a view l f₀ s' := by
  obtain ⟨m, hinlaid⟩ := hturn.inlaid
  have hkept : ∀ {j e}, s.form.Refused l j e → j ≠ i → s'.form.Refused l j e :=
    fun hrefused hj => hrefused.kept hinlaid fun d hd => hturn.others _ d hj hd
  have htally := hturn.tallied f₀ [] hf₀ h.tallied
  rcases hturn.outcome with ⟨-, rfl⟩ | ⟨e, hrefused, rfl⟩ | ⟨-, -, hfailed, herrors⟩
  · exact h
  · refine ⟨hturn.settled, htally, List.nodup_cons.mpr ⟨hi, h.distinct⟩, ?_⟩
    rw [List.reverse_cons]
    exact List.rel_append h.refused (.cons hrefused .nil)
  · refine ⟨hturn.settled, htally, hfailed ▸ h.distinct, ?_⟩
    rw [hfailed, herrors]
    have hne : ∀ j ∈ s.failed.reverse, j ≠ i := by
      rintro j hj rfl
      exact hi (List.mem_reverse.mp hj)
    refine ((List.forall₂_and_left _ _).mpr ⟨hne, h.refused⟩).imp fun j e hj => ?_
    exact hkept hj.2 hj.1

/-- What the turns of some phis do, all in all. -/
structure Passed (ids : List DefId) (s s' : Promoting) : Prop where
  passes : s'.report.passes = s.report.passes
  failed : s.failed ⊆ s'.failed
  before : ∀ i, s'.form.lacksType i = true → s.form.lacksType i = true
  changed : s.changed = true → s'.changed = true
  idle : s'.changed = false → s'.form = s.form ∧ s'.report.inserted = s.report.inserted ∧
    ∀ i ∈ ids, i ∈ s'.failed ∨ s'.form.Stuck i
  progress : s'.changed = true → s.changed = true ∨ ∃ i ∈ ids, s'.form.lacksType i = false

theorem Passed.cons {ids : List DefId} {s₁ : Promoting} (h : Passed [i] s s₁)
    (h' : Passed ids s₁ s') : Passed (i :: ids) s s' where
  passes := h'.passes.trans h.passes
  failed := List.Subset.trans h.failed h'.failed
  before := fun j hj => h.before j (h'.before j hj)
  changed := fun hchanged => h'.changed (h.changed hchanged)
  idle := by
    intro hchanged
    have hnot : s₁.changed = false := by
      rw [← Bool.not_eq_true]
      intro hnow
      cases hchanged.symm.trans (h'.changed hnow)
    obtain ⟨hform, hinserted, hi⟩ := h.idle hnot
    obtain ⟨hform', hinserted', hall⟩ := h'.idle hchanged
    refine ⟨hform'.trans hform, hinserted'.trans hinserted, List.forall_mem_cons.mpr ⟨?_, hall⟩⟩
    exact (hi i (by simp)).imp (fun hmem => h'.failed hmem) fun hstuck => hform' ▸ hstuck
  progress := by
    intro hchanged
    rcases h'.progress hchanged with hnow | ⟨j, hj, htyped⟩
    · refine (h.progress hnow).imp_right fun ⟨j, hj, htyped⟩ =>
        ⟨j, List.mem_cons.mpr (.inl (List.mem_singleton.mp hj)), ?_⟩
      rw [← Bool.not_eq_true] at htyped ⊢
      exact fun hlacks => htyped (h'.before j hlacks)
    · exact .inr ⟨j, by simp [hj], htyped⟩

theorem Turned.passed (hturn : Turned a view l s i s') (hf : Numbered s.form) :
    Passed [i] s s' := by
  obtain ⟨m, hinlaid⟩ := hturn.inlaid
  have hbefore := fun j => hinlaid.lacksType_before (i := j) hf
  rcases hturn.outcome with ⟨hstuck, rfl⟩ | ⟨e, hrefused, rfl⟩ | ⟨htyped, hchanged, hfailed, -⟩
  · exact ⟨rfl, List.Subset.refl _, hbefore, id, fun _ => ⟨rfl, rfl, by simp [hstuck]⟩, .inl⟩
  · exact ⟨rfl, List.subset_cons_self _ _, hbefore, id, fun _ => ⟨rfl, rfl, by simp⟩, .inl⟩
  · refine ⟨hturn.passes, hfailed ▸ List.Subset.refl _, hbefore, fun _ => hchanged,
      fun hnot => ?_, fun _ => .inr ⟨i, by simp, htyped⟩⟩
    cases hnot.symm.trans hchanged

/-- The turn of a phi leaves the other ones to their turns. -/
theorem Turned.open (hturn : Turned a view l s i s') {j : DefId} (hne : j ≠ i)
    (hj : s.form.lacksType j = true ∧ j ∉ s.failed) :
    s'.form.lacksType j = true ∧ j ∉ s'.failed := by
  obtain ⟨hlacks, hnot⟩ := hj
  obtain ⟨d, hd, hphi, hdeclared⟩ := lacksType_iff.mp hlacks
  refine ⟨lacksType_iff.mpr ⟨d, hturn.others j d hne hd, hphi, hdeclared⟩, ?_⟩
  rcases hturn.outcome with ⟨-, rfl⟩ | ⟨e, -, rfl⟩ | ⟨-, -, hfailed, -⟩
  · exact hnot
  · exact List.not_mem_cons_of_ne_of_not_mem hne hnot
  · rwa [hfailed]

theorem foldl_promotePhi_passed (hf₀ : Merging a view f₀) : ∀ (ids : List DefId) (s : Promoting),
    ids.Nodup → (∀ i ∈ ids, s.form.lacksType i = true ∧ i ∉ s.failed) →
    Underway a view l f₀ s →
    Underway a view l f₀ (ids.foldl (promotePhi l) s) ∧
      Passed ids s (ids.foldl (promotePhi l) s) := by
  intro ids
  induction ids with
  | nil =>
    intro s _ _ h
    exact ⟨h, rfl, List.Subset.refl _, fun _ => id, id, fun _ => ⟨rfl, rfl, by simp⟩, .inl⟩
  | cons i ids ih =>
    intro s hnodup hids h
    obtain ⟨hi, hnodup⟩ := List.nodup_cons.mp hnodup
    obtain ⟨hlacks, hnot⟩ := hids i (by simp)
    have hturn := promotePhi_turned (l := l) h.settled hlacks
    have hnext : ∀ j ∈ ids, (promotePhi l s i).form.lacksType j = true ∧
        j ∉ (promotePhi l s i).failed := fun j hj =>
      hturn.open (fun he => hi (he ▸ hj)) (hids j (by simp [hj]))
    obtain ⟨hend, hpassed⟩ := ih _ hnodup hnext (hturn.underway hf₀ h hnot)
    exact ⟨hend, (hturn.passed h.settled.numbered).cons hpassed⟩

theorem mem_pending (h : Numbered s.form) :
    i ∈ pending s ↔ s.form.lacksType i = true ∧ i ∉ s.failed := by
  rw [pending, List.mem_map, lacksType_iff]
  constructor
  · rintro ⟨d, hd, rfl⟩
    obtain ⟨hphi, hopen⟩ := List.mem_filter.mp hd
    obtain ⟨hbacked, hisPhi⟩ := h.mem_phis.mp hphi
    rw [Bool.and_eq_true] at hopen
    exact ⟨⟨d, hbacked, hisPhi, by simpa using hopen.1⟩, by simpa using hopen.2⟩
  · rintro ⟨⟨d, hd, hisPhi, hdeclared⟩, hnot⟩
    obtain rfl := h.definition?_id hd
    refine ⟨d, List.mem_filter.mpr ⟨h.mem_phis.mpr ⟨hd, hisPhi⟩, ?_⟩, rfl⟩
    simp [hdeclared, hnot]

theorem pending_nodup (h : Numbered s.form) : (pending s).Nodup :=
  ((List.filter_sublist.trans List.filter_sublist).map _).nodup h.ids_nodup

theorem promotionPass_passed (hf₀ : Merging a view f₀) (h : Underway a view l f₀ s) :
    Underway a view l f₀ (promotionPass l s) ∧ Passed (pending s)
      { s with report := { s.report with passes := s.report.passes + 1 }, changed := false }
      (promotionPass l s) :=
  foldl_promotePhi_passed hf₀ (pending s)
    { s with report := { s.report with passes := s.report.passes + 1 }, changed := false }
    (pending_nodup h.settled.numbered)
    (fun _ hi => (mem_pending h.settled.numbered).mp hi)
    ⟨h.settled, h.tallied, h.distinct, h.refused⟩

/-! All passes. -/

/-- How many phis have no type yet. -/
def missing (f₀ : SsaForm) (f : SsaForm) : Nat :=
  (f₀.phis.map (·.id)).countP f.lacksType

theorem missing_lt (hf₀ : Numbered f₀) (hinlaid : ∃ T m, Inlaid T m f₀ f)
    (hbefore : ∀ i, f'.lacksType i = true → f.lacksType i = true)
    (hlacks : f.lacksType i = true) (htyped : f'.lacksType i = false) :
    missing f₀ f' < missing f₀ f := by
  obtain ⟨T, m, hinlaid⟩ := hinlaid
  obtain ⟨d, hd, hisPhi, -⟩ := lacksType_iff.mp (hinlaid.lacksType_before hf₀ hlacks)
  have hid := hf₀.definition?_id hd
  refine countP_lt (fun j _ => hbefore j) (x := i) ?_ hlacks htyped
  exact List.mem_map.mpr ⟨d, hf₀.mem_phis.mpr ⟨hid ▸ hd, hisPhi⟩, hid⟩

/-- What holds when a pass has changed nothing. -/
structure Ended (a : Arena) (view : FunctionView) (l : Lattice) (f₀ : SsaForm) (s : Promoting) :
    Prop extends Underway a view l f₀ s where
  unchanged : s.changed = false
  all : ∀ i, s.form.lacksType i = true → i ∈ s.failed ∨ s.form.Stuck i

/-- The passes end: each but the last gives a phi its type. -/
theorem promotionPasses_end (hf₀ : Merging a view f₀) : ∀ (c : Nat) (s : Promoting),
    missing f₀ s.form = c → Underway a view l f₀ s →
    ∃ s', Ended a view l f₀ s' ∧ s'.report.passes ≤ s.report.passes + c + 1 ∧
      ∀ n, c < n → promotionPasses l n s = s' := by
  intro c
  induction c using Nat.strongRecOn with
  | ind c ih =>
    intro s hc h
    obtain ⟨hnext, hpassed⟩ := promotionPass_passed hf₀ h
    have hpasses : (promotionPass l s).report.passes = s.report.passes + 1 := hpassed.passes
    cases hchanged : (promotionPass l s).changed with
    | false =>
      refine ⟨promotionPass l s, ⟨hnext, hchanged, fun i hi => ?_⟩, by omega, fun n hn => ?_⟩
      · obtain ⟨hform, -, hall⟩ := hpassed.idle hchanged
        by_cases hfailed : i ∈ s.failed
        · exact .inl (hpassed.failed hfailed)
        · exact hall i ((mem_pending h.settled.numbered).mpr ⟨hform ▸ hi, hfailed⟩)
      · obtain ⟨n, rfl⟩ : ∃ k, n = k + 1 := ⟨n - 1, by omega⟩
        rw [promotionPasses, hchanged]
        rfl
    | true =>
      obtain ⟨i, hi, htyped⟩ := (hpassed.progress hchanged).resolve_left (by simp)
      obtain ⟨hlacks, -⟩ := (mem_pending h.settled.numbered).mp hi
      obtain ⟨m, hinlaid, -⟩ := h.tallied
      have hlt := missing_lt hf₀.numbered ⟨_, m, hinlaid⟩ hpassed.before hlacks htyped
      obtain ⟨s', hend, hle, hrun⟩ := ih _ (hc ▸ hlt) _ rfl hnext
      refine ⟨s', hend, by omega, fun n hn => ?_⟩
      obtain ⟨n, rfl⟩ : ∃ k, n = k + 1 := ⟨n - 1, by omega⟩
      rw [promotionPasses, hchanged, if_pos rfl]
      exact hrun n (by omega)

theorem Ended.refused_iff (h : Ended a view l f₀ s) :
    i ∈ s.failed ↔ ∃ e, s.form.Refused l i e := by
  constructor
  · intro hi
    obtain ⟨e, -, he⟩ := exists_right_of_forall₂ h.refused i (List.mem_reverse.mpr hi)
    exact ⟨e, he⟩
  · rintro ⟨e, he⟩
    exact (h.all i he.1).resolve_right he.not_stuck

/-- A pass over phis that are all stuck or refused changes nothing but the errors. -/
theorem foldl_promotePhi_idle : ∀ (ids : List DefId) (s : Promoting),
    (∀ i ∈ ids, s.form.Stuck i ∨ ∃ e, s.form.Refused l i e) →
    (ids.foldl (promotePhi l) s).form = s.form ∧
      (ids.foldl (promotePhi l) s).report.inserted = s.report.inserted ∧
      (ids.foldl (promotePhi l) s).changed = s.changed := by
  intro ids
  induction ids with
  | nil => exact fun _ _ => ⟨rfl, rfl, rfl⟩
  | cons i ids ih =>
    intro s hids
    rw [List.foldl_cons]
    rcases hids i (by simp) with hstuck | ⟨e, hrefused⟩
    · rw [promotePhi_stuck l hstuck]
      exact ih s fun j hj => hids j (by simp [hj])
    · rw [promotePhi_refused hrefused]
      exact ih _ fun j hj => hids j (by simp [hj])

theorem Ended.again (h : Ended a view l f₀ s) :
    (s.form.promote l).1 = s.form ∧ (s.form.promote l).2.inserted = [] := by
  have hnumbered := h.settled.numbered
  obtain ⟨hform, hinserted, hchanged⟩ := foldl_promotePhi_idle (l := l) (pending { form := s.form })
    { form := s.form, report := { passes := 1 } } fun i hi =>
      (h.all i ((mem_pending (s := { form := s.form }) hnumbered).mp hi).1).symm.imp_right
        h.refused_iff.mp
  have hpass : promotionPasses l (s.form.phis.length + 1) { form := s.form } =
      (pending { form := s.form }).foldl (promotePhi l)
        { form := s.form, report := { passes := 1 } } := by
    rw [promotionPasses, if_neg]
    · rfl
    · rw [Bool.not_eq_true]
      exact hchanged
  rw [promote, hpass]
  exact ⟨hform, hinserted⟩

/-! What a promoted form is. -/

/-- A slot of a phi reads the value of a definition. -/
def Feeds (f : SsaForm) (p i : DefId) (k : Nat) : Prop :=
  ∃ incoming u read, f.incoming? i = some incoming ∧ incoming[k]? = some u ∧
    f.use? u = some read ∧ read.definition = p

/-- A promotion stands at the end of the predecessor of one slot of a phi, has the read that the
slot had, and feeds this slot and nothing else. -/
def Bridges (g : FlowGraph) (f f' : SsaForm) (p : DefId) : Prop :=
  ∃ i d incoming k source read q target, f.definition? i = some d ∧ d.kind = .phi incoming ∧
    incoming[k]? = some source ∧ (g.predecessors d.block)[k]? = some q ∧
    f.use? source = some read ∧ f'.use? source = some { read with site := .promotion p } ∧
    f'.definition? p = some {
      id := p
      name := read.name
      block := q
      kind := .promotion source i
      declared := some target } ∧
    ∀ j n, f'.Feeds p j n ↔ j = i ∧ n = k

/-- What promotion makes of a form. -/
structure Reconciled (g : FlowGraph) (l : Lattice) (f f' : SsaForm) (report : PromotionReport) :
    Prop where
  /-- The passes stop by themselves, wherever the limit is. -/
  ended : ∃ s : Promoting, s.form = f' ∧ s.report = report ∧ s.changed = false ∧
    ∀ n, f.phis.length < n → promotionPasses l n { form := f } = s
  passes : report.passes ≤ f.phis.length + 1
  typed : ∀ i d incoming ty, f'.definition? i = some d → d.kind = .phi incoming →
    d.declared = some ty → ∀ u ∈ incoming, f'.declaredOf? u = some ty
  untyped : ∀ i d incoming, f'.definition? i = some d → d.kind = .phi incoming →
    d.declared = none → (∃ u ∈ incoming, ∃ read source, f'.use? u = some read ∧
      f'.definition? read.definition = some source ∧ source.declared = none) ∨
      ∃ e, f'.Refused l i e
  errors : ∃ failed : List DefId, failed.Nodup ∧ (∀ i, i ∈ failed ↔ ∃ e, f'.Refused l i e) ∧
    List.Forall₂ (f'.Refused l) failed report.errors
  distinct : report.inserted.Nodup
  inserted : ∀ p ∈ report.inserted, Bridges g f f' p
  /-- Only the operands that are promoted are read elsewhere, and no read has another value. -/
  reads : ∀ u read, f.use? u = some read → f'.use? u = some read ∨
    ∃ p ∈ report.inserted, ∃ d i q, f'.definition? p = some d ∧ d.kind = .promotion u i ∧
      read.site = .phiIncoming i q ∧ f'.use? u = some { read with site := .promotion p }
  again : (f'.promote l).1 = f' ∧ (f'.promote l).2.inserted = []

/-- What is read is defined. -/
def Backed (f : SsaForm) : Prop :=
  ∀ u read, f.use? u = some read → ∃ d, f.definition? read.definition = some d

theorem Inlaid.backed (h : Inlaid T m f f') (hf : Numbered f) (hbacked : f.Backed) :
    f'.Backed := by
  intro u read hread
  rcases h.use?_cases hf hread with ⟨before, hbefore⟩ | ⟨n, hn, rfl⟩
  · obtain ⟨d, hd⟩ := hbacked u before hbefore
    obtain ⟨site, hsame⟩ := h.use?_kept hbefore
    obtain rfl := Option.some.inj (hread.symm.trans hsame)
    obtain ⟨kind, declared, hd', -⟩ := h.definition?_kept hd
    exact ⟨_, hd'⟩
  · obtain ⟨i, k, source, before, q, hinlay⟩ := h.inserted n hn
    obtain ⟨target, hadded⟩ := hinlay.added
    obtain rfl := Option.some.inj (hread.symm.trans hinlay.fresh)
    exact ⟨_, hadded⟩

/-- A promotion is read by its slot only. -/
theorem Inlaid.feeds_iff {j : DefId} {k n r : Nat} {source : UseId} {read : Use} {q : BlockId}
    (h : Inlaid T m f f') (hf : Numbered f) (hf' : Merging a view f')
    (hbacked : f.Backed) (hinlay : Inlay f f' i k source read q r) :
    f'.Feeds ⟨f.nextDef + r⟩ j n ↔ j = i ∧ n = k := by
  constructor
  · rintro ⟨incoming, u, read', hincoming, hn, hread', hdef⟩
    rcases h.use?_cases hf hread' with ⟨before, hbefore⟩ | ⟨r', hr', rfl⟩
    · obtain ⟨d, hd⟩ := hbacked u before hbefore
      obtain ⟨site, hsame⟩ := h.use?_kept hbefore
      obtain rfl := Option.some.inj (hread'.symm.trans hsame)
      have hlt := hf.lt_nextDef hd
      have hraw : before.definition.raw = f.nextDef + r := congrArg Ident.raw hdef
      omega
    · obtain ⟨i', k', source', before, q', hinlay'⟩ := h.inserted r' hr'
      obtain rfl := Option.some.inj (hread'.symm.trans hinlay'.fresh)
      obtain rfl : r' = r := Nat.add_left_cancel (congrArg Ident.raw hdef)
      -- the site of the new read tells whose slot it is
      obtain ⟨d, hd, hkind⟩ := incoming?_eq_some.mp hincoming
      obtain ⟨hnodup, hsites⟩ := hf'.slots j d incoming hd hkind
      obtain ⟨read', p, hread', hsite⟩ := hsites _ (List.mem_of_getElem? hn)
      rw [hinlay.fresh] at hread'
      rw [← Option.some.inj hread'] at hsite
      cases hsite
      obtain ⟨now, hnow, hk⟩ := hinlay.reads
      obtain rfl := Option.some.inj (hincoming.symm.trans hnow)
      have hlt := (List.getElem?_eq_some_iff.mp hn).1
      exact ⟨rfl, (List.getElem?_inj hlt hnodup).mp (hn.trans hk.symm)⟩
  · rintro ⟨rfl, rfl⟩
    obtain ⟨now, hnow, hk⟩ := hinlay.reads
    exact ⟨now, _, _, hnow, hk, hinlay.fresh, rfl⟩

theorem Inlaid.bridges {g : FlowGraph} {n : Nat} (h : Inlaid T m f f') (hf : Numbered f)
    (hf' : Merging a view f') (hsited : Sited g.predecessors f)
    (hbacked : f.Backed) (hn : n < m) : Bridges g f f' ⟨f.nextDef + n⟩ := by
  obtain ⟨i, k, source, read, q, hinlay⟩ := h.inserted n hn
  obtain ⟨incoming, hincoming, hk⟩ := hinlay.operand
  obtain ⟨d, hd, hkind⟩ := incoming?_eq_some.mp hincoming
  obtain ⟨target, hadded⟩ := hinlay.added
  have hq := (hsited.site_eq hd hkind hk hinlay.used hinlay.site).2
  exact ⟨i, d, incoming, k, source, read, q, target, hd, hkind, hk, hq, hinlay.used, hinlay.moved,
    hadded, fun j n => h.feeds_iff hf hf' hbacked hinlay⟩

/-- A phi without a type reads a value without a type, or is refused. -/
theorem Ended.untyped (h : Ended a view l f s) (hf : Numbered f) (hbacked : f.Backed)
    (hne : ∀ i, f.incoming? i ≠ some []) {d : Def} {incoming : List UseId}
    (hd : s.form.definition? i = some d) (hkind : d.kind = .phi incoming)
    (hdeclared : d.declared = none) :
    (∃ u ∈ incoming, ∃ read source, s.form.use? u = some read ∧
      s.form.definition? read.definition = some source ∧ source.declared = none) ∨
      ∃ e, s.form.Refused l i e := by
  have hlacks : s.form.lacksType i = true :=
    lacksType_iff.mpr ⟨d, hd, DefKind.isPhi_iff.mpr ⟨incoming, hkind⟩, hdeclared⟩
  refine (h.all i hlacks).symm.imp (fun hstuck => ?_) h.refused_iff.mp
  obtain ⟨m, hinlaid, -⟩ := h.tallied
  have hincoming := incoming?_eq_some.mpr ⟨d, hd, hkind⟩
  obtain ⟨before, hbefore, hlength⟩ := hinlaid.phi_before hf hincoming
  have hoperands : incoming ≠ [] := by
    rintro rfl
    obtain rfl := List.length_eq_zero_iff.mp hlength.symm
    exact hne i hbefore
  obtain ⟨u, hu, hnone⟩ := hstuck.operand hincoming hoperands
  obtain ⟨read, p, hread, -⟩ := (h.settled.slots i d incoming hd hkind).2 u hu
  obtain ⟨source, hsource⟩ := hinlaid.backed hf hbacked u read hread
  refine ⟨u, hu, read, source, hread, hsource, Option.eq_none_iff_forall_ne_some.mpr ?_⟩
  intro ty hty
  cases hnone.symm.trans (declaredOf?_eq_some.mpr ⟨read, source, hread, hsource, hty⟩)

theorem ofGraph_backed {g g' : FlowGraph} {fn : NodeId} (hf : Numbered f)
    (run : ofGraph a g fn = .ok (f, g')) : f.Backed := by
  intro u read hread
  obtain ⟨t, -, -, huses⟩ := verify_iff.mp (ofGraph_verified run)
  have hmem : read ∈ f.uses := hf.mem_uses.mpr ((hf.use?_id hread).symm ▸ hread)
  obtain ⟨d, hd, -⟩ := verifyUse_iff.mp (huses read hmem)
  exact ⟨d, hd⟩

theorem promote_reconciled {g g' : FlowGraph} {fn : NodeId} {report : PromotionReport}
    (run : ofGraph a g fn = .ok (f, g')) (hpromoted : f.promote l = (f', report)) :
    Reconciled g l f f' report := by
  obtain ⟨view, hview, -⟩ := ofGraph_makes run
  obtain ⟨hstated, hfilled⟩ := ofGraph_stated hview run
  have hf := hstated.settled hfilled
  have hbacked := ofGraph_backed hf.numbered run
  have hne : ∀ i, f.incoming? i ≠ some [] := by
    intro i hincoming
    obtain ⟨d, hd, hkind⟩ := incoming?_eq_some.mp hincoming
    exact (ofGraph_fresh run i d hd).2 hkind
  have hfirst : Underway a view l f { form := f } :=
    ⟨hf, ⟨0, .refl hf.numbered, rfl⟩, List.nodup_nil, .nil⟩
  obtain ⟨s, hend, hpasses, hruns⟩ := promotionPasses_end hf.toMerging _ { form := f } rfl hfirst
  have hmissing : missing f f ≤ f.phis.length :=
    List.countP_le_length.trans (by rw [List.length_map])
  have hended : ∀ n, f.phis.length < n → promotionPasses l n { form := f } = s :=
    fun n hn => hruns n (hmissing.trans_lt hn)
  rw [promote, hended _ (Nat.lt_succ_self _)] at hpromoted
  obtain ⟨rfl, rfl⟩ := Prod.mk.inj hpromoted
  obtain ⟨m, hinlaid, hinserted⟩ := hend.tallied
  have hmem : ∀ p, p ∈ s.report.inserted ↔ ∃ n, n < m ∧ p = ⟨f.nextDef + n⟩ := by
    simp [hinserted, eq_comm]
  exact {
    ended := ⟨s, rfl, rfl, hend.unchanged, hended⟩
    passes := hpasses.trans (by simpa using hmissing)
    typed := fun i d incoming ty hd hkind hty => (hend.settled.typed i d incoming ty hd hkind hty).2
    untyped := fun i d incoming => hend.untyped hf.numbered hbacked hne
    errors := ⟨s.failed.reverse, List.nodup_reverse.mpr hend.distinct,
      fun i => List.mem_reverse.trans hend.refused_iff, hend.refused⟩
    distinct := by
      rw [hinserted, List.nil_append]
      refine List.nodup_range.map fun n n' he => ?_
      exact Nat.add_left_cancel (congrArg Ident.raw he)
    inserted := by
      intro p hp
      obtain ⟨n, hn, rfl⟩ := (hmem p).mp hp
      exact hinlaid.bridges hf.numbered hend.settled.toMerging (ofGraph_sited hview run) hbacked hn
    reads := by
      intro u read hread
      refine (hinlaid.read u read hread).imp_right fun ⟨i, k, q, n, hn, hinlay⟩ => ?_
      obtain ⟨target, hadded⟩ := hinlay.added
      exact ⟨_, (hmem _).mpr ⟨n, hn, rfl⟩, _, i, q, hadded, rfl, hinlay.site, hinlay.moved⟩
    again := hend.again }

end SsaForm

open SsaForm

/-- The phi of the last block gets no type: one of the two ways there brings no value. -/
theorem promote_reconciled_joinArena : ∃ f g' f' report,
    ofGraph joinArena joinGraph ⟨8⟩ = .ok (f, g') ∧ f.promote .numeric = (f', report) ∧
      Reconciled joinGraph .numeric f f' report ∧
      f'.definition? ⟨2⟩ = some (joinPhi [⟨1⟩, ⟨3⟩]) ∧ f'.declaredOf? ⟨1⟩ = none := by
  obtain ⟨events, hf⟩ := ofGraph_joinArena
  exact ⟨_, _, _, _, hf, rfl, promote_reconciled hf rfl, rfl, rfl⟩

end TypedSsa

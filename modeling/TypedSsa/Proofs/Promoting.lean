import Mathlib.Data.List.Nodup
import Mathlib.Logic.Relation
import TypedSsa.Proofs.Declaring
import TypedSsa.Ssa.Binding
import TypedSsa.Ssa.Promotion

/-!
What a form tells of its program once its phis have been promoted and its reads classified. Main
statement: `settled_bind_promote`. A phi has a type beforehand just when all that it reads has this
type, and a promotion has the type of its phi.
-/

namespace TypedSsa

theorem forall₂_of_mapM_some {α β : Type} {f : α → Option β} {xs : List α} {ys : List β}
    (h : xs.mapM f = some ys) : List.Forall₂ (fun x y => f x = some y) xs ys := by
  induction xs generalizing ys with
  | nil =>
    obtain rfl : [] = ys := by simpa using h
    exact .nil
  | cons x xs ih =>
    rw [List.mapM_cons] at h
    obtain ⟨y, hy, h⟩ := Option.bind_eq_some_iff.mp h
    obtain ⟨ys, hys, h⟩ := Option.bind_eq_some_iff.mp h
    obtain rfl := Option.some.inj h
    exact .cons hy (ih hys)

theorem mapM_eq_none {α β : Type} {f : α → Option β} {xs : List α} (h : xs.mapM f = none) :
    none ∈ xs.map f := by
  induction xs with
  | nil => cases h
  | cons x xs ih =>
    rw [List.mapM_cons] at h
    cases hx : f x with
    | none => simp [hx]
    | some y =>
      rw [hx] at h
      cases hxs : xs.mapM f with
      | none => exact List.mem_cons_of_mem _ (ih hxs)
      | some ys =>
        rw [hxs] at h
        cases h

theorem Lattice.joinAll_ne_none (l : Lattice) {tys : List Ty} (h : tys ≠ []) :
    l.joinAll tys ≠ .ok none := by
  cases tys with
  | nil => exact absurd rfl h
  | cons ty tys =>
    rw [Lattice.joinAll]
    intro hnone
    cases hfold : tys.foldlM l.extend (.joined ty) <;> rw [hfold] at hnone <;> cases hnone

namespace SsaForm

variable {a : Arena} {view : FunctionView} {f f' : SsaForm}

theorem declaredOf?_eq_some {u : UseId} {ty : Ty} : f.declaredOf? u = some ty ↔
    ∃ use d, f.use? u = some use ∧ f.definition? use.definition = some d ∧
      d.declared = some ty := by
  simp only [declaredOf?, definitionOf?, Option.bind_eq_some_iff]
  constructor
  · rintro ⟨d, ⟨use, huse, hd⟩, hty⟩
    exact ⟨use, d, huse, hd, hty⟩
  · rintro ⟨use, d, huse, hd, hty⟩
    exact ⟨d, ⟨use, huse, hd⟩, hty⟩

/-- What a form tells of a program all of whose slots of phis are filled. -/
structure Merging (a : Arena) (view : FunctionView) (f : SsaForm) : Prop where
  numbered : Numbered f
  function : f.function = view.name
  node : f.node = view.node
  given : ∀ i d, f.definition? i = some d → d.Given a view
  params : List.Forall₂ (IsParam f) view.params.zipIdx f.params
  slots : ∀ i d (incoming : List UseId), f.definition? i = some d → d.kind = .phi incoming →
    incoming.Nodup ∧ ∀ u ∈ incoming, ∃ use p, f.use? u = some use ∧ use.site = .phiIncoming i p
  /-- All that a phi with a type reads has this type. -/
  typed : ∀ i d (incoming : List UseId) ty, f.definition? i = some d → d.kind = .phi incoming →
    d.declared = some ty → incoming ≠ [] ∧ ∀ u ∈ incoming, f.declaredOf? u = some ty

/-- Every promotion has the type of its phi. -/
def Promoted (f : SsaForm) : Prop :=
  ∀ i d source phi, f.definition? i = some d → d.kind = .promotion source phi →
    ∃ merged, f.definition? phi = some merged ∧ merged.declared = d.declared

/-! A promotion in one slot. -/

/-- The slot of a phi that has been read by `source` now reads a promotion of that. -/
structure Promotes (phi : DefId) (slot : Nat) (source : UseId) (target : Ty) (f f' : SsaForm) :
    Prop where
  numbered : Numbered f'
  function : f'.function = f.function
  node : f'.node = f.node
  params : f'.params = f.params
  definition? : ∃ name p, ∀ i, f'.definition? i =
    if i = phi then (f.definition? i).map
      (fun d => { d with kind := putIncoming slot ⟨f.nextUse⟩ d.kind })
    else if i = ⟨f.nextDef⟩ then
      some { id := ⟨f.nextDef⟩, name, block := p, kind := .promotion source phi,
             declared := some target }
    else f.definition? i
  use? : ∃ name p, ∀ u, f'.use? u =
    if u = ⟨f.nextUse⟩ then
      some { id := ⟨f.nextUse⟩, name, block := p, site := .phiIncoming phi p,
             definition := ⟨f.nextDef⟩ }
    else if u = source then (f.use? u).map (fun use => { use with site := .promotion ⟨f.nextDef⟩ })
    else f.use? u

theorem promoteSlot_promotes (slot : Nat) (target : Ty) (h : Numbered f) {phi : DefId}
    {source : UseId} {old : Use} {p : BlockId} (hphi : (f.definition? phi).isSome = true)
    (hold : f.use? source = some old) (hsite : old.site = .phiIncoming phi p) :
    ∃ f', f.promoteSlot phi slot source target = some (⟨f.nextDef⟩, f') ∧
      Promotes phi slot source target f f' := by
  have hadd := h.addDef old.name p (.promotion source phi) (some target)
  have hread := hadd.updateUse source
    (fun u => { u with site := .promotion ⟨f.nextDef⟩ }) fun _ => rfl
  have hrecorded := @Numbered.record _ (@Numbered.record _ hread p (.use source)) p
    (.define ⟨f.nextDef⟩)
  have hfresh := hrecorded.addUse old.name p (.phiIncoming phi p) ⟨f.nextDef⟩
  refine ⟨_, by simp only [promoteSlot, hold, hsite, Option.bind_eq_bind, Option.bind_some]; rfl,
    hfresh.setIncoming phi slot ⟨f.nextUse⟩, rfl, rfl, rfl, ⟨old.name, p, fun i => ?_⟩,
    ⟨old.name, p, fun u => ?_⟩⟩
  · refine (hfresh.definition?_setIncoming phi slot _ i).trans ?_
    have hi := h.definition?_addDef old.name p (.promotion source phi) (some target) i
    by_cases hphi' : i = phi
    · have hne : phi ≠ ⟨f.nextDef⟩ := by
        rintro rfl
        rw [h.definition?_next] at hphi
        cases hphi
      subst hphi'
      rw [if_pos rfl, if_pos rfl]
      exact congrArg _ (hi.trans (if_neg hne))
    · rw [if_neg hphi', if_neg hphi']
      exact hi
  · refine (hrecorded.use?_addUse old.name p (.phiIncoming phi p) ⟨f.nextDef⟩ u).trans ?_
    congr 1
    exact hadd.use?_updateUse source
      (fun u => { u with site := .promotion ⟨f.nextDef⟩ }) (fun _ => rfl) u

namespace Promotes

variable {phi : DefId} {slot : Nat} {source : UseId} {target : Ty}

/-- The definitions that there were keep their types, and all but the phi their kinds. -/
theorem kept (h : Promotes phi slot source target f f') (hf : Numbered f) {i : DefId} {d : Def}
    (hd : f.definition? i = some d) :
    ∃ kind, f'.definition? i = some { d with kind := kind } ∧
      (i = phi ∧ kind = putIncoming slot ⟨f.nextUse⟩ d.kind ∨ i ≠ phi ∧ kind = d.kind) := by
  obtain ⟨name, p, hdef⟩ := h.definition?
  have hne : i ≠ ⟨f.nextDef⟩ := by
    rintro rfl
    rw [hf.definition?_next] at hd
    cases hd
  rw [hdef, hd]
  by_cases hi : i = phi
  · rw [if_pos hi]
    exact ⟨_, rfl, .inl ⟨hi, rfl⟩⟩
  · rw [if_neg hi, if_neg hne]
    exact ⟨d.kind, rfl, .inr ⟨hi, rfl⟩⟩

theorem back (h : Promotes phi slot source target f f') (hf : Numbered f) {i : DefId} {d' : Def}
    (hd' : f'.definition? i = some d') :
    (∃ d kind, f.definition? i = some d ∧ d' = { d with kind := kind } ∧
      (i = phi ∧ kind = putIncoming slot ⟨f.nextUse⟩ d.kind ∨ i ≠ phi ∧ kind = d.kind)) ∨
      d'.kind = .promotion source phi ∧ d'.declared = some target := by
  have hold : (∃ d, f.definition? i = some d) ∨
      d'.kind = .promotion source phi ∧ d'.declared = some target := by
    obtain ⟨name, p, hdef⟩ := h.definition?
    rw [hdef] at hd'
    split at hd'
    · obtain ⟨d, hd, -⟩ := Option.map_eq_some_iff.mp hd'
      exact .inl ⟨d, hd⟩
    · split at hd'
      · cases hd'
        exact .inr ⟨rfl, rfl⟩
      · exact .inl ⟨d', hd'⟩
  rcases hold with ⟨d, hd⟩ | hnew
  · obtain ⟨kind, hkept, hcases⟩ := h.kept hf hd
    exact .inl ⟨d, kind, hd, Option.some.inj (hd'.symm.trans hkept), hcases⟩
  · exact .inr hnew

theorem use?_kept (h : Promotes phi slot source target f f') (hf : Numbered f) {u : UseId}
    {use : Use} (hu : f.use? u = some use) :
    ∃ site, f'.use? u = some { use with site := site } ∧ (u ≠ source → site = use.site) := by
  obtain ⟨name, p, huse⟩ := h.use?
  have hne : u ≠ ⟨f.nextUse⟩ := by
    rintro rfl
    rw [hf.use?_next] at hu
    cases hu
  rw [huse, if_neg hne, hu]
  by_cases hsource : u = source
  · rw [if_pos hsource]
    exact ⟨_, rfl, fun hnot => absurd hsource hnot⟩
  · rw [if_neg hsource]
    exact ⟨use.site, rfl, fun _ => rfl⟩

theorem declaredOf?_kept (h : Promotes phi slot source target f f') (hf : Numbered f) {u : UseId}
    {ty : Ty} (hu : f.declaredOf? u = some ty) : f'.declaredOf? u = some ty := by
  obtain ⟨use, d, huse, hd, hty⟩ := declaredOf?_eq_some.mp hu
  obtain ⟨site, huse', -⟩ := h.use?_kept hf huse
  obtain ⟨kind, hd', -⟩ := h.kept hf hd
  exact declaredOf?_eq_some.mpr ⟨_, _, huse', hd', hty⟩

theorem declaredOf?_fresh (h : Promotes phi slot source target f f') (hf : Numbered f)
    (hphi : (f.definition? phi).isSome = true) : f'.declaredOf? ⟨f.nextUse⟩ = some target := by
  obtain ⟨name, p, hdef⟩ := h.definition?
  obtain ⟨name', p', huse⟩ := h.use?
  have hne : (⟨f.nextDef⟩ : DefId) ≠ phi := by
    rintro rfl
    rw [hf.definition?_next] at hphi
    cases hphi
  exact declaredOf?_eq_some.mpr ⟨_, _, (huse _).trans (if_pos rfl),
    (hdef _).trans ((if_neg hne).trans (if_pos rfl)), rfl⟩

/-- The phi reads the promotion in place of the source, and every other phi what it has read. -/
theorem slots (h : Promotes phi slot source target f f') (hf : Merging a view f) {d : Def}
    {incoming : List UseId} (hd : f.definition? phi = some d) (hkind : d.kind = .phi incoming)
    (hslot : incoming[slot]? = some source) {i : DefId} {d' : Def} {incoming' : List UseId}
    (hd' : f'.definition? i = some d') (hkind' : d'.kind = .phi incoming') :
    incoming'.Nodup ∧ ∀ u ∈ incoming', ∃ use p, f'.use? u = some use ∧
      use.site = .phiIncoming i p := by
  obtain ⟨hnodup, hreads⟩ := hf.slots phi d incoming hd hkind
  have hother : ∀ {u : UseId} {use : Use} {p : BlockId}, u ≠ source → f.use? u = some use →
      use.site = .phiIncoming i p →
      ∃ use p, f'.use? u = some use ∧ use.site = .phiIncoming i p := by
    intro u use p hne hu hsite
    obtain ⟨site, hu', hsame⟩ := h.use?_kept hf.numbered hu
    exact ⟨_, p, hu', (hsame hne).trans hsite⟩
  rcases h.back hf.numbered hd' with ⟨e, kind, he, rfl, hsame⟩ | ⟨hpromotion, -⟩
  · rcases hsame with ⟨rfl, rfl⟩ | ⟨hi, rfl⟩
    · obtain rfl := Option.some.inj (hd.symm.trans he)
      have hput : putIncoming slot ⟨f.nextUse⟩ d.kind = .phi incoming' := hkind'
      rw [hkind] at hput
      cases hput
      have hfresh : (⟨f.nextUse⟩ : UseId) ∉ incoming := by
        intro hmem
        obtain ⟨use, -, hold, -⟩ := hreads _ hmem
        rw [hf.numbered.use?_next] at hold
        cases hold
      refine ⟨List.Nodup.set hnodup hfresh, fun u hu => ?_⟩
      obtain ⟨j, hj⟩ := List.mem_iff_getElem?.mp hu
      rw [List.getElem?_set] at hj
      by_cases hslotj : slot = j
      · obtain rfl : (⟨f.nextUse⟩ : UseId) = u := by
          rw [if_pos hslotj] at hj
          split at hj
          · exact Option.some.inj hj
          · cases hj
        obtain ⟨name, p, huse⟩ := h.use?
        exact ⟨_, p, (huse _).trans (if_pos rfl), rfl⟩
      · rw [if_neg hslotj] at hj
        obtain ⟨use, p, hu, hsite⟩ := hreads u (List.mem_of_getElem? hj)
        refine hother ?_ hu hsite
        rintro rfl
        exact hslotj ((List.getElem?_inj (List.getElem?_eq_some_iff.mp hslot).1 hnodup).mp
          (hslot.trans hj.symm))
    · obtain ⟨hnodup', hreads'⟩ := hf.slots i e incoming' he hkind'
      refine ⟨hnodup', fun u hu => ?_⟩
      obtain ⟨use, p, hu', hsite⟩ := hreads' u hu
      refine hother ?_ hu' hsite
      -- What is read for one phi is not read for another.
      rintro rfl
      obtain ⟨use', p', huse', hsite'⟩ := hreads u (List.mem_of_getElem? hslot)
      obtain rfl := Option.some.inj (hu'.symm.trans huse')
      rw [hsite] at hsite'
      cases hsite'
      exact hi rfl
  · rw [hkind'] at hpromotion
    cases hpromotion

/-- Nothing but the promotion itself is added to what the form tells. -/
theorem merging (h : Promotes phi slot source target f f') (hf : Merging a view f) {d : Def}
    {incoming : List UseId} (hd : f.definition? phi = some d) (hkind : d.kind = .phi incoming)
    (hdeclared : d.declared = none) (hslot : incoming[slot]? = some source) :
    Merging a view f' where
  numbered := h.numbered
  function := h.function.trans hf.function
  node := h.node.trans hf.node
  given := by
    intro i d' hd'
    rcases h.back hf.numbered hd' with ⟨e, kind, he, rfl, hsame⟩ | ⟨hpromotion, htarget⟩
    · rcases hsame with ⟨rfl, rfl⟩ | ⟨-, rfl⟩
      · obtain rfl := Option.some.inj (hd.symm.trans he)
        simp [Def.Given, hkind, putIncoming]
      · exact hf.given i e he
    · simp [Def.Given, hpromotion, htarget]
  params := by
    rw [h.params]
    refine hf.params.imp fun p i => ?_
    rintro ⟨e, he, hname, hparam⟩
    obtain ⟨kind, he', ⟨-, hsame⟩ | ⟨-, hsame⟩⟩ := h.kept hf.numbered he
    · exact ⟨_, he', hname, by rw [hsame, hparam]; rfl⟩
    · exact ⟨_, he', hname, hsame.trans hparam⟩
  slots := fun _ _ _ hd' hkind' => h.slots hf hd hkind hslot hd' hkind'
  typed := by
    intro i d' incoming' ty hd' hkind' hty
    rcases h.back hf.numbered hd' with ⟨e, kind, he, rfl, hsame⟩ | ⟨hpromotion, -⟩
    · rcases hsame with ⟨rfl, -⟩ | ⟨-, rfl⟩
      · obtain rfl := Option.some.inj (hd.symm.trans he)
        cases hdeclared.symm.trans hty
      · obtain ⟨hne, htyped⟩ := hf.typed i e incoming' ty he hkind' hty
        exact ⟨hne, fun u hu => h.declaredOf?_kept hf.numbered (htyped u hu)⟩
    · rw [hkind'] at hpromotion
      cases hpromotion

/-- A promotion was there before, or it is the one that the phi now reads. -/
theorem promotion_back (h : Promotes phi slot source target f f') (hf : Numbered f) {d : Def}
    (hd : f.definition? phi = some d) (hisPhi : d.isPhi = true) {i : DefId} {d' : Def}
    {source' : UseId} {p : DefId} (hd' : f'.definition? i = some d')
    (hkind : d'.kind = .promotion source' p) :
    f.definition? i = some d' ∨ p = phi ∧ d'.declared = some target := by
  rcases h.back hf hd' with ⟨e, kind, he, rfl, hsame⟩ | ⟨hpromotion, htarget⟩
  · rcases hsame with ⟨rfl, rfl⟩ | ⟨-, rfl⟩
    · obtain rfl := Option.some.inj (hd.symm.trans he)
      have hput : putIncoming slot ⟨f.nextUse⟩ d.kind = .promotion source' p := hkind
      obtain ⟨incoming, hphi⟩ := DefKind.isPhi_iff.mp hisPhi
      rw [hphi] at hput
      cases hput
    · exact .inl he
  · rw [hkind] at hpromotion
    cases hpromotion
    exact .inr ⟨rfl, htarget⟩

end Promotes

/-! All slots of a phi. -/

/-- The first `k` operands that a phi had in `f₀` have been given its type. -/
structure Filling (a : Arena) (view : FunctionView) (f₀ : SsaForm) (phi : Def)
    (incoming : List UseId) (types : List Ty) (target : Ty) (k : Nat) (f : SsaForm) : Prop where
  merging : Merging a view f
  others : ∀ i d, i ≠ phi.id → f₀.definition? i = some d → f.definition? i = some d
  operands : ∃ now : List UseId, f.definition? phi.id = some { phi with kind := .phi now } ∧
    now.length = incoming.length ∧
    (∀ j, j < k → ∀ u, now[j]? = some u → f.declaredOf? u = some target) ∧
    ∀ j, k ≤ j → now[j]? = incoming[j]?
  types : List.Forall₂ (fun u ty => f.declaredOf? u = some ty) incoming types
  promoted : ∀ i d source p, f.definition? i = some d → d.kind = .promotion source p →
    (∃ merged, f.definition? p = some merged ∧ merged.declared = d.declared) ∨
      p = phi.id ∧ d.declared = some target

variable {f₀ : SsaForm} {phi : Def} {incoming : List UseId} {types : List Ty} {target : Ty}
  {k : Nat}

theorem Filling.operand {s : Promoting} (h : Filling a view f₀ phi incoming types target k s.form)
    (hdeclared : phi.declared = none) {source : UseId} {ty : Ty}
    (hsource : incoming[k]? = some source)
    (hty : types[k]? = some ty) :
    Filling a view f₀ phi incoming types target (k + 1)
      (promoteOperand phi.id target s ((source, ty), k)).form := by
  obtain ⟨now, hphi, hlength, hdone, hrest⟩ := h.operands
  have hnow : now[k]? = some source := (hrest k le_rfl).trans hsource
  have hknown : s.form.declaredOf? source = some ty := by
    have hget := forall₂_getElem? h.types k
    rw [hsource, hty] at hget
    cases hget with
    | some hknown => exact hknown
  by_cases hsame : ty = target
  · rw [promoteOperand, if_pos hsame]
    refine ⟨h.merging, h.others,
      ⟨now, hphi, hlength, fun j hj u hu => ?_, fun j hj => hrest j (by omega)⟩, h.types,
        h.promoted⟩
    rcases Nat.lt_succ_iff_lt_or_eq.mp hj with hj | rfl
    · exact hdone j hj u hu
    · obtain rfl := Option.some.inj (hnow.symm.trans hu)
      exact hsame ▸ hknown
  · have hnumbered := h.merging.numbered
    obtain ⟨old, p, hold, hsite⟩ := (h.merging.slots phi.id _ now hphi rfl).2 source
      (List.mem_of_getElem? hnow)
    obtain ⟨f', hrun, hpromotes⟩ := promoteSlot_promotes k target hnumbered
      (by simp [hphi]) hold hsite
    have hform : (promoteOperand phi.id target s ((source, ty), k)).form = f' := by
      simp only [promoteOperand, if_neg hsame, hrun]
    rw [hform]
    obtain ⟨kind, hphi', ⟨-, hput⟩ | ⟨hne, -⟩⟩ := hpromotes.kept hnumbered hphi
    case inr => exact absurd rfl hne
    exact {
      merging := hpromotes.merging h.merging hphi rfl hdeclared hnow
      others := by
        intro i d hi hd
        obtain ⟨kind, hd', ⟨hphi, -⟩ | ⟨-, rfl⟩⟩ := hpromotes.kept hnumbered (h.others i d hi hd)
        · exact absurd hphi hi
        · exact hd'
      operands := by
        refine ⟨now.set k ⟨s.form.nextUse⟩, by rw [hphi', hput, putIncoming], by simp [hlength],
          fun j hj u hu => ?_, fun j hj => ?_⟩
        · rw [List.getElem?_set] at hu
          by_cases hkj : k = j
          · rw [if_pos hkj] at hu
            split at hu
            · cases hu
              exact hpromotes.declaredOf?_fresh hnumbered (by simp [hphi])
            · cases hu
          · rw [if_neg hkj] at hu
            exact hpromotes.declaredOf?_kept hnumbered (hdone j (by omega) u hu)
        · rw [List.getElem?_set_ne (by omega)]
          exact hrest j (by omega)
      types := h.types.imp fun u ty hu => hpromotes.declaredOf?_kept hnumbered hu
      promoted := by
        intro i d' source' p' hd' hkind'
        rcases hpromotes.promotion_back hnumbered hphi rfl hd' hkind' with hold | hopen
        · rcases h.promoted i d' source' p' hold hkind' with ⟨merged, hmerged, hsame'⟩ | hopen
          · obtain ⟨_, hmerged', -⟩ := hpromotes.kept hnumbered hmerged
            exact .inl ⟨_, hmerged', hsame'⟩
          · exact .inr hopen
        · exact .inr hopen }

theorem Filling.foldl_operands (hlength : types.length = incoming.length)
    (hdeclared : phi.declared = none) :
    ∀ (n k : Nat) (s : Promoting), k + n = incoming.length →
      Filling a view f₀ phi incoming types target k s.form →
      Filling a view f₀ phi incoming types target incoming.length
        ((((incoming.zip types).drop k).zipIdx k).foldl (promoteOperand phi.id target) s).form := by
  intro n
  induction n with
  | zero =>
    intro k s hk h
    have hdrop : (incoming.zip types).drop k = [] := List.drop_eq_nil_of_le (by simp; omega)
    rw [hdrop, ← hk]
    exact h
  | succ n ih =>
    intro k s hk h
    have hk' : k < (incoming.zip types).length := by simp; omega
    rw [List.drop_eq_getElem_cons hk', List.zipIdx_cons, List.foldl_cons, List.getElem_zip]
    refine ih (k + 1) _ (by omega) (h.operand hdeclared ?_ ?_)
    · exact List.getElem?_eq_getElem (by omega)
    · exact List.getElem?_eq_getElem (by omega)

/-! The type of a phi. -/

/-- The definitions keep all but the type of the one. -/
theorem Numbered.kept_type (h : Numbered f) (phi : DefId) (target : Ty) {i : DefId} {d : Def}
    (hd : f.definition? i = some d) : ∃ declared,
      (f.updateDef phi (fun d => { d with declared := some target })).definition? i =
        some { d with declared := declared } ∧
      (i = phi ∧ declared = some target ∨ i ≠ phi ∧ declared = d.declared) := by
  rw [h.definition?_updateDef phi (fun d => { d with declared := some target }) fun _ => rfl, hd]
  by_cases hi : i = phi
  · rw [if_pos hi]
    exact ⟨_, rfl, .inl ⟨hi, rfl⟩⟩
  · rw [if_neg hi]
    exact ⟨_, rfl, .inr ⟨hi, rfl⟩⟩

theorem Numbered.back_type (h : Numbered f) (phi : DefId) (target : Ty) {i : DefId} {d' : Def}
    (hd' : (f.updateDef phi (fun d => { d with declared := some target })).definition? i =
      some d') :
    ∃ d declared, f.definition? i = some d ∧ d' = { d with declared := declared } ∧
      (i = phi ∧ declared = some target ∨ i ≠ phi ∧ declared = d.declared) := by
  obtain ⟨d, hd⟩ : ∃ d, f.definition? i = some d := by
    have hupdated := hd'
    rw [h.definition?_updateDef phi (fun d => { d with declared := some target }) fun _ => rfl]
      at hupdated
    split at hupdated
    · obtain ⟨d, hd, -⟩ := Option.map_eq_some_iff.mp hupdated
      exact ⟨d, hd⟩
    · exact ⟨d', hupdated⟩
  obtain ⟨declared, hkept, hcases⟩ := h.kept_type phi target hd
  exact ⟨d, declared, hd, Option.some.inj (hd'.symm.trans hkept), hcases⟩

theorem Numbered.declaredOf?_type (h : Numbered f) {phi : DefId} {merged : Def} (target : Ty)
    (hphi : f.definition? phi = some merged) (hdeclared : merged.declared = none) {u : UseId}
    {ty : Ty} (hu : f.declaredOf? u = some ty) :
    (f.updateDef phi (fun d => { d with declared := some target })).declaredOf? u = some ty := by
  obtain ⟨use, d, huse, hd, hty⟩ := declaredOf?_eq_some.mp hu
  obtain ⟨declared, hd', ⟨hi, -⟩ | ⟨-, hsame⟩⟩ := h.kept_type phi target hd
  · rw [hi, hphi] at hd
    cases hd
    cases hdeclared.symm.trans hty
  · exact declaredOf?_eq_some.mpr ⟨use, _, huse, hd', hsame.trans hty⟩

/-- A form whose promotions are all of phis with a type. -/
structure Settled (a : Arena) (view : FunctionView) (f : SsaForm) : Prop extends
    Merging a view f where
  promoted : Promoted f

/-- The promotions of a phi have the type that it gets. -/
theorem Filling.promoted_type (h : Filling a view f₀ phi incoming types target k f)
    (hdeclared : phi.declared = none) :
    Promoted (f.updateDef phi.id (fun d => { d with declared := some target })) := by
  obtain ⟨now, hphi, -⟩ := h.operands
  have hkept := @Numbered.kept_type f h.merging.numbered phi.id target
  intro i d' source p hd' hkind
  obtain ⟨d, declared, hd, rfl, hsame⟩ := h.merging.numbered.back_type phi.id target hd'
  rcases hsame with ⟨rfl, -⟩ | ⟨-, rfl⟩
  · rw [hphi] at hd
    cases hd
    cases hkind
  rcases h.promoted i d source p hd hkind with ⟨merged, hmerged, hsame⟩ | ⟨rfl, htarget⟩
  · obtain ⟨declared, hmerged', ⟨hp, -⟩ | ⟨-, hsame'⟩⟩ := hkept hmerged
    · rw [hp, hphi] at hmerged
      cases hmerged
      have hgiven := h.merging.given i d hd
      rw [Def.Given, hkind, ← hsame, hdeclared] at hgiven
      cases hgiven
    · exact ⟨_, hmerged', hsame'.trans hsame⟩
  · obtain ⟨declared, hphi', ⟨-, rfl⟩ | ⟨hne, -⟩⟩ := hkept hphi
    · exact ⟨_, hphi', htarget.symm⟩
    · exact absurd rfl hne

theorem Filling.settled (h : Filling a view f₀ phi incoming types target incoming.length f)
    (hdeclared : phi.declared = none) (hne : incoming ≠ []) :
    Settled a view (f.updateDef phi.id (fun d => { d with declared := some target })) := by
  obtain ⟨now, hphi, hlength, hdone, -⟩ := h.operands
  have hf := h.merging
  have hback := @Numbered.back_type f hf.numbered phi.id target
  have hdeclaredOf := @Numbered.declaredOf?_type f hf.numbered phi.id _ target hphi hdeclared
  exact {
    numbered := hf.numbered.updateDef phi.id _ fun _ => rfl
    function := hf.function
    node := hf.node
    given := by
      intro i d' hd'
      obtain ⟨d, declared, hd, rfl, ⟨rfl, -⟩ | ⟨-, rfl⟩⟩ := hback hd'
      · rw [hphi] at hd
        cases hd
        trivial
      · exact hf.given i d hd
    params := by
      refine hf.params.imp fun p i => ?_
      rintro ⟨d, hd, hname, hkind⟩
      obtain ⟨declared, hd', -⟩ := hf.numbered.kept_type phi.id target hd
      exact ⟨_, hd', hname, hkind⟩
    slots := by
      intro i d' incoming' hd' hkind
      obtain ⟨d, declared, hd, rfl, -⟩ := hback hd'
      exact hf.slots i d incoming' hd hkind
    typed := by
      intro i d' incoming' ty hd' hkind hty
      obtain ⟨d, declared, hd, rfl, ⟨rfl, rfl⟩ | ⟨-, rfl⟩⟩ := hback hd'
      · rw [hphi] at hd
        cases hd
        cases hkind
        cases hty
        refine ⟨List.ne_nil_of_length_pos (hlength ▸ List.length_pos_iff.mpr hne), fun u hu => ?_⟩
        obtain ⟨j, hj⟩ := List.mem_iff_getElem?.mp hu
        have hlt := (List.getElem?_eq_some_iff.mp hj).1
        exact hdeclaredOf (hdone j (by omega) u hj)
      · obtain ⟨hne', htyped⟩ := hf.typed i d incoming' ty hd hkind hty
        exact ⟨hne', fun u hu => hdeclaredOf (htyped u hu)⟩
    promoted := h.promoted_type hdeclared }

/-- A phi stays as it is, or is found to have no type, or its operands are promoted to the type that
it gets. -/
theorem promotePhi_cases {l : Lattice} {s : Promoting} (h : Settled a view s.form)
    (hphi : s.form.definition? phi.id = some phi) :
    (promotePhi l s phi.id = s ∧
      ∀ types, s.form.incomingTypes? phi.id = some types → types = []) ∨
    (∃ types e, s.form.incomingTypes? phi.id = some types ∧ l.joinAll types = .error e ∧
      promotePhi l s phi.id = { s with
        report := { s.report with errors := s.report.errors ++ [e] }
        failed := phi.id :: s.failed }) ∨
    ∃ incoming types target warnings, s.form.incoming? phi.id = some incoming ∧ incoming ≠ [] ∧
      Filling a view s.form phi incoming types target 0 s.form ∧
      promotePhi l s phi.id = typePhi phi.id types target
        { s with report := { s.report with warnings := warnings } } := by
  unfold promotePhi
  cases hincoming : s.form.incomingTypes? phi.id with
  | none => exact .inl ⟨rfl, nofun⟩
  | some types =>
    obtain ⟨incoming, hoperands, hmapM⟩ := Option.bind_eq_some_iff.mp hincoming
    have htypes := forall₂_of_mapM_some hmapM
    have hkind : phi.kind = .phi incoming := by
      rw [incoming?, hphi, Option.bind_some] at hoperands
      cases hk : phi.kind <;> rw [hk] at hoperands <;> cases hoperands
      rfl
    have hstart : ∀ target, Filling a view s.form phi incoming types target 0 s.form := by
      intro target
      refine ⟨h.toMerging, fun _ _ _ hd => hd,
        ⟨incoming, ?_, rfl, fun j hj => absurd hj (by omega), fun _ _ => rfl⟩, htypes,
        fun i d source p hd hkind => .inl (h.promoted i d source p hd hkind)⟩
      rw [hphi, ← hkind]
    have hne : ∀ outcome, l.joinAll types = .ok (some outcome) → incoming ≠ [] := by
      rintro outcome hjoin rfl
      obtain rfl : types = [] := List.length_eq_zero_iff.mp htypes.length_eq.symm
      cases hjoin
    dsimp only
    cases hjoin : l.joinAll types with
    | error e => exact .inr (.inl ⟨types, e, rfl, hjoin, rfl⟩)
    | ok outcome =>
      cases outcome with
      | none =>
        refine .inl ⟨rfl, fun types' hsame => ?_⟩
        rw [← Option.some.inj hsame]
        by_contra hne
        exact l.joinAll_ne_none hne hjoin
      | some outcome =>
        have hnonempty := hne outcome hjoin
        cases outcome with
        | joined ty => exact .inr (.inr ⟨_, _, _, _, hoperands, hnonempty, hstart ty, rfl⟩)
        | fallback ty cause => exact .inr (.inr ⟨_, _, _, _, hoperands, hnonempty, hstart ty, rfl⟩)

/-- A phi may get its type; the other definitions stay. -/
theorem promotePhi_settled {l : Lattice} {s : Promoting} (h : Settled a view s.form)
    (hphi : s.form.definition? phi.id = some phi) (hdeclared : phi.declared = none) :
    Settled a view (promotePhi l s phi.id).form ∧ ∀ i d, i ≠ phi.id →
      s.form.definition? i = some d → (promotePhi l s phi.id).form.definition? i = some d := by
  rcases promotePhi_cases (l := l) h hphi with
    ⟨hsame, -⟩ | ⟨_, _, -, -, hsame⟩ |
    ⟨incoming, types, target, warnings, hoperands, hne, hstart, hrun⟩
  · rw [hsame]
    exact ⟨h, fun _ _ _ hd => hd⟩
  · rw [hsame]
    exact ⟨h, fun _ _ _ hd => hd⟩
  · have hend := Filling.foldl_operands hstart.types.length_eq.symm hdeclared incoming.length 0
      { s with report := { s.report with warnings := warnings } } (by omega) hstart
    rw [hrun, typePhi]
    dsimp only
    rw [hoperands]
    refine ⟨hend.settled hdeclared hne, fun i d hi hd => ?_⟩
    refine (hend.merging.numbered.definition?_updateDef phi.id
      (fun d => { d with declared := some target }) (fun _ => rfl) i).trans ?_
    rw [if_neg hi]
    exact hend.others i d hi hd

/-! Passes over all phis. -/

/-- The turn of a phi that has no type yet. -/
def Turn (a : Arena) (view : FunctionView) (l : Lattice) (f f' : SsaForm) : Prop :=
  ∃ (s : Promoting) (phi : Def), s.form = f ∧ Settled a view f ∧
    f.definition? phi.id = some phi ∧ phi.declared = none ∧ (promotePhi l s phi.id).form = f'

theorem promotionPass_turns {l : Lattice} {s : Promoting} (h : Settled a view s.form) :
    Settled a view (promotionPass l s).form ∧
      Relation.ReflTransGen (Turn a view l) s.form (promotionPass l s).form := by
  have hrun : ∀ (ids : List DefId) (s : Promoting), ids.Nodup → Settled a view s.form →
      (∀ i ∈ ids, ∃ d, s.form.definition? i = some d ∧ d.declared = none) →
      Settled a view (ids.foldl (promotePhi l) s).form ∧
        Relation.ReflTransGen (Turn a view l) s.form (ids.foldl (promotePhi l) s).form := by
    intro ids
    induction ids with
    | nil => exact fun s _ h _ => ⟨h, .refl⟩
    | cons i ids ih =>
      intro s hnodup h hopen
      obtain ⟨phi, hphi, hdeclared⟩ := hopen i (by simp)
      obtain rfl := h.numbered.definition?_id hphi
      obtain ⟨hsettled, hothers⟩ := promotePhi_settled (l := l) h hphi hdeclared
      refine (ih _ hnodup.of_cons hsettled fun j hj => ?_).imp_right
        (.head ⟨s, phi, rfl, h, hphi, hdeclared, rfl⟩)
      obtain ⟨d, hd, hopen⟩ := hopen j (by simp [hj])
      refine ⟨d, hothers j d ?_ hd, hopen⟩
      rintro rfl
      exact (List.nodup_cons.mp hnodup).1 hj
  have hsub : List.Sublist (pending s) (s.form.defs.toList.map (·.id)) :=
    (List.filter_sublist.trans List.filter_sublist).map _
  refine hrun (pending s)
    { s with report := { s.report with passes := s.report.passes + 1 }, changed := false }
    (hsub.nodup h.numbered.ids_nodup) h fun i hi => ?_
  obtain ⟨d, hd, rfl⟩ := List.mem_map.mp hi
  obtain ⟨hphi, hopen⟩ := List.mem_filter.mp hd
  exact ⟨d, (h.numbered.mem_phis.mp hphi).1, by simpa using (Bool.and_eq_true_iff.mp hopen).1⟩

theorem promotionPasses_turns {l : Lattice} : ∀ (n : Nat) (s : Promoting), Settled a view s.form →
    Settled a view (promotionPasses l n s).form ∧
      Relation.ReflTransGen (Turn a view l) s.form (promotionPasses l n s).form := by
  intro n
  induction n with
  | zero => exact fun s h => ⟨h, .refl⟩
  | succ n ih =>
    intro s h
    have hpass := promotionPass_turns (l := l) h
    unfold promotionPasses
    dsimp only
    split
    · exact (ih _ hpass.1).imp_right hpass.2.trans
    · exact hpass

/-- A promoted form comes from one phi's turn after the other. -/
theorem promote_turns {l : Lattice} (h : Settled a view f) :
    Settled a view (f.promote l).1 ∧
      Relation.ReflTransGen (Turn a view l) f (f.promote l).1 :=
  promotionPasses_turns _ { form := f } h

/-- A form as it is made has no promotions yet. -/
theorem Stated.settled (h : Stated a view view.params.zipIdx f)
    (hfilled : ∀ d ∈ f.phis, ∀ u ∈ d.kind.operands, u.isValid = true) : Settled a view f := by
  have hvalid : ∀ i d (incoming : List UseId), f.definition? i = some d →
      d.kind = .phi incoming → ∀ u ∈ incoming, u.isValid = true := by
    intro i d incoming hd hkind u hu
    have hphi : d.isPhi = true := DefKind.isPhi_iff.mpr ⟨incoming, hkind⟩
    refine hfilled d (h.numbered.mem_phis.mpr ⟨?_, hphi⟩) u (by rw [hkind]; exact hu)
    rw [h.numbered.definition?_id hd]
    exact hd
  refine ⟨⟨h.numbered, h.function, h.node, h.given, h.params, ?_, ?_⟩, ?_⟩
  · intro i d incoming hd hkind
    refine ⟨List.nodup_iff_getElem?_ne_getElem?.mpr fun k l hkl hl hsame => ?_, fun u hu => ?_⟩
    · rw [List.getElem?_eq_getElem hl] at hsame
      have hu := hvalid i d incoming hd hkind _ (List.getElem_mem hl)
      exact absurd (h.apart i d incoming hd hkind k l _ hsame (List.getElem?_eq_getElem hl) hu)
        (by omega)
    · obtain ⟨k, hk⟩ := List.mem_iff_getElem?.mp hu
      exact h.slots i d incoming hd hkind k u hk (hvalid i d incoming hd hkind u hu)
  · intro i d incoming ty hd hkind hty
    rw [h.untyped i d hd (DefKind.isPhi_iff.mpr ⟨incoming, hkind⟩)] at hty
    cases hty
  · intro i d source phi hd hkind
    have hnot := h.unpromoted i d hd
    rw [hkind] at hnot
    cases hnot

/-! Classifying the reads. -/

theorem Numbered.mark (h : Numbered f) (states : List (UseId × BindState)) (r : BindingReport) :
    Numbered (f.mark states r) where
  defs := by
    intro i d hd
    rw [SsaForm.mark] at hd
    simp only [Array.getElem?_map] at hd
    obtain ⟨d', hd', rfl⟩ := Option.map_eq_some_iff.mp hd
    exact h.defs i d' hd'
  nextDef := by
    simp [SsaForm.mark, h.nextDef]
  uses := by
    intro i u hu
    rw [SsaForm.mark] at hu
    simp only [Array.getElem?_map] at hu
    obtain ⟨u', hu', rfl⟩ := Option.map_eq_some_iff.mp hu
    exact h.uses i u' hu'
  nextUse := by
    simp [SsaForm.mark, h.nextUse]

/-- Only notes on reads and on undefined values differ. -/
structure Marked (f f' : SsaForm) : Prop where
  numbered : Numbered f'
  kept : ∀ i d, f.definition? i = some d →
    ∃ poisoned, f'.definition? i = some { d with poisoned := poisoned }
  back : ∀ i d', f'.definition? i = some d' →
    ∃ d poisoned, f.definition? i = some d ∧ d' = { d with poisoned := poisoned }
  read : ∀ u use, f.use? u = some use →
    ∃ binding, f'.use? u = some { use with binding := binding }
  readBack : ∀ u use', f'.use? u = some use' →
    ∃ use binding, f.use? u = some use ∧ use' = { use with binding := binding }

theorem Numbered.marked (h : Numbered f) (states : List (UseId × BindState))
    (r : BindingReport) : Marked f (f.mark states r) := by
  have hnumbered := h.mark states r
  have hdef : ∀ i, ∃ poisoned : Def → Bool, (f.mark states r).definition? i =
      (f.definition? i).map (fun d => { d with poisoned := poisoned d }) := by
    intro i
    rw [hnumbered.definition?_eq, h.definition?_eq, SsaForm.mark]
    exact ⟨_, Array.getElem?_map⟩
  have huse : ∀ u, ∃ binding : Use → Option BindState, (f.mark states r).use? u =
      (f.use? u).map (fun use => { use with binding := binding use }) := by
    intro u
    rw [hnumbered.use?_eq, h.use?_eq, SsaForm.mark]
    exact ⟨_, Array.getElem?_map⟩
  exact {
    numbered := hnumbered
    kept := by
      intro i d hd
      obtain ⟨poisoned, hdef⟩ := hdef i
      exact ⟨_, by rw [hdef, hd, Option.map_some]⟩
    back := by
      intro i d' hd'
      obtain ⟨poisoned, hdef⟩ := hdef i
      rw [hdef] at hd'
      obtain ⟨d, hd, rfl⟩ := Option.map_eq_some_iff.mp hd'
      exact ⟨d, _, hd, rfl⟩
    read := by
      intro u use hu
      obtain ⟨binding, huse⟩ := huse u
      exact ⟨_, by rw [huse, hu, Option.map_some]⟩
    readBack := by
      intro u use' hu'
      obtain ⟨binding, huse⟩ := huse u
      rw [huse] at hu'
      obtain ⟨use, hu, rfl⟩ := Option.map_eq_some_iff.mp hu'
      exact ⟨use, _, hu, rfl⟩ }

/-- Which reads are bound and which undefined values are read says nothing of types. -/
theorem Settled.mark (h : Settled a view f) (states : List (UseId × BindState))
    (r : BindingReport) : Settled a view (f.mark states r) := by
  obtain ⟨hnumbered, hkept, hback, hread, -⟩ := h.numbered.marked states r
  refine ⟨⟨hnumbered, h.function, h.node, ?_, ?_, ?_, ?_⟩, ?_⟩
  · intro i d' hd'
    obtain ⟨d, poisoned, hd, rfl⟩ := hback i d' hd'
    exact h.given i d hd
  · refine h.params.imp fun p i => ?_
    rintro ⟨d, hd, hname, hkind⟩
    obtain ⟨poisoned, hd'⟩ := hkept i d hd
    exact ⟨_, hd', hname, hkind⟩
  · intro i d' incoming hd' hkind
    obtain ⟨d, poisoned, hd, rfl⟩ := hback i d' hd'
    obtain ⟨hnodup, hreads⟩ := h.slots i d incoming hd hkind
    refine ⟨hnodup, fun u hu => ?_⟩
    obtain ⟨use, p, hu', hsite⟩ := hreads u hu
    obtain ⟨binding, hu''⟩ := hread u use hu'
    exact ⟨_, p, hu'', hsite⟩
  · intro i d' incoming ty hd' hkind hty
    obtain ⟨d, poisoned, hd, rfl⟩ := hback i d' hd'
    obtain ⟨hne, htyped⟩ := h.typed i d incoming ty hd hkind hty
    refine ⟨hne, fun u hu => ?_⟩
    obtain ⟨use, e, hu', he, hsame⟩ := declaredOf?_eq_some.mp (htyped u hu)
    obtain ⟨binding, hu''⟩ := hread u use hu'
    obtain ⟨poisoned', he'⟩ := hkept _ e he
    exact declaredOf?_eq_some.mpr ⟨_, _, hu'', he', hsame⟩
  · intro i d' source phi hd' hkind
    obtain ⟨d, poisoned, hd, rfl⟩ := hback i d' hd'
    obtain ⟨merged, hmerged, hsame⟩ := h.promoted i d source phi hd hkind
    obtain ⟨poisoned', hmerged'⟩ := hkept phi merged hmerged
    exact ⟨_, hmerged', hsame⟩

/-- What the form of a function tells of it before any type is inferred. -/
theorem settled_bind_promote {g g' : FlowGraph} {fn : NodeId} {l : Lattice} {policy : UnboundPolicy}
    (hview : a.function fn = .ok view) (run : ofGraph a g fn = .ok (f, g')) :
    Settled a view ((f.promote l).1.bind g' policy).1 := by
  obtain ⟨hstated, hfilled⟩ := ofGraph_stated hview run
  exact (promote_turns (hstated.settled hfilled)).1.mark _ _

end SsaForm

end TypedSsa

import Mathlib.Logic.Relation
import TypedSsa.Proofs.Promoting

/-!
Promotion as a sequence of small changes to a form. Main statement: `promote_inserts`. Each change
puts a promotion into one slot of a phi that has no type yet, or gives a phi its type.
-/

namespace TypedSsa.SsaForm

/-- A slot of a phi that has no type yet is read by `source`, at the end of `p`. -/
structure Open (f : SsaForm) (phi : Def) (slot : Nat) (source : UseId) (read : Use)
    (p : BlockId) : Prop where
  known : f.definition? phi.id = some phi
  untyped : phi.declared = none
  operand : ∃ incoming, phi.kind = .phi incoming ∧ incoming[slot]? = some source
  used : f.use? source = some read
  site : read.site = .phiIncoming phi.id p

/-- A change that promotion makes. -/
inductive Inserts : SsaForm → SsaForm → Prop
  | promotion {f f' : SsaForm} {phi : Def} {slot : Nat} {source : UseId} {read : Use} {p : BlockId}
      {target : Ty} {id : DefId} : f.Open phi slot source read p →
      f.promoteSlot phi.id slot source target = some (id, f') → Inserts f f'
  | type {f : SsaForm} {phi : Def} (target : Ty) : f.definition? phi.id = some phi →
      phi.isPhi = true →
      Inserts f (f.updateDef phi.id (fun d => { d with declared := some target }))

/-- A promotion in an open slot, with its two events at the end of the block. -/
structure Inserted (phi : Def) (slot : Nat) (source : UseId) (read : Use) (p : BlockId)
    (target : Ty) (f f' : SsaForm) : Prop extends Promotes phi.id slot source target f f' where
  added : f'.definition? ⟨f.nextDef⟩ = some {
    id := ⟨f.nextDef⟩
    name := read.name
    block := p
    kind := .promotion source phi.id
    declared := some target }
  fresh : f'.use? ⟨f.nextUse⟩ = some {
    id := ⟨f.nextUse⟩
    name := read.name
    block := p
    site := .phiIncoming phi.id p
    definition := ⟨f.nextDef⟩ }
  moved : f'.use? source = some { read with site := .promotion ⟨f.nextDef⟩ }
  eventsIn : ∀ b, f'.eventsIn b =
    if b = p then f.eventsIn b ++ [.use source, .define ⟨f.nextDef⟩] else f.eventsIn b

variable {f f' : SsaForm} {phi : Def} {slot : Nat} {source : UseId} {read : Use} {p : BlockId}
  {target : Ty} {id : DefId}

theorem Open.inserted (h : f.Open phi slot source read p) (hf : Numbered f)
    (run : f.promoteSlot phi.id slot source target = some (id, f')) :
    id = ⟨f.nextDef⟩ ∧ Inserted phi slot source read p target f f' := by
  have hphi : (f.definition? phi.id).isSome = true := by simp [h.known]
  obtain ⟨f₁, run₁, hpromotes⟩ := promoteSlot_promotes slot target hf hphi h.used h.site
  obtain ⟨rfl, rfl⟩ := Prod.mk.inj (Option.some.inj (run₁.symm.trans run))
  have hnext : (⟨f.nextDef⟩ : DefId) ≠ phi.id := by
    intro he
    rw [← he, hf.definition?_next] at hphi
    cases hphi
  have hsource : source ≠ ⟨f.nextUse⟩ := by
    intro he
    have hnone := h.used
    rw [he, hf.use?_next] at hnone
    cases hnone
  have hadd := hf.addDef read.name p (.promotion source phi.id) (some target)
  have hread := hadd.updateUse source
    (fun u => { u with site := .promotion ⟨f.nextDef⟩ }) fun _ => rfl
  have hrecorded := @Numbered.record _ (@Numbered.record _ hread p (.use source)) p
    (.define ⟨f.nextDef⟩)
  have hfresh := hrecorded.addUse read.name p (.phiIncoming phi.id p) ⟨f.nextDef⟩
  have huse := hrecorded.use?_addUse read.name p (.phiIncoming phi.id p) ⟨f.nextDef⟩
  simp only [promoteSlot, h.used, h.site, Option.bind_eq_bind, Option.bind_some] at run
  obtain ⟨-, rfl⟩ := Prod.mk.inj (Option.some.inj run)
  refine ⟨rfl, hpromotes, ?_, (huse _).trans (if_pos rfl), ?_, fun b => ?_⟩
  · refine (hfresh.definition?_setIncoming phi.id slot ⟨f.nextUse⟩ ⟨f.nextDef⟩).trans ?_
    rw [if_neg hnext]
    exact (hf.definition?_addDef read.name p _ (some target) ⟨f.nextDef⟩).trans (if_pos rfl)
  · refine (huse source).trans ((if_neg hsource).trans ?_)
    refine (hadd.use?_updateUse source (fun u => { u with site := .promotion ⟨f.nextDef⟩ })
      (fun _ => rfl) source).trans ?_
    rw [if_pos rfl]
    exact congrArg _ h.used
  · refine (eventsIn_record _ p (.define ⟨f.nextDef⟩) b).trans ?_
    split
    · rename_i hb
      rw [eventsIn_record _ p (.use source) b, if_pos hb, List.append_assoc]
      rfl
    · rename_i hb
      rw [eventsIn_record _ p (.use source) b, if_neg hb]
      rfl

namespace Inserted

variable (h : Inserted phi slot source read p target f f')
include h

/-- A definition is one that there was, or the promotion. -/
theorem definition?_cases (hf : Numbered f) {i : DefId} {d' : Def}
    (hd' : f'.definition? i = some d') :
    (∃ d kind, f.definition? i = some d ∧ d' = { d with kind := kind } ∧
      (i = phi.id ∧ kind = putIncoming slot ⟨f.nextUse⟩ d.kind ∨ i ≠ phi.id ∧ kind = d.kind)) ∨
    i = ⟨f.nextDef⟩ ∧ d' = {
      id := ⟨f.nextDef⟩
      name := read.name
      block := p
      kind := .promotion source phi.id
      declared := some target } := by
  cases hd : f.definition? i with
  | some d =>
    obtain ⟨kind, hd₂, hsame⟩ := h.kept hf hd
    obtain rfl := Option.some.inj (hd'.symm.trans hd₂)
    exact .inl ⟨d, kind, rfl, rfl, hsame⟩
  | none =>
    obtain ⟨name, q, hdef⟩ := h.definition?
    have hi : i = ⟨f.nextDef⟩ := by
      by_contra hne
      rw [hdef, hd, if_neg hne] at hd'
      split at hd' <;> cases hd'
    subst hi
    exact .inr ⟨rfl, Option.some.inj (hd'.symm.trans h.added)⟩

/-- A read is one that there was, or that of the promotion's value. -/
theorem use?_cases {i : UseId} {u' : Use} (hu' : f'.use? i = some u') :
    (∃ u, f.use? i = some u ∧ (i ≠ source ∧ u' = u ∨
      i = source ∧ u' = { u with site := .promotion ⟨f.nextDef⟩ })) ∨
    i = ⟨f.nextUse⟩ ∧ u' = {
      id := ⟨f.nextUse⟩
      name := read.name
      block := p
      site := .phiIncoming phi.id p
      definition := ⟨f.nextDef⟩ } := by
  obtain ⟨name, q, huse⟩ := h.use?
  rw [huse] at hu'
  split at hu'
  · rename_i hi
    have hfresh := h.fresh
    rw [huse, if_pos rfl] at hfresh
    exact .inr ⟨hi, Option.some.inj (hu'.symm.trans hfresh)⟩
  · split at hu'
    · rename_i hi
      obtain ⟨u, hu, rfl⟩ := Option.map_eq_some_iff.mp hu'
      exact .inl ⟨u, hu, .inr ⟨hi, rfl⟩⟩
    · rename_i hi
      exact .inl ⟨u', hu', .inl ⟨hi, rfl⟩⟩

/-- The two new events come last. -/
theorem eventsIn_cases {b : BlockId} {e : Event} (he : e ∈ f'.eventsIn b) :
    e ∈ f.eventsIn b ∨ b = p ∧ (e = .use source ∨ e = .define ⟨f.nextDef⟩) := by
  rw [h.eventsIn] at he
  split at he
  · rename_i hb
    exact (List.mem_append.mp he).imp_right fun he => ⟨hb, by simpa using he⟩
  · exact .inl he

theorem eventsIn_kept {b : BlockId} {e : Event} (he : e ∈ f.eventsIn b) : e ∈ f'.eventsIn b := by
  rw [h.eventsIn]
  split
  · exact List.mem_append_left _ he
  · exact he

end Inserted

/-! The changes of a whole promotion. -/

section
variable {a : Arena} {view : FunctionView} {f₀ : SsaForm} {incoming : List UseId} {types : List Ty}
  {k : Nat} {l : Lattice} {s : Promoting}

/-- The next slot is still read as it was. -/
theorem Filling.opens (h : Filling a view f₀ phi incoming types target k s.form)
    (hdeclared : phi.declared = none) (hsource : incoming[k]? = some source) :
    ∃ now read p f', s.form.Open { phi with kind := .phi now } k source read p ∧
      s.form.promoteSlot phi.id k source target = some (⟨s.form.nextDef⟩, f') := by
  obtain ⟨now, hphi, -, -, hrest⟩ := h.operands
  have hnow : now[k]? = some source := (hrest k le_rfl).trans hsource
  obtain ⟨read, p, hread, hsite⟩ := (h.merging.slots phi.id _ now hphi rfl).2 source
    (List.mem_of_getElem? hnow)
  obtain ⟨f', hrun, -⟩ := promoteSlot_promotes k target h.merging.numbered (by simp [hphi])
    hread hsite
  exact ⟨now, read, p, f', ⟨hphi, hdeclared, ⟨now, rfl, hnow⟩, hread, hsite⟩, hrun⟩

theorem Filling.operand_inserts (h : Filling a view f₀ phi incoming types target k s.form)
    (hdeclared : phi.declared = none) {ty : Ty} (hsource : incoming[k]? = some source) :
    Relation.ReflTransGen Inserts s.form
      (promoteOperand phi.id target s ((source, ty), k)).form := by
  obtain ⟨now, read, p, f', hopen, hrun⟩ := h.opens hdeclared hsource
  by_cases hsame : ty = target
  · rw [promoteOperand, if_pos hsame]
  · simp only [promoteOperand, if_neg hsame, hrun]
    exact .single (.promotion hopen hrun)

theorem Filling.foldl_inserts (hlength : types.length = incoming.length)
    (hdeclared : phi.declared = none) :
    ∀ (n k : Nat) (s : Promoting), k + n = incoming.length →
      Filling a view f₀ phi incoming types target k s.form →
      Relation.ReflTransGen Inserts s.form
        ((((incoming.zip types).drop k).zipIdx k).foldl (promoteOperand phi.id target) s).form := by
  intro n
  induction n with
  | zero =>
    intro k s hk h
    have hdrop : (incoming.zip types).drop k = [] := List.drop_eq_nil_of_le (by simp; omega)
    rw [hdrop]
    exact .refl
  | succ n ih =>
    intro k s hk h
    have hk' : k < (incoming.zip types).length := by simp; omega
    have hsource : incoming[k]? = some incoming[k] := List.getElem?_eq_getElem (by omega)
    have hty : types[k]? = some types[k] := List.getElem?_eq_getElem (by omega)
    rw [List.drop_eq_getElem_cons hk', List.zipIdx_cons, List.foldl_cons, List.getElem_zip]
    exact (h.operand_inserts hdeclared hsource).trans
      (ih (k + 1) _ (by omega) (h.operand hdeclared hsource hty))

theorem Turn.inserts {f' : SsaForm} (h : Turn a view l f f') :
    Relation.ReflTransGen Inserts f f' := by
  obtain ⟨s, phi, rfl, h, hphi, hdeclared, rfl⟩ := h
  rcases promotePhi_cases (l := l) h hphi with
    ⟨hsame, -⟩ | ⟨_, _, -, -, hsame⟩ |
    ⟨incoming, types, target, warnings, hoperands, -, hstart, hrun⟩
  · rw [hsame]
  · rw [hsame]
  · have hlength := hstart.types.length_eq.symm
    have hsteps := Filling.foldl_inserts hlength hdeclared incoming.length 0
      { s with report := { s.report with warnings := warnings } } (by omega) hstart
    obtain ⟨now, hnow, -⟩ := (Filling.foldl_operands hlength hdeclared incoming.length 0
      { s with report := { s.report with warnings := warnings } } (by omega) hstart).operands
    rw [hrun, typePhi]
    dsimp only
    rw [hoperands]
    exact hsteps.tail (@Inserts.type _ { phi with kind := .phi now } target hnow rfl)

end

/-- A promoted form comes from the form as it was made by changes of these two kinds. -/
theorem promote_inserts {a : Arena} {view : FunctionView} {l : Lattice} (h : Settled a view f) :
    Relation.ReflTransGen Inserts f (f.promote l).1 :=
  (promote_turns h).2.lift' id fun _ _ hturn => hturn.inserts

/-! A phi that gets its type. -/

/-- Only the type of one definition differs. -/
structure Retyped (f f' : SsaForm) : Prop where
  numbered : Numbered f'
  params : f'.params = f.params
  kept : ∀ i d, f.definition? i = some d →
    ∃ declared, f'.definition? i = some { d with declared := declared } ∧
      (d.isPhi = false → declared = d.declared)
  back : ∀ i d', f'.definition? i = some d' → ∃ d declared, f.definition? i = some d ∧
    d' = { d with declared := declared }
  use? : ∀ u, f'.use? u = f.use? u
  eventsIn : ∀ b, f'.eventsIn b = f.eventsIn b

theorem Numbered.retyped (h : Numbered f) (target : Ty) (hphi : f.definition? phi.id = some phi)
    (hisPhi : phi.isPhi = true) :
    Retyped f (f.updateDef phi.id (fun d => { d with declared := some target })) := by
  have hdef := h.definition?_updateDef phi.id
    (fun d => { d with declared := some target }) fun _ => rfl
  refine ⟨h.updateDef phi.id _ fun _ => rfl, rfl, ?_, ?_, fun _ => rfl, fun _ => rfl⟩
  · intro i d hd
    rw [hdef, hd]
    split
    · rename_i hi
      refine ⟨_, rfl, fun hnot => ?_⟩
      obtain rfl := Option.some.inj ((hi ▸ hphi).symm.trans hd)
      rw [hisPhi] at hnot
      cases hnot
    · exact ⟨d.declared, rfl, fun _ => rfl⟩
  · intro i d' hd'
    rw [hdef] at hd'
    split at hd'
    · obtain ⟨d, hd, rfl⟩ := Option.map_eq_some_iff.mp hd'
      exact ⟨d, _, hd, rfl⟩
    · exact ⟨d', d'.declared, hd', rfl⟩

end TypedSsa.SsaForm

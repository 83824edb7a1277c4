import Mathlib.Data.List.Find
import Mathlib.Data.List.Nodup
import TypedSsa.Ssa.Form

/-!
What the operations on a form do to its definitions, its reads and the events of its blocks, as they
are looked up by id. Definitions and reads stand at the places that their ids tell.
-/

namespace TypedSsa

section
variable {α : Type} {s : Named} {key : α → Ident s} {xs : Array α}

theorem findNear?_of_placed (h : ∀ (i : Nat) (x : α), xs[i]? = some x → key x = ⟨i⟩)
    (id : Ident s) : findNear? key id.raw xs id = xs[id.raw]? := by
  unfold findNear?
  cases hx : xs[id.raw]? with
  | some x =>
    have hkey : key x = id := h id.raw x hx
    simp [hkey]
  | none =>
    rw [Array.find?_eq_none]
    intro x hmem hsame
    obtain ⟨i, hi⟩ := Array.mem_iff_getElem?.mp hmem
    have hkey : key x = id := eq_of_beq hsame
    rw [← hkey, h i x hi] at hx
    rw [hx] at hi
    cases hi

theorem getElem?_modifyNear (h : ∀ (i : Nat) (x : α), xs[i]? = some x → key x = ⟨i⟩) (id : Ident s)
    (change : α → α) (i : Nat) : (modifyNear key id.raw xs id change)[i]? =
      if i = id.raw then (xs[i]?).map change else xs[i]? := by
  unfold modifyNear
  split
  · rw [Array.getElem?_modify]
    by_cases hi : i = id.raw
    · rw [if_pos hi, if_pos hi.symm]
    · rw [if_neg hi, if_neg (fun he => hi he.symm)]
  · rename_i hfar
    have habsent : xs[id.raw]? = none := by
      cases hx : xs[id.raw]? with
      | none => rfl
      | some x =>
        have hkey : key x = id := h id.raw x hx
        simp [hx, hkey] at hfar
    rw [Array.getElem?_map]
    cases hx : xs[i]? with
    | none => simp
    | some x =>
      have hne : i ≠ id.raw := by
        rintro rfl
        rw [habsent] at hx
        cases hx
      have hkey : key x ≠ id := by
        rw [h i x hx]
        rintro rfl
        exact hne rfl
      simp [hne, hkey]

theorem getElem?_modifyNear_id (h : ∀ (i : Nat) (x : α), xs[i]? = some x → key x = ⟨i⟩)
    (id : Ident s) (change : α → α) (i : Ident s) : (modifyNear key id.raw xs id change)[i.raw]? =
      if i = id then (xs[i.raw]?).map change else xs[i.raw]? :=
  (getElem?_modifyNear h id change i.raw).trans
    (if_congr ⟨Ident.raw_inj i id, congrArg Ident.raw⟩ rfl rfl)

theorem placed_modifyNear (h : ∀ (i : Nat) (x : α), xs[i]? = some x → key x = ⟨i⟩) (id : Ident s)
    {change : α → α} (hchange : ∀ x, key (change x) = key x) (i : Nat) (x : α)
    (hx : (modifyNear key id.raw xs id change)[i]? = some x) : key x = ⟨i⟩ := by
  rw [getElem?_modifyNear h id change i] at hx
  split at hx
  · obtain ⟨y, hy, rfl⟩ := Option.map_eq_some_iff.mp hx
    exact (hchange y).trans (h i y hy)
  · exact h i x hx

theorem size_modifyNear (place : Nat) (id : Ident s) (change : α → α) :
    (modifyNear key place xs id change).size = xs.size := by
  unfold modifyNear
  split <;> simp

theorem getElem?_push_id (x : α) (id : Ident s) :
    (xs.push x)[id.raw]? = if id = ⟨xs.size⟩ then some x else xs[id.raw]? := by
  rw [Array.getElem?_push]
  exact if_congr ⟨Ident.raw_inj id ⟨xs.size⟩, congrArg Ident.raw⟩ rfl rfl

theorem placed_push (h : ∀ (i : Nat) (x : α), xs[i]? = some x → key x = ⟨i⟩) {x : α}
    (hx : key x = ⟨xs.size⟩) (i : Nat) (y : α) (hy : (xs.push x)[i]? = some y) : key y = ⟨i⟩ := by
  rw [Array.getElem?_push] at hy
  split at hy
  · rename_i hi
    cases hy
    rw [hi, hx]
  · exact h i y hy

theorem nodup_of_placed (h : ∀ (i : Nat) (x : α), xs[i]? = some x → key x = ⟨i⟩) :
    (xs.toList.map key).Nodup := by
  rw [List.nodup_iff_getElem?_ne_getElem?]
  intro i j hij hj hsame
  simp only [List.length_map, Array.length_toList, List.getElem?_map,
    Array.getElem?_toList] at hj hsame
  rw [Array.getElem?_eq_getElem hj, Array.getElem?_eq_getElem (by omega), Option.map_some,
    Option.map_some, h i _ (Array.getElem?_eq_getElem (by omega)),
    h j _ (Array.getElem?_eq_getElem hj)] at hsame
  cases hsame
  exact absurd hij (by omega)

end

namespace SsaForm

/-- Every definition and every read stands at the place that its id tells. -/
structure Numbered (f : SsaForm) : Prop where
  defs : ∀ (i : Nat) (d : Def), f.defs[i]? = some d → d.id = ⟨i⟩
  nextDef : f.nextDef = f.defs.size
  uses : ∀ (i : Nat) (u : Use), f.uses[i]? = some u → u.id = ⟨i⟩
  nextUse : f.nextUse = f.uses.size

namespace Numbered

variable {f : SsaForm}

theorem definition?_eq (h : Numbered f) (id : DefId) : f.definition? id = f.defs[id.raw]? :=
  findNear?_of_placed h.defs id

theorem use?_eq (h : Numbered f) (id : UseId) : f.use? id = f.uses[id.raw]? :=
  findNear?_of_placed h.uses id

theorem definition?_id (h : Numbered f) {id : DefId} {d : Def} (hd : f.definition? id = some d) :
    d.id = id :=
  h.defs id.raw d (h.definition?_eq id ▸ hd)

/-- The next definition is not there yet. -/
theorem definition?_next (h : Numbered f) : f.definition? ⟨f.nextDef⟩ = none := by
  rw [h.definition?_eq, h.nextDef]
  simp

theorem use?_next (h : Numbered f) : f.use? ⟨f.nextUse⟩ = none := by
  rw [h.use?_eq, h.nextUse]
  simp

theorem mem_defs (h : Numbered f) {d : Def} : d ∈ f.defs ↔ f.definition? d.id = some d := by
  rw [Array.mem_iff_getElem?]
  constructor
  · rintro ⟨i, hi⟩
    rw [h.definition?_eq, h.defs i d hi]
    exact hi
  · intro hd
    exact ⟨d.id.raw, h.definition?_eq d.id ▸ hd⟩

theorem mem_phis (h : Numbered f) {d : Def} :
    d ∈ f.phis ↔ f.definition? d.id = some d ∧ d.isPhi = true := by
  rw [phis, List.mem_filter, Array.mem_toList_iff, h.mem_defs]

/-- The only undefined value of a variable is found. -/
theorem undefined?_eq (h : Numbered f) {d : Def} (hd : f.definition? d.id = some d)
    (hkind : d.kind = .undefined) (unique : ∀ d', f.definition? d'.id = some d' →
      d'.kind = .undefined → d'.name = d.name → d' = d) : f.undefined? d.name = some d := by
  rw [undefined?]
  cases hfind : f.defs.find? (fun d' => d'.kind == .undefined && d'.name == d.name) with
  | none =>
    have hnot := Array.find?_eq_none.mp hfind d (h.mem_defs.mpr hd)
    simp [hkind] at hnot
  | some d' =>
    have hsame := Array.find?_some hfind
    simp only [Bool.and_eq_true, beq_iff_eq] at hsame
    rw [unique d' (h.mem_defs.mp (Array.mem_of_find?_eq_some hfind)) hsame.1 hsame.2]

theorem ids_nodup (h : Numbered f) : (f.defs.toList.map (·.id)).Nodup :=
  nodup_of_placed h.defs

theorem mem_uses (h : Numbered f) {u : Use} : u ∈ f.uses ↔ f.use? u.id = some u := by
  rw [Array.mem_iff_getElem?]
  constructor
  · rintro ⟨i, hi⟩
    rw [h.use?_eq, h.uses i u hi]
    exact hi
  · intro hu
    exact ⟨u.id.raw, h.use?_eq u.id ▸ hu⟩

theorem use?_id (h : Numbered f) {id : UseId} {u : Use} (hu : f.use? id = some u) : u.id = id :=
  h.uses id.raw u (h.use?_eq id ▸ hu)

end Numbered

/-! Each operation. -/

section
variable {f : SsaForm}

theorem numbered_empty (function : String) (node : NodeId) :
    Numbered { function := function, node := node } :=
  ⟨by simp, rfl, by simp, rfl⟩

theorem Numbered.addDef (h : Numbered f) (name : String) (block : BlockId) (kind : DefKind)
    (declared : Option Ty) :
    Numbered (f.addDef name block kind declared).2 :=
  ⟨placed_push h.defs (congrArg Ident.mk h.nextDef), by simp [SsaForm.addDef, h.nextDef], h.uses,
    h.nextUse⟩

theorem Numbered.definition?_addDef (h : Numbered f) (name : String) (block : BlockId)
    (kind : DefKind) (declared : Option Ty) (id : DefId) :
    (f.addDef name block kind declared).2.definition? id =
      if id = ⟨f.nextDef⟩ then some { id := ⟨f.nextDef⟩, name, block, kind, declared }
      else f.definition? id := by
  rw [(h.addDef name block kind declared).definition?_eq, h.definition?_eq]
  refine (getElem?_push_id ({ id := ⟨f.nextDef⟩, name, block, kind, declared } : Def) id).trans ?_
  rw [h.nextDef]

theorem Numbered.addUse (h : Numbered f) (name : String) (block : BlockId) (site : UseSite)
    (definition : DefId) :
    Numbered (f.addUse name block site definition).2 :=
  ⟨h.defs, h.nextDef, placed_push h.uses (congrArg Ident.mk h.nextUse),
    by simp [SsaForm.addUse, h.nextUse]⟩

theorem Numbered.use?_addUse (h : Numbered f) (name : String) (block : BlockId) (site : UseSite)
    (definition : DefId) (id : UseId) :
    (f.addUse name block site definition).2.use? id =
      if id = ⟨f.nextUse⟩ then some { id := ⟨f.nextUse⟩, name, block, site, definition }
      else f.use? id := by
  rw [(h.addUse name block site definition).use?_eq, h.use?_eq]
  refine (getElem?_push_id ({ id := ⟨f.nextUse⟩, name, block, site, definition } : Use) id).trans ?_
  rw [h.nextUse]

theorem Numbered.record (h : Numbered f) {block : BlockId} (event : Event) :
    Numbered (f.record block event) :=
  ⟨h.defs, h.nextDef, h.uses, h.nextUse⟩

/-- Only the events of the one block are changed. -/
theorem eventsIn_alter (f : SsaForm) (block : BlockId) (change : Array Event → Array Event)
    (b : BlockId) :
    eventsIn { f with events := f.events.alter block (fun es => some (change (es.getD #[]))) } b =
      if b = block then (change (f.events.getD b #[])).toList else f.eventsIn b := by
  rw [eventsIn, eventsIn, Std.HashMap.getD_eq_getD_getElem?, Std.HashMap.getElem?_alter,
    Std.HashMap.getD_eq_getD_getElem?]
  by_cases hb : b = block
  · subst hb
    simp
  · have hne : (block == b) = false := by simpa using fun he : block = b => hb he.symm
    simp [hne, hb]

theorem eventsIn_record (f : SsaForm) (block : BlockId) (event : Event) (b : BlockId) :
    (f.record block event).eventsIn b =
      if b = block then f.eventsIn b ++ [event] else f.eventsIn b := by
  refine (eventsIn_alter f block (·.push event) b).trans ?_
  rw [Array.toList_push]
  rfl

theorem Numbered.updateDef (h : Numbered f) (id : DefId) (change : Def → Def)
    (hchange : ∀ d, (change d).id = d.id) : Numbered (f.updateDef id change) :=
  ⟨placed_modifyNear h.defs id hchange, h.nextDef.trans (size_modifyNear id.raw id change).symm,
    h.uses, h.nextUse⟩

theorem Numbered.definition?_updateDef (h : Numbered f) (id : DefId) (change : Def → Def)
    (hchange : ∀ d, (change d).id = d.id) (i : DefId) :
    (f.updateDef id change).definition? i =
      if i = id then (f.definition? i).map change else f.definition? i := by
  rw [(h.updateDef id change hchange).definition?_eq, h.definition?_eq]
  exact getElem?_modifyNear_id h.defs id change i

theorem Numbered.updateUse (h : Numbered f) (id : UseId) (change : Use → Use)
    (hchange : ∀ u, (change u).id = u.id) : Numbered (f.updateUse id change) :=
  ⟨h.defs, h.nextDef, placed_modifyNear h.uses id hchange,
    h.nextUse.trans (size_modifyNear id.raw id change).symm⟩

theorem Numbered.use?_updateUse (h : Numbered f) (id : UseId) (change : Use → Use)
    (hchange : ∀ u, (change u).id = u.id) (i : UseId) :
    (f.updateUse id change).use? i = if i = id then (f.use? i).map change else f.use? i := by
  rw [(h.updateUse id change hchange).use?_eq, h.use?_eq]
  exact getElem?_modifyNear_id h.uses id change i

theorem Numbered.setIncoming (h : Numbered f) (phi : DefId) (slot : Nat) (use : UseId) :
    Numbered (f.setIncoming phi slot use) :=
  h.updateDef phi _ (fun _ => rfl)

theorem Numbered.definition?_setIncoming (h : Numbered f) (phi : DefId) (slot : Nat) (use : UseId)
    (id : DefId) : (f.setIncoming phi slot use).definition? id =
      if id = phi then (f.definition? id).map
        (fun d => { d with kind := putIncoming slot use d.kind })
      else f.definition? id :=
  h.definition?_updateDef phi (fun d => { d with kind := putIncoming slot use d.kind })
    (fun _ => rfl) id

theorem eventsIn_recordPhi (f : SsaForm) (block : BlockId) (id : DefId) (b : BlockId) :
    (f.recordPhi block id).eventsIn b =
      if b = block then (f.eventsIn b).takeWhile f.isPhiEvent ++
        .define id :: (f.eventsIn b).dropWhile f.isPhiEvent
      else f.eventsIn b :=
  eventsIn_alter f block (fun es => (es.toList.takeWhile f.isPhiEvent ++
    .define id :: es.toList.dropWhile f.isPhiEvent).toArray) b

/-- A definition is added and recorded, somewhere among the events of its block. -/
structure Adds (f : SsaForm) (d : Def) (f' : SsaForm) : Prop where
  numbered : Numbered f'
  fresh : f.definition? d.id = none
  definition? : ∀ i, f'.definition? i = if i = d.id then some d else f.definition? i
  use? : ∀ i, f'.use? i = f.use? i
  events : (f'.eventsIn d.block).Perm (.define d.id :: f.eventsIn d.block)
  eventsIn : ∀ b, b ≠ d.block → f'.eventsIn b = f.eventsIn b

theorem eventsIn_define (f : SsaForm) (name : String) (block : BlockId) (kind : DefKind)
    (declared : Option Ty) (b : BlockId) :
    (f.define name block kind declared).2.eventsIn b =
      f.eventsIn b ++ if b = block then [.define ⟨f.nextDef⟩] else [] := by
  refine (eventsIn_record (f.addDef name block kind declared).2 block _ b).trans ?_
  split
  · rfl
  · exact (List.append_nil _).symm

theorem Numbered.define (h : Numbered f) (name : String) (block : BlockId) (kind : DefKind)
    (declared : Option Ty) :
    Adds f { id := ⟨f.nextDef⟩, name, block, kind, declared }
      (f.define name block kind declared).2 where
  numbered := (h.addDef name block kind declared).record (.define ⟨f.nextDef⟩)
  fresh := h.definition?_next
  definition? := h.definition?_addDef name block kind declared
  use? := fun _ => rfl
  events := by
    rw [eventsIn_define, if_pos rfl]
    exact List.perm_append_singleton _ _
  eventsIn := fun b hb => by rw [eventsIn_define, if_neg hb, List.append_nil]

theorem eventsIn_definePhi (f : SsaForm) (name : String) (block : BlockId)
    (incoming : List UseId) (b : BlockId) :
    (f.definePhi name block incoming).eventsIn b =
      if b = block then
        (f.eventsIn b).takeWhile (f.addDef name block (.phi incoming)).2.isPhiEvent ++
          .define ⟨f.nextDef⟩ ::
            (f.eventsIn b).dropWhile (f.addDef name block (.phi incoming)).2.isPhiEvent
      else f.eventsIn b :=
  eventsIn_recordPhi (f.addDef name block (.phi incoming)).2 block ⟨f.nextDef⟩ b

theorem Numbered.definePhi (h : Numbered f) (name : String) (block : BlockId)
    (incoming : List UseId) :
    Adds f { id := ⟨f.nextDef⟩, name, block, kind := .phi incoming }
      (f.definePhi name block incoming) := by
  have hadd := h.addDef name block (.phi incoming) none
  refine ⟨⟨hadd.defs, hadd.nextDef, hadd.uses, hadd.nextUse⟩, h.definition?_next,
    h.definition?_addDef name block (.phi incoming) none, fun _ => rfl, ?_, fun b hb => ?_⟩
  · have hsame := List.takeWhile_append_dropWhile (l := f.eventsIn block)
      (p := (f.addDef name block (.phi incoming)).2.isPhiEvent)
    rw [eventsIn_definePhi, if_pos rfl]
    exact List.perm_middle.trans (by rw [hsame])
  · rw [eventsIn_definePhi, if_neg hb]

/-- The new definition is no earlier one. -/
theorem Adds.kept {f f' : SsaForm} {d d' : Def} {i : DefId} (h : Adds f d f')
    (hi : f.definition? i = some d') : f'.definition? i = some d' := by
  rw [h.definition?, if_neg, hi]
  rintro rfl
  rw [h.fresh] at hi
  cases hi

theorem Adds.back {f f' : SsaForm} {d e : Def} {i : DefId} (h : Adds f d f')
    (he : f'.definition? i = some e) : e = d ∨ f.definition? i = some e := by
  rw [h.definition?] at he
  split at he
  · exact .inl (Option.some.inj he).symm
  · exact .inr he

theorem Adds.self {f f' : SsaForm} {d : Def} (h : Adds f d f') : f'.definition? d.id = some d := by
  rw [h.definition?, if_pos rfl]

theorem Adds.mem_eventsIn {f f' : SsaForm} {d : Def} {b : BlockId} {e : Event} (h : Adds f d f') :
    e ∈ f'.eventsIn b ↔ e ∈ f.eventsIn b ∨ b = d.block ∧ e = .define d.id := by
  by_cases hb : b = d.block
  · rw [hb, h.events.mem_iff, List.mem_cons, or_comm, and_iff_right rfl]
  · rw [h.eventsIn b hb]
    exact ⟨.inl, fun he => he.resolve_right fun hnew => hb hnew.1⟩

end

/-- The definition that a phi takes its value from if control comes from `p`. -/
def operand? (f : SsaForm) (predecessors : BlockId → List BlockId) (phi : DefId) (p : BlockId) :
    Option DefId := do
  let d ← f.definition? phi
  let incoming ← d.kind.incoming?
  let slot ← (predecessors d.block).idxOf? p
  let use ← incoming[slot]?
  return (← f.use? use).definition

/-- Whether a definition gives a variable its value. -/
def defines (f : SsaForm) (name : String) (id : DefId) : Bool :=
  (f.definition? id).any (·.name == name)

theorem defines_iff {f : SsaForm} {name : String} {id : DefId} :
    f.defines name id = true ↔ ∃ d, f.definition? id = some d ∧ d.name = name := by
  simp [defines, Option.any_eq_true]

/-- The value of a variable that nothing has assigned yet: the last parameter of its name, or else
the undefined value. -/
def initial? (f : SsaForm) (name : String) : Option DefId :=
  (f.params.reverse.find? (f.defines name)).or ((f.undefined? name).map (·.id))

/-- A form is in another: phis may have got other operands, and there may be more definitions and
reads, though no more undefined values. -/
structure Keeps (f f' : SsaForm) : Prop where
  definition? : ∀ i d, f.definition? i = some d → ∃ d', f'.definition? i = some d' ∧
    d'.name = d.name ∧ d'.block = d.block ∧ d'.isPhi = d.isPhi ∧ (d.isPhi = false → d' = d)
  undefined : ∀ i d', f'.definition? i = some d' → d'.kind = .undefined → f.definition? i = some d'
  use? : ∀ i u, f.use? i = some u → f'.use? i = some u
  params : f'.params = f.params

namespace Keeps

variable {f f' f'' : SsaForm}

theorem refl (f : SsaForm) : Keeps f f :=
  ⟨fun _ d hd => ⟨d, hd, rfl, rfl, rfl, fun _ => rfl⟩, fun _ _ hd _ => hd, fun _ _ hu => hu, rfl⟩

theorem trans (h : Keeps f f') (h' : Keeps f' f'') : Keeps f f'' := by
  refine ⟨?_, ?_, fun i u hu => h'.use? i u (h.use? i u hu), h'.params.trans h.params⟩
  · intro i d hd
    obtain ⟨d', hd', hname, hblock, hphi, hsame⟩ := h.definition? i d hd
    obtain ⟨d'', hd'', hname', hblock', hphi', hsame'⟩ := h'.definition? i d' hd'
    refine ⟨d'', hd'', hname'.trans hname, hblock'.trans hblock, hphi'.trans hphi, fun hnot => ?_⟩
    rw [hsame' (hphi.trans hnot), hsame hnot]
  · intro i d'' hd'' hkind
    exact h.undefined i d'' (h'.undefined i d'' hd'' hkind) hkind

theorem of_adds {d : Def} (h : Adds f d f') (hparams : f'.params = f.params)
    (hkind : d.kind ≠ .undefined) : Keeps f f' := by
  refine ⟨fun i e he => ⟨e, h.kept he, rfl, rfl, rfl, fun _ => rfl⟩, ?_,
    fun i u hu => (h.use? i).trans hu, hparams⟩
  intro i e he hkind'
  rw [h.definition?] at he
  split at he
  · cases he
    exact absurd hkind' hkind
  · exact he

/-- A definition other than a phi is the same as before. -/
theorem definition?_eq (h : Keeps f f') {i : DefId} {d : Def} (hd : f.definition? i = some d)
    (hphi : d.isPhi = false) : f'.definition? i = some d := by
  obtain ⟨d', hd', -, -, -, hsame⟩ := h.definition? i d hd
  rw [hd', hsame hphi]

theorem defines (h : Keeps f f') {name : String} {i : DefId} (hi : f.defines name i = true) :
    f'.defines name i = true := by
  obtain ⟨d, hd, hname⟩ := defines_iff.mp hi
  obtain ⟨d', hd', hname', -⟩ := h.definition? i d hd
  exact defines_iff.mpr ⟨d', hd', hname'.trans hname⟩

theorem defines_eq (h : Keeps f f') {name : String} {i : DefId} {d : Def}
    (hi : f.definition? i = some d) : f'.defines name i = f.defines name i := by
  obtain ⟨d', hd', hname, -⟩ := h.definition? i d hi
  simp [SsaForm.defines, hi, hd', hname]

/-- What a variable is before anything has assigned it stays the same. -/
theorem initial?_eq (h : Keeps f f') (hf : Numbered f) (hf' : Numbered f')
    (hparams : ∀ i ∈ f.params, ∃ d, f.definition? i = some d)
    (unique : ∀ d d', f.definition? d.id = some d → f.definition? d'.id = some d' →
      d.kind = .undefined → d'.kind = .undefined → d.name = d'.name → d = d') (name : String) :
    f'.initial? name = f.initial? name := by
  have hfind : f'.params.reverse.find? (f'.defines name) =
      f.params.reverse.find? (f.defines name) := by
    rw [h.params]
    refine List.find?_congr (fun i hi => ?_)
    obtain ⟨d, hd⟩ := hparams i (List.mem_reverse.mp hi)
    exact h.defines_eq hd
  have hundefined : f'.undefined? name = f.undefined? name := by
    cases hold : f.undefined? name with
    | none =>
      rw [undefined?, Array.find?_eq_none] at hold ⊢
      intro d hd hsame
      simp only [Bool.and_eq_true, beq_iff_eq] at hsame
      have hback := h.undefined d.id d (hf'.mem_defs.mp hd) hsame.1
      exact hold d (hf.mem_defs.mpr hback) (by simp [hsame])
    | some d =>
      have hsame := Array.find?_some hold
      simp only [Bool.and_eq_true, beq_iff_eq] at hsame
      have hd := hf.mem_defs.mp (Array.mem_of_find?_eq_some hold)
      have hphi : d.isPhi = false := by simp [Def.isPhi, DefKind.isPhi, DefKind.incoming?, hsame.1]
      rw [← hsame.2]
      refine hf'.undefined?_eq (h.definition?_eq hd hphi) hsame.1 (fun d' hd' hkind hname => ?_)
      exact unique d' d (h.undefined d'.id d' hd' hkind) hd hkind hsame.1 hname
  rw [initial?, initial?, hfind, hundefined]

end Keeps

end SsaForm

end TypedSsa

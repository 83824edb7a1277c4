import Mathlib.Data.List.Forall2
import TypedSsa.Proofs.Forms
import TypedSsa.Proofs.Links
import TypedSsa.Ssa.Construction

/-!
A form before its blocks are renamed: parameters, undefined values, and phis without operands. Main
statements: `start_started`, `addPhis_withPhis`.
-/

namespace TypedSsa

section
variable {α β : Type} {R : α → β → Prop} {xs : List α} {ys : List β}

theorem exists_left_of_forall₂ (h : List.Forall₂ R xs ys) : ∀ y ∈ ys, ∃ x ∈ xs, R x y := by
  induction h with
  | nil => simp
  | cons hxy _ ih =>
    refine List.forall_mem_cons.mpr ⟨⟨_, by simp, hxy⟩, fun y hy => ?_⟩
    obtain ⟨x, hx, hR⟩ := ih y hy
    exact ⟨x, List.mem_cons_of_mem _ hx, hR⟩

theorem exists_right_of_forall₂ (h : List.Forall₂ R xs ys) : ∀ x ∈ xs, ∃ y ∈ ys, R x y :=
  exists_left_of_forall₂ h.flip

theorem forall₂_getElem? (h : List.Forall₂ R xs ys) (i : Nat) : Option.Rel R xs[i]? ys[i]? := by
  induction h generalizing i with
  | nil => exact .none
  | cons hxy _ ih =>
    cases i with
    | zero => exact .some hxy
    | succ i => exact ih i

end

/-- Whether a definition is made by an assignment, or by the start or a step of a loop. -/
def DefKind.isWrite : DefKind → Bool
  | assign _ _ | loopInit _ _ | loopStep _ _ _ => true
  | _ => false

namespace Env

variable {env : Env} {name v : String} {id : DefId}

theorem get?_cons : get? ((name, id) :: env) v = if name = v then some id else env.get? v := by
  by_cases h : name = v <;> simp [get?, h]

end Env

namespace SsaForm

/-! Nothing is read or written yet. -/

structure Opening (f : SsaForm) : Prop where
  numbered : Numbered f
  unread : ∀ i, f.use? i = none
  unwritten : ∀ i d, f.definition? i = some d → d.kind.isWrite = false
  recorded : ∀ b e, e ∈ f.eventsIn b → ∃ i d, e = .define i ∧ f.definition? i = some d

section
variable {f f' : SsaForm} {d : Def}

theorem opening_empty (function : String) (node : NodeId) :
    Opening { function := function, node := node } := by
  refine ⟨numbered_empty function node, fun _ => rfl, ?_, ?_⟩
  · intro i d hd
    cases hd
  · intro b e he
    simp [eventsIn] at he

theorem Opening.withParams (h : Opening f) (ids : List DefId) :
    Opening { f with params := ids } :=
  ⟨⟨h.numbered.defs, h.numbered.nextDef, h.numbered.uses, h.numbered.nextUse⟩, h.unread,
    h.unwritten, h.recorded⟩

theorem Opening.adds (h : Opening f) (hadds : Adds f d f') (hd : d.kind.isWrite = false) :
    Opening f' := by
  refine ⟨hadds.numbered, fun i => (hadds.use? i).trans (h.unread i), ?_, ?_⟩
  · intro i e he
    rw [hadds.definition?] at he
    split at he
    · cases he
      exact hd
    · exact h.unwritten i e he
  · intro b e he
    rcases hadds.mem_eventsIn.mp he with he | ⟨-, rfl⟩
    · obtain ⟨i, d', rfl, hd'⟩ := h.recorded b e he
      exact ⟨i, d', rfl, hadds.kept hd'⟩
    · exact ⟨d.id, d, rfl, hadds.self⟩

end

/-! Parameters. -/

/-- The definition of a parameter, which comes with its place. -/
def IsParam (f : SsaForm) (p : ParamView × Nat) (id : DefId) : Prop :=
  ∃ d, f.definition? id = some d ∧ d.name = p.1.name ∧ d.kind = .param p.2 p.1.node

theorem IsParam.keeps {f f' : SsaForm} {p : ParamView × Nat} {id : DefId} (h : IsParam f p id)
    (hkeeps : Keeps f f') : IsParam f' p id := by
  obtain ⟨d, hd, hname, hkind⟩ := h
  have hphi : d.isPhi = false := by simp [Def.isPhi, DefKind.isPhi, DefKind.incoming?, hkind]
  exact ⟨d, hkeeps.definition?_eq hd hphi, hname, hkind⟩

theorem definition?_of_params {f : SsaForm} {ps : List (ParamView × Nat)} {ids : List DefId}
    (h : List.Forall₂ (IsParam f) ps ids) : ∀ i ∈ ids, ∃ d, f.definition? i = some d := by
  intro i hi
  obtain ⟨p, -, d, hd, -⟩ := exists_left_of_forall₂ h i hi
  exact ⟨d, hd⟩

theorem param_at {f : SsaForm} {ps : List ParamView}
    (h : List.Forall₂ (IsParam f) ps.zipIdx f.params) {i : Nat} {id : DefId}
    (hid : f.params[i]? = some id) : ∃ p d, ps[i]? = some p ∧ f.definition? id = some d ∧
      d.name = p.name ∧ d.kind = .param i p.node := by
  obtain ⟨hlt, rfl⟩ := List.getElem?_eq_some_iff.mp hid
  have hlength := h.length_eq
  rw [List.length_zipIdx] at hlength
  obtain ⟨d, hd, hname, hkind⟩ := h.get (i := i) (by simpa [hlength] using hlt) hlt
  simp only [List.get_eq_getElem, List.getElem_zipIdx, Nat.zero_add] at hname hkind
  exact ⟨_, d, List.getElem?_eq_getElem (by omega), hd, hname, hkind⟩

theorem params_nodup {f : SsaForm} {ps : List ParamView}
    (h : List.Forall₂ (IsParam f) ps.zipIdx f.params) : f.params.Nodup := by
  rw [List.nodup_iff_getElem?_ne_getElem?]
  intro i j hij hj hsame
  rw [List.getElem?_eq_getElem hj] at hsame
  obtain ⟨p, d, -, hd, -, hkind⟩ := param_at h hsame
  obtain ⟨p', d', -, hd', -, hkind'⟩ := param_at h (List.getElem?_eq_getElem hj)
  rw [hd] at hd'
  cases hd'
  injection hkind.symm.trans hkind' with hi
  exact absurd hi (ne_of_lt hij)

/-- The parameters so far. -/
structure WithParams (ps : List (ParamView × Nat)) (f : SsaForm) (env : Env) : Prop where
  opening : Opening f
  only : ∀ i d, f.definition? i = some d →
    ∃ p ∈ ps, d.name = p.1.name ∧ d.kind = .param p.2 p.1.node
  params : List.Forall₂ (IsParam f) ps f.params
  env : ∀ v, env.get? v = f.params.reverse.find? (f.defines v)

theorem WithParams.adds {ps : List (ParamView × Nat)} {f f' : SsaForm} {env : Env}
    {p : ParamView × Nat} {d : Def} (h : WithParams ps f env) (hadds : Adds f d f')
    (hparams : f'.params = f.params) (hname : d.name = p.1.name)
    (hkind : d.kind = .param p.2 p.1.node) :
    WithParams (ps ++ [p]) { f' with params := f'.params ++ [d.id] } ((d.name, d.id) :: env) := by
  have hkeeps := Keeps.of_adds hadds hparams (by simp [hkind])
  refine ⟨(h.opening.adds hadds (by rw [hkind]; rfl)).withParams _, ?_, ?_, ?_⟩
  · intro i e he
    have he := (hadds.definition? i).symm.trans he
    split at he
    · cases he
      exact ⟨p, by simp, hname, hkind⟩
    · obtain ⟨p', hp', hold⟩ := h.only i e he
      exact ⟨p', List.mem_append_left _ hp', hold⟩
  · have hold : List.Forall₂ (IsParam f') ps f'.params :=
      hparams ▸ h.params.imp (fun _ _ hp => hp.keeps hkeeps)
    exact List.rel_append hold (.cons ⟨d, hadds.self, hname, hkind⟩ .nil)
  · intro v
    change Env.get? ((d.name, d.id) :: env) v =
      (f'.params ++ [d.id]).reverse.find? (f'.defines v)
    have hself : f'.defines v d.id = (d.name == v) := by simp [SsaForm.defines, hadds.self]
    have hold : f'.params.reverse.find? (f'.defines v) =
        f.params.reverse.find? (f.defines v) := by
      rw [hparams]
      refine List.find?_congr (fun i hi => ?_)
      obtain ⟨e, he⟩ := definition?_of_params h.params i (List.mem_reverse.mp hi)
      exact hkeeps.defines_eq he
    rw [Env.get?_cons, List.reverse_append, List.reverse_singleton, List.singleton_append,
      List.find?_cons, hself, hold, ← h.env v]
    by_cases hv : d.name = v
    · simp [hv]
    · simp [hv, beq_false_of_ne hv]

theorem foldl_addParam (entry : BlockId) (rest : List (ParamView × Nat)) :
    ∀ (ps : List (ParamView × Nat)) (s : SsaForm × Env), WithParams ps s.1 s.2 →
      WithParams (ps ++ rest) (rest.foldl (fun s p => addParam s entry p) s).1
        (rest.foldl (fun s p => addParam s entry p) s).2 := by
  induction rest with
  | nil =>
    intro ps s h
    rw [List.append_nil]
    exact h
  | cons p rest ih =>
    intro ps s h
    have hadds := h.opening.numbered.define p.1.name entry (.param p.2 p.1.node) p.1.declared
    have hnext := ih (ps ++ [p]) (addParam s entry p) (h.adds hadds rfl rfl rfl)
    rwa [List.append_assoc, List.singleton_append] at hnext

/-! Undefined values. -/

/-- The undefined values of some variables are added to a form. -/
structure WithUndefined (f₁ : SsaForm) (env₁ : Env) (names : List String) (f : SsaForm)
    (env : Env) : Prop where
  opening : Opening f
  older : ∀ i d, f₁.definition? i = some d → f.definition? i = some d
  params : f.params = f₁.params
  only : ∀ i d, f.definition? i = some d → f₁.definition? i = some d ∨
    d.kind = .undefined ∧ d.name ∈ names
  undefined : ∀ v ∈ names, ∃ d, f.definition? d.id = some d ∧ d.kind = .undefined ∧ d.name = v ∧
    env.get? v = some d.id
  unique : ∀ d d', f.definition? d.id = some d → f.definition? d'.id = some d' →
    d.kind = .undefined → d'.kind = .undefined → d.name = d'.name → d = d'
  env : ∀ v, v ∉ names → env.get? v = env₁.get? v

theorem WithUndefined.adds {f₁ f f' : SsaForm} {env₁ env : Env} {names : List String} {d : Def}
    (h : WithUndefined f₁ env₁ names f env) (hnone : ∀ i e, f₁.definition? i = some e →
      e.kind ≠ .undefined) (hadds : Adds f d f') (hparams : f'.params = f.params)
    (hkind : d.kind = .undefined) (hnew : d.name ∉ names) :
    WithUndefined f₁ env₁ (names ++ [d.name]) f' ((d.name, d.id) :: env) := by
  have hother : ∀ i e, f.definition? i = some e → e.kind = .undefined → e.name ≠ d.name := by
    intro i e he hundefined hname
    rcases h.only i e he with hold | ⟨-, hmem⟩
    · exact hnone i e hold hundefined
    · exact hnew (hname ▸ hmem)
  exact {
    opening := h.opening.adds hadds (by rw [hkind]; rfl)
    older := fun i e he => hadds.kept (h.older i e he)
    params := hparams.trans h.params
    only := by
      intro i e he
      rcases hadds.back he with rfl | he
      · exact .inr ⟨hkind, by simp⟩
      · rcases h.only i e he with hold | ⟨hundefined, hmem⟩
        · exact .inl hold
        · exact .inr ⟨hundefined, by simp [hmem]⟩
    undefined := by
      intro v hv
      rcases List.mem_append.mp hv with hv | hv
      · obtain ⟨e, he, hundefined, rfl, henv⟩ := h.undefined v hv
        refine ⟨e, hadds.kept he, hundefined, rfl, ?_⟩
        rw [Env.get?_cons, if_neg (fun hname => hother _ _ he hundefined hname.symm), henv]
      · rw [List.mem_singleton] at hv
        subst hv
        exact ⟨d, hadds.self, hkind, rfl, by rw [Env.get?_cons, if_pos rfl]⟩
    unique := by
      intro e e' he he' hundefined hundefined' hname
      rcases hadds.back he with rfl | he
      · rcases hadds.back he' with rfl | he'
        · rfl
        · exact absurd hname.symm (hother _ _ he' hundefined')
      · rcases hadds.back he' with rfl | he'
        · exact absurd hname (hother _ _ he hundefined)
        · exact h.unique e e' he he' hundefined hundefined' hname
    env := by
      intro v hv
      simp only [List.mem_append, List.mem_singleton, not_or] at hv
      rw [Env.get?_cons, if_neg (fun he => hv.2 he.symm), h.env v hv.1] }

theorem foldl_addUndefined {f₁ : SsaForm} {env₁ : Env} (entry : BlockId)
    (hnone : ∀ i e, f₁.definition? i = some e → e.kind ≠ .undefined) (rest : List String) :
    ∀ (names : List String) (s : SsaForm × Env), WithUndefined f₁ env₁ names s.1 s.2 →
      (names ++ rest).Nodup →
      WithUndefined f₁ env₁ (names ++ rest)
        (rest.foldl (fun s name => addUndefined s entry name) s).1
        (rest.foldl (fun s name => addUndefined s entry name) s).2 := by
  induction rest with
  | nil =>
    intro names s h _
    rw [List.append_nil]
    exact h
  | cons v rest ih =>
    intro names s h hnodup
    have hadds := h.opening.numbered.define v entry .undefined none
    have hassoc : names ++ v :: rest = names ++ [v] ++ rest := by simp
    have hnew : v ∉ names := by
      intro hv
      exact (List.nodup_append.mp hnodup).2.2 v hv v (by simp) rfl
    rw [hassoc] at hnodup ⊢
    exact ih (names ++ [v]) (addUndefined s entry v) (h.adds hnone hadds rfl rfl hnew) hnodup

/-- A variable has a value at the start if a parameter has its name. -/
theorem WithParams.get?_isSome {ps : List (ParamView × Nat)} {f : SsaForm} {env : Env}
    (h : WithParams ps f env) {v : String} :
    (env.get? v).isSome = true ↔ v ∈ ps.map (·.1.name) := by
  rw [h.env, List.find?_isSome, List.mem_map]
  constructor
  · rintro ⟨i, hi, hdefines⟩
    obtain ⟨d, hd, hname⟩ := defines_iff.mp hdefines
    obtain ⟨p, hp, d', hd', hname', -⟩ :=
      exists_left_of_forall₂ h.params i (List.mem_reverse.mp hi)
    obtain rfl := Option.some.inj (hd.symm.trans hd')
    exact ⟨p, hp, hname'.symm.trans hname⟩
  · rintro ⟨p, hp, rfl⟩
    obtain ⟨i, hi, d, hd, hname, -⟩ := exists_right_of_forall₂ h.params p hp
    exact ⟨i, List.mem_reverse.mpr hi, defines_iff.mpr ⟨d, hd, hname⟩⟩

/-- The form with the parameters. -/
def paramsOf (view : FunctionView) (entry : BlockId) : SsaForm × Env :=
  view.params.zipIdx.foldl (fun s p => addParam s entry p)
    ({ function := view.name, node := view.node }, [])

theorem paramsOf_withParams (view : FunctionView) (entry : BlockId) :
    WithParams view.params.zipIdx (paramsOf view entry).1 (paramsOf view entry).2 := by
  have hempty : WithParams [] { function := view.name, node := view.node } [] := by
    refine ⟨opening_empty _ _, ?_, .nil, fun v => rfl⟩
    intro i d hd
    cases hd
  have h := foldl_addParam entry view.params.zipIdx [] (_, _) hempty
  rwa [List.nil_append] at h

theorem mem_paramNames {view : FunctionView} {v : String} :
    v ∈ view.params.zipIdx.map (·.1.name) ↔ v ∈ view.params.map (·.name) := by
  have h : view.params.zipIdx.map (·.1.name) = (view.params.zipIdx.map Prod.fst).map (·.name) :=
    (List.map_map ..).symm
  rw [h, List.zipIdx_map_fst]

theorem paramsOf_notPhi {view : FunctionView} {entry : BlockId} {i : DefId} {d : Def}
    (hd : (paramsOf view entry).1.definition? i = some d) :
    d.kind ≠ .undefined ∧ d.isPhi = false := by
  obtain ⟨p, -, -, hkind⟩ := (paramsOf_withParams view entry).only i d hd
  simp [hkind, Def.isPhi, DefKind.isPhi, DefKind.incoming?]

/-- The variables that get an undefined value. -/
def unassigned (view : FunctionView) (entry : BlockId) (live : Liveness) (names : List String) :
    List String :=
  names.filter (fun name =>
    !(view.params.map (·.name)).contains name && (live.blocks name).contains entry)

section
variable {view : FunctionView} {entry : BlockId} {live : Liveness} {names : List String}

theorem mem_unassigned {v : String} : v ∈ unassigned view entry live names ↔
    v ∈ names ∧ v ∉ view.params.map (·.name) ∧ (live.blocks v).contains entry = true := by
  rw [unassigned, List.mem_filter, Bool.and_eq_true, Bool.not_eq_true', ← List.contains_iff_mem,
    ← Bool.not_eq_true, ← List.contains_iff_mem]

theorem start_withUndefined (hnames : names.Nodup) :
    WithUndefined (paramsOf view entry).1 (paramsOf view entry).2
      (unassigned view entry live names) (start view entry live names).1
      (start view entry live names).2 := by
  have hzero : WithUndefined (paramsOf view entry).1 (paramsOf view entry).2 []
      (paramsOf view entry).1 (paramsOf view entry).2 := by
    refine ⟨(paramsOf_withParams view entry).opening, fun _ _ h => h, rfl, fun _ _ h => .inl h,
      by simp, ?_, fun _ _ => rfl⟩
    intro d d' hd _ hkind
    exact absurd hkind (paramsOf_notPhi hd).1
  exact foldl_addUndefined entry (fun i e he => (paramsOf_notPhi he).1)
    (unassigned view entry live names) [] (paramsOf view entry) hzero (hnames.filter _)

/-- A form with the values that the variables have at the entry. -/
structure Started (view : FunctionView) (f : SsaForm) (env : Env) : Prop where
  opening : Opening f
  params : List.Forall₂ (IsParam f) view.params.zipIdx f.params
  notPhi : ∀ i d, f.definition? i = some d → d.isPhi = false
  only : ∀ i d, f.definition? i = some d →
    d.name ∈ view.params.map (·.name) ∧ (∃ index node, d.kind = .param index node) ∨
      d.name ∉ view.params.map (·.name) ∧ d.kind = .undefined
  unique : ∀ d d', f.definition? d.id = some d → f.definition? d'.id = some d' →
    d.kind = .undefined → d'.kind = .undefined → d.name = d'.name → d = d'
  named : ∀ v i, env.get? v = some i → f.defines v i = true

theorem start_started (hnames : names.Nodup) :
    Started view (start view entry live names).1 (start view entry live names).2 := by
  have hparams := paramsOf_withParams view entry
  have h : WithUndefined _ _ _ (start view entry live names).1 _ := start_withUndefined hnames
  refine ⟨h.opening, ?_, ?_, ?_, h.unique, ?_⟩
  · rw [h.params]
    exact hparams.params.imp (fun p i ⟨d, hd, hd'⟩ => ⟨d, h.older i d hd, hd'⟩)
  · intro i d hd
    rcases h.only i d hd with hold | ⟨hkind, -⟩
    · exact (paramsOf_notPhi hold).2
    · simp [hkind, Def.isPhi, DefKind.isPhi, DefKind.incoming?]
  · intro i d hd
    rcases h.only i d hd with hold | ⟨hkind, hname⟩
    · obtain ⟨p, hp, hname, hkind⟩ := hparams.only i d hold
      refine .inl ⟨?_, _, _, hkind⟩
      rw [hname, ← mem_paramNames]
      exact List.mem_map_of_mem hp
    · exact .inr ⟨(mem_unassigned.mp hname).2.1, hkind⟩
  · intro v i hi
    by_cases hv : v ∈ unassigned view entry live names
    · obtain ⟨d, hd, -, hname, henv⟩ := h.undefined v hv
      rw [henv] at hi
      exact defines_iff.mpr ⟨d, Option.some.inj hi ▸ hd, hname⟩
    · rw [h.env v hv, hparams.env] at hi
      obtain ⟨d, hd, hname⟩ := defines_iff.mp (List.find?_some hi)
      exact defines_iff.mpr ⟨d, h.older i d hd, hname⟩

/-- At the start every variable that is live has a value: the last parameter of its name, or the
undefined value. -/
theorem start_initial? (hnames : names.Nodup) {v : String} (hv : v ∈ names)
    (hlive : (live.blocks v).contains entry = true) :
    ∃ i, (start view entry live names).2.get? v = some i ∧
      (start view entry live names).1.initial? v = some i := by
  have hparams := paramsOf_withParams view entry
  have h : WithUndefined _ _ _ (start view entry live names).1 _ := start_withUndefined hnames
  have hfind : (start view entry live names).1.params.reverse.find?
      ((start view entry live names).1.defines v) = (paramsOf view entry).2.get? v := by
    rw [hparams.env, h.params]
    refine List.find?_congr (fun i hi => ?_)
    obtain ⟨d, hd⟩ := definition?_of_params hparams.params i (List.mem_reverse.mp hi)
    simp only [SsaForm.defines, h.older i d hd, hd]
  rw [initial?, hfind]
  by_cases hparam : v ∈ view.params.map (·.name)
  · have hnot : v ∉ unassigned view entry live names :=
      fun hmem => (mem_unassigned.mp hmem).2.1 hparam
    obtain ⟨i, hi⟩ := Option.isSome_iff_exists.mp
      (hparams.get?_isSome.mpr (mem_paramNames.mpr hparam))
    exact ⟨i, (h.env v hnot).trans hi, by rw [hi]; rfl⟩
  · have hnone : (paramsOf view entry).2.get? v = none := by
      rw [← Option.not_isSome_iff_eq_none, hparams.get?_isSome, mem_paramNames]
      exact hparam
    obtain ⟨d, hd, hkind, rfl, henv⟩ := h.undefined v (mem_unassigned.mpr ⟨hv, hparam, hlive⟩)
    refine ⟨d.id, henv, ?_⟩
    rw [hnone, h.opening.numbered.undefined?_eq hd hkind
      (fun d' hd' hkind' hname => h.unique d' d hd' hd hkind' hkind hname)]
    rfl

end

/-! Phis. -/

/-- Phis without operands are added to a form, one at each place that has predecessors. -/
structure WithPhis (x : BlockIndex) (f₁ : SsaForm) (places : List (String × BlockId))
    (f : SsaForm) : Prop where
  opening : Opening f
  keeps : Keeps f₁ f
  only : ∀ i d, f.definition? i = some d → d.isPhi = false → f₁.definition? i = some d
  phis : ∀ i d, f.definition? i = some d → d.isPhi = true → (d.name, d.block) ∈ places ∧
    d.kind = .phi ((x.predecessors d.block).map (fun _ => .invalid))
  placed : ∀ name b, (name, b) ∈ places → x.predecessors b ≠ [] →
    ∃ d, f.definition? d.id = some d ∧ d.name = name ∧ d.block = b ∧ d.isPhi = true
  apart : places.Nodup → ∀ d d', f.definition? d.id = some d → f.definition? d'.id = some d' →
    d.isPhi = true → d'.isPhi = true → d.name = d'.name → d.block = d'.block → d = d'

theorem WithPhis.more {x : BlockIndex} {f₁ f f' : SsaForm} {places : List (String × BlockId)}
    {name : String} {b : BlockId} {d : Def} (h : WithPhis x f₁ places f) (hadds : Adds f d f')
    (hparams : f'.params = f.params) (hname : d.name = name) (hblock : d.block = b)
    (hkind : d.kind = .phi ((x.predecessors b).map (fun _ => .invalid))) :
    WithPhis x f₁ (places ++ [(name, b)]) f' := by
  have hphi : d.isPhi = true := by simp [Def.isPhi, DefKind.isPhi, DefKind.incoming?, hkind]
  have hnew : (places ++ [(name, b)]).Nodup → ∀ e, f.definition? e.id = some e → e.isPhi = true →
      e.name = d.name → e.block ≠ d.block := by
    intro hnodup e he hphi' hname' hblock'
    have hplace := (h.phis e.id e he hphi').1
    rw [hname', hblock', hname, hblock] at hplace
    exact (List.nodup_append.mp hnodup).2.2 _ hplace _ List.mem_cons_self rfl
  exact {
    opening := h.opening.adds hadds (by rw [hkind]; rfl)
    keeps := h.keeps.trans (.of_adds hadds hparams (by simp [hkind]))
    only := by
      intro i e he hnot
      rcases hadds.back he with rfl | he
      · rw [hphi] at hnot
        cases hnot
      · exact h.only i e he hnot
    phis := by
      intro i e he he'
      rcases hadds.back he with rfl | he
      · exact ⟨by simp [hname, hblock], by rw [hkind, hblock]⟩
      · obtain ⟨hmem, hkind'⟩ := h.phis i e he he'
        exact ⟨List.mem_append_left _ hmem, hkind'⟩
    placed := by
      intro name' b' hmem hne
      rcases List.mem_append.mp hmem with hmem | hmem
      · obtain ⟨e, he, hname', hblock', hphi'⟩ := h.placed name' b' hmem hne
        exact ⟨e, hadds.kept he, hname', hblock', hphi'⟩
      · simp only [List.mem_singleton, Prod.mk.injEq] at hmem
        obtain ⟨rfl, rfl⟩ := hmem
        exact ⟨d, hadds.self, hname, hblock, hphi⟩
    apart := by
      intro hnodup e e' he he' hphi' hphi'' hname' hblock'
      rcases hadds.back he with rfl | he
      · rcases hadds.back he' with rfl | he'
        · rfl
        · exact absurd hblock'.symm (hnew hnodup e' he' hphi'' hname'.symm)
      · rcases hadds.back he' with rfl | he'
        · exact absurd hblock' (hnew hnodup e he hphi' hname')
        · exact h.apart (List.nodup_append.mp hnodup).1 e e' he he' hphi' hphi'' hname' hblock' }

theorem WithPhis.addPhi {x : BlockIndex} {f₁ f : SsaForm} {places : List (String × BlockId)}
    (h : WithPhis x f₁ places f) (name : String) (b : BlockId) :
    WithPhis x f₁ (places ++ [(name, b)]) (SsaForm.addPhi x f name b) := by
  unfold SsaForm.addPhi
  split
  · rename_i hnone
    refine ⟨h.opening, h.keeps, h.only, ?_, ?_,
      fun hnodup => h.apart (List.nodup_append.mp hnodup).1⟩
    · intro i d hd hphi
      obtain ⟨hmem, hkind⟩ := h.phis i d hd hphi
      exact ⟨List.mem_append_left _ hmem, hkind⟩
    · intro name' b' hmem hne
      rcases List.mem_append.mp hmem with hmem | hmem
      · exact h.placed name' b' hmem hne
      · simp only [List.mem_singleton, Prod.mk.injEq] at hmem
        rw [hmem.2, hnone] at hne
        exact absurd rfl hne
  · exact h.more (h.opening.numbered.definePhi name b _) rfl rfl rfl rfl

theorem foldl_addPhi {x : BlockIndex} {f₁ : SsaForm} (rest : List (String × BlockId)) :
    ∀ (places : List (String × BlockId)) (f : SsaForm), WithPhis x f₁ places f →
      WithPhis x f₁ (places ++ rest) (rest.foldl (fun f p => addPhi x f p.1 p.2) f) := by
  induction rest with
  | nil =>
    intro places f h
    rwa [List.append_nil]
  | cons p rest ih =>
    intro places f h
    have hnext := ih (places ++ [p]) (addPhi x f p.1 p.2) (h.addPhi p.1 p.2)
    rwa [List.append_assoc, List.singleton_append] at hnext

/-- Where the variables need phis. -/
def phiPlaces (g : FlowGraph) (t : DominatorTree) (effects : EffectMap) (live : Liveness)
    (names : List String) : List (String × BlockId) :=
  names.flatMap (fun name =>
    (phiBlocks g t (handlers g) effects live name).map (fun b => (name, b)))

theorem mem_phiPlaces {g : FlowGraph} {t : DominatorTree} {effects : EffectMap} {live : Liveness}
    {names : List String} {name : String} {b : BlockId} :
    (name, b) ∈ phiPlaces g t effects live names ↔
      name ∈ names ∧ b ∈ phiBlocks g t (handlers g) effects live name := by
  simp [phiPlaces]

theorem addPhis_withPhis (g : FlowGraph) (x : BlockIndex) (t : DominatorTree)
    (effects : EffectMap) (live : Liveness) (names : List String) {f : SsaForm} (h : Opening f)
    (hnot : ∀ i d, f.definition? i = some d → d.isPhi = false) :
    WithPhis x f (phiPlaces g t effects live names)
      (addPhis g x t effects live names f) := by
  have hzero : WithPhis x f [] f := by
    refine ⟨h, .refl f, fun _ _ hd _ => hd, ?_, by simp, ?_⟩
    · intro i d hd hphi
      rw [hnot i d hd] at hphi
      cases hphi
    · intro _ d _ hd _ hphi
      rw [hnot d.id d hd] at hphi
      cases hphi
  have hfold := foldl_addPhi (phiPlaces g t effects live names) [] f hzero
  rw [List.nil_append, phiPlaces, List.foldl_flatMap] at hfold
  simp only [List.foldl_map] at hfold
  exact hfold

end SsaForm

end TypedSsa

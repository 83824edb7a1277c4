import TypedSsa.Proofs.Renaming

/-!
What a form tells of the program that it was made from. Main statement: `ofGraph_stated`. The type
that a definition comes with is the one that the program gives it, parameters stand in their order,
and each slot of a phi has a read of its own.
-/

namespace TypedSsa

theorem foldlM_induct {α β : Type} {P : β → Prop} {step : β → α → Except Fault β} {xs : List α}
    (hstep : ∀ s x s', x ∈ xs → P s → step s x = .ok s' → P s') {s s' : β} (h : P s)
    (run : xs.foldlM step s = .ok s') : P s' := by
  induction xs generalizing s with
  | nil =>
    obtain rfl := Except.ok.inj run
    exact h
  | cons x xs ih =>
    rw [List.foldlM_cons] at run
    obtain ⟨s₁, hrun, run⟩ := except_bind_ok run
    exact ih (fun s x s' hx => hstep s x s' (by simp [hx])) (hstep s x s₁ (by simp) h hrun) run

/-- The type that a definition comes with. -/
def Def.Given (a : Arena) (view : FunctionView) (d : Def) : Prop :=
  match d.kind with
  | .param index node =>
    ∃ p, view.params[index]? = some p ∧ p.node = node ∧ d.declared = p.declared
  | .assign stmt value => d.declared = (a.declaredType? stmt).or (a.literalType? value)
  | .loopInit _ start => d.declared = a.literalType? start
  | .loopStep _ _ _ | .undefined => d.declared = none
  | .phi _ => True
  | .promotion _ _ => d.declared.isSome = true

namespace SsaForm

/-- What a form tells of a program of which some parameters have been defined. -/
structure Stated (a : Arena) (view : FunctionView) (ps : List (ParamView × Nat)) (f : SsaForm) :
    Prop where
  numbered : Numbered f
  function : f.function = view.name
  node : f.node = view.node
  given : ∀ i d, f.definition? i = some d → d.Given a view
  untyped : ∀ i d, f.definition? i = some d → d.isPhi = true → d.declared = none
  unpromoted : ∀ i d, f.definition? i = some d → d.kind.isPromotion = false
  params : List.Forall₂ (IsParam f) ps f.params
  slots : ∀ i d (incoming : List UseId), f.definition? i = some d → d.kind = .phi incoming →
    ∀ (k : Nat) u, incoming[k]? = some u → u.isValid = true →
      ∃ use p, f.use? u = some use ∧ use.site = .phiIncoming i p
  apart : ∀ i d (incoming : List UseId), f.definition? i = some d → d.kind = .phi incoming →
    ∀ (k l : Nat) u, incoming[k]? = some u → incoming[l]? = some u → u.isValid = true → k = l

namespace Stated

variable {a : Arena} {view : FunctionView} {ps : List (ParamView × Nat)} {f f' : SsaForm}

theorem empty (a : Arena) (view : FunctionView) :
    Stated a view [] { function := view.name, node := view.node } := by
  have hnone : ∀ {i d}, definition? { function := view.name, node := view.node } i ≠ some d :=
    fun h => nomatch h.symm.trans (rfl : definition? _ _ = none)
  exact ⟨numbered_empty _ _, rfl, rfl, fun _ _ hd => absurd hd hnone,
    fun _ _ hd => absurd hd hnone, fun _ _ hd => absurd hd hnone, .nil,
    fun _ _ _ hd => absurd hd hnone, fun _ _ _ hd => absurd hd hnone⟩

/-- A definition is added that, if it is a phi, has no operands yet. -/
theorem adds (h : Stated a view ps f) {d : Def} (hadds : Adds f d f')
    (hparams : f'.params = f.params) (hfunction : f'.function = f.function)
    (hnode : f'.node = f.node) (hgiven : d.Given a view) (hpromotion : d.kind.isPromotion = false)
    (hphi : ∀ incoming, d.kind = .phi incoming →
      d.declared = none ∧ ∀ u ∈ incoming, u.isValid = false) :
    Stated a view ps f' where
  numbered := hadds.numbered
  function := hfunction.trans h.function
  node := hnode.trans h.node
  given := by
    intro i e he
    rcases hadds.back he with rfl | he
    · exact hgiven
    · exact h.given i e he
  untyped := by
    intro i e he hisPhi
    rcases hadds.back he with rfl | he
    · obtain ⟨incoming, hkind⟩ := DefKind.isPhi_iff.mp hisPhi
      exact (hphi incoming hkind).1
    · exact h.untyped i e he hisPhi
  unpromoted := by
    intro i e he
    rcases hadds.back he with rfl | he
    · exact hpromotion
    · exact h.unpromoted i e he
  params := by
    rw [hparams]
    refine h.params.imp fun p id hp => ?_
    obtain ⟨e, he, hname, hkind⟩ := hp
    exact ⟨e, hadds.kept he, hname, hkind⟩
  slots := by
    intro i e incoming he hkind k u hk hu
    rcases hadds.back he with rfl | he
    · rw [(hphi incoming hkind).2 u (List.mem_of_getElem? hk)] at hu
      cases hu
    · obtain ⟨use, p, huse, hsite⟩ := h.slots i e incoming he hkind k u hk hu
      exact ⟨use, p, (hadds.use? u).trans huse, hsite⟩
  apart := by
    intro i e incoming he hkind k l u hk hl hu
    rcases hadds.back he with rfl | he
    · rw [(hphi incoming hkind).2 u (List.mem_of_getElem? hk)] at hu
      cases hu
    · exact h.apart i e incoming he hkind k l u hk hl hu

theorem define (h : Stated a view ps f) (name : String) (block : BlockId) (kind : DefKind)
    (declared : Option Ty)
    (hgiven : Def.Given a view { id := ⟨f.nextDef⟩, name, block, kind, declared })
    (hpromotion : kind.isPromotion = false)
    (hphi : ∀ incoming, kind = .phi incoming →
      declared = none ∧ ∀ u ∈ incoming, u.isValid = false) :
    Stated a view ps (f.define name block kind declared).2 :=
  h.adds (h.numbered.define name block kind declared) rfl rfl rfl hgiven hpromotion hphi

theorem addUse (h : Stated a view ps f) (name : String) (block : BlockId) (site : UseSite)
    (definition : DefId) : Stated a view ps (f.addUse name block site definition).2 := by
  have huse := h.numbered.use?_addUse name block site definition
  refine ⟨h.numbered.addUse name block site definition, h.function, h.node, h.given, h.untyped,
    h.unpromoted, h.params, ?_, h.apart⟩
  intro i d incoming hd hkind k u hk hu
  obtain ⟨use, p, hold, hsite⟩ := h.slots i d incoming hd hkind k u hk hu
  refine ⟨use, p, ?_, hsite⟩
  rw [huse, if_neg, hold]
  rintro rfl
  rw [h.numbered.use?_next] at hold
  cases hold

theorem record (h : Stated a view ps f) {block : BlockId} (event : Event) :
    Stated a view ps (f.record block event) :=
  ⟨h.numbered.record event, h.function, h.node, h.given, h.untyped, h.unpromoted, h.params,
    h.slots, h.apart⟩

/-- A slot of a phi is filled with a read of its own. -/
theorem puts (h : Stated a view ps f) {phi : DefId} {slot : Nat} {v : DefId} {p : BlockId}
    (hputs : Puts phi slot v f f') (hfunction : f'.function = f.function)
    (hnode : f'.node = f.node)
    (hread : ∃ use, f'.use? ⟨f.nextUse⟩ = some use ∧ use.site = .phiIncoming phi p) :
    Stated a view ps f' := by
  have hfresh : ∀ i d (incoming : List UseId), f.definition? i = some d →
      d.kind = .phi incoming → ∀ k : Nat, incoming[k]? = some ⟨f.nextUse⟩ →
      (⟨f.nextUse⟩ : UseId).isValid = false := by
    intro i d incoming hd hkind k hk
    by_contra hvalid
    obtain ⟨use, _, hold, -⟩ := h.slots i d incoming hd hkind k _ hk (by simpa using hvalid)
    rw [h.numbered.use?_next] at hold
    cases hold
  exact {
    numbered := hputs.numbered
    function := hfunction.trans h.function
    node := hnode.trans h.node
    given := by
      intro i d' hd'
      obtain ⟨d, hd⟩ := hputs.definition?_back hd'
      obtain ⟨kind, hd₂, hphi, hsame⟩ := hputs.definition?_of hd
      obtain rfl := Option.some.inj (hd'.symm.trans hd₂)
      have hgiven := h.given i d hd
      rcases hsame with rfl | ⟨-, rfl⟩
      · exact hgiven
      · cases hold : d.kind with
        | phi incoming => exact trivial
        | param | assign | loopInit | loopStep | promotion | undefined =>
          simpa only [Def.Given, hold, putIncoming] using hgiven
    untyped := by
      intro i d' hd' hisPhi
      obtain ⟨d, hd⟩ := hputs.definition?_back hd'
      obtain ⟨kind, hd₂, hphi, -⟩ := hputs.definition?_of hd
      obtain rfl := Option.some.inj (hd'.symm.trans hd₂)
      exact h.untyped i d hd (hphi.symm.trans hisPhi)
    unpromoted := by
      intro i d' hd'
      obtain ⟨d, hd⟩ := hputs.definition?_back hd'
      obtain ⟨kind, hd₂, -, hsame⟩ := hputs.definition?_of hd
      obtain rfl := Option.some.inj (hd'.symm.trans hd₂)
      have hnot := h.unpromoted i d hd
      rcases hsame with rfl | ⟨-, rfl⟩
      · exact hnot
      · cases hold : d.kind with
        | phi incoming => rfl
        | param | assign | loopInit | loopStep | promotion | undefined =>
          simpa only [hold, putIncoming] using hnot
    params := by
      rw [hputs.params]
      exact h.params.imp fun p id hp => hp.keeps hputs.keeps
    slots := by
      intro i d' incoming' hd' hkind' k u hk hu
      obtain ⟨d, incoming, hd, hkind, -, hcases⟩ := hputs.slot_back hd' hkind' hk
      rcases hcases with hold | ⟨rfl, -, rfl⟩
      · obtain ⟨use, q, huse, hsite⟩ := h.slots i d incoming hd hkind k u hold hu
        exact ⟨use, q, hputs.use? u use huse, hsite⟩
      · obtain ⟨use, huse, hsite⟩ := hread
        exact ⟨use, p, huse, hsite⟩
    apart := by
      intro i d' incoming' hd' hkind' k l u hk hl hu
      obtain ⟨d, incoming, hd, hkind, -, rfl | ⟨-, rfl⟩⟩ := hputs.phi_back hd' hkind'
      · exact h.apart i d _ hd hkind k l u hk hl hu
      · have hfresh := hfresh i d incoming hd hkind
        have happart := h.apart i d incoming hd hkind k l u
        rw [List.getElem?_set] at hk hl
        grind }

theorem fillSlot (h : Stated a view ps f) {env : Env} {block : BlockId} {slot : Nat} {phi : Def}
    (run : SsaForm.fillSlot env block slot f phi = .ok f') : Stated a view ps f' := by
  obtain ⟨v, -, rfl⟩ := fillSlot_ok run
  exact h.puts (h.numbered.puts phi.name block phi.id slot v) rfl rfl
    ⟨_, (h.numbered.use?_addUse _ _ _ _ _).trans (if_pos rfl), rfl⟩

end Stated

/-! Each step of the construction. -/

section
variable {a : Arena} {view : FunctionView} {ps : List (ParamView × Nat)} {f f' : SsaForm}

theorem Stated.addParam (h : Stated a view ps f) {env : Env} (entry : BlockId)
    {p : ParamView × Nat} (hp : p ∈ view.params.zipIdx) :
    Stated a view (ps ++ [p]) (SsaForm.addParam (f, env) entry p).1 := by
  have hgiven : view.params[p.2]? = some p.1 := List.mem_zipIdx_iff_getElem?.mp hp
  have hadds := h.numbered.define p.1.name entry (.param p.2 p.1.node) p.1.declared
  have h' := h.define p.1.name entry (.param p.2 p.1.node) p.1.declared ⟨p.1, hgiven, rfl, rfl⟩ rfl
    (by simp)
  exact { h' with
    numbered := ⟨h'.numbered.defs, h'.numbered.nextDef, h'.numbered.uses, h'.numbered.nextUse⟩
    params := List.rel_append h'.params (.cons ⟨_, hadds.self, rfl, rfl⟩ .nil) }

theorem start_stated (a : Arena) (view : FunctionView) (entry : BlockId) (live : Liveness)
    (names : List String) :
    Stated a view view.params.zipIdx (start view entry live names).1 := by
  have hparams : ∀ (rest done : List (ParamView × Nat)) (s : SsaForm × Env),
      view.params.zipIdx = done ++ rest → Stated a view done s.1 →
      Stated a view view.params.zipIdx (rest.foldl (fun s p => addParam s entry p) s).1 := by
    intro rest
    induction rest with
    | nil =>
      intro done s hsplit h
      rw [hsplit, List.append_nil]
      exact h
    | cons p rest ih =>
      intro done s hsplit h
      refine ih (done ++ [p]) (addParam s entry p) (by rw [hsplit]; simp) ?_
      exact h.addParam entry (by rw [hsplit]; simp)
  refine List.foldlRecOn
    (motive := fun s : SsaForm × Env => Stated a view view.params.zipIdx s.1) _ _
    (hparams _ [] ({ function := view.name, node := view.node }, []) rfl (.empty a view)) ?_
  rintro ⟨f, env⟩ h name -
  exact h.define name entry .undefined none rfl rfl (by simp)

theorem addPhis_stated (g : FlowGraph) (x : BlockIndex) (t : DominatorTree) (effects : EffectMap)
    (live : Liveness) (names : List String) (h : Stated a view ps f) :
    Stated a view ps (addPhis g x t effects live names f) := by
  refine List.foldlRecOn _ _ h fun f h name _ => ?_
  refine List.foldlRecOn _ _ h fun f h b _ => ?_
  unfold addPhi
  split
  · exact h
  · refine h.adds (h.numbered.definePhi name b _) rfl rfl rfl trivial rfl ?_
    rintro incoming ⟨⟩
    refine ⟨rfl, fun u hu => ?_⟩
    obtain ⟨-, -, rfl⟩ := List.mem_map.mp hu
    rfl

theorem fillSlots_stated {s : Setting} {exceptional : Bool} {env : Env} {block : BlockId}
    (h : Stated a view ps f) (run : fillSlots s exceptional env block f = .ok f') :
    Stated a view ps f' := by
  refine foldlM_induct (fun f c f' _ h run => ?_) h run
  unfold fillSlotsOf at run
  split at run
  · exact foldlM_induct (fun f phi f' _ h run => h.fillSlot run) h run
  · obtain rfl := Except.ok.inj run
    exact h

theorem rename_stated {block : BlockId} {p p' : Point} {effect : Effect}
    (h : Stated a view ps p.form) (run : rename a block p effect = .ok p') :
    Stated a view ps p'.form := by
  cases rename_ok run with
  | @read name site v => exact (h.addUse name block site v).record _
  | @write name origin kind declared hkind =>
    rcases kindOf_cases hkind with ⟨-, -, -, rfl, rfl⟩ | ⟨-, -, -, rfl, rfl⟩ |
      ⟨-, -, -, -, rfl, rfl, -⟩
    all_goals exact h.define name block _ _ rfl rfl (by simp)

theorem renameBlock_stated {s : Setting} {block : BlockId} {r r' : Renaming}
    (hs : s.arena = a) (h : Stated a view ps r.form) (run : renameBlock s r block = .ok r') :
    Stated a view ps r'.form := by
  unfold renameBlock at run
  obtain ⟨f₁, hraised, run⟩ := except_bind_ok run
  obtain ⟨p, heffects, run⟩ := except_bind_ok run
  obtain ⟨f₃, hnormal, run⟩ := except_bind_ok run
  obtain rfl := Except.ok.inj run
  have hrenamed : Stated a view ps p.form := by
    refine foldlM_induct (P := fun p => Stated a view ps p.form) (fun p effect p' _ h run => ?_)
      (fillSlots_stated h hraised) heffects
    exact rename_stated h (hs ▸ run)
  exact fillSlots_stated hrenamed hnormal

end

theorem unchecked_stated {a : Arena} {g g' : FlowGraph} {fn : NodeId} {view : FunctionView}
    {f : SsaForm} (hview : a.function fn = .ok view) (run : unchecked a g fn = .ok (f, g')) :
    Stated a view view.params.zipIdx f := by
  unfold unchecked at run
  obtain ⟨view', hview', run⟩ := except_bind_ok run
  obtain rfl := Except.ok.inj (hview.symm.trans hview')
  obtain ⟨⟨t, g₁⟩, -, run⟩ := except_bind_ok run
  obtain ⟨effects, -, run⟩ := except_bind_ok run
  obtain ⟨r, hr, run⟩ := except_bind_ok run
  cases run
  have hplaced := addPhis_stated (a := a) g' g'.index t effects (Liveness.ofGraph g' effects)
    (namesOf view t effects) (start_stated a view g'.entry (Liveness.ofGraph g' effects)
      (namesOf view t effects))
  exact foldlM_induct (P := fun r => Stated a view view.params.zipIdx r.form)
    (fun r b r' _ h run => renameBlock_stated rfl h run) hplaced hr

theorem checkFilled_iff {f : SsaForm} :
    f.checkFilled = .ok () ↔ ∀ d ∈ f.phis, ∀ u ∈ d.kind.operands, u.isValid = true := by
  unfold checkFilled
  cases hfind : f.phis.find? (fun d => d.kind.operands.any (!·.isValid)) with
  | some d =>
    refine ⟨nofun, fun h => ?_⟩
    obtain ⟨u, hu, hinvalid⟩ := List.any_eq_true.mp
      (List.find?_some (p := fun d : Def => d.kind.operands.any (!·.isValid)) hfind)
    rw [h d (List.mem_of_find?_eq_some hfind) u hu] at hinvalid
    cases hinvalid
  | none =>
    refine ⟨fun _ d hd u hu => ?_, fun _ => rfl⟩
    by_contra hinvalid
    exact List.find?_eq_none.mp hfind d hd (List.any_eq_true.mpr ⟨u, hu, by simpa using hinvalid⟩)

/-- In the form of a function all slots of phis are filled, each with a read of its own. -/
theorem ofGraph_stated {a : Arena} {g g' : FlowGraph} {fn : NodeId} {view : FunctionView}
    {f : SsaForm} (hview : a.function fn = .ok view) (run : ofGraph a g fn = .ok (f, g')) :
    Stated a view view.params.zipIdx f ∧ ∀ d ∈ f.phis, ∀ u ∈ d.kind.operands, u.isValid = true := by
  obtain ⟨hunchecked, hfilled, -⟩ := ofGraph_iff.mp run
  exact ⟨unchecked_stated hview hunchecked, checkFilled_iff.mp hfilled⟩

end SsaForm

end TypedSsa

import Mathlib.Logic.Relation
import TypedSsa.Proofs.Liveness
import TypedSsa.Proofs.Renaming
import TypedSsa.Ssa.Binding

/-!
The construction of a form as a sequence of steps. Main statements: `ofGraph_makes`, and from it
`ofGraph_recorded`: every definition and every read has its event in its block, once.
-/

namespace TypedSsa

theorem reflTransGen_foldlM {α β : Type} {R : β → β → Prop} {step : β → α → Except Fault β}
    {xs : List α} (hstep : ∀ s x s', x ∈ xs → step s x = .ok s' → Relation.ReflTransGen R s s')
    {s s' : β} (run : xs.foldlM step s = .ok s') : Relation.ReflTransGen R s s' := by
  induction xs generalizing s with
  | nil =>
    obtain rfl := Except.ok.inj run
    exact .refl
  | cons x xs ih =>
    rw [List.foldlM_cons] at run
    obtain ⟨s₁, hrun, run⟩ := except_bind_ok run
    exact (hstep s x s₁ (by simp) hrun).trans
      (ih (fun s x s' hx => hstep s x s' (by simp [hx])) run)

theorem reflTransGen_foldl {α β : Type} {R : β → β → Prop} {step : β → α → β} {xs : List α}
    (hstep : ∀ s x, x ∈ xs → Relation.ReflTransGen R s (step s x)) (s : β) :
    Relation.ReflTransGen R s (xs.foldl step s) := by
  induction xs generalizing s with
  | nil => exact .refl
  | cons x xs ih =>
    exact (hstep s x (by simp)).trans (ih (fun s x hx => hstep s x (by simp [hx])) (step s x))

/-- Whether a definition is a value from before the function runs. -/
def DefKind.isInitial : DefKind → Bool
  | param _ _ | undefined => true
  | _ => false

namespace DefKind

variable {kind : DefKind}

theorem not_phi_of_isInitial (h : kind.isInitial = true) : kind.isPhi = false := by
  cases kind with
  | param | undefined => rfl
  | assign | loopInit | loopStep | phi | promotion => cases h

theorem not_initial_of_isWrite (h : kind.isWrite = true) : kind.isInitial = false := by
  cases kind with
  | assign | loopInit | loopStep => rfl
  | param | phi | promotion | undefined => cases h

theorem not_initial_of_isPromotion (h : kind.isPromotion = true) : kind.isInitial = false := by
  cases kind with
  | promotion => rfl
  | param | assign | loopInit | loopStep | phi | undefined => cases h

theorem not_write_of_isPromotion (h : kind.isPromotion = true) : kind.isWrite = false := by
  cases kind with
  | promotion => rfl
  | param | assign | loopInit | loopStep | phi | undefined => cases h

end DefKind

/-! Effects read variables directly. -/

/-- Reads stand in the program. -/
def Effect.Direct (e : Effect) : Prop :=
  ∀ name site, e = .read name site → site.isDirect = true

theorem direct_write (name : String) (origin : WriteOrigin) : (Effect.write name origin).Direct :=
  nofun

theorem reads_direct {a : Arena} {root : NodeId} {es : List Effect} (h : a.reads root = .ok es) :
    ∀ e ∈ es, e.Direct := by
  unfold Arena.reads at h
  cases hfound : a.namesRead root with
  | error e =>
    rw [hfound] at h
    cases h
  | ok found =>
    rw [hfound] at h
    obtain rfl := Except.ok.inj h
    intro e he name site hread
    obtain ⟨p, -, rfl⟩ := List.mem_map.mp he
    cases hread
    rfl

theorem readsIn_direct {a : Arena} {root : Option NodeId} {es : List Effect}
    (h : a.readsIn root = .ok es) : ∀ e ∈ es, e.Direct := by
  cases root with
  | none =>
    obtain rfl := Except.ok.inj h
    simp
  | some root => exact reads_direct h

theorem slotEffects_direct {a : Arena} {slot : Slot} {es : List Effect}
    (h : a.slotEffects slot = .ok es) : ∀ e ∈ es, e.Direct := by
  cases slot with
  | node id =>
    obtain ⟨stmt, -, h⟩ := except_bind_ok h
    split at h
    · obtain ⟨reads, hreads, h⟩ := except_bind_ok h
      obtain rfl := Except.ok.inj h
      exact List.forall_mem_append.mpr ⟨reads_direct hreads, by simp [direct_write]⟩
    · exact reads_direct h
    · obtain rfl := Except.ok.inj h
      simp
  | loopInit construct =>
    obtain ⟨loop, -, h⟩ := except_bind_ok h
    obtain ⟨reads, hreads, h⟩ := except_bind_ok h
    obtain rfl := Except.ok.inj h
    exact List.forall_mem_append.mpr ⟨reads_direct hreads, by simp [direct_write]⟩
  | loopStep construct =>
    obtain ⟨loop, -, h⟩ := except_bind_ok h
    obtain ⟨reads, hreads, h⟩ := except_bind_ok h
    obtain rfl := Except.ok.inj h
    refine List.forall_mem_append.mpr ⟨List.forall_mem_cons.mpr ⟨?_, readsIn_direct hreads⟩,
      by simp [direct_write]⟩
    intro name site hread
    cases hread
    rfl

theorem terminatorEffects_direct {a : Arena} {t : Option Terminator} {es : List Effect}
    (h : a.terminatorEffects t = .ok es) : ∀ e ∈ es, e.Direct := by
  unfold Arena.terminatorEffects at h
  split at h
  · exact reads_direct h
  · obtain ⟨loop, -, h⟩ := except_bind_ok h
    obtain ⟨reads, hreads, h⟩ := except_bind_ok h
    obtain rfl := Except.ok.inj h
    refine List.forall_mem_cons.mpr ⟨?_, reads_direct hreads⟩
    intro name site hread
    cases hread
    rfl
  · exact readsIn_direct h
  · exact readsIn_direct h
  · obtain rfl := Except.ok.inj h
    simp

theorem blockEffects_direct {a : Arena} {b : Block} {es : List Effect}
    (h : a.blockEffects b = .ok es) : ∀ e ∈ es, e.Direct := by
  obtain ⟨slots, hslots, h⟩ := except_bind_ok h
  obtain ⟨last, hlast, h⟩ := except_bind_ok h
  obtain rfl := Except.ok.inj h
  refine List.forall_mem_append.mpr ⟨fun e he => ?_, terminatorEffects_direct hlast⟩
  obtain ⟨effects, heffects, he⟩ := List.mem_flatten.mp he
  obtain ⟨slot, -, hslot⟩ := exists_left_of_forall₂ (FlowGraph.forall₂_of_mapM hslots)
    effects heffects
  exact slotEffects_direct hslot e he

theorem FlowGraph.Lists.direct {a : Arena} {blocks : List Block} {effects : EffectMap}
    (h : Lists a blocks effects) (b : BlockId) : ∀ e ∈ effects.of b, e.Direct := by
  unfold EffectMap.of
  cases hfind : effects.find? (·.1 == b) with
  | none => simp
  | some p =>
    obtain ⟨blk, -, -, hes⟩ := exists_left_of_forall₂ h p
      (List.mem_of_find?_eq_some hfind)
    exact blockEffects_direct hes

namespace SsaForm

/-- A step of the construction of a form for a graph that starts at `entry`. -/
inductive Makes (a : Arena) (entry : BlockId) : SsaForm → SsaForm → Prop
  | param (f : SsaForm) (env : Env) (p : ParamView × Nat) :
      Makes a entry f (addParam (f, env) entry p).1
  | undefined (f : SsaForm) (env : Env) (name : String) :
      Makes a entry f (addUndefined (f, env) entry name).1
  | phi (f : SsaForm) (name : String) (block : BlockId) {predecessors : List BlockId} :
      predecessors ≠ [] → Makes a entry f (f.definePhi name block (predecessors.map fun _ => .invalid))
  | fill {f f' : SsaForm} {env : Env} {p : BlockId} {slot : Nat} {phi : Def} :
      fillSlot env p slot f phi = .ok f' → Makes a entry f f'
  | effect {p p' : Point} {block : BlockId} {effect : Effect} : effect.Direct →
      rename a block p effect = .ok p' → Makes a entry p.form p'.form

section
variable {a : Arena} {entry b : BlockId} {f f' : SsaForm}

theorem start_makes (view : FunctionView) (live : Liveness) (names : List String) :
    Relation.ReflTransGen (Makes a entry) { function := view.name, node := view.node }
      (start view entry live names).1 := by
  have hparams : ∀ s : SsaForm × Env, Relation.ReflTransGen (fun s s' => Makes a entry s.1 s'.1) s
      (view.params.zipIdx.foldl (fun s p => addParam s entry p) s) :=
    reflTransGen_foldl fun s p _ => .single (.param s.1 s.2 p)
  have hundefined : ∀ (s : SsaForm × Env) (rest : List String),
      Relation.ReflTransGen (fun s s' => Makes a entry s.1 s'.1) s
        (rest.foldl (fun s name => addUndefined s entry name) s) := fun s rest =>
    reflTransGen_foldl (fun s name _ => .single (.undefined s.1 s.2 name)) s
  exact ((hparams ({ function := view.name, node := view.node }, [])).trans
    (hundefined _ _)).lift Prod.fst fun _ _ h => h

theorem addPhis_makes (g : FlowGraph) (x : BlockIndex) (t : DominatorTree) (effects : EffectMap)
    (live : Liveness) (names : List String) (f : SsaForm) :
    Relation.ReflTransGen (Makes a entry) f (addPhis g x t effects live names f) := by
  refine reflTransGen_foldl (fun f name _ => ?_) f
  refine reflTransGen_foldl (fun f b _ => ?_) f
  unfold addPhi
  split
  · exact .refl
  · exact .single (.phi f name b ‹_›)

theorem fillSlots_makes {s : Setting} {exceptional : Bool} {env : Env}
    (run : fillSlots s exceptional env b f = .ok f') :
    Relation.ReflTransGen (Makes a entry) f f' := by
  refine reflTransGen_foldlM (fun f c f' _ run => ?_) run
  unfold fillSlotsOf at run
  split at run
  · exact reflTransGen_foldlM (fun f phi f' _ run => .single (.fill run)) run
  · obtain rfl := Except.ok.inj run
    exact .refl

theorem renameBlock_makes {s : Setting} {r r' : Renaming} (hs : s.arena = a)
    (hdirect : ∀ e ∈ s.effects.of b, e.Direct) (run : renameBlock s r b = .ok r') :
    Relation.ReflTransGen (Makes a entry) r.form r'.form := by
  obtain ⟨f₁, p, f₃, hraised, heffects, hnormal, rfl⟩ := renameBlock_ok run
  have hrenamed : Relation.ReflTransGen (fun p p' : Point => Makes a entry p.form p'.form) _ p :=
    reflTransGen_foldlM
      (fun p e p' he run => .single (.effect (hdirect e he) (hs ▸ run))) heffects
  exact ((fillSlots_makes hraised).trans (hrenamed.lift Point.form fun _ _ h => h)).trans
    (fillSlots_makes hnormal)

end

/-- A form is made by these steps from an empty one. -/
theorem unchecked_makes {a : Arena} {g g' : FlowGraph} {fn : NodeId} {f : SsaForm}
    (run : unchecked a g fn = .ok (f, g')) : ∃ view, a.function fn = .ok view ∧
      Relation.ReflTransGen (Makes a g'.entry) { function := view.name, node := view.node } f := by
  unfold unchecked at run
  obtain ⟨view, hview, run⟩ := except_bind_ok run
  obtain ⟨⟨t, g₁⟩, -, run⟩ := except_bind_ok run
  obtain ⟨effects, heffects, run⟩ := except_bind_ok run
  obtain ⟨r, hr, run⟩ := except_bind_ok run
  cases run
  have hrenamed := reflTransGen_foldlM
    (R := fun r r' => Relation.ReflTransGen (Makes a g'.entry) r.form r'.form)
    (fun r b r' _ run => .single
      (renameBlock_makes rfl ((FlowGraph.effects_ok heffects).direct b) run)) hr
  exact ⟨view, hview, ((start_makes view _ _).trans (addPhis_makes _ _ _ _ _ _ _)).trans
    (hrenamed.lift' Renaming.form fun _ _ h => h)⟩

theorem ofGraph_makes {a : Arena} {g g' : FlowGraph} {fn : NodeId} {f : SsaForm}
    (run : ofGraph a g fn = .ok (f, g')) : ∃ view, a.function fn = .ok view ∧
      Relation.ReflTransGen (Makes a g'.entry) { function := view.name, node := view.node } f :=
  unchecked_makes (ofGraph_iff.mp run).1

theorem unchecked_ensured {a : Arena} {g g' : FlowGraph} {fn : NodeId} {f : SsaForm}
    (h : unchecked a g fn = .ok (f, g')) : ∃ t, g.ensureDominance = .ok (t, g') := by
  unfold unchecked at h
  obtain ⟨view, -, h⟩ := except_bind_ok h
  obtain ⟨⟨t, g₁⟩, hdominance, h⟩ := except_bind_ok h
  obtain ⟨effects, -, h⟩ := except_bind_ok h
  obtain ⟨r, -, h⟩ := except_bind_ok h
  cases h
  exact ⟨t, hdominance⟩

theorem ofGraph_ensured {a : Arena} {g g' : FlowGraph} {fn : NodeId} {f : SsaForm}
    (h : ofGraph a g fn = .ok (f, g')) : ∃ t, g.ensureDominance = .ok (t, g') :=
  unchecked_ensured (ofGraph_iff.mp h).1

/-- Making a form adds nothing to a graph but its dominator tree. -/
theorem graph_unchecked {a : Arena} {g g' : FlowGraph} {fn : NodeId} {f : SsaForm}
    (h : unchecked a g fn = .ok (f, g')) : ∃ t, g' = { g with dominance := t } := by
  obtain ⟨t, hdominance⟩ := unchecked_ensured h
  unfold FlowGraph.ensureDominance at hdominance
  split at hdominance
  · cases hdominance
    exact ⟨_, rfl⟩
  · obtain ⟨tree, -, hsame⟩ := except_map_ok.mp hdominance
    cases hsame
    exact ⟨_, rfl⟩

theorem graph_ofGraph {a : Arena} {g g' : FlowGraph} {fn : NodeId} {f : SsaForm}
    (h : ofGraph a g fn = .ok (f, g')) : ∃ t, g' = { g with dominance := t } :=
  graph_unchecked (ofGraph_iff.mp h).1

/-! Where definitions and reads stand. -/

/-- Every definition has its event in its block, and events stand once and where they belong. -/
structure Recorded (entry : BlockId) (f : SsaForm) : Prop where
  numbered : Numbered f
  defined : ∀ i d, f.definition? i = some d → .define i ∈ f.eventsIn d.block
  defines : ∀ b i, .define i ∈ f.eventsIn b → ∃ d, f.definition? i = some d ∧ d.block = b
  reads : ∀ b i, .use i ∈ f.eventsIn b → ∃ u, f.use? i = some u ∧ u.block = b ∧
    ∀ phi p, u.site ≠ .phiIncoming phi p
  nodup : ∀ b, (f.eventsIn b).Nodup
  initial : ∀ i d, f.definition? i = some d → d.kind.isInitial = true → d.block = entry
  operand : ∀ i u phi p, f.use? i = some u → u.site = .phiIncoming phi p → u.block = p

namespace Recorded

variable {a : Arena} {entry : BlockId} {f f' : SsaForm}

theorem empty (function : String) (node : NodeId) :
    Recorded entry { function := function, node := node } := by
  have hevents : ∀ b, eventsIn { function := function, node := node } b = [] :=
    fun b => by simp [eventsIn]
  exact {
    numbered := numbered_empty _ _
    defined := by
      intro i d hd
      cases hd
    defines := by
      intro b i hi
      rw [hevents] at hi
      cases hi
    reads := by
      intro b i hi
      rw [hevents] at hi
      cases hi
    nodup := by
      intro b
      rw [hevents]
      exact .nil
    initial := by
      intro i d hd
      cases hd
    operand := by
      intro i u phi p hu
      cases hu }

theorem adds (h : Recorded entry f) {d : Def} (hadds : Adds f d f')
    (hinitial : d.kind.isInitial = true → d.block = entry) : Recorded entry f' := by
  have hback : ∀ b e, e ∈ f'.eventsIn b → e ∈ f.eventsIn b ∨ b = d.block ∧ e = .define d.id :=
    fun _ _ => hadds.mem_eventsIn.mp
  exact {
    numbered := hadds.numbered
    defined := by
      intro i e he
      rw [hadds.definition?] at he
      split at he
      · rename_i hi
        obtain rfl := Option.some.inj he
        exact hadds.mem_eventsIn.mpr (.inr ⟨rfl, hi ▸ rfl⟩)
      · exact hadds.mem_eventsIn.mpr (.inl (h.defined i e he))
    defines := by
      intro b i hi
      rcases hback b _ hi with hi | ⟨rfl, hnew⟩
      · obtain ⟨e, he, hblock⟩ := h.defines b i hi
        exact ⟨e, hadds.kept he, hblock⟩
      · cases hnew
        exact ⟨d, hadds.self, rfl⟩
    reads := by
      intro b i hi
      rcases hback b _ hi with hi | ⟨-, hnew⟩
      · obtain ⟨u, hu, hblock⟩ := h.reads b i hi
        exact ⟨u, (hadds.use? i).trans hu, hblock⟩
      · cases hnew
    nodup := by
      intro b
      by_cases hb : b = d.block
      · rw [hb, hadds.events.nodup_iff]
        refine List.nodup_cons.mpr ⟨fun he => ?_, h.nodup _⟩
        obtain ⟨e, he, -⟩ := h.defines d.block d.id he
        rw [hadds.fresh] at he
        cases he
      · rw [hadds.eventsIn b hb]
        exact h.nodup b
    initial := by
      intro i e he hkind
      rcases hadds.back he with rfl | he
      · exact hinitial hkind
      · exact h.initial i e he hkind
    operand := by
      intro i u phi p hu
      rw [hadds.use?] at hu
      exact h.operand i u phi p hu }

theorem puts (h : Recorded entry f) {phi : DefId} {slot : Nat} {v : DefId}
    (hputs : Puts phi slot v f f')
    (hread : ∀ i u phi p, f'.use? i = some u → u.site = .phiIncoming phi p → u.block = p) :
    Recorded entry f' where
  numbered := hputs.numbered
  defined := by
    intro i d' hd'
    obtain ⟨d, hd⟩ := hputs.definition?_back hd'
    obtain ⟨kind, hd₂, -⟩ := hputs.definition?_of hd
    obtain rfl := Option.some.inj (hd'.symm.trans hd₂)
    rw [hputs.eventsIn]
    exact h.defined i d hd
  defines := by
    intro b i hi
    rw [hputs.eventsIn] at hi
    obtain ⟨d, hd, hblock⟩ := h.defines b i hi
    obtain ⟨kind, hd', -⟩ := hputs.definition?_of hd
    exact ⟨_, hd', hblock⟩
  reads := by
    intro b i hi
    rw [hputs.eventsIn] at hi
    obtain ⟨u, hu, hblock⟩ := h.reads b i hi
    exact ⟨u, hputs.use? i u hu, hblock⟩
  nodup := by
    intro b
    rw [hputs.eventsIn]
    exact h.nodup b
  initial := by
    intro i d' hd' hkind
    obtain ⟨d, hd⟩ := hputs.definition?_back hd'
    obtain ⟨kind, hd₂, -, hsame⟩ := hputs.definition?_of hd
    obtain rfl := Option.some.inj (hd'.symm.trans hd₂)
    refine h.initial i d hd ?_
    rcases hsame with rfl | ⟨-, rfl⟩
    · exact hkind
    · cases hold : d.kind with
      | phi incoming =>
        simp only [hold, putIncoming] at hkind
        cases hkind
      | param | assign | loopInit | loopStep | promotion | undefined =>
        simpa only [hold, putIncoming] using hkind
  operand := hread

/-- A read that is no operand of a phi is added and recorded. -/
theorem reads_event (h : Recorded entry f) (name : String) (b : BlockId) (site : UseSite)
    (v : DefId) (hsite : ∀ phi p, site ≠ .phiIncoming phi p) :
    Recorded entry ((f.addUse name b site v).2.record b (.use ⟨f.nextUse⟩)) := by
  have huse := h.numbered.use?_addUse name b site v
  have hevents := eventsIn_record (f.addUse name b site v).2 b (.use ⟨f.nextUse⟩)
  exact {
    numbered := (h.numbered.addUse name b site v).record _
    defined := by
      intro i d hd
      rw [hevents]
      split
      · exact List.mem_append_left _ (h.defined i d hd)
      · exact h.defined i d hd
    defines := by
      intro c i hi
      rw [hevents] at hi
      split at hi
      · exact h.defines c i ((List.mem_append.mp hi).resolve_right (by simp))
      · exact h.defines c i hi
    reads := by
      intro c i hi
      have hold : .use i ∈ f.eventsIn c → ∃ u, ((f.addUse name b site v).2.record b
          (.use ⟨f.nextUse⟩)).use? i = some u ∧ u.block = c ∧
            ∀ phi p, u.site ≠ .phiIncoming phi p := by
        intro hi
        obtain ⟨u, hu, hblock⟩ := h.reads c i hi
        refine ⟨u, (huse i).trans ?_, hblock⟩
        rw [if_neg, hu]
        rintro rfl
        rw [h.numbered.use?_next] at hu
        cases hu
      rw [hevents] at hi
      split at hi
      · rename_i hc
        rcases List.mem_append.mp hi with hi | hi
        · exact hold hi
        · cases List.mem_singleton.mp hi
          exact ⟨_, (huse _).trans (if_pos rfl), hc.symm, hsite⟩
      · exact hold hi
    nodup := by
      intro c
      rw [hevents]
      split
      · refine List.nodup_append.mpr
          ⟨h.nodup c, List.nodup_singleton _, fun e he e' he' hsame => ?_⟩
        rw [List.mem_singleton.mp he'] at hsame
        obtain ⟨u, hu, -⟩ := h.reads c _ (hsame ▸ he)
        rw [h.numbered.use?_next] at hu
        cases hu
      · exact h.nodup c
    initial := h.initial
    operand := by
      intro i u phi p hu hoperand
      have hu := (huse i).symm.trans hu
      split at hu
      · cases hu
        exact absurd hoperand (hsite phi p)
      · exact h.operand i u phi p hu hoperand }

/-- Each step of the construction records what it adds. -/
theorem makes (h : Recorded entry f) (hmakes : Makes a entry f f') : Recorded entry f' := by
  cases hmakes with
  | param f env p =>
    have h' := h.adds (h.numbered.define p.1.name entry (.param p.2 p.1.node) p.1.declared)
      fun _ => rfl
    exact ⟨⟨h'.numbered.defs, h'.numbered.nextDef, h'.numbered.uses, h'.numbered.nextUse⟩,
      h'.defined, h'.defines, h'.reads, h'.nodup, h'.initial, h'.operand⟩
  | undefined f env name =>
    exact h.adds (h.numbered.define name entry .undefined none) fun _ => rfl
  | phi f name block =>
    exact h.adds (h.numbered.definePhi name block _) nofun
  | @fill f f' env p slot phi run =>
    obtain ⟨v, -, rfl⟩ := fillSlot_ok run
    have hread := h.numbered.use?_addUse phi.name p (.phiIncoming phi.id p) v
    refine h.puts (h.numbered.puts phi.name p phi.id slot v) fun i u phi' q hu hsite => ?_
    have hu := (hread i).symm.trans hu
    split at hu
    · cases hu
      cases hsite
      rfl
    · exact h.operand i u phi' q hu hsite
  | @effect p p' block effect hdirect run =>
    cases rename_ok run with
    | @read name site v =>
      refine h.reads_event name block site v ?_
      rintro phi q rfl
      cases hdirect name _ rfl
    | @write name origin kind declared hkind =>
      refine h.adds (h.numbered.define name block kind declared) fun hinitial => ?_
      have hmakes : origin.Makes kind := kindOf_ok hkind
      cases hmakes <;> cases hinitial

/-- A definition was there before a step, but for an operand of a phi, or the step has added it. -/
theorem makes_back (h : Recorded entry f) (hmakes : Makes a entry f f') {i : DefId} {d' : Def}
    (hd' : f'.definition? i = some d') :
    (∃ d kind, f.definition? i = some d ∧ d' = { d with kind := kind } ∧
      (kind = d.kind ∨ ∃ slot use, kind = putIncoming slot use d.kind)) ∨
    d'.poisoned = false ∧ d'.kind ≠ .phi [] := by
  have hadds : ∀ {f' : SsaForm} {d : Def}, Adds f d f' → d.poisoned = false → d.kind ≠ .phi [] →
      f'.definition? i = some d' →
      (∃ d kind, f.definition? i = some d ∧ d' = { d with kind := kind } ∧
        (kind = d.kind ∨ ∃ slot use, kind = putIncoming slot use d.kind)) ∨
      d'.poisoned = false ∧ d'.kind ≠ .phi [] := by
    intro f' d hadds hpoisoned hkind hd'
    rcases hadds.back hd' with rfl | hd
    · exact .inr ⟨hpoisoned, hkind⟩
    · exact .inl ⟨d', d'.kind, hd, rfl, .inl rfl⟩
  cases hmakes with
  | param f env p =>
    exact hadds (h.numbered.define p.1.name entry (.param p.2 p.1.node) p.1.declared) rfl nofun hd'
  | undefined f env name =>
    exact hadds (h.numbered.define name entry .undefined none) rfl nofun hd'
  | phi f name block hne =>
    refine hadds (h.numbered.definePhi name block _) rfl ?_ hd'
    simpa using hne
  | @fill f f' env p slot phi run =>
    obtain ⟨v, -, rfl⟩ := fillSlot_ok run
    have hputs := h.numbered.puts phi.name p phi.id slot v
    obtain ⟨d, hd⟩ := hputs.definition?_back hd'
    obtain ⟨kind, hd₂, -, hsame⟩ := hputs.definition?_of hd
    obtain rfl := Option.some.inj (hd'.symm.trans hd₂)
    exact .inl ⟨d, kind, hd, rfl, hsame.imp_right fun ⟨_, hput⟩ => ⟨_, _, hput⟩⟩
  | @effect p p' block effect hdirect run =>
    cases rename_ok run with
    | read => exact .inl ⟨d', d'.kind, hd', rfl, .inl rfl⟩
    | @write name origin kind declared hkind =>
      refine hadds (h.numbered.define name block kind declared) rfl ?_ hd'
      have hmakes : origin.Makes kind := kindOf_ok hkind
      cases hmakes <;> exact nofun

end Recorded

/-- In a finished form every event stands once and in its place. -/
theorem unchecked_recorded {a : Arena} {g g' : FlowGraph} {fn : NodeId} {f : SsaForm}
    (run : unchecked a g fn = .ok (f, g')) : Recorded g.entry f := by
  obtain ⟨view, -, hmakes⟩ := unchecked_makes run
  obtain ⟨t, rfl⟩ := graph_unchecked run
  clear run
  induction hmakes with
  | refl => exact .empty view.name view.node
  | tail _ hstep ih => exact ih.makes hstep

theorem ofGraph_recorded {a : Arena} {g g' : FlowGraph} {fn : NodeId} {f : SsaForm}
    (run : ofGraph a g fn = .ok (f, g')) : Recorded g.entry f :=
  unchecked_recorded (ofGraph_iff.mp run).1

/-- Nothing is marked before the reads are classified, and every phi has operands. -/
theorem ofGraph_fresh {a : Arena} {g g' : FlowGraph} {fn : NodeId} {f : SsaForm}
    (run : ofGraph a g fn = .ok (f, g')) :
    ∀ i d, f.definition? i = some d → d.poisoned = false ∧ d.kind ≠ .phi [] := by
  obtain ⟨view, -, hmakes⟩ := ofGraph_makes run
  suffices Recorded g'.entry f ∧ ∀ i d, f.definition? i = some d →
    d.poisoned = false ∧ d.kind ≠ .phi [] from this.2
  clear run
  induction hmakes with
  | refl => exact ⟨.empty view.name view.node, fun i d hd => by cases hd⟩
  | tail _ hstep ih =>
    obtain ⟨hrecorded, hfresh⟩ := ih
    refine ⟨hrecorded.makes hstep, fun i d' hd' => ?_⟩
    rcases hrecorded.makes_back hstep hd' with ⟨d, kind, hd, rfl, hkind⟩ | hnew
    · obtain ⟨hpoisoned, hne⟩ := hfresh i d hd
      refine ⟨hpoisoned, ?_⟩
      rcases hkind with rfl | ⟨slot, use, rfl⟩
      · exact hne
      · cases hold : d.kind <;> simp_all [putIncoming]
    · exact hnew

end SsaForm

end TypedSsa

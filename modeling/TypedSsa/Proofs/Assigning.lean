import TypedSsa.Proofs.Arriving

/-!
What the events on a path make of a variable. Main statement: `Traced.noted`. Once a path has come
to a read, a parameter or a write on the path has bound the variable, or else its undefined value is
there.
-/

namespace TypedSsa
open FlowGraph

/-- The effects on a path. A block that was left by an exception has had none. -/
def EffectMap.on (effects : EffectMap) (passed : List (BlockId × Bool)) : List Effect :=
  passed.reverse.flatMap (fun p => if p.2 then [] else effects.of p.1)

/-- Whether a variable is assigned when some effects have been: parameters are from the start. -/
def FunctionView.assigns (view : FunctionView) (effects : List Effect) (v : String) : Bool :=
  (view.params.map (·.name)).contains v || writes effects v

/-- The two things that can be known of a variable on one path. -/
def Assigned.of (bound : Bool) : Assigned :=
  ⟨bound, !bound⟩

theorem writes_append (es es' : List Effect) (v : String) :
    writes (es ++ es') v = (writes es v || writes es' v) :=
  List.any_append

theorem EffectMap.on_cons (effects : EffectMap) (b : BlockId) (raised : Bool)
    (passed : List (BlockId × Bool)) : effects.on ((b, raised) :: passed) =
      effects.on passed ++ if raised then [] else effects.of b := by
  simp [EffectMap.on]

/-- A read before which its variable is not written is the first effect on it. -/
theorem readsFirst_of_read {es : List Effect} {v : String} {site : UseSite} : ∀ {k : Nat},
    es[k]? = some (.read v site) → writes (es.take k) v = false → readsFirst es v = true := by
  induction es with
  | nil => simp
  | cons e es ih =>
    intro k hk hwrites
    cases k with
    | zero =>
      obtain rfl : e = .read v site := by simpa using hk
      simp [readsFirst, Effect.name, Effect.isRead]
    | succ k =>
      rw [List.take_succ_cons, writes, List.any_cons, Bool.or_eq_false_iff] at hwrites
      by_cases hname : e.name = v
      · simpa [readsFirst, hname] using hwrites.1
      · have hrest := ih (by simpa using hk) hwrites.2
        simpa [readsFirst, List.find?_cons, beq_false_of_ne hname] using hrest

/-- What is live where a path ends, and not written on it, is live at the entry. -/
theorem FlowGraph.Route.live {a : Arena} {g : FlowGraph} {effects : EffectMap}
    (h : g.Effected a effects) {passed : List (BlockId × Bool)} {c : BlockId} {v : String}
    (hroute : g.Route passed c) (hlive : g.Live effects v c)
    (hwrites : writes (effects.on passed) v = false) : g.Live effects v g.entry := by
  induction hroute with
  | entry => exact hlive
  | @step passed b e hroute he ih =>
    rw [EffectMap.on_cons, writes_append, Bool.or_eq_false_iff] at hwrites
    refine ih (h.live_of_edge (target_of_successor he) hlive ?_) hwrites.1
    by_cases hraised : e.kind = .exception
    · exact .inl (hraised ▸ he)
    · rw [beq_false_of_ne hraised] at hwrites
      exact .inr hwrites.2

theorem DefKind.assigns?_of_isWrite {kind : DefKind} (h : kind.isWrite = true) :
    kind.assigns? = some (.of true) := by
  cases kind with
  | assign | loopInit | loopStep => rfl
  | param | phi | promotion | undefined => cases h

namespace SsaForm

/-- Whether an event is a write, or a read that stands in the program. -/
def isEffect (f : SsaForm) : Event → Bool
  | .use i => (f.use? i).any (·.site.isDirect)
  | .define i => (f.definition? i).any (·.kind.isWrite)

/-- The events of the effects of a block. -/
def effectEvents (f : SsaForm) (b : BlockId) : List Event :=
  (f.eventsIn b).filter f.isEffect

/-- Whether an event is the definition of a parameter or of an undefined value. -/
def isInitialEvent (f : SsaForm) : Event → Bool
  | .use _ => false
  | .define i => (f.definition? i).any (·.kind.isInitial)

/-- What is known of a form, with promotions or without, whose effects are those of a graph. -/
structure Traced (view : FunctionView) (g : FlowGraph) (effects : EffectMap) (f : SsaForm) :
    Prop where
  recorded : Recorded g.entry f
  located : ∀ i u, f.use? i = some u → u.site.isDirect = true →
    g.Reachable u.block ∧ .use i ∈ f.eventsIn u.block
  /-- Nothing takes effect in a block before all initial values are there. -/
  parted : ∀ b, g.Reachable b → ∃ first rest, f.eventsIn b = first ++ rest ∧
    (∀ e ∈ first, f.isEffect e = false) ∧ ∀ e ∈ rest, f.isInitialEvent e = false
  mirrors : ∀ b, g.Reachable b →
    List.Forall₂ (Mirrors f b) (effects.of b) (f.effectEvents b)
  assigns? : ∀ i d, f.definition? i = some d → d.kind.isInitial = true →
    d.kind.assigns? = some (.of ((view.params.map (·.name)).contains d.name))
  initial : ∀ v, v ∈ view.params.map (·.name) ∨ g.Live effects v g.entry →
    ∃ i d, f.definition? i = some d ∧ d.kind.isInitial = true ∧ d.name = v

section
variable {f : SsaForm} {v : String} {b : BlockId} {e : Event}

theorem notes?_none (heffect : f.isEffect e = false) (hinitial : f.isInitialEvent e = false) :
    f.notes? v e = none := by
  cases e with
  | use i => rfl
  | define i =>
    rw [notes?]
    cases hd : f.definition? i with
    | none => rfl
    | some d =>
      rw [isEffect, hd, Option.any_some] at heffect
      rw [isInitialEvent, hd, Option.any_some] at hinitial
      cases hkind : d.kind <;> simp_all [DefKind.isWrite, DefKind.isInitial, DefKind.assigns?]

theorem noted?_cons (e : Event) (events : List Event) :
    f.noted? v (e :: events) = (f.noted? v events).or (f.notes? v e) := by
  rw [← List.singleton_append, noted?_append, noted?_singleton]

theorem noted?_filter {events : List Event}
    (hinitial : ∀ e ∈ events, f.isInitialEvent e = false) :
    f.noted? v (events.filter f.isEffect) = f.noted? v events := by
  induction events with
  | nil => rfl
  | cons e events ih =>
    have hrest := ih fun e he => hinitial e (List.mem_cons_of_mem _ he)
    cases heffect : f.isEffect e with
    | true => rw [List.filter_cons_of_pos heffect, noted?_cons, noted?_cons, hrest]
    | false =>
      rw [List.filter_cons_of_neg (by simp [heffect]), noted?_cons, hrest,
        notes?_none heffect (hinitial e (by simp)), Option.or_none]

/-- What events without initial values note is what their effects write. -/
theorem noted?_of_mirrors {es : List Effect} {events : List Event}
    (h : List.Forall₂ (Mirrors f b) es (events.filter f.isEffect))
    (hinitial : ∀ e ∈ events, f.isInitialEvent e = false) :
    f.noted? v events = if writes es v then some (.of true) else none := by
  rw [← noted?_filter hinitial]
  generalize events.filter f.isEffect = events at h
  clear hinitial
  induction h with
  | nil => rfl
  | @cons e event es events hmirrors _ ih =>
    rw [noted?_cons, ih]
    cases hmirrors with
    | read hu hblock =>
      rw [writes_read]
      exact Option.or_none
    | @write d origin hd hblock hmakes =>
      rw [writes_write, notes?, hd, Option.bind_some]
      have hassigns := DefKind.assigns?_of_isWrite hmakes.isWrite
      by_cases hname : d.name = v
      · simp only [hname, hassigns, beq_self_eq_true, Bool.true_or, if_true]
        split <;> rfl
      · simp only [hname, beq_false_of_ne hname, Bool.false_or, if_false, Option.or_none]

/-- What stands before an effect begins with all that is not one. -/
theorem exists_late {first rest pre post : List Event}
    (hparts : first ++ rest = pre ++ e :: post) (hfirst : ∀ e ∈ first, f.isEffect e = false)
    (he : f.isEffect e = true) : ∃ late, pre = first ++ late ∧ late <+: rest := by
  rcases List.append_eq_append_iff.mp hparts with ⟨late, rfl, hlate⟩ | ⟨more, rfl, hmore⟩
  · exact ⟨late, rfl, hlate ▸ List.prefix_append _ _⟩
  · cases more with
    | nil => exact ⟨[], by simp, List.nil_prefix⟩
    | cons e' more =>
      obtain ⟨rfl, -⟩ := List.cons.inj hmore
      rw [hfirst e (by simp)] at he
      cases he

end

namespace Traced

variable {a : Arena} {view : FunctionView} {g : FlowGraph} {effects : EffectMap} {f : SsaForm}
  {v : String} {c : BlockId} {passed : List (BlockId × Bool)} {first rest : List Event}
variable (h : Traced view g effects f) (hg : g.Effected a effects)
include h

theorem not_initial (hc : c ≠ g.entry) : ∀ e ∈ f.eventsIn c, f.isInitialEvent e = false := by
  intro e he
  cases e with
  | use i => rfl
  | define i =>
    obtain ⟨d, hd, rfl⟩ := h.recorded.defines c i he
    rw [isInitialEvent, hd, Option.any_some, ← Bool.not_eq_true]
    exact fun hinitial => hc (h.recorded.initial i d hd hinitial)

/-- What is noted of a variable before anything takes effect. -/
theorem noted_first (hentry : f.eventsIn g.entry = first ++ rest)
    (hfirst : ∀ e ∈ first, f.isEffect e = false) (hrest : ∀ e ∈ rest, f.isInitialEvent e = false)
    (hv : v ∈ view.params.map (·.name) ∨ g.Live effects v g.entry) :
    f.noted? v first = some (.of ((view.params.map (·.name)).contains v)) := by
  refine noted?_of_same (fun e he y hy => ?_) ?_
  · cases hinitial : f.isInitialEvent e with
    | false =>
      rw [notes?_none (hfirst e he) hinitial] at hy
      cases hy
    | true =>
      cases e with
      | use i => cases hinitial
      | define i =>
        obtain ⟨d, hd, hkind⟩ := (Option.any_eq_true _ _).mp hinitial
        rw [notes?, hd, Option.bind_some, Option.ite_none_right_eq_some,
          h.assigns? i d hd hkind] at hy
        obtain ⟨rfl, hy⟩ := hy
        exact (Option.some.inj hy).symm
  · obtain ⟨i, d, hd, hkind, rfl⟩ := h.initial v hv
    have hevent := h.recorded.defined i d hd
    rw [h.recorded.initial i d hd hkind, hentry, List.mem_append] at hevent
    refine ⟨.define i, hevent.resolve_right fun hlate => ?_, ?_⟩
    · have hnot := hrest _ hlate
      rw [isInitialEvent, hd, Option.any_some, hkind] at hnot
      cases hnot
    · rw [notes?, hd, Option.bind_some, if_pos rfl, h.assigns? i d hd hkind]

/-- Which effect of its block a read is, and what stands before it there. -/
theorem effect_at (hreach : g.Reachable c) {pre post : List Event} {i : UseId} {u : Use}
    (hsplit : f.eventsIn c = pre ++ .use i :: post) (hu : f.use? i = some u)
    (hdirect : u.site.isDirect = true) {k : Nat} (hk : k = (pre.filter f.isEffect).length) :
    (f.effectEvents c)[k]? = some (.use i) ∧ (effects.of c)[k]? = some (.read u.name u.site) ∧
      List.Forall₂ (Mirrors f c) ((effects.of c).take k) (pre.filter f.isEffect) := by
  have hmirrors := h.mirrors c hreach
  have heffect : f.isEffect (.use i) = true := (Option.any_eq_true _ _).mpr ⟨u, hu, hdirect⟩
  have hevents : f.effectEvents c =
      pre.filter f.isEffect ++ .use i :: post.filter f.isEffect := by
    rw [effectEvents, hsplit, List.filter_append, List.filter_cons_of_pos heffect]
  have hat : (f.effectEvents c)[k]? = some (.use i) := by
    rw [hevents, hk]
    simp
  have hread : (effects.of c)[k]? = some (.read u.name u.site) := by
    have hget := forall₂_getElem? hmirrors k
    rw [hat] at hget
    generalize (effects.of c)[k]? = effect at hget ⊢
    cases hget with
    | some hmirror =>
      cases hmirror with
      | read hu' _ =>
        obtain rfl := Option.some.inj (hu.symm.trans hu')
        rfl
  refine ⟨hat, hread, ?_⟩
  have htake := List.forall₂_take k hmirrors
  rwa [hevents, hk, List.take_left, ← hk] at htake

include hg

/-- What a path that has left the entry has noted: what it has written, or what was there first. -/
theorem noted_ran (unraised : ∀ handler, ⟨handler, .exception⟩ ∉ g.successors g.entry)
    (hentry : f.eventsIn g.entry = first ++ rest)
    (hfirst : ∀ e ∈ first, f.isEffect e = false) (hrest : ∀ e ∈ rest, f.isInitialEvent e = false)
    (hroute : g.Route passed c) (hne : passed ≠ []) : f.noted? v (f.ran passed) =
      (if writes (effects.on passed) v then some (.of true) else none).or (f.noted? v first) := by
  induction hroute with
  | entry => exact absurd rfl hne
  | @step passed b e hroute he ih =>
    have hreach := hroute.reachable
    have hmirrors := h.mirrors b hreach
    rw [EffectMap.on_cons, writes_append]
    cases hroute with
    | entry =>
      have hkind : (e.kind == .exception) = false :=
        beq_false_of_ne fun hraised => unraised e.target (hraised ▸ he)
      have hevents : f.effectEvents g.entry = rest.filter f.isEffect := by
        rw [effectEvents, hentry, List.filter_append,
          List.filter_eq_nil_iff.mpr fun e he => by simp [hfirst e he], List.nil_append]
      rw [hkind, noted?_ran, hentry, noted?_append, noted?_of_mirrors (hevents ▸ hmirrors) hrest]
      exact Option.or_none
    | @step passed b' e' hroute' he' =>
      have hold := ih (List.cons_ne_nil _ _)
      cases hraised : e.kind == .exception with
      | true =>
        rw [noted?_ran_raised, hold, if_pos rfl, show writes [] v = false from rfl, Bool.or_false]
      | false =>
        rw [noted?_ran, hold, if_neg Bool.false_ne_true,
          noted?_of_mirrors hmirrors (h.not_initial (hg.finished.enters _ _ he'))]
        cases writes (effects.of e'.target) v <;>
          cases writes (effects.on ((b', e'.kind == .exception) :: passed)) v <;> rfl

/-- What a path that has come to a read has noted of its variable. -/
theorem noted (unraised : ∀ handler, ⟨handler, .exception⟩ ∉ g.successors g.entry)
    (hroute : g.Route passed c) {pre post : List Event} {i : UseId} {u : Use}
    (hsplit : f.eventsIn c = pre ++ .use i :: post) (hu : f.use? i = some u)
    (hdirect : u.site.isDirect = true) {k : Nat} (hk : k = (pre.filter f.isEffect).length) :
    (f.effectEvents c)[k]? = some (.use i) ∧ (effects.of c)[k]? = some (.read u.name u.site) ∧
      f.noted? u.name (f.ran passed ++ pre) =
        some (.of (view.assigns (effects.on passed ++ (effects.of c).take k) u.name)) := by
  have hreach := hroute.reachable
  obtain ⟨hat, hread, hbefore⟩ := h.effect_at hreach hsplit hu hdirect hk
  refine ⟨hat, hread, ?_⟩
  obtain ⟨first, rest, hentry, hfirst, hrest⟩ := h.parted g.entry .refl
  have hnoted : f.noted? u.name (f.ran passed ++ pre) =
      (if writes (effects.on passed ++ (effects.of c).take k) u.name then some (.of true)
        else none).or (f.noted? u.name first) := by
    rw [noted?_append, writes_append]
    cases hroute with
    | entry =>
      obtain ⟨late, rfl, hlate⟩ := exists_late (hentry.symm.trans hsplit) hfirst
        ((Option.any_eq_true _ _).mpr ⟨u, hu, hdirect⟩)
      have hnone : first.filter f.isEffect = [] :=
        List.filter_eq_nil_iff.mpr fun e he => by simp [hfirst e he]
      rw [List.filter_append, hnone, List.nil_append] at hbefore
      rw [noted?_append, noted?_of_mirrors hbefore fun e he => hrest e (hlate.subset he)]
      exact Option.or_none
    | @step passed b e hroute' he =>
      have hpre : ∀ e' ∈ pre, f.isInitialEvent e' = false := fun e' he' =>
        h.not_initial (hg.finished.enters b e he) e' (hsplit ▸ List.mem_append_left _ he')
      rw [h.noted_ran hg unraised hentry hfirst hrest (hroute'.step he) (List.cons_ne_nil _ _),
        noted?_of_mirrors hbefore hpre]
      cases writes ((effects.of e.target).take k) u.name <;>
        cases writes (effects.on ((b, e.kind == .exception) :: passed)) u.name <;> rfl
  rw [hnoted]
  cases hwrites : writes (effects.on passed ++ (effects.of c).take k) u.name with
  | true => rw [if_pos rfl, Option.some_or, FunctionView.assigns, hwrites, Bool.or_true]
  | false =>
    rw [if_neg Bool.false_ne_true, Option.none_or, FunctionView.assigns, hwrites, Bool.or_false]
    rw [writes_append, Bool.or_eq_false_iff] at hwrites
    refine h.noted_first hentry hfirst hrest (.inr (hroute.live hg ?_ hwrites.1))
    exact hg.live_of_reads (hg.finished.linked.contains_of_reachable hreach)
      (readsFirst_of_read hread hwrites.2)

end Traced

/-! The forms of functions. -/

/-- The values from before a function runs are its parameters and undefined values. -/
theorem Started.assigns? {view : FunctionView} {f : SsaForm} {env : Env} (h : Started view f env)
    {i : DefId} {d : Def} (hd : f.definition? i = some d) :
    d.kind.assigns? = some (.of ((view.params.map (·.name)).contains d.name)) := by
  rcases h.only i d hd with ⟨hname, index, node, hkind⟩ | ⟨hname, hkind⟩
  · rw [hkind, List.contains_iff_mem.mpr hname]
    rfl
  · rw [hkind, Bool.eq_false_iff.mpr (List.contains_iff_mem.not.mpr hname)]
    rfl

/-- In a form as it is made all reads of a block's own stand in the program. -/
theorem Built.effectEvents_eq {a : Arena} {g : FlowGraph} {view : FunctionView} {s : Setting}
    {f₁ f₀ : SsaForm} {r : Renaming} (h : Built a g view s f₁ f₀ r) {b : BlockId}
    (hb : g.Reachable b) : r.form.effectEvents b = r.form.ownEvents b := by
  refine List.filter_congr fun e he => ?_
  cases e with
  | define i => rfl
  | use i =>
    obtain ⟨effect, heffect, hmirror⟩ := exists_left_of_forall₂ (h.ownEvents_ran hb).mirrors
      (.use i) (List.mem_filter.mpr ⟨he, rfl⟩)
    cases hmirror with
    | @read u hu hblock =>
      have hdirect := h.effected.lists.direct b _ heffect u.name u.site rfl
      rw [isEffect, hu, Option.any_some, hdirect]
      rfl

/-- A form as it is made has the effects of its graph. -/
theorem Built.traced {a : Arena} {g : FlowGraph} {view : FunctionView} {s : Setting}
    {f₁ f₀ : SsaForm} {r : Renaming} (h : Built a g view s f₁ f₀ r)
    (hrecorded : Recorded g.entry r.form) : Traced view g s.effects r.form := by
  have hplaced : ∀ b, ∀ e ∈ f₀.eventsIn b, ∃ i d, e = .define i ∧ f₀.definition? i = some d ∧
      ∃ d', r.form.definition? i = some d' ∧ d'.kind.isWrite = false ∧
        (d.isPhi = false → d' = d) ∧ d'.isPhi = d.isPhi := by
    intro b e he
    obtain ⟨i, d, rfl, hd⟩ := h.placed.opening.recorded b e he
    obtain ⟨d', hd', -, -, hphi, hsame⟩ := h.progress.renames.keeps.definition? i d hd
    refine ⟨i, d, rfl, hd, d', hd', ?_, hsame, hphi⟩
    cases hisPhi : d.isPhi with
    | false => rw [hsame hisPhi, h.placed.opening.unwritten i d hd]
    | true =>
      rw [← Bool.not_eq_true]
      intro hwrite
      rw [← hphi, Def.isPhi, DefKind.not_phi_of_isWrite hwrite] at hisPhi
      cases hisPhi
  constructor
  case recorded => exact hrecorded
  case located =>
    intro i u hu hdirect
    have hevent := (h.progress.renames.sound.read i u hu).resolve_left (by
      rintro ⟨phi, p, hsite⟩
      rw [hsite] at hdirect
      cases hdirect)
    refine ⟨h.exact.mem_preorder.mp ?_, hevent⟩
    by_contra hout
    rw [h.progress.renames.eventsIn u.block hout] at hevent
    obtain ⟨j, d, hj, -⟩ := hplaced _ _ hevent
    cases hj
  case parted =>
    intro b hb
    obtain ⟨events, hevents, hran⟩ := (h.renamed hb).events
    refine ⟨_, events, hevents, fun e he => ?_, fun e he => ?_⟩
    · obtain ⟨i, d, rfl, -, d', hd', hwrite, -⟩ := hplaced b e he
      rw [isEffect, hd', Option.any_some, hwrite]
    · have hown := hran.own e he
      cases e with
      | use i => rfl
      | define i =>
        obtain ⟨d, hd, hwrite⟩ := (Option.any_eq_true _ _).mp hown
        rw [isInitialEvent, hd, Option.any_some, DefKind.not_initial_of_isWrite hwrite]
  case mirrors =>
    intro b hb
    rw [h.effectEvents_eq hb]
    exact (h.ownEvents_ran hb).mirrors
  case assigns? =>
    intro i d hd hinitial
    have hevent := hrecorded.defined i d hd
    rw [hrecorded.initial i d hd hinitial] at hevent
    obtain ⟨events, hevents, hran⟩ := (h.renamed .refl).events
    rw [hevents, List.mem_append] at hevent
    rcases hevent with hevent | hevent
    · obtain ⟨j, d₀, hj, hd₀, d', hd', -, hsame, hphi⟩ := hplaced _ _ hevent
      cases hj
      obtain rfl := Option.some.inj (hd.symm.trans hd')
      have hnot : d₀.isPhi = false := hphi ▸ DefKind.not_phi_of_isInitial hinitial
      rw [hsame hnot]
      exact h.started.assigns? (h.placed.only i d₀ hd₀ hnot)
    · have hown := hran.own _ hevent
      rw [isOwn, hd, Option.any_some] at hown
      rw [DefKind.not_initial_of_isWrite hown] at hinitial
      cases hinitial
  case initial =>
    have hkeeps := h.placed.keeps.trans h.progress.renames.keeps
    have hparams : List.Forall₂ (IsParam r.form) view.params.zipIdx r.form.params := by
      rw [hkeeps.params]
      exact h.started.params.imp fun _ _ hp => hp.keeps hkeeps
    rintro v (hv | hlive)
    · obtain ⟨p, hp, rfl⟩ := List.mem_map.mp (mem_paramNames.mpr hv)
      obtain ⟨i, -, d, hd, hname, hkind⟩ := exists_right_of_forall₂ hparams p hp
      exact ⟨i, d, hd, by rw [hkind]; rfl, hname⟩
    · obtain ⟨i, -, hi⟩ := h.initial v hlive
      obtain ⟨d, hd⟩ := initial?_isInitial hrecorded.numbered hparams
        ((h.initial?_eq v).trans hi)
      exact ⟨i, d, hd⟩

namespace Enriches

variable {predecessors : BlockId → List BlockId} {f f' : SsaForm} {e : Event} {entry b : BlockId}

theorem isEffect_eq (h : Enriches predecessors f f') (hf : Recorded entry f)
    (he : e ∈ f.eventsIn b) :
    f'.isEffect e = f.isEffect e ∧ f'.isInitialEvent e = f.isInitialEvent e := by
  cases e with
  | use i =>
    obtain ⟨u, hu, -⟩ := hf.reads b i he
    obtain ⟨site, hu', hsite⟩ := h.use? i u hu
    rw [isEffect, isEffect, hu, hu', Option.any_some, Option.any_some]
    rcases hsite with rfl | ⟨hnot, hnot'⟩
    · exact ⟨rfl, rfl⟩
    · exact ⟨hnot'.trans hnot.symm, rfl⟩
  | define i =>
    obtain ⟨d, hd, -⟩ := hf.defines b i he
    obtain ⟨d', hd', -, -, hphi, hsame⟩ := h.definition? i d hd
    simp only [isEffect, isInitialEvent, hd, hd', Option.any_some]
    cases hisPhi : d.isPhi with
    | false => rw [hsame hisPhi]; exact ⟨rfl, rfl⟩
    | true =>
      obtain ⟨incoming, hkind⟩ := DefKind.isPhi_iff.mp hisPhi
      obtain ⟨incoming', hkind'⟩ := DefKind.isPhi_iff.mp (hphi.trans hisPhi)
      rw [hkind, hkind']
      exact ⟨rfl, rfl⟩

theorem not_effect_of_passes {e : Event} (he : f'.Passes e) :
    f'.isEffect e = false ∧ f'.isInitialEvent e = false := by
  cases e with
  | use i =>
    obtain ⟨u, hu, hsite⟩ := he
    rw [isEffect, hu, Option.any_some, hsite]
    exact ⟨rfl, rfl⟩
  | define i =>
    obtain ⟨d, hd, hkind⟩ := he
    rw [isEffect, isInitialEvent, hd, Option.any_some, Option.any_some]
    exact ⟨DefKind.not_write_of_isPromotion hkind, DefKind.not_initial_of_isPromotion hkind⟩

/-- Promotions have no effect of their own. -/
theorem effectEvents_eq (h : Enriches predecessors f f') (hf : Recorded entry f) (b : BlockId) :
    f'.effectEvents b = f.effectEvents b := by
  obtain ⟨more, hevents, hmore⟩ := h.eventsIn b
  have hnone : more.filter f'.isEffect = [] :=
    List.filter_eq_nil_iff.mpr fun e he => by simp [(not_effect_of_passes (hmore e he)).1]
  rw [effectEvents, hevents, List.filter_append, hnone, List.append_nil, effectEvents]
  exact List.filter_congr fun e he => (h.isEffect_eq hf he).1

/-- Events of effects that read directly stay events of these. -/
theorem mirrors (h : Enriches predecessors f f') {es : List Effect} {events : List Event}
    (hdirect : ∀ e ∈ es, e.Direct) (hm : List.Forall₂ (Mirrors f b) es events) :
    List.Forall₂ (Mirrors f' b) es events := by
  induction hm with
  | nil => exact .nil
  | @cons effect event es events hmirror _ ih =>
    refine .cons ?_ (ih fun e he => hdirect e (List.mem_cons_of_mem _ he))
    cases hmirror with
    | @read u hu hblock =>
      obtain ⟨site, hu', hsite⟩ := h.use? _ u hu
      rcases hsite with rfl | ⟨hnot, -⟩
      · exact .read hu' hblock
      · rw [hdirect _ (by simp) u.name u.site rfl] at hnot
        cases hnot
    | @write d origin hd hblock hmakes =>
      obtain ⟨d', hd', -, -, -, hsame⟩ := h.definition? _ d hd
      rw [hsame (DefKind.not_phi_of_isWrite hmakes.isWrite)] at hd'
      exact .write hd' hblock hmakes

theorem traced {view : FunctionView} {g : FlowGraph} {effects : EffectMap}
    (h : Enriches predecessors f f') (hf : Traced view g effects f)
    (hrecorded : Recorded g.entry f') (hdirect : ∀ b, ∀ e ∈ effects.of b, e.Direct) :
    Traced view g effects f' := by
  constructor
  case recorded => exact hrecorded
  case located =>
    intro i u' hu' hsite
    obtain ⟨u, hu⟩ := (h.unread i u' hu').resolve_right fun hnot => by
      rw [hnot] at hsite
      cases hsite
    obtain ⟨site, hu₂, hsame⟩ := h.use? i u hu
    obtain rfl := Option.some.inj (hu'.symm.trans hu₂)
    obtain ⟨more, hevents, -⟩ := h.eventsIn u.block
    have hdirect : u.site.isDirect = true := by
      rcases hsame with rfl | ⟨-, hnot⟩
      · exact hsite
      · rw [hnot] at hsite
        cases hsite
    obtain ⟨hreach, hevent⟩ := hf.located i u hu hdirect
    exact ⟨hreach, hevents ▸ List.mem_append_left _ hevent⟩
  case parted =>
    intro b hb
    obtain ⟨first, rest, hevents, hfirst, hrest⟩ := hf.parted b hb
    obtain ⟨more, hevents', hmore⟩ := h.eventsIn b
    have hsame := fun e he => h.isEffect_eq (e := e) (b := b) hf.recorded he
    rw [hevents] at hsame
    refine ⟨first, rest ++ more, by rw [hevents', hevents, List.append_assoc], ?_, ?_⟩
    · exact fun e he => (hsame e (List.mem_append_left _ he)).1.trans (hfirst e he)
    · intro e he
      rcases List.mem_append.mp he with he | he
      · exact (hsame e (List.mem_append_right _ he)).2.trans (hrest e he)
      · exact (not_effect_of_passes (hmore e he)).2
  case mirrors =>
    intro b hb
    rw [h.effectEvents_eq hf.recorded]
    exact h.mirrors (hdirect b) (hf.mirrors b hb)
  case assigns? =>
    intro i d' hd' hinitial
    obtain ⟨d, hd⟩ := (h.added i d' hd').resolve_right fun hkind => by
      rw [DefKind.not_initial_of_isPromotion hkind] at hinitial
      cases hinitial
    obtain ⟨d₂, hd₂, -, -, hphi, hsame⟩ := h.definition? i d hd
    obtain rfl := Option.some.inj (hd'.symm.trans hd₂)
    have hnot : d.isPhi = false := hphi ▸ DefKind.not_phi_of_isInitial hinitial
    rw [hsame hnot] at hinitial ⊢
    exact hf.assigns? i d hd hinitial
  case initial =>
    intro v hv
    obtain ⟨i, d, hd, hinitial, hname⟩ := hf.initial v hv
    obtain ⟨d', hd', -, -, hphi, hsame⟩ := h.definition? i d hd
    have hnot : d.isPhi = false := DefKind.not_phi_of_isInitial hinitial
    exact ⟨i, d', hd', by rw [hsame hnot]; exact hinitial, by rw [hsame hnot]; exact hname⟩

end Enriches

end SsaForm

end TypedSsa

import TypedSsa.Proofs.Building
import TypedSsa.Proofs.Liveness
import TypedSsa.Proofs.Wiring

/-!
The effects of what lowering puts into blocks. Main statement: `effects_total`. The effects of every
block are found, and with each expression that the block evaluates come the reads of all variables
in it.
-/

namespace TypedSsa

open Relation

/-- The expression whose value is written, or by which a loop step adds. -/
def WriteOrigin.root? : WriteOrigin → Option NodeId
  | assign _ value => some value
  | loopInit _ start => some start
  | loopStep _ step => step

/-- An expression stands below a node, and effects have a read of each variable that it reads. -/
structure Arena.Covers (a : Arena) (fn : NodeId) (es : List Effect) (root : NodeId) : Prop where
  below : TransGen a.Leads fn root
  reads : ∀ m x, ReflTransGen a.Leads root m → a.expression m = .ok (.name x) →
    .read x (.name m) ∈ es

/-- A loop step is written after its variable is read for it. -/
def Stepped (es : List Effect) : Prop :=
  ∀ before v construct step after, es = before ++ .write v (.loopStep construct step) :: after →
    ∃ w, .read w (.loopStep construct) ∈ before

section
variable {es es' : List Effect}

theorem stepped_of_reads (h : ∀ e ∈ es, e.isRead = true) : Stepped es := by
  intro before v construct step after hes
  have hwrite := h (.write v (.loopStep construct step)) (by rw [hes]; simp)
  cases hwrite

theorem Stepped.append (h : Stepped es) (h' : Stepped es') : Stepped (es ++ es') := by
  intro before v construct step after hes
  rcases List.append_eq_append_iff.mp hes with ⟨middle, rfl, hrest⟩ | ⟨middle, hsplit, hafter⟩
  · obtain ⟨w, hw⟩ := h' middle v construct step after hrest
    exact ⟨w, List.mem_append_right _ hw⟩
  · cases middle with
    | nil =>
      obtain ⟨w, hw⟩ := h' [] v construct step after hafter.symm
      cases hw
    | cons e middle =>
      cases hafter
      exact h before v construct step middle hsplit

end

/-- Effects are those of evaluating some expressions below a node, and what they write is evaluated
too. -/
structure Arena.Evaluates (a : Arena) (fn : NodeId) (es : List Effect) (roots : List NodeId) :
    Prop where
  covers : ∀ root ∈ roots, a.Covers fn es root
  written : ∀ v origin, .write v origin ∈ es → ∀ root ∈ origin.root?, a.Covers fn es root
  stepped : Stepped es

namespace Arena

variable {a : Arena} {es es' : List Effect} {root fn : NodeId} {roots roots' : List NodeId}

theorem Covers.mono (h : a.Covers fn es root) (hsub : es ⊆ es') : a.Covers fn es' root :=
  ⟨h.below, fun m x hm hx => hsub (h.reads m x hm hx)⟩

namespace Evaluates

theorem nil : a.Evaluates fn [] [] :=
  ⟨nofun, nofun, stepped_of_reads nofun⟩

theorem append (h : a.Evaluates fn es roots) (h' : a.Evaluates fn es' roots') :
    a.Evaluates fn (es ++ es') (roots ++ roots') := by
  refine ⟨fun root hroot => ?_, fun v origin hwrite root hroot => ?_, h.stepped.append h'.stepped⟩
  · rcases List.mem_append.mp hroot with hroot | hroot
    · exact (h.covers root hroot).mono (List.subset_append_left _ _)
    · exact (h'.covers root hroot).mono (List.subset_append_right _ _)
  · rcases List.mem_append.mp hwrite with hwrite | hwrite
    · exact (h.written v origin hwrite root hroot).mono (List.subset_append_left _ _)
    · exact (h'.written v origin hwrite root hroot).mono (List.subset_append_right _ _)

/-- A read that stands in no expression. -/
theorem cons_read (h : a.Evaluates fn es roots) (v : String) (site : UseSite) :
    a.Evaluates fn (.read v site :: es) roots :=
  have hread : a.Evaluates fn [.read v site] [] :=
    ⟨nofun, by simp, stepped_of_reads (by simp [Effect.isRead])⟩
  hread.append h

/-- No expression need have been evaluated. -/
theorem forget (h : a.Evaluates fn es roots) : a.Evaluates fn es [] where
  covers := by
    intro root hroot
    cases hroot
  written := h.written
  stepped := h.stepped

/-- What was evaluated is written. -/
theorem andWrite (h : a.Evaluates fn es roots) (v : String) (origin : WriteOrigin)
    (horigin : ∀ root ∈ origin.root?, root ∈ roots)
    (hstep : ∀ construct step, origin = .loopStep construct step →
      ∃ w, .read w (.loopStep construct) ∈ es) :
    a.Evaluates fn (es ++ [.write v origin]) roots := by
  have hsub : es ⊆ es ++ [.write v origin] := List.subset_append_left _ _
  refine ⟨fun root hroot => (h.covers root hroot).mono hsub, fun w origin' hwrite root hroot => ?_,
    fun before w construct step after hes => ?_⟩
  · rcases List.mem_append.mp hwrite with hwrite | hwrite
    · exact (h.written w origin' hwrite root hroot).mono hsub
    · cases List.mem_singleton.mp hwrite
      exact (h.covers root (horigin root hroot)).mono hsub
  · rcases List.append_eq_append_iff.mp hes with ⟨middle, rfl, hlast⟩ | ⟨middle, hsplit, hafter⟩
    · cases middle with
      | nil =>
        cases hlast
        obtain ⟨x, hx⟩ := hstep construct step rfl
        exact ⟨x, List.mem_append_left _ hx⟩
      | cons e middle => simp at hlast
    · cases middle with
      | nil =>
        cases hafter
        obtain ⟨x, hx⟩ := hstep construct step rfl
        exact ⟨x, by simpa [hsplit] using hx⟩
      | cons e middle =>
        cases hafter
        exact h.stepped before w construct step middle hsplit

end Evaluates

/-! Reads. -/

theorem reads_isRead (h : a.reads root = .ok es) : ∀ e ∈ es, e.isRead = true := by
  obtain ⟨found, -, rfl⟩ := except_map_ok.mp h
  intro e he
  obtain ⟨p, -, rfl⟩ := List.mem_map.mp he
  rfl

section
variable (h : a.Formed) (hbasic : a.Basic)
include h hbasic

theorem Formed.reads_evaluates (hroot : TransGen a.Leads fn root) :
    ∃ es, a.reads root = .ok es ∧ a.Evaluates fn es [root] := by
  obtain ⟨m, -, hm⟩ := TransGen.tail'_iff.mp hroot
  obtain ⟨n, hn⟩ := h.find?_of_leads hm
  obtain ⟨es, hes, hcovers⟩ := h.reads_total hbasic hn
  have hread := reads_isRead hes
  refine ⟨es, hes, ?_, fun v origin hwrite => ?_, stepped_of_reads hread⟩
  · intro r hr
    rw [List.mem_singleton.mp hr]
    exact ⟨hroot, hcovers⟩
  · cases hread _ hwrite

theorem Formed.readsIn_evaluates {value : Option NodeId}
    (hvalue : ∀ root ∈ value, TransGen a.Leads fn root) :
    ∃ es, a.readsIn value = .ok es ∧ a.Evaluates fn es value.toList := by
  cases value with
  | none => exact ⟨[], rfl, .nil⟩
  | some root => exact h.reads_evaluates hbasic (hvalue root rfl)

/-! Blocks. -/

theorem Formed.slotEffects_evaluates {slot : Slot} (hslot : slot.From a (TransGen a.Leads fn)) :
    ∃ es, a.slotEffects slot = .ok es ∧ a.Evaluates fn es (a.slotRoot? slot).toList := by
  cases slot with
  | node id =>
    obtain ⟨hid, st, hst⟩ := hslot
    have hparts : ∀ w ∈ st.parts, TransGen a.Leads fn w :=
      fun w hw => hid.tail (leads_of_statement hst hw)
    simp only [slotEffects, slotRoot?, hst, bind, Except.bind]
    cases st with
    | assign target name value declared =>
      obtain ⟨es, hes, hevaluates⟩ :=
        h.reads_evaluates hbasic (hparts value (by simp [Statement.parts]))
      refine ⟨es ++ [.write name (.assign id value)], by simp only [hes, pure, Except.pure], ?_⟩
      exact (hevaluates.andWrite name (.assign id value) (by simp [WriteOrigin.root?])
        (by simp)).forget
    | expr value => exact h.reads_evaluates hbasic (hparts value (by simp [Statement.parts]))
    | _ => exact ⟨[], rfl, .nil⟩
  | loopInit construct =>
    obtain ⟨hid, loop, hloop⟩ := hslot
    have hstart := hid.tail (leads_of_statement hloop (w := loop.start) (by simp [Statement.parts]))
    obtain ⟨es, hes, hevaluates⟩ := h.reads_evaluates hbasic hstart
    refine ⟨es ++ [.write loop.name (.loopInit construct loop.start)], ?_, ?_⟩
    · simp only [slotEffects, loopOf, hloop, hes, bind, Except.bind, pure, Except.pure]
    · exact (hevaluates.andWrite loop.name (.loopInit construct loop.start)
        (by simp [WriteOrigin.root?]) (by simp)).forget
  | loopStep construct =>
    obtain ⟨hid, loop, hloop⟩ := hslot
    have hstep : ∀ root ∈ loop.step, TransGen a.Leads fn root := fun root hroot =>
      hid.tail (leads_of_statement hloop (by
        simp only [Statement.parts, List.mem_cons, List.mem_append]
        exact .inr (.inr (.inl (Option.mem_toList.mpr hroot)))))
    obtain ⟨es, hes, hevaluates⟩ := h.readsIn_evaluates hbasic hstep
    refine ⟨.read loop.name (.loopStep construct) :: es ++
      [.write loop.name (.loopStep construct loop.step)], ?_, ?_⟩
    · simp only [slotEffects, loopOf, hloop, hes, bind, Except.bind, pure, Except.pure]
    · exact ((hevaluates.cons_read loop.name (.loopStep construct)).andWrite loop.name
        (.loopStep construct loop.step) (fun root hroot => Option.mem_toList.mpr hroot)
        (fun c step hsame => by cases hsame; exact ⟨loop.name, List.mem_cons_self⟩)).forget

theorem Formed.terminatorEffects_evaluates {t : Option Terminator}
    (ht : ∀ t' ∈ t, t'.From a (TransGen a.Leads fn)) :
    ∃ es, a.terminatorEffects t = .ok es ∧ a.Evaluates fn es (a.endRoot? t).toList := by
  match t, ht with
  | some (.branch (.expr test) _ _), ht => exact h.reads_evaluates hbasic (ht _ rfl)
  | some (.branch (.loopTest construct) _ _), ht =>
    obtain ⟨hid, loop, hloop⟩ := ht _ rfl
    have hstop := hid.tail (leads_of_statement hloop (w := loop.stop) (by simp [Statement.parts]))
    obtain ⟨es, hes, hevaluates⟩ := h.reads_evaluates hbasic hstop
    refine ⟨.read loop.name (.loopTest construct) :: es, ?_, ?_⟩
    · simp only [terminatorEffects, loopOf, hloop, hes, bind, Except.bind, pure, Except.pure]
    · simp only [endRoot?, hloop]
      exact hevaluates.cons_read loop.name (.loopTest construct)
  | some (.returnWith value), ht => exact h.readsIn_evaluates hbasic (ht _ rfl)
  | some (.raise value), ht => exact h.readsIn_evaluates hbasic (ht _ rfl)
  | some (.jump _ _), _ | some .unreachable, _ | none, _ => exact ⟨[], rfl, .nil⟩

theorem Formed.slots_evaluate : ∀ {slots : List Slot},
    (∀ slot ∈ slots, slot.From a (TransGen a.Leads fn)) →
      ∃ ess, slots.mapM a.slotEffects = .ok ess ∧
        a.Evaluates fn ess.flatten (slots.filterMap a.slotRoot?)
  | [], _ => ⟨[], rfl, .nil⟩
  | slot :: slots, hslots => by
    obtain ⟨es, hes, hone⟩ := h.slotEffects_evaluates hbasic (hslots slot List.mem_cons_self)
    obtain ⟨ess, hess, hrest⟩ :=
      slots_evaluate (fun slot hslot => hslots slot (List.mem_cons_of_mem _ hslot))
    refine ⟨es :: ess, ?_, ?_⟩
    · simp only [List.mapM_cons, hes, hess, bind, Except.bind, pure, Except.pure]
    · have hall := hone.append hrest
      cases hroot : a.slotRoot? slot with
      | none => simpa [hroot] using hall
      | some root => simpa [hroot] using hall

theorem Formed.blockEffects_evaluates {b : Block} (hb : b.From a (TransGen a.Leads fn)) :
    ∃ es, a.blockEffects b = .ok es ∧
      a.Evaluates fn es (b.slots.filterMap a.slotRoot? ++ (a.endRoot? b.terminator).toList) := by
  obtain ⟨ess, hess, hslots⟩ := h.slots_evaluate hbasic hb.slots
  obtain ⟨es, hes, hends⟩ := h.terminatorEffects_evaluates hbasic hb.ended
  refine ⟨ess.flatten ++ es, ?_, hslots.append hends⟩
  simp only [blockEffects, hess, hes, bind, Except.bind, pure, Except.pure]

end

end Arena

/-! Graphs. -/

namespace FlowGraph

variable {a : Arena} {fn : NodeId} {view : FunctionView} {whole g : FlowGraph}

/-- Pruning leaves blocks what they hold. -/
theorem ofFunction_from (hview : a.function fn = .ok view) (hwhole : lower a view = .ok whole)
    (hcount : whole.blocks.length ≤ Ident.invalidRaw) (hg : ofFunction a fn = .ok g) :
    ∀ b ∈ g.blocks, b.From a (TransGen a.Leads fn) := by
  obtain ⟨view', whole', hview', hwhole', rfl⟩ := ofFunction_ok hg
  obtain rfl := Except.ok.inj (hview.symm.trans hview')
  obtain rfl := Except.ok.inj (hwhole.symm.trans hwhole')
  have hsound := (lower_laid hwhole hcount).1
  have hsourced := lower_sourced hview hwhole
  intro b hb
  obtain ⟨old, hold, hbare⟩ := bare_of_mem_prune hb
  have hfrom : old.bare.From a (TransGen a.Leads fn) := by
    refine hsourced old.id old.bare ?_
    rw [bare?, block?_of_mem hsound.once hold]
    rfl
  rw [← hbare] at hfrom
  exact ⟨hfrom.slots, hfrom.ended⟩

variable (h : a.Formed) (hbasic : a.Basic)
include h hbasic

/-- The effects of every block are found. -/
theorem effects_total (hfrom : ∀ b ∈ g.blocks, b.From a (TransGen a.Leads fn)) :
    ∃ effects, g.effects a = .ok effects := by
  have htotal : ∀ b ∈ g.blocks, ∃ es, a.blockEffects b = .ok es := by
    intro b hb
    obtain ⟨es, hes, -⟩ := h.blockEffects_evaluates hbasic (hfrom b hb)
    exact ⟨es, hes⟩
  choose! es hes using htotal
  refine ⟨g.blocks.map (fun b => (b.id, es b)), mapM_ok (fun b hb => ?_)⟩
  rw [hes b hb]
  rfl

theorem Effected.evaluates {effects : EffectMap} (heffected : g.Effected a effects)
    (hfrom : ∀ b ∈ g.blocks, b.From a (TransGen a.Leads fn)) {c : BlockId} {b : Block}
    (hb : g.block? c = some b) : a.Evaluates fn
      (effects.of c) (b.slots.filterMap a.slotRoot? ++ (a.endRoot? b.terminator).toList) := by
  obtain ⟨es, hes, hevaluates⟩ := h.blockEffects_evaluates hbasic (hfrom b (block?_mem hb))
  have hof := (heffected.of_block hb).1
  rw [hes] at hof
  cases hof
  exact hevaluates

end FlowGraph

end TypedSsa

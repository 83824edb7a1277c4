import TypedSsa.Proofs.Traces

/-!
Where control comes in structured statements. Executions tell after which code it goes on, and from
there on, construct by construct, to which statements it may come, with which loops around.
-/

namespace TypedSsa

namespace Arena

/-- Control may go on after a piece of code. -/
def Ends (a : Arena) (guarded : Bool) (code : Code) : Prop :=
  ∃ t, Runs a guarded code t .done

/-- In a `try`, a piece of code may come to its end or be left by an exception. -/
def Throws (a : Arena) (code : Code) : Prop :=
  ∃ t o, Runs a true code t o ∧ (o = .done ∨ o = .thrown)

/-- The statements that stand right inside of a statement. -/
def inner (a : Arena) : Statement → List NodeId
  | .ifElse _ body orelse => body ++ orelse
  | .whileLoop _ body => body
  | .forLoop loop => loop.body
  | .tryCatch body handlers =>
    body ++ handlers.flatMap (fun handler => (a.handlerBody handler).toOption.getD [])
  | _ => []

/-- A statement and all inside of it to a depth of `fuel`, each as often as it occurs. -/
def nested (a : Arena) : Nat → NodeId → List NodeId
  | 0, _ => []
  | fuel + 1, id =>
    id :: (((a.statement id).toOption.map a.inner).getD []).flatMap (a.nested fuel)

end Arena

/-- From a piece of code on, control may come to a statement of some sort, which may depend on the
loops around it. These are given by whether they are parallel, the innermost first. What may be
passed is left open. A handler is entered from the start of its `try`, as an exception may come
before the first step. -/
inductive Comes (a : Arena) (passes : Bool → Code → Prop) (sort : List Bool → Statement → Prop) :
    List Bool → Bool → Code → Prop
  | here {loops : List Bool} {guarded : Bool} {id : NodeId} {s : Statement} :
      sort loops s → Comes a passes sort loops guarded (.one id s)
  | first {loops : List Bool} {guarded : Bool} {id : NodeId} {s : Statement} {ids : List NodeId} :
      a.statement id = .ok s → Comes a passes sort loops guarded (.one id s) →
      Comes a passes sort loops guarded (.all (id :: ids))
  | later {loops : List Bool} {guarded : Bool} {id : NodeId} {s : Statement} {ids : List NodeId} :
      a.statement id = .ok s → passes guarded (.one id s) →
      Comes a passes sort loops guarded (.all ids) →
      Comes a passes sort loops guarded (.all (id :: ids))
  | thenPart {loops : List Bool} {guarded : Bool} {id test : NodeId} {body orelse : List NodeId} :
      Comes a passes sort loops guarded (.all body) →
      Comes a passes sort loops guarded (.one id (.ifElse test body orelse))
  | elsePart {loops : List Bool} {guarded : Bool} {id test : NodeId} {body orelse : List NodeId} :
      Comes a passes sort loops guarded (.all orelse) →
      Comes a passes sort loops guarded (.one id (.ifElse test body orelse))
  | whileBody {loops : List Bool} {guarded : Bool} {id test : NodeId} {body : List NodeId} :
      Comes a passes sort (false :: loops) guarded (.all body) →
      Comes a passes sort loops guarded (.one id (.whileLoop test body))
  | forBody {loops : List Bool} {guarded : Bool} {id : NodeId} {loop : CountedLoop} :
      Comes a passes sort (loop.parallel :: loops) guarded (.all loop.body) →
      Comes a passes sort loops guarded (.one id (.forLoop loop))
  | tryBody {loops : List Bool} {guarded : Bool} {id : NodeId} {body handlers : List NodeId} :
      Comes a passes sort loops true (.all body) →
      Comes a passes sort loops guarded (.one id (.tryCatch body handlers))
  | handler {loops : List Bool} {guarded : Bool} {id handler : NodeId}
      {body handlers caught : List NodeId} : handler ∈ handlers →
      a.handlerBody handler = .ok caught → Comes a passes sort loops guarded (.all caught) →
      Comes a passes sort loops guarded (.one id (.tryCatch body handlers))

variable {a : Arena} {guarded : Bool} {id : NodeId} {s : Statement} {ids body : List NodeId}

/-! Going on. -/

theorem ends_nil : a.Ends guarded (.all []) :=
  ⟨_, .nothing⟩

theorem ends_cons (hs : a.statement id = .ok s) :
    a.Ends guarded (.all (id :: ids)) ↔
      a.Ends guarded (.one id s) ∧ a.Ends guarded (.all ids) := by
  constructor
  · intro h
    obtain ⟨t, h⟩ := h
    cases h with
    | andThen hs' hone hall =>
      obtain rfl := Except.ok.inj (hs.symm.trans hs')
      exact ⟨⟨_, hone⟩, ⟨_, hall⟩⟩
    | cutShort _ _ hne => exact absurd rfl hne
  · intro h
    obtain ⟨⟨_, hone⟩, ⟨_, hall⟩⟩ := h
    exact ⟨_, .andThen hs hone hall⟩

theorem ends_simple (hs : s.isSimple = true) : a.Ends guarded (.one id s) :=
  ⟨_, .simple hs⟩

theorem ends_ifElse {test : NodeId} {orelse : List NodeId} :
    a.Ends guarded (.one id (.ifElse test body orelse)) ↔
      a.Ends guarded (.all body) ∨ a.Ends guarded (.all orelse) := by
  constructor
  · intro h
    obtain ⟨t, h⟩ := h
    cases h with
    | simple hs => cases hs
    | ifTrue h => exact .inl ⟨_, h⟩
    | ifFalse h => exact .inr ⟨_, h⟩
  · intro h
    rcases h with ⟨_, h⟩ | ⟨_, h⟩
    · exact ⟨_, .ifTrue h⟩
    · exact ⟨_, .ifFalse h⟩

theorem ends_whileLoop {test : NodeId} : a.Ends guarded (.one id (.whileLoop test body)) :=
  ⟨_, .whileLoop .leave⟩

theorem ends_forLoop {loop : CountedLoop} : a.Ends guarded (.one id (.forLoop loop)) :=
  ⟨_, .forLoop .leave⟩

/-- The statements after which nothing comes. -/
theorem not_ends (hs : s = .breakStmt ∨ s = .continueStmt ∨ (∃ value, s = .returnStmt value) ∨
    ∃ value, s = .raise value) : ¬a.Ends guarded (.one id s) := by
  intro h
  obtain ⟨t, h⟩ := h
  rcases hs with rfl | rfl | ⟨value, rfl⟩ | ⟨value, rfl⟩ <;>
    · cases h with
      | simple hs => cases hs

theorem ends_tryCatch {handlers : List NodeId} (hbody : a.Throws (.all body)) :
    a.Ends guarded (.one id (.tryCatch body handlers)) ↔ a.Ends true (.all body) ∨
      ∃ handler ∈ handlers, ∃ caught, a.handlerBody handler = .ok caught ∧
        a.Ends guarded (.all caught) := by
  constructor
  · intro h
    obtain ⟨t, h⟩ := h
    cases h with
    | simple hs => cases hs
    | tries h => exact .inl ⟨_, h⟩
    | catches _ _ hmem hcaught h => exact .inr ⟨_, hmem, _, hcaught, _, h⟩
  · intro h
    rcases h with ⟨_, h⟩ | ⟨handler, hmem, caught, hcaught, _, h⟩
    · exact ⟨_, .tries h nofun⟩
    · obtain ⟨t, o, hruns, ho⟩ := hbody
      exact ⟨_, .catches hruns ho hmem hcaught h⟩

/-! Exceptions. -/

theorem throws_nil : a.Throws (.all []) :=
  ⟨_, _, .nothing, .inl rfl⟩

theorem throws_cons (hs : a.statement id = .ok s) (hone : a.Throws (.one id s))
    (hall : a.Throws (.all ids)) : a.Throws (.all (id :: ids)) := by
  obtain ⟨t, o, hone, rfl | rfl⟩ := hone
  · obtain ⟨t', o', hall, ho'⟩ := hall
    exact ⟨_, _, .andThen hs hone hall, ho'⟩
  · exact ⟨_, _, .cutShort hs hone nofun, .inr rfl⟩

theorem throws_of_not_try (hs : s.isTry = false) : a.Throws (.one id s) :=
  ⟨_, _, .throws hs, .inr rfl⟩

theorem throws_tryCatch {handlers : List NodeId} (hbody : a.Throws (.all body)) :
    a.Throws (.one id (.tryCatch body handlers)) := by
  obtain ⟨t, o, hruns, ho⟩ := hbody
  exact ⟨_, _, .passesOn hruns ho, .inr rfl⟩

/-! Coming to statements, construct by construct. -/

section
variable {passes : Bool → Code → Prop} {sort sort' : List Bool → Statement → Prop}
  {loops loops' : List Bool} {code : Code}

theorem not_comes_nil : ¬Comes a passes sort loops guarded (.all []) :=
  nofun

theorem comes_cons (hs : a.statement id = .ok s) :
    Comes a passes sort loops guarded (.all (id :: ids)) ↔
      Comes a passes sort loops guarded (.one id s) ∨
        passes guarded (.one id s) ∧ Comes a passes sort loops guarded (.all ids) := by
  constructor
  · intro h
    cases h with
    | first hs' h =>
      obtain rfl := Except.ok.inj (hs.symm.trans hs')
      exact .inl h
    | later hs' hpasses h =>
      obtain rfl := Except.ok.inj (hs.symm.trans hs')
      exact .inr ⟨hpasses, h⟩
  · intro h
    rcases h with h | ⟨hpasses, h⟩
    · exact .first hs h
    · exact .later hs hpasses h

/-- A statement with none inside of it. -/
theorem comes_leaf (hs : a.inner s = []) (hsort : ∀ body handlers, s ≠ .tryCatch body handlers) :
    Comes a passes sort loops guarded (.one id s) ↔ sort loops s := by
  refine ⟨fun h => ?_, .here⟩
  cases h with
  | here h => exact h
  | thenPart h =>
    obtain ⟨rfl, -⟩ := List.append_eq_nil_iff.mp hs
    exact absurd h not_comes_nil
  | elsePart h =>
    obtain ⟨-, rfl⟩ := List.append_eq_nil_iff.mp hs
    exact absurd h not_comes_nil
  | whileBody h =>
    obtain rfl : _ = [] := hs
    exact absurd h not_comes_nil
  | @forBody _ _ _ loop h =>
    have hbody : loop.body = [] := hs
    rw [hbody] at h
    exact absurd h not_comes_nil
  | tryBody | handler => exact absurd rfl (hsort _ _)

theorem comes_ifElse {test : NodeId} {orelse : List NodeId}
    (hsort : ¬sort loops (.ifElse test body orelse)) :
    Comes a passes sort loops guarded (.one id (.ifElse test body orelse)) ↔
      Comes a passes sort loops guarded (.all body) ∨
        Comes a passes sort loops guarded (.all orelse) := by
  constructor
  · intro h
    cases h with
    | here h => exact absurd h hsort
    | thenPart h => exact .inl h
    | elsePart h => exact .inr h
  · intro h
    rcases h with h | h
    · exact .thenPart h
    · exact .elsePart h

theorem comes_whileLoop {test : NodeId} (hsort : ¬sort loops (.whileLoop test body)) :
    Comes a passes sort loops guarded (.one id (.whileLoop test body)) ↔
      Comes a passes sort (false :: loops) guarded (.all body) := by
  refine ⟨fun h => ?_, .whileBody⟩
  cases h with
  | here h => exact absurd h hsort
  | whileBody h => exact h

theorem comes_forLoop {loop : CountedLoop} (hsort : ¬sort loops (.forLoop loop)) :
    Comes a passes sort loops guarded (.one id (.forLoop loop)) ↔
      Comes a passes sort (loop.parallel :: loops) guarded (.all loop.body) := by
  refine ⟨fun h => ?_, .forBody⟩
  cases h with
  | here h => exact absurd h hsort
  | forBody h => exact h

theorem comes_tryCatch {handlers : List NodeId} (hsort : ¬sort loops (.tryCatch body handlers)) :
    Comes a passes sort loops guarded (.one id (.tryCatch body handlers)) ↔
      Comes a passes sort loops true (.all body) ∨
        ∃ handler ∈ handlers, ∃ caught, a.handlerBody handler = .ok caught ∧
          Comes a passes sort loops guarded (.all caught) := by
  constructor
  · intro h
    cases h with
    | here h => exact absurd h hsort
    | tryBody h => exact .inl h
    | handler hmem hcaught h => exact .inr ⟨_, hmem, _, hcaught, h⟩
  · intro h
    rcases h with h | ⟨handler, hmem, caught, hcaught, h⟩
    · exact .tryBody h
    · exact .handler hmem hcaught h

/-- Other loops around the code are the same to a sort that does not tell them apart. -/
theorem Comes.imp (h : Comes a passes sort loops guarded code)
    (hsort : ∀ more s, sort (more ++ loops) s → sort' (more ++ loops') s) :
    Comes a passes sort' loops' guarded code := by
  have within : ∀ {loops loops' : List Bool} (p : Bool),
      (∀ more s, sort (more ++ loops) s → sort' (more ++ loops') s) →
      ∀ more s, sort (more ++ p :: loops) s → sort' (more ++ p :: loops') s := by
    intro loops loops' p hsort more s
    simpa using hsort (more ++ [p]) s
  induction h generalizing loops' with
  | here h => exact .here (hsort [] _ h)
  | first hs _ ih => exact .first hs (ih hsort)
  | later hs hpasses _ ih => exact .later hs hpasses (ih hsort)
  | thenPart _ ih => exact .thenPart (ih hsort)
  | elsePart _ ih => exact .elsePart (ih hsort)
  | whileBody _ ih => exact .whileBody (ih (within false hsort))
  | forBody _ ih => exact .forBody (ih (within _ hsort))
  | tryBody _ ih => exact .tryBody (ih hsort)
  | handler hmem hcaught _ ih => exact .handler hmem hcaught (ih hsort)

theorem comes_congr (hsort : ∀ more s, sort (more ++ loops) s ↔ sort' (more ++ loops') s) :
    Comes a passes sort loops guarded code ↔ Comes a passes sort' loops' guarded code :=
  ⟨fun h => h.imp (fun more s => (hsort more s).mp),
    fun h => h.imp (fun more s => (hsort more s).mpr)⟩

/-- There is no statement of the sort with these loops around. -/
theorem not_comes (hsort : ∀ more s, ¬sort (more ++ loops) s) :
    ¬Comes a passes sort loops guarded code := by
  intro h
  induction h with
  | here h => exact hsort [] _ h
  | first _ _ ih | later _ _ _ ih | thenPart _ ih | elsePart _ ih | tryBody _ ih
  | handler _ _ _ ih => exact ih hsort
  | whileBody _ ih | forBody _ ih =>
    refine ih (fun more s => ?_)
    rw [← List.singleton_append, ← List.append_assoc]
    exact hsort _ s

theorem comes_or : Comes a passes (fun loops s => sort loops s ∨ sort' loops s) loops guarded code ↔
    Comes a passes sort loops guarded code ∨ Comes a passes sort' loops guarded code := by
  constructor
  · intro h
    induction h with
    | here h => exact h.imp .here .here
    | first hs _ ih => exact ih.imp (.first hs) (.first hs)
    | later hs hpasses _ ih => exact ih.imp (.later hs hpasses) (.later hs hpasses)
    | thenPart _ ih => exact ih.imp .thenPart .thenPart
    | elsePart _ ih => exact ih.imp .elsePart .elsePart
    | whileBody _ ih => exact ih.imp .whileBody .whileBody
    | forBody _ ih => exact ih.imp .forBody .forBody
    | tryBody _ ih => exact ih.imp .tryBody .tryBody
    | handler hmem hcaught _ ih => exact ih.imp (.handler hmem hcaught) (.handler hmem hcaught)
  · intro h
    rcases h with h | h
    · exact h.imp (fun _ _ => .inl)
    · exact h.imp (fun _ _ => .inr)

end

/-! The statements that leave loops. -/

/-- A `return` inside of a parallel loop, or a `break` out of one. -/
def LeavesParallel (loops : List Bool) : Statement → Prop
  | .returnStmt _ => true ∈ loops
  | .breakStmt => loops.head? = some true
  | _ => False

/-- A `break` or `continue` outside of every loop. -/
def Strays (loops : List Bool) : Statement → Prop
  | .breakStmt | .continueStmt => loops = []
  | _ => False

def Returns (_ : List Bool) : Statement → Prop
  | .returnStmt _ => True
  | _ => False

/-- A `break` out of the loop around the code, which has no other loops around it. -/
def Breaks (loops : List Bool) : Statement → Prop
  | .breakStmt => loops = []
  | _ => False

/-- What leaves a parallel loop returns, breaks out of it, or leaves another one inside of it. -/
theorem leavesParallel_append {p : Bool} {more : List Bool} :
    LeavesParallel (more ++ [p]) s ↔
      LeavesParallel more s ∨ p = true ∧ (Returns more s ∨ Breaks more s) := by
  cases s with
  | returnStmt => simp [LeavesParallel, Returns, Breaks, eq_comm]
  | breakStmt => cases more <;> simp [LeavesParallel, Returns, Breaks]
  | _ => simp [LeavesParallel, Returns, Breaks]

theorem comes_leavesParallel {passes : Bool → Code → Prop} {p : Bool} {code : Code} :
    Comes a passes LeavesParallel [p] guarded code ↔
      Comes a passes LeavesParallel [] guarded code ∨ p = true ∧
        (Comes a passes Returns [] guarded code ∨ Comes a passes Breaks [] guarded code) := by
  cases p with
  | false =>
    simp only [Bool.false_eq_true, false_and, or_false]
    refine comes_congr (fun more s => ?_)
    simp [leavesParallel_append]
  | true =>
    simp only [true_and]
    rw [← comes_or, ← comes_or]
    refine comes_congr (fun more s => ?_)
    simp [leavesParallel_append]

theorem comes_returns {passes : Bool → Code → Prop} {p : Bool} {code : Code} :
    Comes a passes Returns [p] guarded code ↔ Comes a passes Returns [] guarded code :=
  comes_congr (fun _ _ => Iff.rfl)

theorem not_comes_breaks {passes : Bool → Code → Prop} {p : Bool} {code : Code} :
    ¬Comes a passes Breaks [p] guarded code := by
  refine not_comes (fun more s => ?_)
  cases s <;> simp [Breaks]

theorem not_comes_strays {passes : Bool → Code → Prop} {p : Bool} {code : Code} :
    ¬Comes a passes Strays [p] guarded code := by
  refine not_comes (fun more s => ?_)
  cases s <;> simp [Strays]

end TypedSsa

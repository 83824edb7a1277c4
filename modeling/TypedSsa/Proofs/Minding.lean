import TypedSsa.Proofs.Building
import TypedSsa.Proofs.Coming

/-!
What lowering refuses. Main statements: `lower_halts`, which tells from the statements alone how
lowering comes to an end, and `lower_expected`: it refuses nodes that do not fit the schema, and a
`break` or `continue` outside of every loop. Blocks are there wherever lowering asks for them.
-/

namespace TypedSsa
open LowerM FlowGraph

/-! Errors of the readers of nodes. -/

theorem ne_nestedInItself {start : String}
    (h : ¬start.toList <+: Reason.nestedInItself.toList) (rest : String) :
    start ++ rest ≠ Reason.nestedInItself := by
  intro hsame
  exact h ⟨rest.toList, by rw [← String.toList_append, hsame]⟩

/-- Nothing but the schema is ever at fault, and not for what is nested in itself. -/
def Schematic {α : Type} (m : Except Fault α) : Prop :=
  ∀ e, m = .error e → ∃ kind reason, e = .schema kind reason ∧ reason ≠ Reason.nestedInItself

namespace Schematic

variable {α β : Type}

theorem ok (x : α) : Schematic (.ok x) :=
  nofun

theorem schema (kind : String) {reason : String} (h : reason ≠ Reason.nestedInItself) :
    Schematic (.error (.schema kind reason) : Except Fault α) := by
  intro e he
  obtain rfl := Except.error.inj he
  exact ⟨_, _, rfl, h⟩

theorem noNode (id : NodeId) :
    Schematic (.error (.schema Arena.unknown (Reason.noNode id)) : Except Fault α) :=
  schema _ (ne_nestedInItself (by decide) _)

theorem bind {m : Except Fault α} {f : α → Except Fault β} (hm : Schematic m)
    (hf : ∀ x, Schematic (f x)) : Schematic (m >>= f) := by
  intro e he
  cases m with
  | error e' =>
    obtain rfl := Except.error.inj he
    exact hm e' rfl
  | ok x => exact hf x e he

theorem map {m : Except Fault α} (hm : Schematic m) (f : α → β) : Schematic (f <$> m) := by
  intro e he
  cases m with
  | error e' =>
    obtain rfl := Except.error.inj he
    exact hm e' rfl
  | ok x => cases he

theorem ite {c : Prop} [Decidable c] {m m' : Except Fault α} (hm : Schematic m)
    (hm' : Schematic m') : Schematic (if c then m else m') := by
  split
  · exact hm
  · exact hm'

end Schematic

namespace Arena

variable (a : Arena) (id : NodeId) (name : String)

theorem schematic_field : Schematic (a.field id name) := by
  refine .bind ?_ (fun n => .bind ?_ (fun s => ?_))
  · unfold node
    split
    · apply Schematic.ok
    · apply Schematic.noNode
  · unfold schemaOf
    split
    · apply Schematic.ok
    · exact .schema _ (by decide)
  · split
    · apply Schematic.ok
    · refine .schema _ ?_
      rw [Reason.noField, String.append_assoc]
      exact ne_nestedInItself (by decide) _

theorem schematic_fieldAs {α : Type} (what : String) (read : FieldValue → Option α) :
    Schematic (a.fieldAs id name what read) := by
  refine .bind (a.schematic_field id name) (fun v => ?_)
  split
  · apply Schematic.ok
  · refine .schema _ ?_
    rw [Reason.notHolding, String.append_assoc, String.append_assoc]
    exact ne_nestedInItself (by decide) _

theorem schematic_listField : Schematic (a.listField id name) :=
  (a.schematic_field id name).map _

theorem schematic_nodeField? : Schematic (a.nodeField? id name) :=
  (a.schematic_field id name).map _

theorem schematic_kindName : Schematic (a.kindName id) := by
  unfold kindName
  split
  · apply Schematic.ok
  · apply Schematic.noNode

theorem schematic_countedLoop : Schematic (a.countedLoop id) :=
  .bind (a.schematic_fieldAs _ _ _ _) (fun _ => .bind (a.schematic_fieldAs _ _ _ _) (fun _ =>
    .bind (a.schematic_fieldAs _ _ _ _) (fun _ => .bind (a.schematic_fieldAs _ _ _ _) (fun _ =>
    .bind (a.schematic_nodeField? _ _) (fun _ => .bind (a.schematic_listField _ _) (fun _ =>
    .ok _))))))

theorem schematic_statement : Schematic (a.statement id) := by
  refine .bind (a.schematic_kindName id) (fun kind => ?_)
  have hnode := a.schematic_fieldAs id
  have hlist := a.schematic_listField id
  have hnode? := a.schematic_nodeField? id
  refine .ite (.bind (hnode _ _ _) (fun target => .bind (a.schematic_fieldAs target _ _ _) (fun _ =>
    .bind (hnode _ _ _) (fun _ => .ok _)))) ?_
  refine .ite ((hnode _ _ _).map _) ?_
  refine .ite (.bind (hnode _ _ _) (fun _ => .bind (hlist _) (fun _ => .bind (hlist _) (fun _ =>
    .ok _)))) ?_
  refine .ite (.bind (hnode _ _ _) (fun _ => .bind (hlist _) (fun _ => .ok _))) ?_
  refine .ite ((a.schematic_countedLoop id).map _) ?_
  refine .ite (.bind (hlist _) (fun _ => .bind (hlist _) (fun _ => .ok _))) ?_
  refine .ite (.ok _) (.ite (.ok _) ?_)
  exact .ite ((hnode? _).map _) (.ite ((hnode? _).map _) (.schema _ (by decide)))

end Arena

/-! How lowering comes to an end. -/

theorem except_bind_error {ε α β : Type} {m : Except ε α} {f : α → Except ε β} {e : ε} :
    (m >>= f) = .error e ↔ m = .error e ∨ ∃ x, m = .ok x ∧ f x = .error e := by
  cases m with
  | error e' => exact ⟨fun h => .inl (congrArg _ (Except.error.inj h)), fun h => h.elim
      (fun h => congrArg _ (Except.error.inj h)) (fun ⟨_, h, _⟩ => nomatch h)⟩
  | ok x => exact ⟨fun h => .inr ⟨x, rfl, h⟩, fun h => h.elim nofun
      (fun ⟨_, hx, h⟩ => Except.ok.inj hx ▸ h)⟩

theorem forM_error_iff {ε α : Type} {step : α → Except ε PUnit} {xs : List α} {e : ε} :
    xs.forM step = .error e ↔ ∃ before x after, xs = before ++ x :: after ∧
      (∀ y ∈ before, step y = .ok ()) ∧ step x = .error e := by
  constructor
  · intro h
    induction xs with
    | nil => cases h
    | cons y ys ih =>
      have h : (step y >>= fun _ => ys.forM step) = .error e := h
      cases hy : step y with
      | error e' =>
        rw [hy] at h
        exact ⟨[], y, ys, rfl, nofun, hy.trans h⟩
      | ok u =>
        rw [hy] at h
        obtain ⟨before, x, after, rfl, hbefore, hx⟩ := ih h
        exact ⟨y :: before, x, after, rfl, List.forall_mem_cons.mpr ⟨hy, hbefore⟩, hx⟩
  · rintro ⟨before, x, after, rfl, hbefore, hx⟩
    have happend : (before ++ x :: after).forM step =
        (before.forM step >>= fun _ => step x >>= fun _ => after.forM step) := List.forM_append
    rw [happend, forM_ok_iff.mpr hbefore, hx]
    rfl

/-- What keeps lowering from the end of a piece of code: a node that does not fit the schema, a
`break` or `continue` outside of every loop, or statements that are nested too deep. -/
inductive Halt where
  | unfit
  | stray
  | deep
deriving DecidableEq

def Halt.Causes : Halt → Fault → Prop
  | .unfit, .schema _ reason => reason ≠ Reason.nestedInItself
  | .stray, .illegal _ _ _ => True
  | .deep, .schema _ reason => reason = Reason.nestedInItself
  | _, _ => False

/-- A result is there, or there is a fault that what stands in the way causes. -/
def EndsAs {α : Type} (outcome : Except Halt Unit) (result : Except Fault α) : Prop :=
  match outcome with
  | .ok () => ∃ x, result = .ok x
  | .error halt => ∃ e, result = .error e ∧ halt.Causes e

namespace Arena

/-- How lowering ends in a statement, given how it ends in lists of statements inside of loops or
not. -/
def haltsIn (a : Arena) (within : Bool → List NodeId → Except Halt Unit) (looped : Bool) :
    Statement → Except Halt Unit
  | .ifElse _ body orelse => do
    within looped body
    within looped orelse
  | .whileLoop _ body => within true body
  | .forLoop loop => within true loop.body
  | .tryCatch body handlers => do
    within looped body
    handlers.forM (fun handler => do
      let caught ← (a.handlerBody handler).mapError (fun _ => .unfit)
      within looped caught)
  | .breakStmt | .continueStmt => if looped then .ok () else .error .stray
  | .assign _ _ _ _ | .expr _ | .returnStmt _ | .raise _ => .ok ()

/-- How lowering to a depth of `fuel` ends in a statement, inside of a loop or not. -/
def halts (a : Arena) : Nat → Bool → NodeId → Except Halt Unit
  | 0, _, _ => .error .deep
  | fuel + 1, looped, id => do
    let s ← (a.statement id).mapError (fun _ => .unfit)
    a.haltsIn (fun looped ids => ids.forM (a.halts fuel looped)) looped s

end Arena

/-! Blocks that lowering finds. -/

/-- Blocks that are there, and the current one. -/
def Lowering.Knows (known : List BlockId) (s : Lowering) : Prop :=
  ∀ b, b ∈ known ∨ s.current = some b → s.graph.contains b = true

namespace Lowering.Knows

variable {known known' : List BlockId} {s : Lowering} {b : BlockId}

theorem mono (h : s.Knows known) (hsub : known' ⊆ known) : s.Knows known' :=
  fun b hb => h b (hb.imp_left (fun hmem => hsub hmem))

theorem of_mem (h : s.Knows known) (hb : b ∈ known) : s.graph.contains b = true :=
  h b (.inl hb)

theorem graph {g : FlowGraph} (h : s.Knows known)
    (hg : ∀ b, s.graph.contains b = true → g.contains b = true) :
    Knows known { s with graph := g } :=
  fun b hb => hg b (h b hb)

end Lowering.Knows

theorem FlowGraph.setTerminator_total {g : FlowGraph} {block : BlockId} {t : Terminator}
    (hblock : g.contains block = true) (ht : ∀ e ∈ t.edges, g.contains e.target = true) :
    ∃ g', g.setTerminator block t = .ok g' ∧ ∀ b, g.contains b = true → g'.contains b = true := by
  obtain ⟨b, hb⟩ := contains_iff.mp hblock
  have hedges : t.edges.find? (fun e => !g.contains e.target) = none :=
    List.find?_eq_none.mpr (fun e he => by simp [ht e he])
  refine ⟨_, by rw [setTerminator, hedges, hb], fun k hk => ?_⟩
  rwa [contains_setSuccessors]

namespace LowerM

/-- From where some blocks are known, a run finds more of them, or it fails for what there is to
keep it from its end. -/
def Meets (outcome : Except Halt Unit) (known : List BlockId) {α : Type} (m : LowerM α)
    (found : α → List BlockId) : Prop :=
  ∀ s, s.Knows known →
    match outcome with
    | .ok () => ∃ x s', m s = .ok (x, s') ∧ s'.Knows (found x ++ known)
    | .error halt => ∃ e, m s = .error e ∧ halt.Causes e

namespace Meets

variable {α β : Type} {outcome outcome' : Except Halt Unit} {known known' : List BlockId}
  {found : α → List BlockId} {found' : β → List BlockId} {m : LowerM α}

theorem bind {f : α → LowerM β} (hm : Meets outcome known m found)
    (hf : ∀ x, (∃ s s', m s = .ok (x, s')) → Meets outcome' (found x ++ known) (f x) found') :
    Meets (outcome >>= fun _ => outcome') known (m >>= f) found' := by
  intro s hs
  have hms := hm s hs
  have hbind : (m >>= f) s = (m s >>= fun p => f p.1 p.2) := rfl
  cases outcome with
  | error halt =>
    obtain ⟨e, hrun, he⟩ := hms
    exact ⟨e, by rw [hbind, hrun]; rfl, he⟩
  | ok u =>
    obtain ⟨x, s', hrun, hs'⟩ := hms
    have hfs := hf x ⟨s, s', hrun⟩ s' hs'
    have hrest : (m >>= f) s = f x s' := by rw [hbind, hrun]; rfl
    cases outcome' with
    | error halt =>
      obtain ⟨e, hfault, he⟩ := hfs
      exact ⟨e, hrest.trans hfault, he⟩
    | ok u =>
      obtain ⟨y, s'', hrun', hs''⟩ := hfs
      exact ⟨y, s'', hrest.trans hrun', hs''.mono (by simp)⟩

theorem after {f : α → LowerM β} (hm : Meets (.ok ()) known m found)
    (hf : ∀ x, (∃ s s', m s = .ok (x, s')) → Meets outcome (found x ++ known) (f x) found') :
    Meets outcome known (m >>= f) found' :=
  hm.bind hf

theorem andThen {f : α → LowerM β} (hm : Meets (.ok ()) known m found)
    (hf : ∀ x, Meets outcome (found x ++ known) (f x) found') :
    Meets outcome known (m >>= f) found' :=
  hm.after (fun x _ => hf x)

theorem before {f : α → LowerM β} (hm : Meets outcome known m found)
    (hf : ∀ x, Meets (.ok ()) (found x ++ known) (f x) found') :
    Meets outcome known (m >>= f) found' := by
  have h := hm.bind (fun x _ => hf x)
  cases outcome <;> exact h

theorem pure (x : α) (hx : found x ⊆ known) : Meets (.ok ()) known (pure x) found :=
  fun s hs => ⟨x, s, rfl, hs.mono (List.append_subset.mpr ⟨hx, List.Subset.refl _⟩)⟩

theorem get : Meets (.ok ()) known get (fun s => s.current.toList) := by
  refine fun s hs => ⟨s, s, rfl, fun b hb => hs b ?_⟩
  rcases hb with hb | hb
  · exact (List.mem_append.mp hb).symm.imp_right Option.mem_toList.mp
  · exact .inr hb

theorem lift {m : Except Fault α} {f : α → LowerM β} {next : α → Except Halt Unit}
    (hm : Schematic m) (hf : ∀ x, m = .ok x → Meets (next x) known (f x) found') :
    Meets (m.mapError (fun _ => .unfit) >>= next) known (liftM m >>= f) found' := by
  cases m with
  | error e =>
    intro s _
    obtain ⟨kind, reason, rfl, hreason⟩ := hm e rfl
    exact ⟨_, rfl, hreason⟩
  | ok x => exact hf x rfl

theorem illegal (id : NodeId) (reason : String) :
    Meets (.error .stray) known (LowerM.illegal id reason) found :=
  fun _ _ => ⟨_, rfl, trivial⟩

/-! What is done to blocks that are known. -/

theorem setCurrent {block : Option BlockId} (hblock : ∀ b, block = some b → b ∈ known) :
    Meets (.ok ()) known (setCurrent block) (fun _ => []) := by
  refine fun s hs => ⟨(), _, rfl, fun b hb => ?_⟩
  rcases hb with hb | hb
  · exact hs.of_mem hb
  · exact hs.of_mem (hblock b hb)

theorem newBlock (scope : Scope) (role : BlockRole) :
    Meets (.ok ()) known (newBlock scope role) (fun c => [c]) := by
  refine fun s hs => ⟨_, _, rfl, fun b hb => ?_⟩
  change (s.graph.createBlock role scope.construct scope.depth).2.contains b = true
  rw [contains_eq_isSome, block?_createBlock]
  split
  · rfl
  · rename_i hne
    rw [← contains_eq_isSome]
    exact hs b (hb.imp_left (fun hmem => List.mem_of_ne_of_mem hne hmem))

/-- A change that goes well as long as some blocks are there, and that leaves all blocks there. -/
theorem change {step : FlowGraph → Except Fault FlowGraph}
    (hstep : ∀ g, (∀ b ∈ known, g.contains b = true) →
      ∃ g', step g = .ok g' ∧ ∀ b, g.contains b = true → g'.contains b = true) :
    Meets (.ok ()) known (change step) (fun _ => []) := by
  intro s hs
  obtain ⟨g, hg, hcontains⟩ := hstep s.graph (fun b => hs.of_mem)
  have hrun : LowerM.change step s = (step s.graph).map (fun g => ((), { s with graph := g })) := by
    change (liftM (step s.graph) >>= fun graph => set { s with graph } : LowerM Unit) s = _
    cases step s.graph <;> rfl
  exact ⟨(), { s with graph := g }, by rw [hrun, hg]; rfl, hs.graph hcontains⟩

theorem endBlock {block : BlockId} {t : Terminator} (hblock : block ∈ known)
    (ht : ∀ e ∈ t.edges, e.target ∈ known) :
    Meets (.ok ()) known (endBlock block t) (fun _ => []) :=
  .change (fun _ hg => setTerminator_total (hg block hblock) (fun e he => hg e.target (ht e he)))

theorem pushSlot {block : BlockId} (hblock : block ∈ known) (slot : Slot) :
    Meets (.ok ()) known (pushSlot block slot) (fun _ => []) := by
  refine .change (fun g hg => ⟨_, if_pos (hg block hblock), fun k hk => ?_⟩)
  rw [contains_eq_isSome] at hk
  rw [contains_eq_isSome,
    block?_updateBlock g block k (fun b => { b with slots := b.slots ++ [slot] }) (fun _ => rfl)]
  rwa [Option.isSome_map]

theorem addExceptionEdge {source handler : BlockId} (hsource : source ∈ known)
    (hhandler : handler ∈ known) :
    Meets (.ok ()) known (LowerM.change (·.addExceptionEdge source handler)) (fun _ => []) := by
  refine .change (fun g hg => ?_)
  obtain ⟨b, hb⟩ := contains_iff.mp (hg source hsource)
  simp only [FlowGraph.addExceptionEdge, hg handler hhandler, Bool.not_true, Bool.false_eq_true,
    if_false, hb]
  split
  · exact ⟨g, rfl, fun _ => id⟩
  · refine ⟨_, rfl, fun k hk => ?_⟩
    rwa [contains_setSuccessors]

theorem addLoop (l : LoopInfo) :
    Meets (.ok ()) known (LowerM.change (fun g => .ok (g.addLoop l))) (fun _ => []) :=
  .change (fun _ _ => ⟨_, rfl, fun _ => id⟩)

theorem ensureBlock (scope : Scope) : Meets (.ok ()) known (ensureBlock scope) (fun c => [c]) := by
  refine get.andThen (fun s => ?_)
  cases hcurrent : s.current with
  | some block => exact .pure _ (by simp)
  | none =>
    refine (newBlock scope .detached).andThen
      (fun c => (setCurrent ?_).andThen (fun _ => .pure c ?_))
    · simp
    · simp

theorem fallTo {target : BlockId} (htarget : target ∈ known) :
    Meets (.ok ()) known (fallTo target) (fun _ => []) := by
  refine get.andThen (fun s => ?_)
  cases hcurrent : s.current with
  | some block =>
    refine (endBlock ?_ ?_).andThen (fun _ => setCurrent nofun)
    · simp
    · simp [Terminator.edges, htarget]
  | none => exact .pure _ (List.nil_subset _)

theorem terminate (scope : Scope) {t : Terminator} (ht : ∀ e ∈ t.edges, e.target ∈ known) :
    Meets (.ok ()) known (terminate scope t) (fun _ => []) :=
  (ensureBlock scope).andThen (fun _ =>
    (endBlock (by simp) (fun e he => List.mem_append_right _ (ht e he))).andThen
      (fun _ => setCurrent nofun))

theorem peekBlock : Meets (.ok ()) known peekBlock (fun _ => []) :=
  get.andThen (fun _ => .pure _ (List.nil_subset _))

theorem blocksSince (n : Nat) : Meets (.ok ()) known (blocksSince n) id := by
  refine fun s hs => ⟨_, s, rfl, fun b hb => ?_⟩
  rcases hb with hb | hb
  · rcases List.mem_append.mp hb with hb | hb
    · exact mem_blockIds.mp (List.mem_filter.mp hb).1
    · exact hs.of_mem hb
  · exact hs b (.inr hb)

theorem forM {f : α → LowerM PUnit} {outcomes : α → Except Halt Unit} {xs : List α}
    (hf : ∀ x ∈ xs, Meets (outcomes x) known (f x) (fun _ => [])) :
    Meets (xs.forM outcomes) known (xs.forM f) (fun _ => []) := by
  induction xs with
  | nil => exact .pure _ (List.nil_subset _)
  | cons x xs ih =>
    exact (hf x List.mem_cons_self).bind
      (fun _ _ => ih (fun y hy => hf y (List.mem_cons_of_mem _ hy)))

theorem forM_ok {f : α → LowerM PUnit} {xs : List α}
    (hf : ∀ x ∈ xs, Meets (.ok ()) known (f x) (fun _ => [])) :
    Meets (.ok ()) known (xs.forM f) (fun _ => []) := by
  induction xs with
  | nil => exact .pure _ (List.nil_subset _)
  | cons x xs ih =>
    exact (hf x List.mem_cons_self).andThen
      (fun _ => ih (fun y hy => hf y (List.mem_cons_of_mem _ hy)))

theorem entryBlocks (scope : Scope) (handlers : List NodeId) :
    Meets (.ok ()) known (entryBlocks scope handlers) (fun entries => entries.map (·.2)) := by
  unfold LowerM.entryBlocks
  induction handlers generalizing known with
  | nil =>
    rw [List.mapM_nil]
    exact .pure _ (List.nil_subset _)
  | cons handler handlers ih =>
    rw [List.mapM_cons]
    have hentry : Meets (.ok ()) known (do return (handler, ← LowerM.newBlock scope .handler))
        (fun p => [p.2]) :=
      (newBlock scope .handler).andThen (fun c => .pure (handler, c) (by simp))
    exact hentry.andThen (fun p => ih.andThen (fun rest => .pure _ (by simp)))

end Meets

end LowerM

/-- The loop around the code leads to blocks that are known. -/
def Scope.Leads (scope : Scope) (known : List BlockId) : Prop :=
  ∀ l, scope.loop = some l → l.breakTo ∈ known ∧ l.continueTo ∈ known

theorem Scope.Leads.mono {scope : Scope} {known known' : List BlockId} (h : scope.Leads known)
    (hsub : known ⊆ known') : scope.Leads known' :=
  fun l hl => ⟨hsub (h l hl).1, hsub (h l hl).2⟩

/-- Lists of statements are lowered as far as it is said. -/
def Minding (within : Bool → List NodeId → Except Halt Unit)
    (lower : Scope → List NodeId → LowerM Unit) : Prop :=
  ∀ scope ids known, scope.Leads known →
    Meets (within scope.loop.isSome ids) known (lower scope ids) (fun _ => [])

namespace LowerM.Meets

variable {a : Arena} {within : Bool → List NodeId → Except Halt Unit}
  {lower : Scope → List NodeId → LowerM Unit} {scope : Scope} {id test : NodeId}
  {body orelse handlers : List NodeId} {known : List BlockId}

theorem simple (scope : Scope) (id : NodeId) :
    Meets (.ok ()) known (LowerM.simple scope id) (fun _ => []) := by
  refine (ensureBlock scope).andThen (fun c => (pushSlot (by simp) _).andThen (fun _ => ?_))
  split
  · exact (newBlock scope .tryBody).andThen (fun next => (fallTo (by simp)).andThen
      (fun _ => setCurrent (by simp)))
  · exact .pure _ (List.nil_subset _)

theorem leaveLoop {reason : String} {kind : EdgeKind} {target : LoopTargets → BlockId}
    (hknown : ∀ l, scope.loop = some l → target l ∈ known) :
    Meets (if scope.loop.isSome then .ok () else .error .stray) known
      (LowerM.leaveLoop scope id reason kind target) (fun _ => []) := by
  unfold LowerM.leaveLoop
  cases hloop : scope.loop with
  | some l => exact terminate scope (by simp [Terminator.edges, hknown l hloop])
  | none => exact .illegal id reason

theorem ifElse (h : Minding within lower) (hscope : scope.Leads known) :
    Meets (within scope.loop.isSome body >>= fun _ =>
      if orelse.isEmpty then .ok () else within scope.loop.isSome orelse) known
      (LowerM.ifElse lower scope id test body orelse) (fun _ => []) := by
  refine (ensureBlock scope).andThen (fun head => (newBlock scope .join).andThen (fun join =>
    (newBlock _ .thenPart).andThen (fun thenBlock => ?_)))
  have parts : ∀ (ids : List NodeId) {known' : List BlockId}, known ⊆ known' →
      Meets (within scope.loop.isSome ids) known' (lower { scope with construct := some id } ids)
        (fun _ => []) :=
    fun ids _ hsub => h { scope with construct := some id } ids _ (hscope.mono hsub)
  extract_lets inner further
  have rest : ∀ elseBlock : Option BlockId, Meets
      (within scope.loop.isSome body >>= fun _ =>
        match elseBlock with
        | none => .ok ()
        | some _ => within scope.loop.isSome orelse)
      (elseBlock.toList ++ ([thenBlock] ++ ([join] ++ ([head] ++ known)))) (further elseBlock)
      (fun _ => []) := by
    intro elseBlock
    refine (endBlock ?_ ?_).andThen (fun _ => (setCurrent ?_).andThen (fun _ =>
      (parts body ?_).bind (fun _ _ => (fallTo ?_).andThen (fun _ => ?_))))
    · simp
    · cases elseBlock <;> simp [Terminator.edges]
    · simp
    · exact fun b hb => by simp [hb]
    · simp
    · cases elseBlock with
      | none => exact setCurrent (by simp)
      | some block =>
        exact (setCurrent (by simp)).andThen (fun _ =>
          (parts orelse (fun b hb => by simp [hb])).before (fun _ =>
          (fallTo (by simp)).andThen (fun _ => setCurrent (by simp))))
  split
  · rw [pure_bind]
    exact rest none
  · rw [bind_map_left]
    exact (newBlock _ .elsePart).andThen (fun c => rest (some c))

/-- Loops are known inside of them. -/
theorem inLoop (h : Minding within lower) {ids : List NodeId} {l : LoopTargets}
    (hbreak : l.breakTo ∈ known) (hcontinue : l.continueTo ∈ known) (scope : Scope) :
    Meets (within true ids) known (lower { scope with loop := some l } ids) (fun _ => []) := by
  refine h { scope with loop := some l } ids known ?_
  intro l' hl'
  obtain rfl := Option.some.inj hl'
  exact ⟨hbreak, hcontinue⟩

theorem whileLoop (h : Minding within lower) :
    Meets (within true body) known (LowerM.whileLoop lower scope id test body) (fun _ => []) := by
  refine (ensureBlock scope).andThen (fun preheader =>
    (newBlock scope .loopExit).andThen (fun exit =>
    (newBlock _ .loopHeader).andThen (fun header => peekBlock.andThen (fun first =>
    (newBlock _ .loopBody).andThen (fun start => (endBlock ?_ ?_).andThen (fun _ =>
    (endBlock ?_ ?_).andThen (fun _ => (setCurrent ?_).andThen (fun _ =>
    (inLoop h ?_ ?_ _).before (fun _ => (fallTo ?_).andThen (fun _ =>
    (blocksSince first).andThen (fun blocks => (addLoop _).andThen (fun _ =>
    setCurrent ?_)))))))))))) <;> simp [Terminator.edges]

theorem forLoop (h : Minding within lower) {parallel : Bool} :
    Meets (within true body) known (LowerM.forLoop lower scope id body parallel)
      (fun _ => []) := by
  refine (ensureBlock scope).andThen (fun preheader => (pushSlot ?_ _).andThen (fun _ =>
    (newBlock scope .loopExit).andThen (fun exit => (newBlock _ .loopHeader).andThen (fun header =>
    peekBlock.andThen (fun first => (newBlock _ .loopBody).andThen (fun start =>
    (newBlock _ .loopLatch).andThen (fun latch => (endBlock ?_ ?_).andThen (fun _ =>
    (endBlock ?_ ?_).andThen (fun _ => (pushSlot ?_ _).andThen (fun _ =>
    (endBlock ?_ ?_).andThen (fun _ => (setCurrent ?_).andThen (fun _ =>
    (inLoop h ?_ ?_ _).before (fun _ => (fallTo ?_).andThen (fun _ =>
    (blocksSince first).andThen (fun blocks => (addLoop _).andThen (fun _ =>
    setCurrent ?_)))))))))))))))) <;> simp [Terminator.edges]

theorem raiseTo {entries : List (NodeId × BlockId)} {blocks : List BlockId}
    (hentries : ∀ p ∈ entries, p.2 ∈ known) (hblocks : ∀ block ∈ blocks, block ∈ known) :
    Meets (.ok ()) known (raiseTo entries blocks) (fun _ => []) :=
  forM_ok (fun block hblock => forM_ok (fun p hp =>
    addExceptionEdge (hblocks block hblock) (hentries p hp)))

theorem handlerParts (h : Minding within lower) {after : BlockId} {entries : List (NodeId × BlockId)}
    (hscope : scope.Leads known) (hafter : after ∈ known)
    (hentries : ∀ p ∈ entries, p.2 ∈ known) :
    Meets ((entries.map (·.1)).forM (fun handler => do
        let caught ← (a.handlerBody handler).mapError (fun _ => .unfit)
        within scope.loop.isSome caught)) known
      (handlerParts a lower scope entries after) (fun _ => []) := by
  rw [show ∀ f : NodeId → Except Halt PUnit, (entries.map (·.1)).forM f =
    entries.forM (fun p => f p.1) from fun f => List.forM_map]
  refine forM (fun p hp => lift (a.schematic_listField p.1 _) (fun caught _ => ?_))
  refine (setCurrent ?_).andThen (fun _ => (h scope caught known hscope).before (fun _ =>
    fallTo hafter))
  intro b hb
  exact Option.some.inj hb ▸ hentries p hp

theorem tryCatch (h : Minding within lower) (hscope : scope.Leads known) :
    Meets (within scope.loop.isSome body >>= fun _ => handlers.forM (fun handler => do
        let caught ← (a.handlerBody handler).mapError (fun _ => .unfit)
        within scope.loop.isSome caught)) known
      (LowerM.tryCatch a lower scope id body handlers) (fun _ => []) := by
  refine (ensureBlock scope).andThen (fun preheader =>
    (newBlock scope .afterTry).andThen (fun after =>
    (newBlock _ .tryBody).andThen (fun tryBlock =>
    (entryBlocks _ handlers).after (fun entries hrun => ?_))))
  obtain ⟨s, s', hrun⟩ := hrun
  obtain rfl := entryBlocks_handlers hrun
  have hknown : ∀ p ∈ entries, p.2 ∈ entries.map (·.2) := fun p hp => List.mem_map_of_mem hp
  have hbody : ∀ {known' : List BlockId}, known ⊆ known' →
      Meets (within scope.loop.isSome body) known'
        (lower { scope with construct := some id, guarded := true } body) (fun _ => []) :=
    fun hsub => h { scope with construct := some id, guarded := true } body _ (hscope.mono hsub)
  have hleads : ∀ {known' : List BlockId}, known ⊆ known' →
      Scope.Leads { scope with construct := some id } known' := fun hsub => hscope.mono hsub
  refine (endBlock ?_ ?_).andThen (fun _ => peekBlock.andThen (fun first =>
    (setCurrent ?_).andThen (fun _ => (hbody ?_).bind (fun _ _ => (fallTo ?_).andThen (fun _ =>
    (blocksSince first).andThen (fun nested => ?_))))))
  · simp
  · simp [Terminator.edges]
  · simp
  · exact fun b hb => by simp [hb]
  · simp
  refine (raiseTo (fun p hp => ?_) (fun block hblock => ?_)).andThen
    (fun _ => (handlerParts h (hleads ?_) ?_ ?_).before (fun _ => setCurrent ?_))
  · have := hknown p hp
    simp only [List.mem_append, this, true_or, or_true]
  · rcases List.mem_cons.mp hblock with rfl | hblock
    · simp
    · exact List.mem_append_left _ hblock
  · exact fun b hb => by simp [hb]
  · simp
  · intro p hp
    have := hknown p hp
    simp only [List.mem_append, this, true_or, or_true]
  · simp

theorem statements {outcomes : Bool → NodeId → Except Halt Unit} {f : Scope → NodeId → LowerM PUnit}
    (hf : ∀ scope id known, scope.Leads known →
      Meets (outcomes scope.loop.isSome id) known (f scope id) (fun _ => [])) :
    Minding (fun looped ids => ids.forM (outcomes looped)) (fun scope ids => ids.forM (f scope)) :=
  fun scope _ known hscope => forM (fun id _ => hf scope id known hscope)

theorem statement (fuel : Nat) : ∀ scope id known, scope.Leads known →
    Meets (a.halts fuel scope.loop.isSome id) known (LowerM.statement a fuel scope id)
      (fun _ => []) := by
  induction fuel with
  | zero => exact fun scope id known _ s _ => ⟨_, rfl, rfl⟩
  | succ fuel ih =>
    intro scope id known hscope
    have h := statements ih
    refine lift (a.schematic_statement id) (fun st _ => ?_)
    cases st with
    | assign | expr => exact simple scope id
    | ifElse test body orelse =>
      have helse : (if orelse.isEmpty then Except.ok () else
          orelse.forM (a.halts fuel scope.loop.isSome)) =
            orelse.forM (a.halts fuel scope.loop.isSome) := by
        cases orelse <;> rfl
      have hmeets : Meets (body.forM (a.halts fuel scope.loop.isSome) >>= fun _ =>
          if orelse.isEmpty then .ok () else orelse.forM (a.halts fuel scope.loop.isSome)) known
          (LowerM.ifElse _ scope id test body orelse) (fun _ => []) := ifElse h hscope
      rw [helse] at hmeets
      exact hmeets
    | whileLoop => exact whileLoop h
    | forLoop => exact forLoop h
    | tryCatch => exact tryCatch h hscope
    | breakStmt => exact leaveLoop (fun l hl => (hscope l hl).1)
    | continueStmt => exact leaveLoop (fun l hl => (hscope l hl).2)
    | returnStmt | raise => exact terminate scope nofun

end LowerM.Meets

namespace Arena

variable {a : Arena} {fuel : Nat} {looped : Bool} {id : NodeId} {ids : List NodeId} {halt : Halt}

theorem halts_succ {s : Statement} (hs : a.statement id = .ok s) : a.halts (fuel + 1) looped id =
    a.haltsIn (fun looped ids => ids.forM (a.halts fuel looped)) looped s := by
  rw [halts, hs]
  rfl

theorem statement_of_halts (h : a.halts fuel looped id = .ok ()) :
    ∃ s, a.statement id = .ok s := by
  cases fuel with
  | zero => cases h
  | succ fuel =>
    cases hs : a.statement id with
    | ok s => exact ⟨s, rfl⟩
    | error e =>
      rw [halts, hs] at h
      cases h

/-- Code that lowering stops in for a `break` or `continue` has it outside of every loop. -/
theorem comes_of_stray (h : ids.forM (a.halts fuel looped) = .error .stray) :
    looped = false ∧ ∀ guarded, Comes a (fun _ _ => True) Strays [] guarded (.all ids) := by
  induction fuel generalizing looped ids with
  | zero =>
    obtain ⟨before, id, after, -, -, hid⟩ := forM_error_iff.mp h
    cases hid
  | succ fuel ih =>
    obtain ⟨before, id, after, rfl, hbefore, hid⟩ := forM_error_iff.mp h
    cases hs : a.statement id with
    | error e =>
      rw [halts, hs] at hid
      cases hid
    | ok s =>
      rw [halts_succ hs] at hid
      have hone : looped = false ∧
          ∀ guarded, Comes a (fun _ _ => True) Strays [] guarded (.one id s) := by
        cases s with
        | assign | expr | returnStmt | raise => cases hid
        | ifElse test body orelse =>
          rcases except_bind_error.mp hid with hbody | ⟨u, -, horelse⟩
          · exact ⟨(ih hbody).1, fun guarded => .thenPart ((ih hbody).2 guarded)⟩
          · exact ⟨(ih horelse).1, fun guarded => .elsePart ((ih horelse).2 guarded)⟩
        | whileLoop | forLoop => cases (ih hid).1
        | tryCatch body handlers =>
          rcases except_bind_error.mp hid with hbody | ⟨u, -, hhandlers⟩
          · exact ⟨(ih hbody).1, fun guarded => .tryBody ((ih hbody).2 true)⟩
          · obtain ⟨first, handler, rest, rfl, -, hhandler⟩ := forM_error_iff.mp hhandlers
            rcases except_bind_error.mp hhandler with hread | ⟨caught, hread, hcaught⟩
            · cases hbody : a.handlerBody handler with
              | ok caught => rw [hbody] at hread; cases hread
              | error e => rw [hbody] at hread; cases hread
            · exact ⟨(ih hcaught).1, fun guarded => .handler (by simp)
                (except_mapError_ok.mp hread) ((ih hcaught).2 guarded)⟩
        | breakStmt | continueStmt =>
          cases looped with
          | true => cases hid
          | false => exact ⟨rfl, fun guarded => .here rfl⟩
      refine ⟨hone.1, fun guarded => ?_⟩
      clear h
      induction before with
      | nil => exact .first hs (hone.2 guarded)
      | cons k before ihb =>
        obtain ⟨t, ht⟩ := statement_of_halts (hbefore k List.mem_cons_self)
        exact .later ht trivial (ihb (fun x hx => hbefore x (List.mem_cons_of_mem _ hx)))

end Arena

open LowerM

theorem FlowGraph.start_knows (name : String) :
    Lowering.Knows [] ⟨FlowGraph.new name, (FlowGraph.new name).entry⟩ := by
  intro b hb
  rcases hb with hb | hb
  · cases hb
  · obtain rfl := Option.some.inj hb
    rfl

/-- However deep the statements of a function are lowered, this comes to an end as is told. -/
theorem FlowGraph.body_meets (a : Arena) (fuel : Nat) (body : List NodeId) :
    Meets (body.forM (a.halts fuel false)) [] (body.forM (LowerM.statement a fuel {}))
      (fun _ => []) := by
  have h : Minding _ (fun scope ids => ids.forM (LowerM.statement a fuel scope)) :=
    Meets.statements (Meets.statement fuel)
  exact h {} body [] nofun

/-- The graph of a function is made, or there is what keeps lowering from the end. -/
theorem FlowGraph.lower_halts (a : Arena) (view : FunctionView) :
    EndsAs (view.body.forM (a.halts a.nodes.size false)) (FlowGraph.lower a view) := by
  have hmeets := body_meets a a.nodes.size view.body _ (start_knows view.name)
  cases hbody : view.body.forM (a.halts a.nodes.size false) with
  | error halt =>
    rw [hbody] at hmeets
    obtain ⟨e, hrun, he⟩ := hmeets
    exact ⟨e, congrArg (· >>= _) hrun, he⟩
  | ok u =>
    rw [hbody] at hmeets
    obtain ⟨u, s, hrun, hknows⟩ := hmeets
    have hlower : FlowGraph.lower a view = _ := congrArg (· >>= _) hrun
    dsimp only [Bind.bind, Except.bind] at hlower
    cases hcurrent : s.current with
    | none =>
      rw [hcurrent] at hlower
      exact ⟨_, hlower⟩
    | some c =>
      obtain ⟨g, hg, -⟩ := setTerminator_total (t := .returnWith none)
        (hknows c (.inr hcurrent)) (by simp [Terminator.edges])
      rw [hcurrent] at hlower
      exact ⟨g, hlower.trans hg⟩

/-- Where there is a stray `break` or `continue`, that may be the fault. -/
def Fault.Expected (stray : Prop) : Fault → Prop
  | .schema _ _ => True
  | .illegal _ _ _ => stray
  | _ => False

theorem lower_expected {a : Arena} {view : FunctionView} {e : Fault}
    (run : FlowGraph.lower a view = .error e) :
    e.Expected (Comes a (fun _ _ => True) Strays [] false (.all view.body)) := by
  have hhalts := lower_halts a view
  cases hbody : view.body.forM (a.halts a.nodes.size false) with
  | ok u =>
    rw [hbody] at hhalts
    obtain ⟨g, hg⟩ := hhalts
    cases run.symm.trans hg
  | error halt =>
    rw [hbody] at hhalts
    obtain ⟨e', he', hcauses⟩ := hhalts
    obtain rfl := Except.error.inj (run.symm.trans he')
    cases e with
    | schema kind reason => exact trivial
    | illegal function node reason =>
      cases halt with
      | stray => exact (Arena.comes_of_stray hbody).2 false
      | unfit | deep => cases hcauses
    | _ => cases halt <;> cases hcauses

end TypedSsa

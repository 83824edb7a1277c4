import TypedSsa.Proofs.Growth
import TypedSsa.Proofs.Nesting

/-!
The steps that lowering takes, and relations on graphs that all of them follow. Main statement:
`lower_sourced`: blocks hold nothing but parts of the statements that are lowered.
-/

namespace TypedSsa

/-! What may be put into a block, given the nodes that it may come from. -/

section
variable (a : Arena) (source : NodeId → Prop)

def Slot.From : Slot → Prop
  | .node id => source id ∧ ∃ st, a.statement id = .ok st
  | .loopInit construct | .loopStep construct =>
    source construct ∧ ∃ loop, a.statement construct = .ok (.forLoop loop)

def Condition.From : Condition → Prop
  | .expr id => source id
  | .loopTest construct => source construct ∧ ∃ loop, a.statement construct = .ok (.forLoop loop)

def Terminator.From : Terminator → Prop
  | .branch condition _ _ => condition.From a source
  | .returnWith value | .raise value => ∀ id ∈ value, source id
  | _ => True

structure Block.From (b : Block) : Prop where
  slots : ∀ slot ∈ b.slots, slot.From a source
  ended : ∀ t ∈ b.terminator, t.From a source

end

namespace LowerM

variable {α β : Type} {s s' s'' : Lowering}

/-! The steps of which the constructs consist more than once or in a loop. -/

section
variable (a : Arena) (lower : Scope → List NodeId → LowerM Unit) (scope : Scope)

/-- The end of the block before a branch, and its parts, of which the second may be missing. -/
def branchParts (id test : NodeId) (body orelse : List NodeId) (head thenBlock join : BlockId)
    (elseBlock : Option BlockId) : LowerM Unit := do
  endBlock head (.branch (.expr test) thenBlock (elseBlock.getD join))
  setCurrent thenBlock
  lower { scope with construct := some id } body
  fallTo join
  if let some block := elseBlock then
    setCurrent block
    lower { scope with construct := some id } orelse
    fallTo join
  setCurrent join

/-- Each handler beside a new block. -/
def entryBlocks (handlers : List NodeId) : LowerM (List (NodeId × BlockId)) :=
  handlers.mapM (fun handler => return (handler, ← newBlock scope .handler))

/-- A block comes to raise to the blocks of handlers. -/
def raiseFrom (entries : List (NodeId × BlockId)) (block : BlockId) : LowerM Unit :=
  entries.forM (fun (_, entry) => change (·.addExceptionEdge block entry))

/-- Several blocks do. -/
def raiseTo (entries : List (NodeId × BlockId)) (blocks : List BlockId) : LowerM Unit :=
  blocks.forM (raiseFrom entries)

/-- The bodies of handlers. -/
def handlerParts (entries : List (NodeId × BlockId)) (after : BlockId) : LowerM Unit :=
  entries.forM (fun (handler, entry) => do
    let body ← (a.handlerBody handler : Except Fault _)
    setCurrent entry
    lower scope body
    fallTo after)

end

/-! Runs of the builder taken apart. -/

theorem change_ok {step : FlowGraph → Except Fault FlowGraph} {u : Unit}
    (h : change step s = .ok (u, s')) : ∃ g, step s.graph = .ok g ∧ s' = { s with graph := g } := by
  unfold change at h
  obtain ⟨s₁, s₂, hget, h⟩ := bind_ok h
  cases hget
  obtain ⟨g, s₃, hstep, h⟩ := bind_ok h
  obtain ⟨hg, rfl⟩ := lift_ok hstep
  cases h
  exact ⟨g, hg, rfl⟩

theorem setCurrent_ok {block : Option BlockId} {u : Unit}
    (h : setCurrent block s = .ok (u, s')) : s' = { s with current := block } := by
  cases h
  rfl

theorem newBlock_ok {scope : Scope} {role : BlockRole} {c : BlockId}
    (h : newBlock scope role s = .ok (c, s')) : c = ⟨s.graph.nextBlock⟩ ∧
      s' = { s with graph := (s.graph.createBlock role scope.construct scope.depth).2 } := by
  cases h
  exact ⟨rfl, rfl⟩

theorem ensureBlock_ok {scope : Scope} {c : BlockId} (h : ensureBlock scope s = .ok (c, s')) :
    (s.current = some c ∧ s' = s) ∨ (s.current = none ∧
      ∃ s₁, newBlock scope .detached s = .ok (c, s₁) ∧ s' = { s₁ with current := some c }) := by
  unfold ensureBlock at h
  obtain ⟨s₁, s₂, hget, h⟩ := bind_ok h
  cases hget
  cases hcurrent : s.current with
  | some block =>
    rw [hcurrent] at h
    obtain ⟨rfl, rfl⟩ := pure_ok h
    exact .inl ⟨rfl, rfl⟩
  | none =>
    rw [hcurrent] at h
    obtain ⟨block, s₁, hnew, h⟩ := bind_ok h
    obtain ⟨u, s₂, hset, h⟩ := bind_ok h
    obtain rfl := setCurrent_ok hset
    obtain ⟨rfl, rfl⟩ := pure_ok h
    exact .inr ⟨rfl, s₁, hnew, rfl⟩

theorem fallTo_ok {target : BlockId} {u : Unit} (h : fallTo target s = .ok (u, s')) :
    (s.current = none ∧ s' = s) ∨ ∃ c g, s.current = some c ∧
      s.graph.setTerminator c (.jump target .normal) = .ok g ∧ s' = ⟨g, none⟩ := by
  unfold fallTo at h
  obtain ⟨s₁, s₂, hget, h⟩ := bind_ok h
  cases hget
  cases hcurrent : s.current with
  | none =>
    rw [hcurrent] at h
    obtain ⟨-, rfl⟩ := pure_ok h
    exact .inl ⟨rfl, rfl⟩
  | some c =>
    rw [hcurrent] at h
    obtain ⟨u, s₁, hend, h⟩ := bind_ok h
    obtain ⟨g, hg, rfl⟩ := change_ok hend
    obtain rfl := setCurrent_ok h
    exact .inr ⟨c, g, rfl, hg, rfl⟩

theorem peekBlock_ok {n : Nat} (h : peekBlock s = .ok (n, s')) :
    n = s.graph.nextBlock ∧ s = s' := by
  cases h
  exact ⟨rfl, rfl⟩

theorem blocksSince_ok {n : Nat} {blocks : List BlockId}
    (h : blocksSince n s = .ok (blocks, s')) :
    blocks = s.graph.blockIds.filter (fun id => n ≤ id.raw) ∧ s = s' := by
  cases h
  exact ⟨rfl, rfl⟩

theorem entryBlocks_nil {scope : Scope} {entries : List (NodeId × BlockId)}
    (run : entryBlocks scope [] s = .ok (entries, s')) : entries = [] ∧ s' = s := by
  rw [entryBlocks, List.mapM_nil] at run
  obtain ⟨rfl, rfl⟩ := pure_ok run
  exact ⟨rfl, rfl⟩

/-- A handler is put beside a new block, and so are the others after it. -/
theorem entryBlocks_cons {scope : Scope} {handler : NodeId} {handlers : List NodeId}
    {entries : List (NodeId × BlockId)}
    (run : entryBlocks scope (handler :: handlers) s = .ok (entries, s')) :
    ∃ entry s₁ rest, entries = (handler, entry) :: rest ∧
      newBlock scope .handler s = .ok (entry, s₁) ∧
      entryBlocks scope handlers s₁ = .ok (rest, s') := by
  rw [entryBlocks, List.mapM_cons] at run
  obtain ⟨x, s₁, hone, run⟩ := bind_ok run
  obtain ⟨entry, s₂, hnew, hpure⟩ := bind_ok hone
  obtain ⟨rfl, rfl⟩ := pure_ok hpure
  obtain ⟨rest, s₃, hrest, run⟩ := bind_ok run
  obtain ⟨rfl, rfl⟩ := pure_ok run
  exact ⟨entry, s₂, rest, rfl, hnew, hrest⟩

theorem entryBlocks_handlers {scope : Scope} {handlers : List NodeId}
    {entries : List (NodeId × BlockId)}
    (run : entryBlocks scope handlers s = .ok (entries, s')) : entries.map (·.1) = handlers := by
  induction handlers generalizing s entries with
  | nil =>
    obtain ⟨rfl, -⟩ := entryBlocks_nil run
    rfl
  | cons handler handlers ih =>
    obtain ⟨entry, s₁, rest, rfl, -, hrest⟩ := entryBlocks_cons run
    rw [List.map_cons, ih hrest]

/-- One handler is lowered from its block on, and then the others are. -/
theorem handlerParts_cons {a : Arena} {lower : Scope → List NodeId → LowerM Unit} {scope : Scope}
    {x : NodeId × BlockId} {entries : List (NodeId × BlockId)} {after : BlockId} {u : Unit}
    (run : handlerParts a lower scope (x :: entries) after s = .ok (u, s')) :
    ∃ body s₁ s₂, a.handlerBody x.1 = .ok body ∧
      lower scope body ⟨s.graph, some x.2⟩ = .ok ((), s₁) ∧ fallTo after s₁ = .ok ((), s₂) ∧
      handlerParts a lower scope entries after s₂ = .ok (u, s') := by
  obtain ⟨u₁, s₂, hone, run⟩ := bind_ok run
  obtain ⟨body, s₃, hlift, hone⟩ := bind_ok hone
  obtain ⟨hbody, rfl⟩ := lift_ok hlift
  obtain ⟨u₂, s₄, hset, hone⟩ := bind_ok hone
  obtain rfl := setCurrent_ok hset
  obtain ⟨u₃, s₁, hlower, hfall⟩ := bind_ok hone
  exact ⟨body, s₁, s₂, hbody, hlower, hfall, run⟩

/-! Relations that lowering follows. -/

/-- Each run takes the graph along a relation. -/
def Along (R : FlowGraph → FlowGraph → Prop) (m : LowerM α) : Prop :=
  ∀ s x s', m s = .ok (x, s') → R s.graph s'.graph

/-- Every step on a graph goes along a relation, as long as what it puts into blocks is of some
sort. -/
structure Follows (slots : Slot → Prop) (ends : Terminator → Prop)
    (R : FlowGraph → FlowGraph → Prop) : Prop where
  refl : ∀ g, R g g
  trans : ∀ g g' g'', R g g' → R g' g'' → R g g''
  creates : ∀ g role construct depth, R g (g.createBlock role construct depth).2
  pushes : ∀ g g' c slot, slots slot → g.pushSlot c slot = .ok g' → R g g'
  terminates : ∀ g g' c t, ends t → g.setTerminator c t = .ok g' → R g g'
  raises : ∀ g g' c handler, g.addExceptionEdge c handler = .ok g' → R g g'
  loops : ∀ g l, R g (g.addLoop l)
  jumps : ∀ target kind, ends (.jump target kind)

namespace Follows

variable {a : Arena} {slots : Slot → Prop} {ends : Terminator → Prop}
  {R : FlowGraph → FlowGraph → Prop}
variable (h : Follows slots ends R)
include h

theorem bind {m : LowerM α} {f : α → LowerM β} (hm : Along R m)
    (hf : ∀ s x s', m s = .ok (x, s') → Along R (f x)) : Along R (m >>= f) := by
  intro s y s'' run
  obtain ⟨x, s', hrun, run⟩ := bind_ok run
  exact h.trans _ _ _ (hm s x s' hrun) (hf s x s' hrun s' y s'' run)

theorem andThen {m : LowerM α} {f : α → LowerM β} (hm : Along R m) (hf : ∀ x, Along R (f x)) :
    Along R (m >>= f) :=
  h.bind hm (fun _ x _ _ => hf x)

theorem pure (x : α) : Along R (pure x : LowerM α) := by
  intro s y s' run
  obtain ⟨-, rfl⟩ := pure_ok run
  exact h.refl _

theorem lift (m : Except Fault α) : Along R (liftM m : LowerM α) := by
  intro s y s' run
  obtain ⟨-, rfl⟩ := lift_ok run
  exact h.refl _

theorem get : Along R (get : LowerM Lowering) := by
  intro s y s' run
  cases run
  exact h.refl _

theorem map {m : LowerM α} (hm : Along R m) (f : α → β) : Along R (f <$> m) := by
  rw [← bind_pure_comp]
  exact h.andThen hm (fun x => h.pure (f x))

theorem setCurrent (block : Option BlockId) : Along R (setCurrent block) := by
  intro s u s' run
  obtain rfl := setCurrent_ok run
  exact h.refl _

theorem newBlock (scope : Scope) (role : BlockRole) : Along R (newBlock scope role) := by
  intro s c s' run
  obtain ⟨-, rfl⟩ := newBlock_ok run
  exact h.creates _ _ _ _

theorem ensureBlock (scope : Scope) : Along R (ensureBlock scope) := by
  refine h.andThen h.get (fun s => ?_)
  split
  · exact h.pure _
  · exact h.andThen (h.newBlock scope .detached)
      (fun c => h.andThen (h.setCurrent c) (fun _ => h.pure c))

theorem endBlock (c : BlockId) (t : Terminator) (ht : ends t) :
    Along R (endBlock c t) := by
  intro s u s' run
  obtain ⟨g, hg, rfl⟩ := change_ok run
  exact h.terminates _ _ _ _ ht hg

theorem pushSlot (c : BlockId) (slot : Slot) (hslot : slots slot) :
    Along R (pushSlot c slot) := by
  intro s u s' run
  obtain ⟨g, hg, rfl⟩ := change_ok run
  exact h.pushes _ _ _ _ hslot hg

theorem addExceptionEdge (c handler : BlockId) :
    Along R (LowerM.change (·.addExceptionEdge c handler)) := by
  intro s u s' run
  obtain ⟨g, hg, rfl⟩ := change_ok run
  exact h.raises _ _ _ _ hg

theorem addLoop (l : LoopInfo) : Along R (LowerM.change (fun g => .ok (g.addLoop l))) := by
  intro s u s' run
  obtain ⟨g, hg, rfl⟩ := change_ok run
  cases hg
  exact h.loops _ _

theorem terminate (scope : Scope) {t : Terminator} (ht : ends t) :
    Along R (terminate scope t) :=
  h.andThen (h.ensureBlock scope) (fun c => h.andThen (h.endBlock c t ht) (fun _ => h.setCurrent none))

theorem fallTo (target : BlockId) : Along R (fallTo target) := by
  refine h.andThen h.get (fun s => ?_)
  split
  · exact h.andThen (h.endBlock _ _ (h.jumps _ _)) (fun _ => h.setCurrent none)
  · exact h.pure _

theorem peekBlock : Along R peekBlock :=
  h.andThen h.get (fun _ => h.pure _)

theorem blocksSince (n : Nat) : Along R (blocksSince n) :=
  h.andThen h.get (fun _ => h.pure _)

theorem forM {f : α → LowerM PUnit} {xs : List α} (hf : ∀ x ∈ xs, Along R (f x)) :
    Along R (xs.forM f) := by
  induction xs with
  | nil => exact h.pure _
  | cons x xs ih =>
    exact h.andThen (hf x List.mem_cons_self)
      (fun _ => ih (fun y hy => hf y (List.mem_cons_of_mem _ hy)))

theorem mapM {f : α → LowerM β} (hf : ∀ x, Along R (f x)) (xs : List α) : Along R (xs.mapM f) := by
  induction xs with
  | nil =>
    rw [List.mapM_nil]
    exact h.pure _
  | cons x xs ih =>
    rw [List.mapM_cons]
    exact h.andThen (hf x) (fun _ => h.andThen ih (fun _ => h.pure _))

/-! Statements. -/

variable {lower : Scope → List NodeId → LowerM Unit}

theorem simple (scope : Scope) {id : NodeId} (hslot : slots (.node id)) :
    Along R (simple scope id) := by
  refine h.andThen (h.ensureBlock scope) (fun c => h.andThen (h.pushSlot c _ hslot) (fun _ => ?_))
  split
  · exact h.andThen (h.newBlock scope .tryBody)
      (fun next => h.andThen (h.fallTo next) (fun _ => h.setCurrent next))
  · exact h.pure _

theorem leaveLoop (scope : Scope) (id : NodeId) (reason : String) (kind : EdgeKind)
    (target : LoopTargets → BlockId) : Along R (leaveLoop scope id reason kind target) := by
  unfold LowerM.leaveLoop
  split
  · exact h.terminate scope (h.jumps _ _)
  · intro s u s' run
    cases run

theorem branchParts (scope : Scope) (id test : NodeId) {body orelse : List NodeId}
    (htest : ∀ x y, ends (.branch (.expr test) x y)) (hbody : ∀ scope, Along R (lower scope body))
    (horelse : ∀ scope, Along R (lower scope orelse)) (head thenBlock join : BlockId)
    (elseBlock : Option BlockId) :
    Along R (branchParts lower scope id test body orelse head thenBlock join elseBlock) := by
  refine h.andThen (h.endBlock _ _ (htest _ _)) (fun _ => h.andThen (h.setCurrent _) (fun _ =>
    h.andThen (hbody _) (fun _ => h.andThen (h.fallTo join) (fun _ => ?_))))
  cases elseBlock with
  | none => exact h.setCurrent _
  | some block =>
    exact h.andThen (h.setCurrent _) (fun _ => h.andThen (horelse _) (fun _ =>
      h.andThen (h.fallTo join) (fun _ => h.setCurrent _)))

theorem ifElse (scope : Scope) (id : NodeId) {test : NodeId} {body orelse : List NodeId}
    (htest : ∀ x y, ends (.branch (.expr test) x y)) (hbody : ∀ scope, Along R (lower scope body))
    (horelse : ∀ scope, Along R (lower scope orelse)) :
    Along R (ifElse lower scope id test body orelse) := by
  refine h.andThen (h.ensureBlock scope) (fun head => h.andThen (h.newBlock scope .join) (fun join =>
    h.andThen (h.newBlock _ .thenPart) (fun thenBlock => ?_)))
  have rest := h.branchParts scope id test htest hbody horelse head thenBlock join
  split
  · exact h.andThen (h.pure none) rest
  · exact h.andThen (h.map (h.newBlock _ .elsePart) some) rest

theorem whileLoop (scope : Scope) (id : NodeId) {test : NodeId} {body : List NodeId}
    (htest : ∀ x y, ends (.branch (.expr test) x y)) (hbody : ∀ scope, Along R (lower scope body)) :
    Along R (whileLoop lower scope id test body) :=
  h.andThen (h.ensureBlock scope) (fun _ => h.andThen (h.newBlock scope .loopExit) (fun _ =>
    h.andThen (h.newBlock _ .loopHeader) (fun _ => h.andThen h.peekBlock (fun _ =>
    h.andThen (h.newBlock _ .loopBody) (fun _ => h.andThen (h.endBlock _ _ (h.jumps _ _)) (fun _ =>
    h.andThen (h.endBlock _ _ (htest _ _)) (fun _ => h.andThen (h.setCurrent _) (fun _ =>
    h.andThen (hbody _) (fun _ => h.andThen (h.fallTo _) (fun _ =>
    h.andThen (h.blocksSince _) (fun _ => h.andThen (h.addLoop _) (fun _ =>
    h.setCurrent _))))))))))))

theorem forLoop (scope : Scope) {id : NodeId} {body : List NodeId} (parallel : Bool)
    (hinit : slots (.loopInit id)) (hstep : slots (.loopStep id))
    (htest : ∀ x y, ends (.branch (.loopTest id) x y))
    (hbody : ∀ scope, Along R (lower scope body)) :
    Along R (forLoop lower scope id body parallel) :=
  h.andThen (h.ensureBlock scope) (fun _ => h.andThen (h.pushSlot _ _ hinit) (fun _ =>
    h.andThen (h.newBlock scope .loopExit) (fun _ => h.andThen (h.newBlock _ .loopHeader) (fun _ =>
    h.andThen h.peekBlock (fun _ => h.andThen (h.newBlock _ .loopBody) (fun _ =>
    h.andThen (h.newBlock _ .loopLatch) (fun _ => h.andThen (h.endBlock _ _ (h.jumps _ _)) (fun _ =>
    h.andThen (h.endBlock _ _ (htest _ _)) (fun _ =>
    h.andThen (h.pushSlot _ _ hstep) (fun _ => h.andThen (h.endBlock _ _ (h.jumps _ _)) (fun _ =>
    h.andThen (h.setCurrent _) (fun _ => h.andThen (hbody _) (fun _ =>
    h.andThen (h.fallTo _) (fun _ => h.andThen (h.blocksSince _) (fun _ =>
    h.andThen (h.addLoop _) (fun _ => h.setCurrent _))))))))))))))))

theorem entryBlocks (scope : Scope) (handlers : List NodeId) :
    Along R (entryBlocks scope handlers) :=
  h.mapM (fun _ => h.andThen (h.newBlock scope .handler) (fun _ => h.pure _)) handlers

theorem raiseTo (entries : List (NodeId × BlockId)) (blocks : List BlockId) :
    Along R (raiseTo entries blocks) :=
  h.forM (fun block _ => h.forM (fun p _ => h.addExceptionEdge block p.2))

theorem handlerParts (scope : Scope) {entries : List (NodeId × BlockId)} (after : BlockId)
    (hcaught : ∀ x ∈ entries, ∀ ids, a.handlerBody x.1 = .ok ids →
      ∀ scope, Along R (lower scope ids)) :
    Along R (handlerParts a lower scope entries after) := by
  refine h.forM (fun x hx => h.bind (h.lift _) (fun s ids s' run => ?_))
  have hids := hcaught x hx ids (lift_ok run).1
  exact h.andThen (h.setCurrent _) (fun _ => h.andThen (hids _) (fun _ => h.fallTo after))

theorem tryCatch (scope : Scope) (id : NodeId) {body handlers : List NodeId}
    (hbody : ∀ scope, Along R (lower scope body))
    (hcaught : ∀ handler ∈ handlers, ∀ ids, a.handlerBody handler = .ok ids →
      ∀ scope, Along R (lower scope ids)) :
    Along R (tryCatch a lower scope id body handlers) := by
  refine h.andThen (h.ensureBlock scope) (fun _ => h.andThen (h.newBlock scope .afterTry) (fun after =>
    h.andThen (h.newBlock _ .tryBody) (fun tryBlock => ?_)))
  refine h.bind (h.entryBlocks _ handlers) (fun s entries s' hentries => ?_)
  have hsame := entryBlocks_handlers hentries
  refine h.andThen (h.endBlock _ _ (h.jumps _ _)) (fun _ => h.andThen h.peekBlock (fun _ =>
    h.andThen (h.setCurrent _) (fun _ => h.andThen (hbody _) (fun _ =>
    h.andThen (h.fallTo after) (fun _ => h.andThen (h.blocksSince _) (fun _ => ?_))))))
  refine h.andThen (h.raiseTo entries _) (fun _ =>
    h.andThen (h.handlerParts _ after (fun x hx => ?_)) (fun _ => h.setCurrent _))
  exact hcaught x.1 (hsame ▸ List.mem_map_of_mem hx)

/-- What a statement is made of may be lowered where the statement may. -/
theorem statement (source : NodeId → Prop) (hslots : ∀ slot, slot.From a source → slots slot)
    (hends : ∀ t, t.From a source → ends t) (hclosed : ∀ u w, source u → a.Leads u w → source w)
    (fuel : Nat) : ∀ (scope : Scope) (id : NodeId), source id →
      Along R (statement a fuel scope id) := by
  induction fuel with
  | zero =>
    intro scope id _ s u s' run
    cases run
  | succ fuel ih =>
    intro scope id hid
    have lower {ids : List NodeId} (hids : ∀ w ∈ ids, source w) (scope : Scope) :
        Along R (ids.forM (LowerM.statement a fuel scope)) :=
      h.forM (fun w hw => ih scope w (hids w hw))
    refine h.bind (h.lift _) (fun s st s' run => ?_)
    have hst := (lift_ok run).1
    have hparts : ∀ w ∈ st.parts, source w :=
      fun w hw => hclosed id w hid (Arena.leads_of_statement hst hw)
    cases st with
    | assign | expr => exact h.simple scope (hslots _ ⟨hid, _, hst⟩)
    | ifElse test body orelse =>
      have htest : source test := hparts test List.mem_cons_self
      refine h.ifElse scope id (fun _ _ => hends _ htest) (lower ?_) (lower ?_)
      · exact fun w hw => hparts w (List.mem_cons_of_mem _ (List.mem_append_left _ hw))
      · exact fun w hw => hparts w (List.mem_cons_of_mem _ (List.mem_append_right _ hw))
    | whileLoop test body =>
      have htest : source test := hparts test List.mem_cons_self
      exact h.whileLoop scope id (fun _ _ => hends _ htest)
        (lower (fun w hw => hparts w (List.mem_cons_of_mem _ hw)))
    | forLoop loop =>
      have hloop : source id ∧ ∃ loop, a.statement id = .ok (.forLoop loop) := ⟨hid, loop, hst⟩
      refine h.forLoop scope loop.parallel (hslots _ hloop) (hslots _ hloop)
        (fun _ _ => hends _ hloop) (lower ?_)
      exact fun w hw => hparts w
        (List.mem_cons_of_mem _ (List.mem_cons_of_mem _ (List.mem_append_right _ hw)))
    | tryCatch body handlers =>
      refine h.tryCatch scope id (lower ?_) (fun handler hhandler ids hids => lower ?_)
      · exact fun w hw => hparts w (List.mem_append_left _ hw)
      · exact fun w hw => hclosed handler w (hparts handler (List.mem_append_right _ hhandler))
          (Arena.leads_of_listField hids hw)
    | breakStmt | continueStmt => exact h.leaveLoop _ _ _ _ _
    | returnStmt value =>
      exact h.terminate scope (hends _ (fun x hx => hparts x (Option.mem_toList.mpr hx)))
    | raise value =>
      exact h.terminate scope (hends _ (fun x hx => hparts x (Option.mem_toList.mpr hx)))

end Follows

end LowerM

/-! What stands in the blocks of a function. -/

namespace FlowGraph

variable {a : Arena} {source : NodeId → Prop} {g g' : FlowGraph} {view : FunctionView} {fn : NodeId}

/-- Blocks hold parts of some code alone. -/
def Sourced (a : Arena) (source : NodeId → Prop) (g : FlowGraph) : Prop :=
  ∀ c b, g.bare? c = some b → b.From a source

theorem Updates.sourced {c : BlockId} {b b' : Block} (h : Updates g c b b' g')
    (hg : Sourced a source g) (hb : b.From a source → b'.From a source) : Sourced a source g' := by
  intro k b₁ hb₁
  rw [h.after] at hb₁
  split at hb₁
  · cases hb₁
    exact hb (hg c b h.before)
  · exact hg k b₁ hb₁

theorem Sourced.setTerminator {c : BlockId} {t : Terminator} (h : Sourced a source g)
    (ht : t.From a source) (run : g.setTerminator c t = .ok g') : Sourced a source g' := by
  obtain ⟨b, hupdates⟩ := setTerminator_updates run
  refine hupdates.sourced h (fun hb => ⟨hb.slots, fun t' ht' => ?_⟩)
  cases ht'
  exact ht

theorem follows_sourced (a : Arena) (source : NodeId → Prop) :
    LowerM.Follows (Slot.From a source) (Terminator.From a source)
      (fun g g' => Sourced a source g → Sourced a source g') where
  refl := fun _ h => h
  trans := fun _ _ _ h h' hg => h' (h hg)
  creates := fun g role construct depth h k b hb => by
    rw [bare?, block?_createBlock] at hb
    split at hb
    · cases hb
      constructor
      · intro slot hslot
        cases hslot
      · intro t ht
        cases ht
    · exact h k b hb
  pushes := fun g g' c slot hslot run h => by
    obtain ⟨b, hupdates⟩ := pushSlot_updates run
    refine hupdates.sourced h (fun hb => ⟨fun slot' hslot' => ?_, hb.ended⟩)
    rcases List.mem_append.mp hslot' with hslot' | hslot'
    · exact hb.slots slot' hslot'
    · rw [List.mem_singleton.mp hslot']
      exact hslot
  terminates := fun g g' c t ht run h => h.setTerminator ht run
  raises := fun g g' c handler run h => by
    obtain ⟨-, b, successors, hupdates, -⟩ := addExceptionEdge_updates run
    exact hupdates.sourced h (fun hb => ⟨hb.slots, hb.ended⟩)
  loops := fun _ _ h => h
  jumps := fun _ _ => trivial

theorem lower_sourced (hview : a.function fn = .ok view) (run : lower a view = .ok g) :
    Sourced a (Relation.TransGen a.Leads fn) g := by
  have hstart : Sourced a (Relation.TransGen a.Leads fn) (FlowGraph.new view.name) := by
    intro c b hb
    obtain ⟨b₀, hb₀, hbare⟩ := Option.map_eq_some_iff.mp hb
    rw [← hbare, List.mem_singleton.mp (block?_mem hb₀)]
    exact ⟨nofun, nofun⟩
  have hfollows := follows_sourced a (Relation.TransGen a.Leads fn)
  obtain ⟨⟨u, s⟩, hrun, run⟩ := except_bind_ok run
  have hbody := hfollows.forM (fun id (hid : id ∈ view.body) => hfollows.statement _ (fun _ h => h)
    (fun _ h => h) (fun _ _ h h' => h.tail h') a.nodes.size {} id
    (.single (Arena.leads_of_function hview hid))) _ _ _ hrun hstart
  cases hcurrent : s.current with
  | some c =>
    simp only [hcurrent] at run
    have hends : (Terminator.returnWith none).From a (Relation.TransGen a.Leads fn) := nofun
    exact hbody.setTerminator hends run
  | none =>
    simp only [hcurrent] at run
    cases run
    exact hbody

end FlowGraph

end TypedSsa

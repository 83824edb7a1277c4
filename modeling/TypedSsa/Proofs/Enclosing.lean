import TypedSsa.Proofs.Keys
import TypedSsa.Proofs.Links
import TypedSsa.Proofs.Nodes
import TypedSsa.Typing.Local

/-!
The types of a function refer to nodes of the function alone. Main statement:
`FunctionTypes.ofForm_enclosed`.
-/

namespace TypedSsa

/-- Every node that is referred to is there. -/
structure Typing.Enclosed (s : Typing) : Prop where
  rules : ∀ m, ∀ d ∈ s.graph.dependencies m, d.raw < s.graph.size
  defs : ∀ p ∈ s.defs, p.2.raw < s.graph.size
  exprs : ∀ (k : BlockId × NodeId) m, s.exprs[k]? = some m → m.raw < s.graph.size
  calls : ∀ c ∈ s.calls, ∀ d ∈ c.apply :: c.args, d.raw < s.graph.size
  unit : ∀ m, s.unitNode = some m → m.raw < s.graph.size

namespace TypingM

/-- A part of typing gives back nodes that are there, and leaves all that is referred to. What it is
given may refer to the nodes below `n`. -/
def Encloses {α : Type} (n : Nat) (m : TypingM α) (ids : α → List TypeNodeId) : Prop :=
  ∀ s x s', s.Enclosed → n ≤ s.graph.size → m s = .ok (x, s') →
    s'.Enclosed ∧ s.graph.size ≤ s'.graph.size ∧ ∀ d ∈ ids x, d.raw < s'.graph.size

namespace Encloses

variable {α β : Type} {n : Nat} {ids : α → List TypeNodeId}

theorem mono {m : TypingM α} {n' : Nat} (h : Encloses n m ids) (hle : n ≤ n') : Encloses n' m ids :=
  fun s x s' hs hn => h s x s' hs (Nat.le_trans hle hn)

theorem pure {x : α} (h : ∀ d ∈ ids x, d.raw < n) : Encloses n (pure x) ids := by
  intro s y s' hs hn hrun
  obtain ⟨rfl, rfl⟩ := pure_ok hrun
  exact ⟨hs, Nat.le_refl _, fun d hd => Nat.lt_of_lt_of_le (h d hd) hn⟩

theorem bind {ids' : β → List TypeNodeId} {m : TypingM α} {k : α → TypingM β}
    (h : Encloses n m ids)
    (hk : ∀ x n', n ≤ n' → (∀ d ∈ ids x, d.raw < n') → Encloses n' (k x) ids') :
    Encloses n (m >>= k) ids' := by
  intro s y s' hs hn hrun
  obtain ⟨x, s₁, hx, hrun⟩ := bind_ok hrun
  obtain ⟨hs₁, hgrown, hids⟩ := h s x s₁ hs hn hx
  obtain ⟨hs', hgrown', hids'⟩ := hk x s₁.graph.size (Nat.le_trans hn hgrown) hids s₁ y s' hs₁
    (Nat.le_refl _) hrun
  exact ⟨hs', Nat.le_trans hgrown hgrown', hids'⟩

theorem get_bind {k : Typing → TypingM α}
    (hk : ∀ s : Typing, s.Enclosed → n ≤ s.graph.size → Encloses s.graph.size (k s) ids) :
    Encloses n (get >>= k) ids :=
  fun s x s' hs hn => hk s hs hn s x s' hs (Nat.le_refl _)

theorem lift_bind {e : Except Fault β} {k : β → TypingM α}
    (hk : ∀ x, e = .ok x → Encloses n (k x) ids) : Encloses n ((e : TypingM β) >>= k) ids := by
  intro s y s' hs hn hrun
  cases e with
  | error fault => cases hrun
  | ok x => exact hk x rfl s y s' hs hn hrun

theorem modify {change : Typing → Typing} {x : α} (hx : ∀ d ∈ ids x, d.raw < n)
    (hchange : ∀ s : Typing, s.Enclosed → n ≤ s.graph.size →
      (change s).Enclosed ∧ (change s).graph = s.graph) :
    Encloses n (do modify change; Pure.pure x) ids := by
  intro s y s' hs hn hrun
  cases hrun
  obtain ⟨hs', hgraph⟩ := hchange s hs hn
  exact ⟨hs', Nat.le_of_eq (congrArg _ hgraph.symm),
    fun d hd => hgraph ▸ Nat.lt_of_lt_of_le (hx d hd) hn⟩

theorem malformed (f : SsaForm) (block : Option BlockId) (reason : String) :
    Encloses n (malformed f block reason : TypingM α) ids :=
  fun _ _ _ _ _ hrun => by cases hrun

theorem discard {m : TypingM α} (h : Encloses n m ids) :
    Encloses n (discard m) (fun _ => []) :=
  h.bind fun _ _ _ _ => .pure (by simp)

theorem mapM {step : β → TypingM α} {xs : List β} (h : ∀ x ∈ xs, Encloses n (step x) ids) :
    Encloses n (xs.mapM step) (fun ys => ys.flatMap ids) := by
  induction xs generalizing n with
  | nil => exact .pure (by simp)
  | cons x xs ih =>
    rw [List.mapM_cons]
    refine (h x List.mem_cons_self).bind fun y n' hle hy => ?_
    have hrest := ih fun z hz => (h z (List.mem_cons_of_mem _ hz)).mono hle
    refine hrest.bind fun ys n'' hle' hys => .pure ?_
    rw [List.flatMap_cons]
    exact List.forall_mem_append.mpr ⟨fun d hd => Nat.lt_of_lt_of_le (hy d hd) hle', hys⟩

theorem mapM_nodes {step : β → TypingM TypeNodeId} {xs : List β}
    (h : ∀ x ∈ xs, Encloses n (step x) ([·])) : Encloses n (xs.mapM step) id := by
  intro s ys s' hs hn hrun
  obtain ⟨hs', hgrown, hids⟩ := mapM h s ys s' hs hn hrun
  exact ⟨hs', hgrown, fun d hd => hids d (List.mem_flatMap.mpr ⟨d, hd, List.mem_singleton_self d⟩)⟩

theorem forM {step : β → TypingM PUnit} {xs : List β}
    (h : ∀ x ∈ xs, Encloses n (step x) (fun _ => [])) :
    Encloses n (xs.forM step) (fun _ => []) := by
  induction xs generalizing n with
  | nil => exact .pure (by simp)
  | cons x xs ih =>
    refine (h x List.mem_cons_self).bind fun _ n' hle _ => ?_
    exact ih fun z hz => (h z (List.mem_cons_of_mem _ hz)).mono hle

/-! The operations. -/

theorem addNode {rule : TypeRule} (h : ∀ d ∈ rule.dependencies, d.raw < n) (origin : TypeOrigin) :
    Encloses n (addNode rule origin) ([·]) := by
  intro s x s' hs hn hrun
  obtain ⟨rfl, rfl⟩ : x = ⟨s.graph.size⟩ ∧
      s' = { s with graph := (s.graph.add rule origin).2 } := by
    cases hrun
    exact ⟨rfl, rfl⟩
  have hsize : (s.graph.add rule origin).2.size = s.graph.size + 1 := TypeGraph.size_add _ _ _
  have hlt : ∀ {d : TypeNodeId}, d.raw < s.graph.size →
      d.raw < (s.graph.add rule origin).2.size := fun h => by omega
  refine ⟨⟨fun m d hd => ?_, fun p hp => hlt (hs.defs p hp), fun k m hk => hlt (hs.exprs k m hk),
    fun c hc d hd => hlt (hs.calls c hc d hd), fun m hm => hlt (hs.unit m hm)⟩, ?_, ?_⟩
  · dsimp only at hd ⊢
    rw [TypeGraph.dependencies, TypeGraph.rule?_add] at hd
    split at hd
    · exact hlt (Nat.lt_of_lt_of_le (h d hd) hn)
    · exact hlt (hs.rules m d hd)
  · dsimp only
    omega
  · rw [List.forall_mem_singleton]
    exact Nat.lt_of_lt_of_eq (Nat.lt_succ_self s.graph.size) hsize.symm

theorem setRule (id : TypeNodeId) {rule : TypeRule} (h : ∀ d ∈ rule.dependencies, d.raw < n) :
    Encloses n (setRule id rule) (fun _ => []) := by
  intro s x s' hs hn hrun
  cases hrun
  have hsize : (s.graph.setRule id rule).size = s.graph.size := TypeGraph.size_change _ _ _
  refine ⟨⟨fun m d hd => ?_, ?_, ?_, ?_, ?_⟩, ?_, by simp⟩
  · dsimp only at hd ⊢
    rw [hsize]
    rw [TypeGraph.dependencies, TypeGraph.setRule, TypeGraph.rule?_change] at hd
    split at hd
    · cases hnode : s.graph.node? m with
      | none =>
        rw [hnode] at hd
        cases hd
      | some node =>
        rw [hnode] at hd
        exact Nat.lt_of_lt_of_le (h d hd) hn
    · exact hs.rules m d hd
  · exact fun p hp => hsize.symm ▸ hs.defs p hp
  · exact fun k m hk => hsize.symm ▸ hs.exprs k m hk
  · exact fun c hc d hd => hsize.symm ▸ hs.calls c hc d hd
  · exact fun m hm => hsize.symm ▸ hs.unit m hm
  · exact Nat.le_of_eq hsize.symm

theorem defNode (f : SsaForm) (id : DefId) : Encloses n (defNode f id) ([·]) := by
  refine .get_bind fun s hs _ => ?_
  cases hfind : findNear? Prod.fst id.raw s.defs id with
  | none => exact .malformed f none _
  | some p =>
    refine .pure ?_
    rw [List.forall_mem_singleton]
    exact hs.defs p (mem_of_findNear? hfind).1

theorem useNode (f : SsaForm) (id : UseId) : Encloses n (useNode f id) ([·]) := by
  unfold TypingM.useNode
  split
  · exact defNode f _
  · exact .malformed f none _

theorem unit : Encloses n unit ([·]) := by
  refine .get_bind fun s hs _ => ?_
  cases hunit : s.unitNode with
  | some node => exact .pure (by simpa using hs.unit node hunit)
  | none =>
    refine (addNode (by simp [TypeRule.dependencies]) _).bind fun node n' _ hnode => ?_
    refine .modify hnode fun s hs hn => ⟨{ hs with unit := fun m hm => ?_ }, rfl⟩
    obtain rfl := Option.some.inj hm
    exact Nat.lt_of_lt_of_le (hnode node (by simp)) hn

theorem addCall (callee : String) (block : BlockId) (node : NodeId) {args : List TypeNodeId}
    (h : ∀ d ∈ args, d.raw < n) : Encloses n (addCall callee block node args) ([·]) := by
  have hargs : ∀ d ∈ (TypeRule.apply callee args).dependencies, d.raw < n := h
  refine (addNode hargs _).bind fun apply n' hle happly => ?_
  refine .modify happly fun s hs hn => ⟨{ hs with calls := ?_ }, rfl⟩
  refine List.forall_mem_append.mpr ⟨hs.calls, ?_⟩
  rw [List.forall_mem_singleton, List.forall_mem_cons]
  exact ⟨Nat.lt_of_lt_of_le (happly apply (by simp)) hn,
    fun d hd => Nat.lt_of_lt_of_le (h d hd) (Nat.le_trans hle hn)⟩

/-! Expressions. -/

section
variable (a : Arena) (f : SsaForm)

theorem newExpr (block : BlockId) {part : NodeId → TypingM TypeNodeId}
    (hpart : ∀ n w, Encloses n (part w) ([·])) (node : NodeId) :
    Encloses n (newExpr a f block part node) ([·]) := by
  refine .lift_bind fun e _ => ?_
  cases e with
  | name name =>
    refine .get_bind fun s hs hn => ?_
    split
    · refine (defNode f _).bind fun d n' _ hd => addNode ?_ _
      simpa [TypeRule.dependencies] using hd
    · exact .malformed f _ _
  | const ty => exact addNode (by simp [TypeRule.dependencies]) _
  | call callee args =>
    exact (mapM_nodes fun w _ => hpart n w).bind fun nodes n' _ hnodes => addCall _ _ _ hnodes
  | binary op left right =>
    refine (hpart n left).bind fun l n' _ hl => (hpart n' right).bind fun r n'' hle hr =>
      addNode ?_ _
    have hl' := Nat.lt_of_lt_of_le (hl l (by simp)) hle
    simpa [TypeRule.dependencies] using ⟨hl', hr r (by simp)⟩
  | cast value ty =>
    exact (hpart n value).discard.bind fun _ _ _ _ => addNode (by simp [TypeRule.dependencies]) _
  | other kind => exact addNode (by simp [TypeRule.dependencies]) _

theorem exprWithin (block : BlockId) (fuel : Nat) :
    ∀ n node, Encloses n (exprWithin a f block fuel node) ([·]) := by
  induction fuel with
  | zero => exact fun n node s x s' _ _ hrun => by cases hrun
  | succ fuel ih =>
    refine fun n node => .get_bind fun s hs _ => ?_
    cases hknown : s.exprs[(block, node)]? with
    | some known => exact .pure (by simpa using hs.exprs _ _ hknown)
    | none =>
      refine (newExpr a f block ih node).bind fun id n' hle hid => ?_
      refine .modify hid fun s hs hn => ⟨{ hs with exprs := fun k m hk => ?_ }, rfl⟩
      rw [Std.HashMap.getElem?_insert] at hk
      split at hk
      · obtain rfl := Option.some.inj hk
        exact Nat.lt_of_lt_of_le (hid id (by simp)) hn
      · exact hs.exprs k m hk

theorem expr (block : BlockId) (node : NodeId) : Encloses n (expr a f block node) ([·]) :=
  exprWithin a f block _ n node

/-! Definitions. -/

theorem phiInputs (incoming : List UseId) : Encloses n (phiInputs f incoming) id := by
  refine (mapM_nodes fun d _ => defNode f d.id).bind fun nodes n' _ hnodes => .pure fun d hd => ?_
  exact hnodes d (mem_distinct.mp hd)

theorem inferredRule (d : Def) : Encloses n (inferredRule a f d) TypeRule.dependencies := by
  unfold TypingM.inferredRule
  split
  · exact .pure (by simp [TypeRule.dependencies])
  · exact (expr a f _ _).bind fun x n' _ hx => .pure hx
  · exact (expr a f _ _).bind fun x n' _ hx => .pure hx
  · refine (useNode f _).bind fun previous n' _ hprevious => ?_
    have hboth : ∀ {step : TypingM TypeNodeId}, Encloses n' step ([·]) →
        Encloses n' (step >>= fun step => Pure.pure (TypeRule.apply "+" [previous, step]))
          TypeRule.dependencies := by
      intro step hstep
      refine hstep.bind fun x n'' hle hx => .pure ?_
      have hprevious' := Nat.lt_of_lt_of_le (hprevious previous (by simp)) hle
      simpa [TypeRule.dependencies] using ⟨hprevious', hx x (by simp)⟩
    split
    · exact hboth (expr a f _ _)
    · exact hboth (addNode (by simp [TypeRule.dependencies]) _)
  · exact (phiInputs f _).bind fun inputs n' _ hinputs => .pure hinputs
  · exact (useNode f _).bind fun x n' _ hx => .pure hx
  · exact .pure (by simp [TypeRule.dependencies])

theorem ruleOf (d : Def) : Encloses n (ruleOf a f d) TypeRule.dependencies := by
  unfold TypingM.ruleOf
  split
  · exact .pure (by simp [TypeRule.dependencies])
  · exact .pure (by simp [TypeRule.dependencies])
  · exact .pure (by simp [TypeRule.dependencies])
  · refine (inferredRule a f d).bind fun rule n' _ hrule => .pure ?_
    cases d.declared with
    | none => exact hrule
    | some ty => simp [TypeRule.dependencies]

theorem fillDef (d : Def) : Encloses n (fillDef a f d) (fun _ => []) :=
  (defNode f d.id).bind fun node _ _ _ => (ruleOf a f d).bind fun _ _ _ hrule => setRule node hrule

theorem applySignature (signature : List Ty) :
    Encloses n (applySignature f signature) (fun _ => []) := by
  refine .forM fun ⟨param, ty⟩ _ => ?_
  dsimp only
  split
  · exact (defNode f param).bind fun node _ _ _ =>
      setRule node (show ∀ d ∈ (TypeRule.constant ty).dependencies, d.raw < _ from nofun)
  · exact .pure (by simp)

/-! Blocks. -/

theorem visitSlot (block : BlockId) (slot : Slot) :
    Encloses n (visitSlot a f block slot) (fun _ => []) := by
  cases slot with
  | node id =>
    refine .lift_bind fun st _ => ?_
    split
    · exact (expr a f block _).discard
    · exact .pure (by simp)
  | loopInit construct => exact .pure (by simp)
  | loopStep construct => exact .pure (by simp)

theorem visitEnd (block : BlockId) (t : Option Terminator) :
    Encloses n (visitEnd a f block t) id := by
  unfold TypingM.visitEnd
  split
  · exact (expr a f block _).discard.bind fun _ _ _ _ => .pure (by simp)
  · refine .lift_bind fun st _ => ?_
    split
    · exact (expr a f block _).discard.bind fun _ _ _ _ => .pure (by simp)
    · exact .pure (by simp)
  · exact (expr a f block _).bind fun x n' _ hx => .pure hx
  · exact unit.bind fun x n' _ hx => .pure hx
  · exact (expr a f block _).discard.bind fun _ _ _ _ => .pure (by simp)
  · exact .pure (by simp)

theorem visitBlock (b : Block) : Encloses n (visitBlock a f b) id :=
  (forM fun slot _ => visitSlot a f b.id slot).bind fun _ _ _ _ => visitEnd a f b.id b.terminator

theorem function (g : FlowGraph) (view : FunctionView) :
    Encloses n (function a g f view) (fun r => r.1 :: r.2) := by
  have hrest : ∀ {n}, Encloses n (do
      let returns ← g.blocks.mapM (TypingM.visitBlock a f)
      let result ← TypingM.addNode (resultRule view.returnType returns.flatten) .result
      return (result, ← f.params.mapM (TypingM.defNode f)) : TypingM (TypeNodeId × List TypeNodeId))
      (fun r => r.1 :: r.2) := by
    intro n
    refine (mapM fun b _ => visitBlock a f b).bind fun returns n' _ hreturns => ?_
    rw [List.flatMap_id] at hreturns
    refine (addNode (fun d hd => hreturns d ?_) _).bind fun result n'' _ hresult => ?_
    · unfold resultRule at hd
      split at hd
      · cases hd
      · split at hd
        · cases hd
        · exact mem_distinct.mp hd
    · refine (mapM_nodes fun id _ => defNode f id).bind fun params n''' hle hparams => .pure ?_
      exact List.forall_mem_cons.mpr
        ⟨Nat.lt_of_lt_of_le (hresult result (by simp)) hle, hparams⟩
  unfold TypingM.function
  rw [show f.defs.forM (TypingM.fillDef a f) = f.defs.toList.forM (TypingM.fillDef a f) from
    List.forM_toArray f.defs.toList (TypingM.fillDef a f)]
  refine (forM fun d _ => fillDef a f d).bind fun _ _ _ _ => ?_
  cases view.signature with
  | none => exact hrest
  | some signature => exact (applySignature f signature).bind fun _ _ _ _ => hrest

end

end Encloses

end TypingM

theorem Typing.start_enclosed (f : SsaForm) : (start f).Enclosed := by
  refine ⟨fun m d hd => ?_, fun p hp => ?_, fun k m hk => ?_, ?_, nofun⟩
  · rw [TypeGraph.dependencies, TypeGraph.rule?, TypeGraph.node?, start, Array.getElem?_map] at hd
    cases hdef : f.defs[m.raw]? with
    | none =>
      rw [hdef] at hd
      cases hd
    | some def₀ =>
      rw [hdef] at hd
      cases hd
  · obtain ⟨⟨d, i⟩, hi, rfl⟩ := Array.mem_map.mp hp
    have hlt := (Array.mem_zipIdx hi).2.1
    simpa [start, TypeGraph.size] using hlt
  · rw [start] at hk
    exact absurd hk (by simp)
  · simp [start]

/-- A function refers to its own nodes alone. -/
structure FunctionTypes.Enclosed (t : FunctionTypes) : Prop where
  rules : ∀ m, ∀ d ∈ t.graph.dependencies m, d.raw < t.graph.size
  defs : ∀ p ∈ t.defs, p.2.raw < t.graph.size
  params : ∀ x ∈ t.params, x.raw < t.graph.size
  result : t.result.raw < t.graph.size
  calls : ∀ c ∈ t.calls, ∀ d ∈ c.apply :: c.args, d.raw < t.graph.size

theorem FunctionTypes.ofForm_enclosed {a : Arena} {g : FlowGraph} {f : SsaForm}
    {t : FunctionTypes} (run : FunctionTypes.ofForm a g f = .ok t) : t.Enclosed := by
  unfold FunctionTypes.ofForm at run
  obtain ⟨view, -, run⟩ := except_bind_ok run
  obtain ⟨⟨⟨result, params⟩, s⟩, hrun, run⟩ := except_bind_ok run
  obtain rfl := Except.ok.inj run
  obtain ⟨hs, -, hids⟩ := TypingM.Encloses.function a f g view (Typing.start f) _ s
    (Typing.start_enclosed f) (Nat.zero_le _) hrun
  obtain ⟨hresult, hparams⟩ := List.forall_mem_cons.mp hids
  exact ⟨hs.rules, hs.defs, hparams, hresult, hs.calls⟩

end TypedSsa

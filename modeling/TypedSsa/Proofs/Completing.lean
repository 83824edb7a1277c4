import TypedSsa.Proofs.Accepting
import TypedSsa.Proofs.Classifying
import TypedSsa.Proofs.Descending
import TypedSsa.Proofs.Reaching
import TypedSsa.Proofs.Rows

/-!
From an accepted graph to types. Main statements: `ofForm_ends` and `ofFunction_typed`. The form of
a graph is always made and always passes its checks: it has a read at every name that a block
evaluates, and a definition for every read. So its types are found unless an expression is nested in
itself.
-/

namespace TypedSsa

open Relation

/-- The definitions and the reads are those of a form, and no expression that has its node is nested
in itself. -/
structure Typing.Based (a : Arena) (f : SsaForm) (s : Typing) : Prop where
  defs : s.defs = (start f).defs
  reads : s.reads = (start f).reads
  ending : ∀ (b : BlockId) (node : NodeId) id, s.exprs[(b, node)]? = some id →
    ¬Endless a.PartOf node

theorem Typing.Based.start (a : Arena) (f : SsaForm) : (Typing.start f).Based a f :=
  ⟨rfl, rfl, fun b node id hid => by simp [Typing.start] at hid⟩

namespace TypingM

/-- Whatever came before, a part of typing comes to its end, and then there is nothing endless in
it, or it stops for how deep expressions are nested. -/
def Attempts (a : Arena) (f : SsaForm) (endless deep : Prop) {α : Type} (m : TypingM α) : Prop :=
  ∀ s, s.Based a f → (¬endless ∧ ∃ x s', m s = .ok (x, s') ∧ s'.Based a f) ∨
    (deep ∧ TooDeep (m s))

/-- A part of typing comes to its end exactly if there is nothing endless in it. -/
abbrev Ends (a : Arena) (f : SsaForm) (endless : Prop) {α : Type} (m : TypingM α) : Prop :=
  Attempts a f endless endless m

abbrev Total (a : Arena) (f : SsaForm) {α : Type} (m : TypingM α) : Prop :=
  Ends a f False m

namespace Attempts

variable {α β : Type} {a : Arena} {f : SsaForm} {endless endless' deep deep' : Prop} {m : TypingM α}

theorem imp (h : Attempts a f endless deep m) (hendless : endless' → endless)
    (hdeep : deep → deep') : Attempts a f endless' deep' m := by
  intro s hs
  rcases h s hs with ⟨hnot, hrun⟩ | ⟨hstop, hrun⟩
  · exact .inl ⟨fun hin => hnot (hendless hin), hrun⟩
  · exact .inr ⟨hdeep hstop, hrun⟩

theorem iff (h : Ends a f endless m) (hsame : endless' ↔ endless) : Ends a f endless' m :=
  h.imp hsame.mp hsame.mpr

theorem pure (x : α) : Total a f (pure x) :=
  fun s hs => .inl ⟨id, x, s, rfl, hs⟩

theorem bind {k : α → TypingM β} (h : Attempts a f endless deep m)
    (hk : ∀ x, ¬endless → Attempts a f endless' deep' (k x)) :
    Attempts a f (endless ∨ endless') (deep ∨ deep') (m >>= k) := by
  intro s hs
  have hbind : (m >>= k) s = (m s >>= fun p => k p.1 p.2) := rfl
  rcases h s hs with ⟨hnot, x, s₁, hrun, hs₁⟩ | ⟨hdeep, e, hrun, he⟩
  · have hrest : (m >>= k) s = k x s₁ := by rw [hbind, hrun]; rfl
    rcases hk x hnot s₁ hs₁ with ⟨hnot', y, s', hruns, hs'⟩ | ⟨hdeep, e, hruns, he⟩
    · exact .inl ⟨fun hin => hin.elim hnot hnot', y, s', hrest.trans hruns, hs'⟩
    · exact .inr ⟨.inr hdeep, e, hrest.trans hruns, he⟩
  · exact .inr ⟨.inl hdeep, e, by rw [hbind, hrun]; rfl, he⟩

theorem before {k : α → TypingM β} (h : Attempts a f endless deep m)
    (hk : ∀ x, ¬endless → Total a f (k x)) : Attempts a f endless deep (m >>= k) :=
  (h.bind hk).imp .inl (fun hdeep => hdeep.elim id False.elim)

theorem after {k : α → TypingM β} (h : Total a f m) (hk : ∀ x, Attempts a f endless deep (k x)) :
    Attempts a f endless deep (m >>= k) :=
  (h.bind (fun x _ => hk x)).imp .inr (fun hdeep => hdeep.elim False.elim id)

theorem get_bind {k : Typing → TypingM β}
    (hk : ∀ s, s.Based a f → Attempts a f endless deep (k s)) :
    Attempts a f endless deep (get >>= k) :=
  fun s hs => hk s hs s hs

theorem lift_bind {e : Except Fault α} {x : α} {k : α → TypingM β} (he : e = .ok x)
    (hk : Attempts a f endless deep (k x)) :
    Attempts a f endless deep ((e : TypingM α) >>= k) := by
  subst he
  exact hk

theorem discard (h : Attempts a f endless deep m) : Attempts a f endless deep (discard m) :=
  h.before (fun _ _ => .pure _)

section
variable {within past : α → Prop}

theorem mapM {step : α → TypingM β} : ∀ {xs : List α},
    (∀ x ∈ xs, Attempts a f (within x) (past x) (step x)) →
    Attempts a f (∃ x ∈ xs, within x) (∃ x ∈ xs, past x) (xs.mapM step)
  | [], _ => (pure []).imp (by simp) False.elim
  | x :: xs, hstep => by
    rw [List.mapM_cons]
    have hrest := mapM (fun z hz => hstep z (List.mem_cons_of_mem x hz))
    refine ((hstep x List.mem_cons_self).bind (fun y _ =>
      hrest.before (fun ys _ => .pure (y :: ys)))).imp ?_ ?_
    · simp
    · simp

theorem forM {step : α → TypingM PUnit} : ∀ {xs : List α},
    (∀ x ∈ xs, Attempts a f (within x) (past x) (step x)) →
    Attempts a f (∃ x ∈ xs, within x) (∃ x ∈ xs, past x) (xs.forM step)
  | [], _ => (pure _).imp (by simp) False.elim
  | x :: xs, hstep => by
    have hrest := forM (fun z hz => hstep z (List.mem_cons_of_mem x hz))
    refine ((hstep x List.mem_cons_self).bind (fun _ _ => hrest)).imp ?_ ?_
    · simp
    · simp

end

theorem mapM_total {step : α → TypingM β} {xs : List α} (h : ∀ x ∈ xs, Total a f (step x)) :
    Total a f (xs.mapM step) :=
  (mapM h).iff (by simp)

theorem forM_total {step : α → TypingM PUnit} {xs : List α} (h : ∀ x ∈ xs, Total a f (step x)) :
    Total a f (xs.forM step) :=
  (forM h).iff (by simp)

theorem modify {change : Typing → Typing} (h : ∀ s, s.Based a f → (change s).Based a f) :
    Total a f (modify change : TypingM PUnit) :=
  fun s hs => .inl ⟨id, _, _, rfl, h s hs⟩

theorem addNode (rule : TypeRule) (origin : TypeOrigin) : Total a f (addNode rule origin) :=
  fun _ hs => .inl ⟨id, _, _, rfl, hs.defs, hs.reads, hs.ending⟩

theorem setRule (id : TypeNodeId) (rule : TypeRule) : Total a f (setRule id rule) :=
  modify (fun _ hs => ⟨hs.defs, hs.reads, hs.ending⟩)

theorem unit : Total a f unit :=
  .get_bind fun s _ => by
    cases s.unitNode with
    | some node => exact .pure node
    | none =>
      refine (addNode _ _).after (fun node => (modify ?_).after (fun _ => .pure node))
      exact fun s hs => ⟨hs.defs, hs.reads, hs.ending⟩

end Attempts

end TypingM

/-! What typing needs. -/

/-- An expression stands below a node, and a form has a read in a block for each name in it. -/
structure SsaForm.Covers (a : Arena) (fn : NodeId) (f : SsaForm) (b : BlockId) (root : NodeId) :
    Prop where
  below : TransGen a.Leads fn root
  reads : ∀ m x, ReflTransGen a.Leads root m → a.expression m = .ok (.name x) →
    ∃ i u, f.use? i = some u ∧ u.site = .name m ∧ u.block = b

/-- A form has the definitions and the reads that its types are made from. -/
structure SsaForm.Typeable (a : Arena) (fn : NodeId) (f : SsaForm) : Prop where
  numbered : Numbered f
  params : ∀ i ∈ f.params, ∃ d, f.definition? i = some d
  read : ∀ i u, f.use? i = some u → ∃ d, f.definition? u.definition = some d
  operands : ∀ i d, f.definition? i = some d → ∀ u ∈ d.kind.operands, ∃ use, f.use? u = some use
  roots : ∀ i d, f.definition? i = some d → ∀ root ∈ d.root?, f.Covers a fn d.block root

theorem SsaForm.Covers.part {a : Arena} {fn u w : NodeId} {f : SsaForm} {b : BlockId}
    (h : f.Covers a fn b u) (hw : a.Leads u w) : f.Covers a fn b w :=
  ⟨h.below.tail hw, fun m x hm hx => h.reads m x (.head hw hm) hx⟩

theorem SsaForm.Typeable.covers {a : Arena} {fn : NodeId} {g : FlowGraph} {f : SsaForm}
    {root : BlockId × NodeId} (ht : f.Typeable a fn)
    (hroots : ∀ b ∈ g.blocks, ∀ root ∈ b.slots.filterMap a.slotRoot? ++
      (a.endRoot? b.terminator).toList, f.Covers a fn b.id root)
    (hroot : root ∈ a.roots g f) : f.Covers a fn root.1 root.2 := by
  rcases List.mem_append.mp hroot with hroot | hroot
  · obtain ⟨d, hd, hroot⟩ := List.mem_flatMap.mp hroot
    obtain ⟨node, hnode, rfl⟩ := List.mem_map.mp hroot
    exact ht.roots d.id d (ht.numbered.mem_defs.mp (Array.mem_toList_iff.mp hd)) node
      (Option.mem_toList.mp hnode)
  · obtain ⟨blk, hblk, hroot⟩ := List.mem_flatMap.mp hroot
    obtain ⟨node, hnode, rfl⟩ := List.mem_map.mp hroot
    exact hroots blk hblk node hnode

theorem Arena.PartOf.leads {a : Arena} {u w : NodeId} (h : a.PartOf u w) : a.Leads u w := by
  unfold PartOf parts at h
  split at h
  · rename_i e he
    exact a.leads_of_expression he h
  · cases h

/-- Expressions that go deeper than there are nodes are nested in themselves. -/
theorem Arena.Formed.endless_of_parts {a : Arena} {node : NodeId} {n : Node} (h : a.Formed)
    (hn : a.find? node = some n) (hdeep : Deep a.PartOf a.nodes.size node) :
    Endless a.PartOf node := by
  have hstep : ∀ u w, a.PartOf u w → w ∈ (a.nodes.toList.map (·.id)).toFinset := by
    intro u w hpart
    obtain ⟨m, hm⟩ := h.find?_of_leads hpart.leads
    exact mem_ids hm
  obtain ⟨u, w, hu, huw, rfl⟩ := (hdeep.mono a.card_ids_le).exists_again id (mem_ids hn) hstep
  exact ⟨u, hu, huw⟩

namespace TypingM

section
variable {a : Arena} {fn : NodeId} {f : SsaForm} (ht : f.Typeable a fn)
include ht

theorem defNode_total {id : DefId} {d : Def} (hd : f.definition? id = some d) :
    Total a f (defNode f id) := by
  refine .get_bind fun s hs => ?_
  rw [ht.numbered.definition?_eq] at hd
  rw [hs.defs, start_defs ht.numbered, hd]
  exact .pure _

theorem useNode_total {id : UseId} {u : Use} (hu : f.use? id = some u) :
    Total a f (useNode f id) := by
  obtain ⟨d, hd⟩ := ht.read id u hu
  rw [useNode, hu]
  exact defNode_total ht hd

variable (h : a.Formed) (hbasic : a.Basic) {b : BlockId}
include h hbasic

theorem newExpr_attempts {part : NodeId → TypingM TypeNodeId} {node : NodeId}
    {within past : NodeId → Prop} (hnode : f.Covers a fn b node)
    (hpart : ∀ w, a.PartOf node w → Attempts a f (within w) (past w) (part w)) :
    Attempts a f (∃ w, a.PartOf node w ∧ within w) (∃ w, a.PartOf node w ∧ past w)
      (newExpr a f b part node) := by
  obtain ⟨m, -, hm⟩ := TransGen.tail'_iff.mp hnode.below
  obtain ⟨n, hn⟩ := h.find?_of_leads hm
  obtain ⟨e, he⟩ := h.expression_total hbasic hn
  have hparts : ∀ w, a.PartOf node w ↔ w ∈ e.parts := fun w => by
    rw [Arena.PartOf, Arena.parts, he]
  simp only [hparts] at hpart ⊢
  have none : ∀ {m : TypingM TypeNodeId}, e.parts = [] → Total a f m →
      Attempts a f (∃ w, w ∈ e.parts ∧ within w) (∃ w, w ∈ e.parts ∧ past w) m := by
    intro m hnil hm
    exact hm.imp (by simp [hnil]) False.elim
  refine .lift_bind he ?_
  cases e with
  | name name =>
    refine none rfl (.get_bind fun s hs => ?_)
    have hread : s.reads[(UseSite.name node, b)]? =
        f.uses.toList.find? (fun u => (u.site, u.block) == (.name node, b)) := by
      rw [hs.reads]
      exact getElem?_indexBy _ _ _
    obtain ⟨i, u, hu, hsite, hblock⟩ := hnode.reads node name .refl he
    have hid := ht.numbered.use?_id hu
    have hmem := Array.mem_toList_iff.mpr (ht.numbered.mem_uses.mpr (hid ▸ hu))
    cases hfind : f.uses.toList.find? (fun u => (u.site, u.block) == (.name node, b)) with
    | none =>
      exact absurd (beq_iff_eq.mpr (by rw [hsite, hblock])) (List.find?_eq_none.mp hfind u hmem)
    | some u' =>
      rw [hread, hfind]
      have hmem' := Array.mem_toList_iff.mp (List.mem_of_find?_eq_some hfind)
      obtain ⟨d, hd⟩ := ht.read u'.id u' (ht.numbered.mem_uses.mp hmem')
      exact (defNode_total ht hd).after (fun _ => .addNode _ _)
  | const ty => exact none rfl (.addNode _ _)
  | call callee args =>
    refine (Attempts.mapM hpart).before (fun nodes _ => ?_)
    refine (Attempts.addNode _ _).after (fun id => (Attempts.modify ?_).after (fun _ => .pure id))
    exact fun s hs => ⟨hs.defs, hs.reads, hs.ending⟩
  | binary op left right =>
    refine ((hpart left (by simp [Expression.parts])).bind (fun _ _ =>
      (hpart right (by simp [Expression.parts])).before (fun _ _ => .addNode _ _))).imp ?_ ?_
    · simp [Expression.parts]
    · simp [Expression.parts]
  | cast value ty =>
    refine ((hpart value (by simp [Expression.parts])).discard.before
      (fun _ _ => .addNode _ _)).imp ?_ ?_
    · simp [Expression.parts]
    · simp [Expression.parts]
  | other kind => exact none rfl (.addNode _ _)

/-- Typing goes no deeper into an expression than its parts do. -/
theorem exprWithin_attempts (fuel : Nat) {node : NodeId} (hnode : f.Covers a fn b node) :
    Attempts a f (Endless a.PartOf node) (Deep a.PartOf fuel node)
      (exprWithin a f b fuel node) := by
  induction fuel generalizing node with
  | zero => exact fun s _ => .inr ⟨trivial, _, rfl, rfl⟩
  | succ fuel ih =>
    refine .get_bind fun s hs => ?_
    cases hknown : s.exprs[(b, node)]? with
    | some known => exact (Attempts.pure known).imp (hs.ending b node known hknown) False.elim
    | none =>
      have hnew := newExpr_attempts ht h hbasic hnode (fun w hw => ih (hnode.part hw.leads))
      refine (hnew.before fun id hending => ?_).imp endless_iff.mp id
      refine (Attempts.modify ?_).after (fun _ => .pure id)
      refine fun s hs => ⟨hs.defs, hs.reads, fun c m known hm => ?_⟩
      rw [Std.HashMap.getElem?_insert] at hm
      split at hm
      · rename_i heq
        obtain ⟨-, rfl⟩ := Prod.mk.inj (beq_iff_eq.mp heq)
        exact fun hendless => hending (endless_iff.mp hendless)
      · exact hs.ending c m known hm

theorem expr_ends {node : NodeId} (hnode : f.Covers a fn b node) :
    Ends a f (Endless a.PartOf node) (expr a f b node) := by
  obtain ⟨m, -, hm⟩ := TransGen.tail'_iff.mp hnode.below
  obtain ⟨n, hn⟩ := h.find?_of_leads hm
  exact (exprWithin_attempts ht h hbasic _ hnode).imp id (h.endless_of_parts hn)

/-! Definitions. -/

omit h hbasic in
theorem phiInputs_total (incoming : List UseId) : Total a f (phiInputs f incoming) := by
  refine (Attempts.mapM_total fun d hd => ?_).before (fun _ _ => .pure _)
  obtain ⟨u, -, hu⟩ := List.mem_filterMap.mp (List.mem_filter.mp hd).1
  obtain ⟨use, -, hd⟩ := Option.bind_eq_some_iff.mp hu
  exact defNode_total ht (ht.numbered.definition?_id hd ▸ hd)

theorem inferredRule_ends {d : Def} (hd : f.definition? d.id = some d) :
    Ends a f (∃ root ∈ d.root?, Endless a.PartOf root) (inferredRule a f d) := by
  have hroot : ∀ root ∈ d.root?, Ends a f (Endless a.PartOf root) (expr a f d.block root) :=
    fun root hroot => expr_ends ht h hbasic (ht.roots d.id d hd root hroot)
  have huse : ∀ u ∈ d.kind.operands, Total a f (useNode f u) := by
    intro u hu
    obtain ⟨use, huse⟩ := ht.operands d.id d hd u hu
    exact useNode_total ht huse
  unfold inferredRule
  unfold Def.root? at hroot ⊢
  cases hkind : d.kind with
  | param | undefined => exact (Attempts.pure _).iff (by simp)
  | assign stmt value | loopInit construct value =>
    rw [hkind] at hroot
    exact ((hroot value rfl).before (fun _ _ => .pure _)).iff (by simp)
  | loopStep construct step previous =>
    rw [hkind] at hroot huse
    refine (huse previous (List.mem_singleton_self _)).after (fun _ => ?_)
    cases step with
    | some step => exact ((hroot step rfl).before (fun _ _ => .pure _)).iff (by simp)
    | none => exact ((Attempts.addNode _ _).after (fun _ => .pure _)).iff (by simp)
  | phi incoming => exact ((phiInputs_total ht incoming).before (fun _ _ => .pure _)).iff (by simp)
  | promotion source phi =>
    rw [hkind] at huse
    exact ((huse source (List.mem_singleton_self _)).before (fun _ _ => .pure _)).iff (by simp)

theorem ruleOf_ends {d : Def} (hd : f.definition? d.id = some d) :
    Ends a f (∃ root ∈ d.root?, Endless a.PartOf root) (ruleOf a f d) := by
  have hinferred := (inferredRule_ends ht h hbasic hd).before
    (fun rule _ => .pure ((d.declared.map TypeRule.constant).getD rule))
  have none : ∀ {m : TypingM TypeRule}, d.root? = none → Total a f m →
      Ends a f (∃ root ∈ d.root?, Endless a.PartOf root) m :=
    fun hnone hm => hm.iff (by simp [hnone])
  unfold ruleOf
  split
  · exact none (by simp [Def.root?, *]) (.pure _)
  · exact none (by simp [Def.root?, *]) (.pure _)
  · exact none (by simp [Def.root?, *]) (.pure _)
  · exact hinferred

theorem fillDef_ends {d : Def} (hd : f.definition? d.id = some d) :
    Ends a f (∃ root ∈ d.root?, Endless a.PartOf root) (fillDef a f d) :=
  (defNode_total ht hd).after fun _ => (ruleOf_ends ht h hbasic hd).before fun _ _ => .setRule _ _

omit h hbasic in
theorem applySignature_total (signature : List Ty) : Total a f (applySignature f signature) := by
  refine .forM_total fun p hp => ?_
  obtain ⟨d, hd⟩ := ht.params p.1 (List.of_mem_zip hp).1
  dsimp only
  split
  · exact (defNode_total ht hd).after (fun _ => .setRule _ _)
  · exact .pure _

/-! Blocks. -/

theorem visitSlot_ends {slot : Slot} (hslot : slot.From a (TransGen a.Leads fn))
    (hroot : ∀ root ∈ a.slotRoot? slot, f.Covers a fn b root) :
    Ends a f (∃ root ∈ a.slotRoot? slot, Endless a.PartOf root) (visitSlot a f b slot) := by
  cases slot with
  | node id =>
    obtain ⟨-, st, hst⟩ := hslot
    simp only [Arena.slotRoot?, hst] at hroot ⊢
    refine .lift_bind hst ?_
    cases st with
    | expr value => exact (expr_ends ht h hbasic (hroot value rfl)).discard.iff (by simp)
    | _ => exact (Attempts.pure _).iff (by simp)
  | loopInit construct => exact (Attempts.pure _).iff (by simp [Arena.slotRoot?])
  | loopStep construct => exact (Attempts.pure _).iff (by simp [Arena.slotRoot?])

theorem visitEnd_ends {t : Option Terminator} (hend : ∀ t' ∈ t, t'.From a (TransGen a.Leads fn))
    (hroot : ∀ root ∈ a.endRoot? t, f.Covers a fn b root) :
    Ends a f (∃ root ∈ a.endRoot? t, Endless a.PartOf root) (visitEnd a f b t) := by
  have hexpr : ∀ root ∈ a.endRoot? t, Ends a f (Endless a.PartOf root) (expr a f b root) :=
    fun root hmem => expr_ends ht h hbasic (hroot root hmem)
  match t, hend, hexpr with
  | some (.branch (.expr test) _ _), _, hexpr =>
    exact ((hexpr test rfl).discard.before (fun _ _ => .pure _)).iff (by simp [Arena.endRoot?])
  | some (.branch (.loopTest construct) _ _), hend, hexpr =>
    obtain ⟨-, loop, hloop⟩ := hend _ rfl
    refine .lift_bind hloop ?_
    exact ((hexpr loop.stop (by simp [Arena.endRoot?, hloop])).discard.before
      (fun _ _ => .pure _)).iff (by simp [Arena.endRoot?, hloop])
  | some (.returnWith (some value)), _, hexpr =>
    exact ((hexpr value rfl).before (fun _ _ => .pure _)).iff (by simp [Arena.endRoot?])
  | some (.returnWith none), _, _ =>
    exact (Attempts.unit.before (fun _ _ => .pure _)).iff (by simp [Arena.endRoot?])
  | some (.raise (some value)), _, hexpr =>
    exact ((hexpr value rfl).discard.before (fun _ _ => .pure _)).iff (by simp [Arena.endRoot?])
  | some (.raise none), _, _ | some (.jump _ _), _, _ | some .unreachable, _, _ | none, _, _ =>
    exact (Attempts.pure _).iff (by simp [Arena.endRoot?])

theorem visitBlock_ends {blk : Block} (hblk : blk.From a (TransGen a.Leads fn))
    (hroots : ∀ root ∈ blk.slots.filterMap a.slotRoot? ++ (a.endRoot? blk.terminator).toList,
      f.Covers a fn blk.id root) :
    Ends a f (∃ root ∈ a.blockRoots blk, Endless a.PartOf root.2) (visitBlock a f blk) := by
  have hslots := Attempts.forM (fun slot hslot => visitSlot_ends ht h hbasic
    (hblk.slots slot hslot) (fun root hroot => hroots root
      (List.mem_append_left _ (List.mem_filterMap.mpr ⟨slot, hslot, hroot⟩))))
  have hend := visitEnd_ends ht h hbasic hblk.ended (fun root hroot => hroots root
    (List.mem_append_right _ (Option.mem_toList.mpr hroot)))
  refine (hslots.bind (fun _ _ => hend)).iff ?_
  simp only [Arena.blockRoots, List.mem_map, List.mem_append, List.mem_filterMap,
    Option.mem_toList, Option.mem_def]
  grind

/-- Typing comes to its end unless it comes to an expression that is nested in itself. -/
theorem function_ends {g : FlowGraph} (view : FunctionView)
    (hblocks : ∀ blk ∈ g.blocks,
      Ends a f (∃ root ∈ a.blockRoots blk, Endless a.PartOf root.2) (visitBlock a f blk)) :
    Ends a f (∃ root ∈ a.roots g f, Endless a.PartOf root.2) (function a g f view) := by
  have hdefs := Attempts.forM (fun d (hd : d ∈ f.defs.toList) => fillDef_ends ht h hbasic
    (ht.numbered.mem_defs.mp (Array.mem_toList_iff.mp hd)))
  have hrest : Ends a f (∃ blk ∈ g.blocks, ∃ root ∈ a.blockRoots blk, Endless a.PartOf root.2) (do
      let returns ← g.blocks.mapM (visitBlock a f)
      let result ← addNode (resultRule view.returnType returns.flatten) .result
      return (result, ← f.params.mapM (defNode f)) : TypingM _) := by
    refine (Attempts.mapM hblocks).before (fun returns _ =>
      (Attempts.addNode _ _).after (fun result => ?_))
    refine (Attempts.mapM_total fun i hi => ?_).before (fun _ _ => .pure _)
    obtain ⟨d, hd⟩ := ht.params i hi
    exact defNode_total ht hd
  unfold function
  rw [show f.defs.forM (fillDef a f) = f.defs.toList.forM (fillDef a f) from
    List.forM_toArray f.defs.toList (fillDef a f)]
  refine (hdefs.bind (fun _ _ => (?_ : Ends a f
    (∃ blk ∈ g.blocks, ∃ root ∈ a.blockRoots blk, Endless a.PartOf root.2) _))).iff ?_
  · cases view.signature with
    | none => exact hrest
    | some signature => exact (applySignature_total ht signature).after (fun _ => hrest)
  · simp only [Arena.roots, List.mem_append, List.mem_flatMap, List.mem_map, Option.mem_toList,
      Option.mem_def]
    grind

end

end TypingM

/-- The types of a form are found, unless what it evaluates is nested in itself. -/
theorem FunctionTypes.ofForm_ends {a : Arena} {fn : NodeId} {g : FlowGraph} {f : SsaForm}
    {view : FunctionView} (h : a.Formed) (hbasic : a.Basic) (ht : f.Typeable a fn)
    (hview : a.function f.node = .ok view)
    (hfrom : ∀ b ∈ g.blocks, b.From a (TransGen a.Leads fn))
    (hroots : ∀ b ∈ g.blocks, ∀ root ∈ b.slots.filterMap a.slotRoot? ++
      (a.endRoot? b.terminator).toList, f.Covers a fn b.id root) :
    ((¬∃ root ∈ a.roots g f, Endless a.PartOf root.2) ∧ ∃ t, FunctionTypes.ofForm a g f = .ok t) ∨
    ((∃ root ∈ a.roots g f, Endless a.PartOf root.2) ∧
      TooDeep (FunctionTypes.ofForm a g f)) := by
  have hform : ofForm a g f =
      (TypingM.function a g f view (Typing.start f) >>= fun p => .ok {
        function := view.name, graph := p.2.graph, defs := p.2.defs, params := p.1.2,
        result := p.1.1, calls := p.2.calls }) := by
    rw [ofForm, hview]
    rfl
  rcases TypingM.function_ends ht h hbasic view
    (fun b hb => TypingM.visitBlock_ends ht h hbasic (hfrom b hb) (hroots b hb)) _ (.start a f) with
    ⟨hending, nodes, s, hrun, -⟩ | ⟨hendless, e, hrun, he⟩
  · exact .inl ⟨hending, _, by rw [hform, hrun]; rfl⟩
  · exact .inr ⟨hendless, e, by rw [hform, hrun]; rfl, he⟩

/-- The types of a form are found. -/
theorem FunctionTypes.ofForm_total {a : Arena} {fn : NodeId} {g : FlowGraph} {f : SsaForm}
    {view : FunctionView} (h : a.Formed) (hbasic : a.Basic) (hfn : a.Grounded fn)
    (ht : f.Typeable a fn) (hview : a.function f.node = .ok view)
    (hfrom : ∀ b ∈ g.blocks, b.From a (TransGen a.Leads fn))
    (hroots : ∀ b ∈ g.blocks, ∀ root ∈ b.slots.filterMap a.slotRoot? ++
      (a.endRoot? b.terminator).toList, f.Covers a fn b.id root) :
    ∃ t, FunctionTypes.ofForm a g f = .ok t := by
  rcases ofForm_ends h hbasic ht hview hfrom hroots with ⟨-, htypes⟩ | ⟨⟨root, hroot, hendless⟩, -⟩
  · exact htypes
  · obtain ⟨e, he, hcycle⟩ := hendless
    have hreach : ReflTransGen a.Leads fn e := (ht.covers hroots hroot).below.to_reflTransGen.trans
      (ReflTransGen.mono (fun _ _ => Arena.PartOf.leads) _ _ he)
    exact absurd (TransGen.mono (fun _ _ => Arena.PartOf.leads) _ _ hcycle) (hfn e hreach)

/-! The reads of a function's form. -/

theorem WriteOrigin.Makes.root? {d : Def} {origin : WriteOrigin} (h : origin.Makes d.kind) :
    d.root? = origin.root? := by
  unfold Def.root?
  generalize d.kind = kind at h
  cases h <;> rfl

namespace SsaForm

variable {a : Arena} {fn : NodeId} {view : FunctionView} {g : FlowGraph} {effects : EffectMap}
  {f f' : SsaForm} {b : BlockId} {root : NodeId}

open FlowGraph

theorem isWrite_of_root? {d : Def} (h : root ∈ d.root?) : d.kind.isWrite = true := by
  unfold Def.root? at h
  generalize d.kind = kind at h
  cases kind with
  | assign | loopInit | loopStep => rfl
  | param | phi | promotion | undefined => cases h

/-- What the effects of a block cover is covered by the reads that stand there. -/
theorem Traced.covers (h : Traced view g effects f) (hb : g.Reachable b)
    (hroot : a.Covers fn (effects.of b) root) : f.Covers a fn b root := by
  refine ⟨hroot.below, fun m x hm hx => ?_⟩
  obtain ⟨event, -, hmirrors⟩ := exists_right_of_forall₂ (h.mirrors b hb) _ (hroot.reads m x hm hx)
  generalize he : Effect.read x (.name m) = e at hmirrors
  cases hmirrors with
  | @read u hu hblock =>
    obtain ⟨-, hsite⟩ := Effect.read.inj he
    exact ⟨u.id, u, hu, hsite.symm, hblock⟩
  | write => cases he

/-- A definition that writes takes its value from an expression whose reads stand there. -/
theorem Traced.covers_root (h : Traced view g effects f) {i : DefId} {d : Def}
    (hd : f.definition? i = some d) (hb : g.Reachable d.block)
    (hwritten : ∀ v origin, .write v origin ∈ effects.of d.block → ∀ root ∈ origin.root?,
      a.Covers fn (effects.of d.block) root) (hroot : root ∈ d.root?) :
    f.Covers a fn d.block root := by
  have hwrite := isWrite_of_root? hroot
  have heffect : .define i ∈ f.effectEvents d.block := List.mem_filter.mpr
    ⟨h.recorded.defined i d hd, by rw [isEffect, hd, Option.any_some, hwrite]⟩
  obtain ⟨e, he, hmirrors⟩ := exists_left_of_forall₂ (h.mirrors d.block hb) _ heffect
  generalize hevent : Event.define i = event at hmirrors
  cases hmirrors with
  | read => cases hevent
  | @write d' origin hd' _ hmakes =>
    cases hevent
    obtain rfl := Option.some.inj (hd.symm.trans hd')
    exact h.covers hb (hwritten d.name origin he root (hmakes.root? ▸ hroot))

theorem Built.reachable_of_write {s : Setting} {f₁ f₀ : SsaForm} {r : Renaming}
    (h : Built a g view s f₁ f₀ r) (hrecorded : Recorded g.entry r.form) {i : DefId} {d : Def}
    (hd : r.form.definition? i = some d) (hwrite : d.kind.isWrite = true) :
    g.Reachable d.block := by
  by_contra hnot
  have hevent := hrecorded.defined i d hd
  rw [h.progress.renames.eventsIn d.block
    (fun hmem => hnot (h.exact.mem_preorder.mp hmem))] at hevent
  obtain ⟨j, d₀, hj, hd₀⟩ := h.placed.opening.recorded d.block _ hevent
  cases hj
  obtain ⟨e, he, -, -, hphi, hsame⟩ := h.progress.renames.keeps.definition? i d₀ hd₀
  obtain rfl := Option.some.inj (hd.symm.trans he)
  have hunwritten := h.placed.opening.unwritten i d₀ hd₀
  rw [← hsame (hphi.symm.trans (DefKind.not_phi_of_isWrite hwrite)), hwrite] at hunwritten
  cases hunwritten

theorem Marked.covers (h : Marked f f') (hroot : f.Covers a fn b root) : f'.Covers a fn b root := by
  refine ⟨hroot.below, fun m x hm hx => ?_⟩
  obtain ⟨i, u, hu, hsite, hblock⟩ := hroot.reads m x hm hx
  obtain ⟨binding, hu'⟩ := h.read i u hu
  exact ⟨i, _, hu', hsite, hblock⟩

/-- A form of a function has all that its types are made from, with its promotions and with every
read classified. -/
theorem bind_promote_typeable {a : Arena} {fn : NodeId} {view : FunctionView} {g g' : FlowGraph}
    {f : SsaForm} {l : Lattice} {policy : UnboundPolicy} (h : a.Formed) (hbasic : a.Basic)
    (hview : a.function fn = .ok view) (hg : g.Finished)
    (hfrom : ∀ b ∈ g.blocks, b.From a (TransGen a.Leads fn))
    (run : ofGraph a g fn = .ok (f, g')) :
    Typeable a fn ((f.promote l).1.bind g' policy).1 ∧
      ∀ b ∈ g.blocks, ∀ root ∈ b.slots.filterMap a.slotRoot? ++ (a.endRoot? b.terminator).toList,
        ((f.promote l).1.bind g' policy).1.Covers a fn b.id root := by
  obtain ⟨hstated, hfilled⟩ := ofGraph_stated hview run
  have hsettled := hstated.settled hfilled
  have hrecorded := ofGraph_recorded run
  obtain ⟨hrecorded', -, henriches⟩ := promote_enriches (l := l) hsettled hrecorded
    (ofGraph_sited hview run)
  have hintact : Intact g ((f.promote l).1.bind g' policy).1 := intact_bind_promote hview hg run
  have hsteps : StepsRead ((f.promote l).1.bind g' policy).1 :=
    stepsRead_bind_promote hview hg run
  have hsettled' : Settled a view ((f.promote l).1.bind g' policy).1 :=
    settled_bind_promote hview run
  obtain ⟨view', s, f₁, f₀, r, hview', hbuilt, rfl⟩ := ofGraph_ok hg run
  obtain rfl := Except.ok.inj (hview.symm.trans hview')
  have htraced : Traced view g s.effects (r.form.promote l).1 :=
    henriches.traced (hbuilt.traced hrecorded) hrecorded' hbuilt.effected.lists.direct
  have hmarked : Marked (r.form.promote l).1 ((r.form.promote l).1.bind g' policy).1 :=
    hrecorded'.numbered.marked _ _
  generalize (r.form.promote l).1 = f₁ at *
  generalize (f₁.bind g' policy).1 = f₂ at hintact hsteps hmarked hsettled' ⊢
  have hevaluates : ∀ c blk, g.block? c = some blk → a.Evaluates fn (s.effects.of c)
      (blk.slots.filterMap a.slotRoot? ++ (a.endRoot? blk.terminator).toList) :=
    fun c blk hblk => Effected.evaluates h hbasic hbuilt.effected hfrom hblk
  refine ⟨⟨hintact.numbered, fun i hi => ?_, fun i u hu => ?_, hintact.operands hsteps,
    fun i d' hd' root hroot => ?_⟩, fun blk hblk root hroot => ?_⟩
  · obtain ⟨p, -, d, hd, -⟩ := exists_left_of_forall₂ hsettled'.params i hi
    exact ⟨d, hd⟩
  · obtain ⟨d, hd, -⟩ := hintact.supplied.uses i u hu
    exact ⟨d, hd⟩
  · obtain ⟨d, poisoned, hd, rfl⟩ := hmarked.back i d' hd'
    have hwrite : d.kind.isWrite = true := isWrite_of_root? hroot
    have hnot := DefKind.not_phi_of_isWrite hwrite
    obtain ⟨d₀, hd₀⟩ | hpromotion := henriches.added i d hd
    · obtain ⟨e, he, -, -, hphi, hsame⟩ := henriches.definition? i d₀ hd₀
      obtain rfl := Option.some.inj (hd.symm.trans he)
      obtain rfl := hsame (hphi.symm.trans hnot)
      have hreach := hbuilt.reachable_of_write hrecorded hd₀ hwrite
      obtain ⟨blk, hblk⟩ := contains_iff.mp (hg.linked.contains_of_reachable hreach)
      have hcovers : f₁.Covers a fn d.block root :=
        htraced.covers_root hd hreach (hevaluates d.block blk hblk).written hroot
      exact hmarked.covers hcovers
    · rw [DefKind.not_write_of_isPromotion hpromotion] at hwrite
      cases hwrite
  · have hfound := block?_of_mem hg.once hblk
    have hreach := hg.reached blk.id (contains_iff.mpr ⟨blk, hfound⟩)
    exact hmarked.covers (htraced.covers hreach ((hevaluates blk.id blk hfound).covers root hroot))

end SsaForm

/-- The form of an accepted graph is made. -/
theorem ofFunction_unchecked {a : Arena} {ids : IdSupply .node} {fn : NodeId} {view : FunctionView}
    {whole g : FlowGraph} (ha : a.Grown ids) (hbasic : a.Basic)
    (hview : a.function fn = .ok view) (hwhole : FlowGraph.lower a view = .ok whole)
    (hcount : whole.blocks.length ≤ Ident.invalidRaw) (hg : FlowGraph.ofFunction a fn = .ok g) :
    ∃ f g', SsaForm.unchecked a g fn = .ok (f, g') := by
  have h := ha.formed.1
  have hfinished := FlowGraph.ofFunction_finished hview hwhole hcount hg
  have hfrom := FlowGraph.ofFunction_from hview hwhole hcount hg
  obtain ⟨effects, heffects⟩ := FlowGraph.effects_total h hbasic hfrom
  have hstepped : ∀ b, g.Reachable b → Stepped (effects.of b) := by
    intro b hb
    obtain ⟨blk, hblk⟩ := FlowGraph.contains_iff.mp (hfinished.linked.contains_of_reachable hb)
    exact (FlowGraph.Effected.evaluates h hbasic
      ⟨hfinished, FlowGraph.effects_ok heffects⟩ hfrom hblk).stepped
  exact SsaForm.unchecked_total hview hfinished heffects hstepped

/-- Once the graph of a function is made, nothing goes wrong before its types are resolved, if there
are enough ids for its blocks and its reads. -/
theorem ofFunction_typed {a : Arena} {ids : IdSupply .node} {fn : NodeId} {view : FunctionView}
    {whole g : FlowGraph} (ha : a.Grown ids) (hbasic : a.Basic) (hfn : a.Grounded fn)
    (hview : a.function fn = .ok view) (hwhole : FlowGraph.lower a view = .ok whole)
    (hcount : whole.blocks.length ≤ Ident.invalidRaw) (hg : FlowGraph.ofFunction a fn = .ok g)
    (hids : ∀ f g', SsaForm.unchecked a g fn = .ok (f, g') → f.nextUse ≤ Ident.invalidRaw) :
    ∃ f g', SsaForm.ofGraph a g fn = .ok (f, g') ∧ ∀ l policy,
      ((f.promote l).1.bind g' policy).1.verify g' = .ok () ∧
        ∃ t, FunctionTypes.ofForm a g' ((f.promote l).1.bind g' policy).1 = .ok t := by
  have h := ha.formed.1
  have hfinished := FlowGraph.ofFunction_finished hview hwhole hcount hg
  have hfrom := FlowGraph.ofFunction_from hview hwhole hcount hg
  obtain ⟨f, g', hunchecked⟩ := ofFunction_unchecked ha hbasic hview hwhole hcount hg
  have hf := SsaForm.unchecked_accepted hfinished hunchecked (hids f g' hunchecked)
  refine ⟨f, g', hf, fun l policy => ?_⟩
  obtain ⟨t, htree, rfl⟩ := SsaForm.ofGraph_dominance hfinished.plain hf
  obtain ⟨t', htree', -, hexact⟩ := hfinished.linked.consistent.buildDominance
  obtain rfl := Except.ok.inj (htree.symm.trans htree')
  have hsettled : SsaForm.Settled a view ((f.promote l).1.bind _ policy).1 :=
    SsaForm.settled_bind_promote hview hf
  have hnode := hsettled.node
  obtain ⟨htypeable, hroots⟩ :=
    SsaForm.bind_promote_typeable h hbasic hview hfinished hfrom hf
  refine ⟨(SsaForm.intact_bind_promote hview hfinished hf).accepted hexact, ?_⟩
  exact FunctionTypes.ofForm_total h hbasic hfn htypeable
    (hnode.trans (Arena.function_node hview) ▸ hview) hfrom hroots

/-! A function that may read what it has not assigned. -/

/-- The first nodes of an arena that is made node by node. -/
def joinUpTo (n : Nat) : Arena :=
  { joinArena with nodes := joinArena.nodes.take n }

theorem grown_joinArena : joinArena.Grown ⟨9, by decide⟩ := by
  have h₀ : (joinUpTo 0).Grown {} := .new Registry.grown_builtin
  have h₁ := h₀.create (show (joinUpTo 0).create {} Kind.name [.str "c"] =
    (.ok (⟨0⟩, joinUpTo 1), ⟨1, by decide⟩) from rfl)
  have h₂ := h₁.create (show (joinUpTo 1).create ⟨1, _⟩ Kind.name [.str "x"] =
    (.ok (⟨1⟩, joinUpTo 2), ⟨2, by decide⟩) from rfl)
  have h₃ := h₂.create (show (joinUpTo 2).create ⟨2, _⟩ Kind.name [.str "c"] =
    (.ok (⟨2⟩, joinUpTo 3), ⟨3, by decide⟩) from rfl)
  have h₄ := h₃.create (show (joinUpTo 3).create ⟨3, _⟩ Kind.assign [.node ⟨1⟩, .node ⟨2⟩] =
    (.ok (⟨3⟩, joinUpTo 4), ⟨4, by decide⟩) from rfl)
  have h₅ := h₄.create (show (joinUpTo 4).create ⟨4, _⟩ Kind.ifElse
    [.node ⟨0⟩, .list [.node ⟨3⟩], .list []] = (.ok (⟨4⟩, joinUpTo 5), ⟨5, by decide⟩) from rfl)
  have h₆ := h₅.create (show (joinUpTo 5).create ⟨5, _⟩ Kind.name [.str "x"] =
    (.ok (⟨5⟩, joinUpTo 6), ⟨6, by decide⟩) from rfl)
  have h₇ := h₆.create (show (joinUpTo 6).create ⟨6, _⟩ Kind.returnStmt [.node ⟨5⟩] =
    (.ok (⟨6⟩, joinUpTo 7), ⟨7, by decide⟩) from rfl)
  have h₈ := h₇.create (show (joinUpTo 7).create ⟨7, _⟩ Kind.param [.str "c"] =
    (.ok (⟨7⟩, joinUpTo 8), ⟨8, by decide⟩) from rfl)
  exact h₈.create (show (joinUpTo 8).create ⟨8, _⟩ Kind.function
    [.str "f", .list [.node ⟨7⟩], .list [.node ⟨4⟩, .node ⟨6⟩]] =
    (.ok (⟨8⟩, joinArena), ⟨9, by decide⟩) from rfl)

theorem ofFunction_typed_joinArena :
    (joinArena.Grown ⟨9, by decide⟩ ∧ joinArena.Basic ∧ joinArena.Grounded ⟨8⟩ ∧
      joinArena.function ⟨8⟩ = .ok joinView ∧ FlowGraph.lower joinArena joinView = .ok joinGraph ∧
      joinGraph.blocks.length ≤ Ident.invalidRaw ∧
      FlowGraph.ofFunction joinArena ⟨8⟩ = .ok joinGraph ∧
      ∀ f g', SsaForm.unchecked joinArena joinGraph ⟨8⟩ = .ok (f, g') →
        f.nextUse ≤ Ident.invalidRaw) ∧
    ∃ f g', SsaForm.ofGraph joinArena joinGraph ⟨8⟩ = .ok (f, g') ∧ ∀ l policy,
      ((f.promote l).1.bind g' policy).1.verify g' = .ok () ∧
        ∃ t, FunctionTypes.ofForm joinArena g' ((f.promote l).1.bind g' policy).1 = .ok t := by
  have hbasic : joinArena.Basic := List.Subset.refl _
  have hfn : joinArena.Grounded ⟨8⟩ :=
    grown_joinArena.formed.1.ordered.grounded_of_earlier (by decide) ⟨8⟩
  have hcount : joinGraph.blocks.length ≤ Ident.invalidRaw := by decide
  have hids : ∀ f g', SsaForm.unchecked joinArena joinGraph ⟨8⟩ = .ok (f, g') →
      f.nextUse ≤ Ident.invalidRaw := by
    intro f g' hf
    obtain ⟨events, hform⟩ := ofGraph_joinArena
    cases hf.symm.trans (SsaForm.ofGraph_iff.mp hform).1
    exact show 5 ≤ Ident.invalidRaw by decide
  exact ⟨⟨grown_joinArena, hbasic, hfn, rfl, lower_joinArena, hcount, ofFunction_joinArena, hids⟩,
    ofFunction_typed grown_joinArena hbasic hfn rfl lower_joinArena hcount ofFunction_joinArena hids⟩

end TypedSsa

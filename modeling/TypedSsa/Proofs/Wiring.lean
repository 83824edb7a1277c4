import Mathlib.Logic.Relation
import TypedSsa.Proofs.Nesting
import TypedSsa.Proofs.Nodes
import TypedSsa.Proofs.Opening
import TypedSsa.Typing.Local

/-!
What stands in the type graph of a function. Main statement: `ofForm_wired`. Every expression that
is evaluated in a block has one node there, made of the nodes of its parts, and every definition has
the node of the value that it takes.
-/

namespace TypedSsa

/-! The expressions that a function evaluates. -/

namespace Arena

variable (a : Arena)

def parts (node : NodeId) : List NodeId :=
  match a.expression node with
  | .ok e => e.parts
  | .error _ => []

def isCall (node : NodeId) : Bool :=
  match a.expression node with
  | .ok (.call _ _) => true
  | _ => false

/-- An expression after all that it is made of, in the order of evaluation. -/
def within : Nat → NodeId → List NodeId
  | 0, _ => []
  | depth + 1, node => (a.parts node).flatMap (within depth) ++ [node]

/-- One expression is nested in another. -/
def PartOf (node part : NodeId) : Prop :=
  part ∈ a.parts node

variable {a}

theorem partOf_of_mem_within {depth : Nat} : ∀ {node q : NodeId}, q ∈ a.within depth node →
    Relation.ReflTransGen a.PartOf node q := by
  induction depth with
  | zero => exact fun h => absurd h List.not_mem_nil
  | succ depth ih =>
    intro node q h
    rcases List.mem_append.mp h with h | h
    · obtain ⟨p, hp, hq⟩ := List.mem_flatMap.mp h
      exact .head hp (ih hq)
    · rw [List.mem_singleton.mp h]

end Arena

/-- The expression that a definition takes its value from. -/
def Def.root? (d : Def) : Option NodeId :=
  match d.kind with
  | .assign _ value | .loopInit _ value => some value
  | .loopStep _ step _ => step
  | _ => none

namespace Arena

variable (a : Arena)

/-- The expression that a slot evaluates, unless a definition takes its value from it. -/
def slotRoot? : Slot → Option NodeId
  | .node id =>
    match a.statement id with
    | .ok (.expr value) => some value
    | _ => none
  | _ => none

def endRoot? : Option Terminator → Option NodeId
  | some (.branch (.expr test) _ _) => some test
  | some (.branch (.loopTest construct) _ _) =>
    match a.statement construct with
    | .ok (.forLoop loop) => some loop.stop
    | _ => none
  | some (.returnWith value) => value
  | some (.raise value) => value
  | _ => none

/-- What a block evaluates that no definition takes its value from. -/
def blockRoots (b : Block) : List (BlockId × NodeId) :=
  (b.slots.filterMap a.slotRoot? ++ (a.endRoot? b.terminator).toList).map (Prod.mk b.id)

/-- What a function evaluates, and in which blocks: what its definitions take their values from
first. -/
def roots (g : FlowGraph) (f : SsaForm) : List (BlockId × NodeId) :=
  f.defs.toList.flatMap (fun d => d.root?.toList.map (Prod.mk d.block)) ++
    g.blocks.flatMap a.blockRoots

def withinRoot (root : BlockId × NodeId) : List (BlockId × NodeId) :=
  (a.within a.nodes.size root.2).map (Prod.mk root.1)

/-- Every expression that a function evaluates, once in each block, in the order of evaluation. -/
def evaluated (g : FlowGraph) (f : SsaForm) : List (BlockId × NodeId) :=
  addNew [] ((a.roots g f).flatMap a.withinRoot)

end Arena

/-- The read that stands at a name in a block. -/
def SsaForm.readAt? (f : SsaForm) (block : BlockId) (node : NodeId) : Option Use :=
  f.uses.toList.find? (fun u => (u.site, u.block) == (.name node, block))

/-- What each return of a function gives back; a bare one gives nothing. -/
def Block.returned (b : Block) : List (Option (BlockId × NodeId)) :=
  match b.terminator with
  | some (.returnWith value) => [value.map (Prod.mk b.id)]
  | _ => []

namespace Typing

variable {a : Arena} {f : SsaForm} {seen : List (BlockId × NodeId)} {s s' s'' : Typing}
  {block : BlockId} {node : NodeId} {m : TypeNodeId}

/-- An expression of which all parts are typed in a block has this rule there. -/
def ExprRule (f : SsaForm) (s : Typing) (block : BlockId) (node : NodeId) (rule : TypeRule) :
    Expression → Prop
  | .name _ => ∃ u, f.readAt? block node = some u ∧ u.definition.raw < f.defs.size ∧
      rule = .copy ⟨u.definition.raw⟩
  | .const ty | .cast _ ty => rule = .constant ty
  | .call callee args => ∃ nodes, List.Forall₂ (fun arg x => s.exprs[(block, arg)]? = some x)
      args nodes ∧ rule = .apply callee nodes
  | .binary op left right => ∃ x y, s.exprs[(block, left)]? = some x ∧
      s.exprs[(block, right)]? = some y ∧ rule = .apply op [x, y]
  | .other _ => rule = .constant .dynamic

/-- A call that has a node is noted with the nodes of its arguments. -/
def CallOf (a : Arena) (s : Typing) (apply : TypeNodeId) (key : BlockId × NodeId) (c : CallSite) :
    Prop :=
  c.block = key.1 ∧ c.node = key.2 ∧ c.apply = apply ∧
    ∃ args, a.expression key.2 = .ok (.call c.callee args) ∧
      List.Forall₂ (fun arg x => s.exprs[(key.1, arg)]? = some x) args c.args

def IsCall (a : Arena) (s : Typing) (key : BlockId × NodeId) (c : CallSite) : Prop :=
  ∃ m, s.exprs[key]? = some m ∧ CallOf a s m key c

/-- Nodes are added, and only rules of `free` nodes change. -/
structure Grows (free : TypeNodeId → Prop) (s s' : Typing) : Prop where
  exprs : ∀ (k : BlockId × NodeId) m, s.exprs[k]? = some m → s'.exprs[k]? = some m
  rules : ∀ m rule, ¬free m → s.graph.rule? m = some rule → s'.graph.rule? m = some rule
  unit : ∀ m, s.unitNode = some m → s'.unitNode = some m

namespace Grows

variable {free free' : TypeNodeId → Prop}

theorem refl (free : TypeNodeId → Prop) (s : Typing) : Grows free s s :=
  ⟨fun _ _ h => h, fun _ _ _ h => h, fun _ h => h⟩

theorem trans (h : Grows free s s') (h' : Grows free s' s'') : Grows free s s'' :=
  ⟨fun k m hk => h'.exprs k m (h.exprs k m hk),
    fun m rule hm hrule => h'.rules m rule hm (h.rules m rule hm hrule),
    fun m hm => h'.unit m (h.unit m hm)⟩

theorem mono (h : Grows free s s') (hfree : ∀ m, free m → free' m) : Grows free' s s' :=
  ⟨h.exprs, fun m rule hm => h.rules m rule fun hm' => hm (hfree m hm'), h.unit⟩

theorem exprRule (h : Grows free s s') {rule : TypeRule} {e : Expression}
    (he : ExprRule f s block node rule e) : ExprRule f s' block node rule e := by
  cases e with
  | name | const | cast | other => exact he
  | call callee args =>
    obtain ⟨nodes, hargs, hrule⟩ := he
    exact ⟨nodes, hargs.imp fun _ _ hx => h.exprs _ _ hx, hrule⟩
  | binary op left right =>
    obtain ⟨x, y, hx, hy, hrule⟩ := he
    exact ⟨x, y, h.exprs _ _ hx, h.exprs _ _ hy, hrule⟩

theorem callOf (h : Grows free s s') {key : BlockId × NodeId} {c : CallSite} {m : TypeNodeId}
    (hc : CallOf a s m key c) : CallOf a s' m key c := by
  obtain ⟨hblock, hnode, happly, args, hcall, hargs⟩ := hc
  exact ⟨hblock, hnode, happly, args, hcall, hargs.imp fun _ _ hx => h.exprs _ _ hx⟩

theorem isCall (h : Grows free s s') {key : BlockId × NodeId} {c : CallSite}
    (hc : IsCall a s key c) : IsCall a s' key c := by
  obtain ⟨m, hm, hc⟩ := hc
  exact ⟨m, h.exprs _ _ hm, h.callOf hc⟩

end Grows

/-- The graph of a function of which `seen` has been evaluated. -/
structure Filled (a : Arena) (f : SsaForm) (seen : List (BlockId × NodeId)) (s : Typing) :
    Prop where
  defs : s.defs = (start f).defs
  reads : s.reads = (start f).reads
  size : f.defs.size ≤ s.graph.size
  nodup : seen.Nodup
  mem : ∀ k, k ∈ seen ↔ ∃ m, s.exprs[k]? = some m
  high : ∀ (k : BlockId × NodeId) m, s.exprs[k]? = some m →
    f.defs.size ≤ m.raw ∧ m.raw < s.graph.size
  inj : ∀ (k k' : BlockId × NodeId) m, s.exprs[k]? = some m → s.exprs[k']? = some m → k = k'
  below : ∀ (b : BlockId) (n : NodeId) m, s.exprs[(b, n)]? = some m → ∀ p ∈ a.parts n,
    ∃ x : TypeNodeId, s.exprs[(b, p)]? = some x ∧ x.raw < m.raw
  rules : ∀ (b : BlockId) (n : NodeId) m, s.exprs[(b, n)]? = some m →
    ∃ e rule, a.expression n = .ok e ∧
    s.graph.rule? m = some rule ∧ ExprRule f s b n rule e
  calls : List.Forall₂ (IsCall a s) (seen.filter (fun k => a.isCall k.2)) s.calls
  unit : ∀ m, s.unitNode = some m → f.defs.size ≤ m.raw ∧
    s.graph.rule? m = some (.constant .unit) ∧ ∀ k : BlockId × NodeId, s.exprs[k]? ≠ some m

theorem start_filled (a : Arena) (f : SsaForm) : Filled a f [] (start f) := by
  have hnone : ∀ k : BlockId × NodeId, (start f).exprs[k]? = none := fun k => by
    rw [start]
    exact Std.HashMap.getElem?_empty
  exact {
    defs := rfl
    reads := rfl
    size := by simp [start, TypeGraph.size]
    nodup := List.nodup_nil
    mem := by
      simp [hnone]
    high := by
      intro k m hk
      rw [hnone] at hk
      cases hk
    inj := by
      intro k k' m hk
      rw [hnone] at hk
      cases hk
    below := by
      intro b n m hk
      rw [hnone] at hk
      cases hk
    rules := by
      intro b n m hk
      rw [hnone] at hk
      cases hk
    calls := .nil
    unit := by
      intro m hm
      cases hm }

namespace Filled

/-- What is nested in an evaluated expression has been evaluated before it. -/
theorem before (h : Filled a f seen s) {b : BlockId} {n q : NodeId} {m : TypeNodeId}
    (hm : s.exprs[(b, n)]? = some m) (hpath : Relation.TransGen a.PartOf n q) :
    ∃ x : TypeNodeId, s.exprs[(b, q)]? = some x ∧ x.raw < m.raw := by
  induction hpath with
  | single hp => exact h.below b n m hm _ hp
  | tail _ hp ih =>
    obtain ⟨x, hx, hlt⟩ := ih
    obtain ⟨y, hy, hlt'⟩ := h.below b _ x hx _ hp
    exact ⟨y, hy, hlt'.trans hlt⟩

theorem mem_of_within (h : Filled a f seen s) {b : BlockId} {n q : NodeId} {depth : Nat}
    (hn : (b, n) ∈ seen) (hq : q ∈ a.within depth n) : (b, q) ∈ seen := by
  rcases Relation.reflTransGen_iff_eq_or_transGen.mp
      (Arena.partOf_of_mem_within hq) with rfl | hpath
  · exact hn
  · obtain ⟨m, hm⟩ := (h.mem _).mp hn
    obtain ⟨x, hx, -⟩ := h.before hm hpath
    exact (h.mem _).mpr ⟨x, hx⟩

/-- An expression is not evaluated while its parts are. -/
theorem not_mem_of_parts {depth : Nat}
    (h : Filled a f (addNew seen (((a.parts node).flatMap (a.within depth)).map (Prod.mk block))) s)
    (hnew : (block, node) ∉ seen) :
    (block, node) ∉ addNew seen
      (((a.parts node).flatMap (a.within depth)).map (Prod.mk block)) := by
  intro hmem
  obtain ⟨m, hm⟩ := (h.mem _).mp hmem
  rcases mem_addNew.mp hmem with hold | hwithin
  · exact hnew hold
  · obtain ⟨q, hq, hsame⟩ := List.mem_map.mp hwithin
    obtain ⟨p, hp, hq⟩ := List.mem_flatMap.mp hq
    cases hsame
    have hpath : Relation.TransGen a.PartOf node node :=
      .head' hp (Arena.partOf_of_mem_within hq)
    obtain ⟨x, hx, hlt⟩ := h.before hm hpath
    rw [hm] at hx
    cases hx
    exact lt_irrefl _ hlt

theorem addNode (h : Filled a f seen s) (rule : TypeRule) (origin : TypeOrigin) :
    Filled a f seen { s with graph := (s.graph.add rule origin).2 } ∧
      Grows (fun _ => False) s { s with graph := (s.graph.add rule origin).2 } := by
  refine ⟨{ h with size := ?_, high := ?_, rules := ?_, unit := ?_ }, fun _ _ hk => hk,
    fun m rule' _ hm => TypeGraph.rule?_add_kept hm rule origin, fun _ hm => hm⟩
  · rw [TypeGraph.size_add]
    exact h.size.trans (Nat.le_succ _)
  · intro k m hk
    obtain ⟨hlow, hhigh⟩ := h.high k m hk
    exact ⟨hlow, by rw [TypeGraph.size_add]; omega⟩
  · intro b n m hm
    obtain ⟨e, rule', he, hrule, hexpr⟩ := h.rules b n m hm
    exact ⟨e, rule', he, TypeGraph.rule?_add_kept hrule rule origin, hexpr⟩
  · intro m hm
    obtain ⟨hlow, hrule, hnone⟩ := h.unit m hm
    exact ⟨hlow, TypeGraph.rule?_add_kept hrule rule origin, hnone⟩

/-- The rule of a definition does not touch the nodes of expressions. -/
theorem setRule (h : Filled a f seen s) (id : TypeNodeId) (hid : id.raw < f.defs.size)
    (rule : TypeRule) :
    Filled a f seen { s with graph := s.graph.setRule id rule } ∧
      Grows (· = id) s { s with graph := s.graph.setRule id rule } := by
  have hlt : id.raw < s.graph.size := hid.trans_le h.size
  have hkept : ∀ m rule', m ≠ id → s.graph.rule? m = some rule' →
      (s.graph.setRule id rule).rule? m = some rule' := by
    intro m rule' hne hm
    rw [TypeGraph.rule?_setRule hlt, if_neg hne, hm]
  have hsize : (s.graph.setRule id rule).size = s.graph.size := TypeGraph.size_change _ _ _
  have hhigh : ∀ m : TypeNodeId, f.defs.size ≤ m.raw → m ≠ id := by
    rintro m hm rfl
    omega
  refine ⟨{ h with size := ?_, high := ?_, rules := ?_, unit := ?_ }, fun _ _ hk => hk,
    fun m rule' hne hm => hkept m rule' hne hm, fun _ hm => hm⟩
  · rw [hsize]
    exact h.size
  · intro k m hk
    rw [hsize]
    exact h.high k m hk
  · intro b n m hm
    obtain ⟨e, rule', he, hrule, hexpr⟩ := h.rules b n m hm
    exact ⟨e, rule', he, hkept m rule' (hhigh m (h.high _ m hm).1) hrule, hexpr⟩
  · intro m hm
    obtain ⟨hlow, hrule, hnone⟩ := h.unit m hm
    exact ⟨hlow, hkept m _ (hhigh m hlow) hrule, hnone⟩

/-- A new expression gets a node, after its parts. -/
theorem insert (h : Filled a f seen s) (hnew : (block, node) ∉ seen) {e : Expression}
    {rule : TypeRule} (he : a.expression node = .ok e) (hrule : ExprRule f s block node rule e)
    (hparts : ∀ p ∈ a.parts node, ∃ x, s.exprs[(block, p)]? = some x) {calls : List CallSite}
    (hcalls : List.Forall₂ (CallOf a s ⟨s.graph.size⟩)
      ([(block, node)].filter (fun k => a.isCall k.2)) calls)
    (hs' : s' = { s with
      graph := (s.graph.add rule (.expr node)).2
      calls := s.calls ++ calls
      exprs := s.exprs.insert (block, node) ⟨s.graph.size⟩ }) :
    Filled a f (seen ++ [(block, node)]) s' ∧ Grows (fun _ => False) s s' ∧
      s'.exprs[(block, node)]? = some ⟨s.graph.size⟩ := by
  have hget : ∀ k : BlockId × NodeId, s'.exprs[k]? =
      if (block, node) = k then some ⟨s.graph.size⟩ else s.exprs[k]? := by
    intro k
    rw [hs', Std.HashMap.getElem?_insert]
    simp only [beq_iff_eq]
  have hself : s'.exprs[(block, node)]? = some ⟨s.graph.size⟩ := by rw [hget, if_pos rfl]
  have hfresh : ∀ (k : BlockId × NodeId) m, s'.exprs[k]? = some m →
      k = (block, node) ∧ m = ⟨s.graph.size⟩ ∨ s.exprs[k]? = some m := by
    intro k m hk
    rw [hget] at hk
    split at hk
    · rename_i hsame
      exact .inl ⟨hsame.symm, (Option.some.inj hk).symm⟩
    · exact .inr hk
  have hsize : s'.graph.size = s.graph.size + 1 := by rw [hs', TypeGraph.size_add]
  have hkept : ∀ m rule', s.graph.rule? m = some rule' → s'.graph.rule? m = some rule' :=
    fun m rule' hm => hs' ▸ TypeGraph.rule?_add_kept hm rule (.expr node)
  have hgrows : Grows (fun _ => False) s s' := by
    refine ⟨fun k m hk => ?_, fun m rule' _ hm => hkept m rule' hm, fun m hm => hs' ▸ hm⟩
    rw [hget, if_neg, hk]
    rintro rfl
    exact hnew ((h.mem _).mpr ⟨m, hk⟩)
  have hcalls' : List.Forall₂ (IsCall a s') ([(block, node)].filter (fun k => a.isCall k.2))
      calls := by
    have hkeys : ∀ k ∈ [(block, node)].filter (fun k => a.isCall k.2), k = (block, node) :=
      fun k hk => List.mem_singleton.mp (List.mem_of_mem_filter hk)
    refine ((List.forall₂_and_left (p := (· = (block, node))) _ _).mpr ⟨hkeys, hcalls⟩).imp ?_
    rintro k c ⟨rfl, hc⟩
    exact ⟨_, hself, hgrows.callOf hc⟩
  refine ⟨?_, hgrows, hself⟩
  exact {
    defs := hs' ▸ h.defs
    reads := hs' ▸ h.reads
    size := hsize ▸ h.size.trans (Nat.le_succ _)
    nodup := by
      refine List.nodup_append.mpr ⟨h.nodup, by simp, ?_⟩
      rintro k hk k' hk' rfl
      exact hnew (List.mem_singleton.mp hk' ▸ hk)
    mem := by
      intro k
      rw [List.mem_append, List.mem_singleton, h.mem]
      constructor
      · rintro (⟨m, hm⟩ | rfl)
        · exact ⟨m, hgrows.exprs k m hm⟩
        · exact ⟨_, hself⟩
      · rintro ⟨m, hm⟩
        rcases hfresh k m hm with ⟨rfl, -⟩ | hm
        · exact .inr rfl
        · exact .inl ⟨m, hm⟩
    high := by
      intro k m hm
      rw [hsize]
      rcases hfresh k m hm with ⟨-, rfl⟩ | hm
      · exact ⟨h.size, Nat.lt_succ_self _⟩
      · obtain ⟨hlow, hhigh⟩ := h.high k m hm
        exact ⟨hlow, hhigh.trans (Nat.lt_succ_self _)⟩
    inj := by
      intro k k' m hk hk'
      rcases hfresh k m hk with ⟨rfl, rfl⟩ | hk <;> rcases hfresh k' _ hk' with ⟨rfl, hm⟩ | hk'
      · rfl
      · exact absurd (h.high k' _ hk').2 (lt_irrefl _)
      · rw [hm] at hk
        exact absurd (h.high k _ hk).2 (lt_irrefl _)
      · exact h.inj k k' m hk hk'
    below := by
      intro b n m hm p hp
      rcases hfresh _ m hm with ⟨hsame, rfl⟩ | hm
      · cases hsame
        obtain ⟨x, hx⟩ := hparts p hp
        exact ⟨x, hgrows.exprs _ x hx, (h.high _ x hx).2⟩
      · obtain ⟨x, hx, hlt⟩ := h.below b n m hm p hp
        exact ⟨x, hgrows.exprs _ x hx, hlt⟩
    rules := by
      intro b n m hm
      rcases hfresh _ m hm with ⟨hsame, rfl⟩ | hm
      · cases hsame
        exact ⟨e, rule, he, hs' ▸ TypeGraph.rule?_add_self _ _ _, hgrows.exprRule hrule⟩
      · obtain ⟨e, rule', he, hrule, hexpr⟩ := h.rules b n m hm
        exact ⟨e, rule', he, hkept m rule' hrule, hgrows.exprRule hexpr⟩
    calls := by
      rw [List.filter_append, show s'.calls = s.calls ++ calls by rw [hs']]
      exact List.rel_append (h.calls.imp fun _ _ hc => hgrows.isCall hc) hcalls'
    unit := by
      intro m hm
      obtain ⟨hlow, hrule, hnone⟩ := h.unit m (by rw [← hm, hs'])
      refine ⟨hlow, hkept m _ hrule, fun k hk => ?_⟩
      rcases hfresh k m hk with ⟨-, rfl⟩ | hk
      · exact lt_irrefl _ (TypeGraph.raw_lt_of_rule? hrule)
      · exact hnone k hk }

end Filled

end Typing

namespace TypingM

open Typing

variable {a : Arena} {f : SsaForm} {seen : List (BlockId × NodeId)} {s s' : Typing}
  {block : BlockId} {node : NodeId} {m : TypeNodeId}

/-! Reads. -/

theorem start_defs (hf : f.Numbered) (id : DefId) :
    findNear? Prod.fst id.raw (start f).defs id =
      (f.defs[id.raw]?).map (fun d => (d.id, ⟨id.raw⟩)) := by
  have hget : ∀ i : Nat, (start f).defs[i]? = (f.defs[i]?).map (fun d => (d.id, ⟨i⟩)) := by
    intro i
    simp only [start, Array.getElem?_map, Array.getElem?_zipIdx]
    cases f.defs[i]? <;> simp
  rw [findNear?_of_placed, hget]
  intro i x hx
  rw [hget] at hx
  obtain ⟨d, hd, rfl⟩ := Option.map_eq_some_iff.mp hx
  exact hf.defs i d hd

theorem defNode_ok (hf : f.Numbered) (h : Filled a f seen s) {id : DefId}
    (run : defNode f id s = .ok (m, s')) : s' = s ∧ m = ⟨id.raw⟩ ∧ id.raw < f.defs.size := by
  unfold defNode at run
  obtain ⟨s₁, s₂, hget, run⟩ := bind_ok run
  cases hget
  rw [h.defs, start_defs hf] at run
  cases hd : f.defs[id.raw]? with
  | none =>
    rw [hd] at run
    cases run
  | some d =>
    rw [hd] at run
    obtain ⟨rfl, rfl⟩ := pure_ok run
    exact ⟨rfl, rfl, (Array.getElem?_eq_some_iff.mp hd).1⟩

theorem useNode_ok (hf : f.Numbered) (h : Filled a f seen s) {id : UseId}
    (run : useNode f id s = .ok (m, s')) : s' = s ∧ ∃ u, f.use? id = some u ∧
      m = ⟨u.definition.raw⟩ ∧ u.definition.raw < f.defs.size := by
  unfold useNode at run
  cases hu : f.use? id with
  | none =>
    rw [hu] at run
    cases run
  | some u =>
    rw [hu] at run
    obtain ⟨rfl, hm, hlt⟩ := defNode_ok hf h run
    exact ⟨rfl, u, rfl, hm, hlt⟩

theorem addNode_ok {rule : TypeRule} {origin : TypeOrigin}
    (run : addNode rule origin s = .ok (m, s')) :
    m = ⟨s.graph.size⟩ ∧ s' = { s with graph := (s.graph.add rule origin).2 } := by
  cases run
  exact ⟨rfl, rfl⟩

/-! Expressions. -/

/-- What typing an expression to some depth does. -/
def Types (a : Arena) (f : SsaForm) (block : BlockId) (depth : Nat)
    (part : NodeId → TypingM TypeNodeId) : Prop :=
  ∀ seen s node m s', Filled a f seen s → part node s = .ok (m, s') →
    Filled a f (addNew seen ((a.within depth node).map (Prod.mk block))) s' ∧
      Grows (fun _ => False) s s' ∧ s'.exprs[(block, node)]? = some m

/-- When items are typed one after another, what is known of each still holds at the end. -/
theorem mapM_filled {α β : Type} {step : α → TypingM β} {keys : α → List (BlockId × NodeId)}
    (known : Typing → α → β → Prop)
    (kept : ∀ s s' x y, Grows (fun _ => False) s s' → known s x y → known s' x y)
    (hstep : ∀ seen s x y s', Filled a f seen s → step x s = .ok (y, s') →
      Filled a f (addNew seen (keys x)) s' ∧ Grows (fun _ => False) s s' ∧ known s' x y)
    {xs : List α} {ys : List β} (h : Filled a f seen s) (run : xs.mapM step s = .ok (ys, s')) :
    Filled a f (addNew seen (xs.flatMap keys)) s' ∧ Grows (fun _ => False) s s' ∧
      List.Forall₂ (known s') xs ys := by
  induction xs generalizing seen s ys with
  | nil =>
    rw [List.mapM_nil] at run
    obtain ⟨rfl, rfl⟩ := pure_ok run
    exact ⟨h, .refl _ _, .nil⟩
  | cons x xs ih =>
    rw [List.mapM_cons] at run
    obtain ⟨y, s₁, hy, run⟩ := bind_ok run
    obtain ⟨ys, s₂, hys, run⟩ := bind_ok run
    obtain ⟨rfl, rfl⟩ := pure_ok run
    obtain ⟨h₁, hgrows₁, hknown⟩ := hstep seen s x y s₁ h hy
    obtain ⟨h₂, hgrows₂, hrest⟩ := ih h₁ hys
    refine ⟨?_, hgrows₁.trans hgrows₂, .cons (kept _ _ _ _ hgrows₂ hknown) hrest⟩
    rw [List.flatMap_cons, addNew_append]
    exact h₂

theorem Types.mapM {depth : Nat} {part : NodeId → TypingM TypeNodeId}
    (hpart : Types a f block depth part) {args : List NodeId} {nodes : List TypeNodeId}
    (h : Filled a f seen s) (run : args.mapM part s = .ok (nodes, s')) :
    Filled a f (addNew seen ((args.flatMap (a.within depth)).map (Prod.mk block))) s' ∧
      Grows (fun _ => False) s s' ∧
      List.Forall₂ (fun arg x => s'.exprs[(block, arg)]? = some x) args nodes := by
  rw [List.map_flatMap]
  exact mapM_filled (fun s arg x => s.exprs[(block, arg)]? = some x)
    (fun _ _ _ _ hgrows => hgrows.exprs _ _) hpart h run

/-- A new node is made after those of the parts. -/
theorem newExpr_ok (hf : f.Numbered) {depth : Nat} {part : NodeId → TypingM TypeNodeId}
    (hpart : Types a f block depth part) (h : Filled a f seen s)
    (run : newExpr a f block part node s = .ok (m, s')) :
    ∃ s₁ e rule calls, a.expression node = .ok e ∧
      Filled a f
        (addNew seen (((a.parts node).flatMap (a.within depth)).map (Prod.mk block))) s₁ ∧
      Grows (fun _ => False) s s₁ ∧ ExprRule f s₁ block node rule e ∧
      (∀ p ∈ a.parts node, ∃ x, s₁.exprs[(block, p)]? = some x) ∧
      m = ⟨s₁.graph.size⟩ ∧
      s' = { s₁ with graph := (s₁.graph.add rule (.expr node)).2, calls := s₁.calls ++ calls } ∧
      List.Forall₂ (CallOf a s₁ ⟨s₁.graph.size⟩) ([(block, node)].filter (fun k => a.isCall k.2))
        calls := by
  unfold newExpr at run
  obtain ⟨e, s₀, hlift, run⟩ := bind_ok run
  obtain ⟨he, rfl⟩ := lift_ok hlift
  have hparts : a.parts node = e.parts := by rw [Arena.parts, he]
  have hcall : (∀ callee args, e ≠ .call callee args) →
      [(block, node)].filter (fun k => a.isCall k.2) = [] := by
    intro hnot
    rw [List.filter_eq_nil_iff]
    intro k hk
    rw [List.mem_singleton.mp hk, Arena.isCall, he]
    cases e with
    | call callee args => exact absurd rfl (hnot callee args)
    | name | const | binary | cast | other => simp
  rw [hparts]
  cases e with
  | name name =>
    obtain ⟨s₁, s₂, hget, run⟩ := bind_ok run
    cases hget
    rw [h.reads, start, getElem?_indexBy] at run
    cases hu : f.uses.toList.find? (fun u => (u.site, u.block) == (UseSite.name node, block)) with
    | none =>
      rw [hu] at run
      cases run
    | some u =>
      rw [hu] at run
      obtain ⟨x, s₃, hx, run⟩ := bind_ok run
      obtain ⟨rfl, rfl, hlt⟩ := defNode_ok hf h hx
      obtain ⟨rfl, rfl⟩ := addNode_ok run
      refine ⟨s₃, _, _, [], he, h, .refl _ _, ⟨u, hu, hlt, rfl⟩, by simp [Expression.parts], rfl,
        by rw [List.append_nil], ?_⟩
      rw [hcall (by simp)]
      exact .nil
  | const ty =>
    obtain ⟨rfl, rfl⟩ := addNode_ok run
    refine ⟨s, _, _, [], he, h, .refl _ _, rfl, by simp [Expression.parts], rfl,
      by rw [List.append_nil], ?_⟩
    rw [hcall (by simp)]
    exact .nil
  | call callee args =>
    obtain ⟨nodes, s₁, hnodes, run⟩ := bind_ok run
    obtain ⟨h₁, hgrows, hargs⟩ := hpart.mapM h hnodes
    unfold addCall at run
    obtain ⟨x, s₂, hx, run⟩ := bind_ok run
    obtain ⟨rfl, rfl⟩ := addNode_ok hx
    obtain ⟨u, s₃, hmodify, run⟩ := bind_ok run
    cases hmodify
    obtain ⟨rfl, rfl⟩ := pure_ok run
    refine ⟨s₁, _, _, _, he, h₁, hgrows, ⟨nodes, hargs, rfl⟩, fun p hp => ?_, rfl, rfl, ?_⟩
    · obtain ⟨x, -, hx⟩ := exists_right_of_forall₂ hargs p hp
      exact ⟨x, hx⟩
    rw [List.filter_cons_of_pos (by simp [Arena.isCall, he]), List.filter_nil]
    exact .cons ⟨rfl, rfl, rfl, args, he, hargs⟩ .nil
  | binary op left right =>
    obtain ⟨x, s₁, hx, run⟩ := bind_ok run
    obtain ⟨y, s₂, hy, run⟩ := bind_ok run
    obtain ⟨rfl, rfl⟩ := addNode_ok run
    obtain ⟨h₁, hgrows₁, hleft⟩ := hpart _ _ _ _ _ h hx
    obtain ⟨h₂, hgrows₂, hright⟩ := hpart _ _ _ _ _ h₁ hy
    refine ⟨s₂, _, _, [], he, ?_, hgrows₁.trans hgrows₂,
      ⟨x, y, hgrows₂.exprs _ _ hleft, hright, rfl⟩, ?_, rfl, by rw [List.append_nil], ?_⟩
    · simpa only [Expression.parts, List.flatMap_cons, List.flatMap_nil, List.append_nil,
        List.map_append, addNew_append] using h₂
    · intro p hp
      rcases List.mem_pair.mp hp with rfl | rfl
      · exact ⟨x, hgrows₂.exprs _ _ hleft⟩
      · exact ⟨y, hright⟩
    · rw [hcall (by simp)]
      exact .nil
  | cast value ty =>
    obtain ⟨u, s₁, hdiscard, run⟩ := bind_ok run
    obtain ⟨x, hx, -⟩ := map_ok hdiscard
    obtain ⟨rfl, rfl⟩ := addNode_ok run
    obtain ⟨h₁, hgrows₁, hvalue⟩ := hpart _ _ _ _ _ h hx
    refine ⟨s₁, _, _, [], he, ?_, hgrows₁, rfl, ?_, rfl, by rw [List.append_nil], ?_⟩
    · simpa only [Expression.parts, List.flatMap_cons, List.flatMap_nil, List.append_nil] using h₁
    · intro p hp
      rw [List.mem_singleton.mp hp]
      exact ⟨x, hvalue⟩
    · rw [hcall (by simp)]
      exact .nil
  | other kind =>
    obtain ⟨rfl, rfl⟩ := addNode_ok run
    refine ⟨s, _, _, [], he, h, .refl _ _, rfl, by simp [Expression.parts], rfl,
      by rw [List.append_nil], ?_⟩
    rw [hcall (by simp)]
    exact .nil

theorem exprWithin_types (hf : f.Numbered) (block : BlockId) :
    ∀ depth, Types a f block depth (exprWithin a f block depth) := by
  intro depth
  induction depth with
  | zero =>
    intro seen s node m s' h run
    cases run
  | succ depth ih =>
    intro seen s node m s' h run
    unfold exprWithin at run
    obtain ⟨s₁, s₂, hget, run⟩ := bind_ok run
    cases hget
    cases hknown : s.exprs[(block, node)]? with
    | some known =>
      rw [hknown] at run
      obtain ⟨rfl, rfl⟩ := pure_ok run
      have hmem : (block, node) ∈ seen := (h.mem _).mpr ⟨m, hknown⟩
      rw [addNew_of_subset]
      · exact ⟨h, .refl _ _, hknown⟩
      · intro k hk
        obtain ⟨q, hq, rfl⟩ := List.mem_map.mp hk
        exact h.mem_of_within hmem hq
    | none =>
      rw [hknown] at run
      obtain ⟨id, s₁, hnew, run⟩ := bind_ok run
      obtain ⟨u, s₂, hmodify, run⟩ := bind_ok run
      cases hmodify
      obtain ⟨rfl, rfl⟩ := pure_ok run
      have hunseen : (block, node) ∉ seen := by
        intro hmem
        obtain ⟨m', hm'⟩ := (h.mem _).mp hmem
        rw [hknown] at hm'
        cases hm'
      obtain ⟨s₀, e, rule, calls, he, h₀, hgrows, hrule, hparts, rfl, rfl, hcalls⟩ :=
        newExpr_ok hf ih h hnew
      have hfresh := h₀.not_mem_of_parts hunseen
      obtain ⟨hfilled, hgrows', hself⟩ := h₀.insert hfresh he hrule hparts hcalls rfl
      refine ⟨?_, hgrows.trans hgrows', hself⟩
      rw [Arena.within, List.map_append, addNew_append, List.map_singleton, addNew_cons,
        if_neg hfresh]
      exact hfilled

theorem expr_ok (hf : f.Numbered) (h : Filled a f seen s)
    (run : expr a f block node s = .ok (m, s')) :
    Filled a f (addNew seen (a.withinRoot (block, node))) s' ∧ Grows (fun _ => False) s s' ∧
      s'.exprs[(block, node)]? = some m :=
  exprWithin_types hf block a.nodes.size seen s node m s' h run

/-! Definitions. -/

theorem mapM_defNode_ok {α : Type} (hf : f.Numbered) (h : Filled a f seen s) (id : α → DefId) :
    ∀ (xs : List α) (nodes : List TypeNodeId),
      xs.mapM (fun x => defNode f (id x)) s = .ok (nodes, s') →
      s' = s ∧ nodes = xs.map (fun x => ⟨(id x).raw⟩) := by
  intro xs
  induction xs with
  | nil =>
    intro nodes run
    rw [List.mapM_nil] at run
    obtain ⟨rfl, rfl⟩ := pure_ok run
    exact ⟨rfl, rfl⟩
  | cons x xs ih =>
    intro nodes run
    rw [List.mapM_cons] at run
    obtain ⟨m, s₁, hm, run⟩ := bind_ok run
    obtain ⟨ms, s₂, hms, run⟩ := bind_ok run
    obtain ⟨rfl, rfl⟩ := pure_ok run
    obtain ⟨rfl, rfl, -⟩ := defNode_ok hf h hm
    obtain ⟨rfl, rfl⟩ := ih ms hms
    exact ⟨rfl, rfl⟩

end TypingM

/-- The definitions that a phi joins. -/
def SsaForm.sources (f : SsaForm) (incoming : List UseId) : List DefId :=
  ((incoming.filterMap f.definitionOf?).filter (·.kind != .undefined)).map (·.id)

namespace Typing

variable {a : Arena} {f : SsaForm} {seen : List (BlockId × NodeId)} {s s' : Typing}

/-- What a loop counts up by. -/
def IsStep (f : SsaForm) (s : Typing) (block : BlockId) : Option NodeId → TypeNodeId → Prop
  | some step, x => s.exprs[(block, step)]? = some x
  | none, x => f.defs.size ≤ x.raw ∧ s.graph.rule? x = some (.constant .int64)

/-- A definition whose value is typed has this rule. -/
def DefRule (f : SsaForm) (s : Typing) (d : Def) (rule : TypeRule) : Prop :=
  match d.kind with
  | .param _ _ => rule = (d.declared.map .constant).getD (.join [])
  | .assign _ value | .loopInit _ value =>
    ∃ x, s.exprs[(d.block, value)]? = some x ∧ rule = (d.declared.map .constant).getD (.copy x)
  | .loopStep _ step previous =>
    ∃ u x, f.use? previous = some u ∧ u.definition.raw < f.defs.size ∧ IsStep f s d.block step x ∧
      rule = (d.declared.map .constant).getD (.apply "+" [⟨u.definition.raw⟩, x])
  | .phi incoming => rule = (d.declared.map .constant).getD
      (.join (distinct ((f.sources incoming).map (fun id => ⟨id.raw⟩))))
  | .promotion _ _ => ∀ ty, d.declared = some ty → rule = .constant ty
  | .undefined => rule = .undefined

theorem Grows.defRule {free : TypeNodeId → Prop} (h : Grows free s s')
    (hfree : ∀ m, free m → m.raw < f.defs.size) {d : Def} {rule : TypeRule}
    (hd : DefRule f s d rule) : DefRule f s' d rule := by
  unfold DefRule at hd ⊢
  cases hkind : d.kind with
  | param | phi | promotion | undefined =>
    simp only [hkind] at hd ⊢
    exact hd
  | assign stmt value =>
    simp only [hkind] at hd ⊢
    obtain ⟨x, hx, hrule⟩ := hd
    exact ⟨x, h.exprs _ _ hx, hrule⟩
  | loopInit construct start =>
    simp only [hkind] at hd ⊢
    obtain ⟨x, hx, hrule⟩ := hd
    exact ⟨x, h.exprs _ _ hx, hrule⟩
  | loopStep construct step previous =>
    simp only [hkind] at hd ⊢
    obtain ⟨u, x, hu, hlt, hstep, hrule⟩ := hd
    refine ⟨u, x, hu, hlt, ?_, hrule⟩
    cases step with
    | some step => exact h.exprs _ _ hstep
    | none =>
      exact ⟨hstep.1, h.rules _ _ (fun hx => absurd (hfree x hx) (not_lt.mpr hstep.1)) hstep.2⟩

end Typing

namespace TypingM

open Typing

variable {a : Arena} {f : SsaForm} {seen : List (BlockId × NodeId)} {s s' : Typing}
  {block : BlockId} {node : NodeId} {m : TypeNodeId}

def rootsOf (d : Def) : List (BlockId × NodeId) :=
  d.root?.toList.map (Prod.mk d.block)

theorem phiInputs_ok (hf : f.Numbered) (h : Filled a f seen s) {incoming : List UseId}
    {nodes : List TypeNodeId} (run : phiInputs f incoming s = .ok (nodes, s')) :
    s' = s ∧ nodes = distinct ((f.sources incoming).map (fun id => ⟨id.raw⟩)) := by
  unfold phiInputs at run
  obtain ⟨xs, s₁, hxs, run⟩ := bind_ok run
  obtain ⟨rfl, rfl⟩ := pure_ok run
  obtain ⟨rfl, rfl⟩ := mapM_defNode_ok hf h Def.id _ _ hxs
  exact ⟨rfl, by rw [SsaForm.sources, List.map_map]; rfl⟩

theorem inferredRule_ok (hf : f.Numbered) (h : Filled a f seen s) {d : Def} {rule : TypeRule}
    (hkind : d.kind ≠ .undefined) (run : inferredRule a f d s = .ok (rule, s')) :
    Filled a f (addNew seen ((rootsOf d).flatMap a.withinRoot)) s' ∧ Grows (fun _ => False) s s' ∧
      DefRule f s' d ((d.declared.map .constant).getD rule) := by
  unfold inferredRule at run
  unfold rootsOf Def.root? DefRule
  cases hk : d.kind with
  | param index node =>
    simp only [hk] at run ⊢
    obtain ⟨rfl, rfl⟩ := pure_ok run
    exact ⟨h, .refl _ _, rfl⟩
  | assign stmt value =>
    simp only [hk] at run ⊢
    obtain ⟨x, s₁, hx, run⟩ := bind_ok run
    obtain ⟨rfl, rfl⟩ := pure_ok run
    obtain ⟨h', hgrows, hvalue⟩ := expr_ok hf h hx
    exact ⟨by simpa using h', hgrows, x, hvalue, rfl⟩
  | loopInit construct start =>
    simp only [hk] at run ⊢
    obtain ⟨x, s₁, hx, run⟩ := bind_ok run
    obtain ⟨rfl, rfl⟩ := pure_ok run
    obtain ⟨h', hgrows, hvalue⟩ := expr_ok hf h hx
    exact ⟨by simpa using h', hgrows, x, hvalue, rfl⟩
  | loopStep construct step previous =>
    simp only [hk] at run ⊢
    obtain ⟨x, s₁, hx, run⟩ := bind_ok run
    obtain ⟨rfl, u, hu, rfl, hlt⟩ := useNode_ok hf h hx
    cases step with
    | some step =>
      obtain ⟨y, s₂, hy, run⟩ := bind_ok run
      obtain ⟨rfl, rfl⟩ := pure_ok run
      obtain ⟨h', hgrows, hstep⟩ := expr_ok hf h hy
      exact ⟨by simpa using h', hgrows, u, y, hu, hlt, hstep, rfl⟩
    | none =>
      obtain ⟨y, s₂, hy, run⟩ := bind_ok run
      obtain ⟨rfl, rfl⟩ := addNode_ok hy
      obtain ⟨rfl, rfl⟩ := pure_ok run
      obtain ⟨h', hgrows⟩ := h.addNode (.constant .int64) .synthetic
      exact ⟨h', hgrows, u, _, hu, hlt,
        ⟨h.size, TypeGraph.rule?_add_self _ _ _⟩, rfl⟩
  | phi incoming =>
    simp only [hk] at run ⊢
    obtain ⟨x, s₁, hx, run⟩ := bind_ok run
    obtain ⟨rfl, rfl⟩ := pure_ok run
    obtain ⟨rfl, rfl⟩ := phiInputs_ok hf h hx
    exact ⟨h, .refl _ _, rfl⟩
  | promotion source phi =>
    simp only [hk] at run ⊢
    obtain ⟨x, s₁, hx, run⟩ := bind_ok run
    obtain ⟨rfl, rfl⟩ := pure_ok run
    obtain ⟨rfl, -⟩ := useNode_ok hf h hx
    refine ⟨h, .refl _ _, fun ty hty => ?_⟩
    rw [hty]
    rfl
  | undefined => exact absurd hk hkind

theorem ruleOf_ok (hf : f.Numbered) (h : Filled a f seen s) {d : Def} {rule : TypeRule}
    (run : ruleOf a f d s = .ok (rule, s')) :
    Filled a f (addNew seen ((rootsOf d).flatMap a.withinRoot)) s' ∧ Grows (fun _ => False) s s' ∧
      DefRule f s' d rule := by
  unfold ruleOf at run
  have hinferred : ∀ declared, d.declared = declared → d.kind ≠ .undefined →
      (inferredRule a f d >>= fun inferred =>
        pure ((declared.map TypeRule.constant).getD inferred) : TypingM TypeRule) s =
          .ok (rule, s') →
      Filled a f (addNew seen ((rootsOf d).flatMap a.withinRoot)) s' ∧
        Grows (fun _ => False) s s' ∧ DefRule f s' d rule := by
    rintro declared rfl hkind run
    obtain ⟨inferred, s₁, hrun, run⟩ := bind_ok run
    obtain ⟨rfl, rfl⟩ := pure_ok run
    exact inferredRule_ok hf h hkind hrun
  have hconstant : ∀ ty, d.declared = some ty → (d.kind.isPhi || d.kind.isPromotion) = true →
      (pure (.constant ty) : TypingM TypeRule) s = .ok (rule, s') →
      Filled a f (addNew seen ((rootsOf d).flatMap a.withinRoot)) s' ∧
        Grows (fun _ => False) s s' ∧ DefRule f s' d rule := by
    intro ty hty hkind run
    obtain ⟨rfl, rfl⟩ := pure_ok run
    cases hk : d.kind with
    | param | assign | loopInit | loopStep | undefined =>
      rw [hk] at hkind
      cases hkind
    | phi =>
      simp only [rootsOf, Def.root?, DefRule, hk, hty]
      exact ⟨h, .refl _ _, rfl⟩
    | promotion =>
      simp only [rootsOf, Def.root?, DefRule, hk, hty]
      refine ⟨h, .refl _ _, ?_⟩
      rintro _ ⟨⟩
      rfl
  cases hk : d.kind with
  | undefined =>
    simp only [hk] at run
    obtain ⟨rfl, rfl⟩ := pure_ok run
    simp only [rootsOf, Def.root?, DefRule, hk]
    exact ⟨h, .refl _ _, trivial⟩
  | param | assign | loopInit | loopStep =>
    simp only [hk] at run
    exact hinferred d.declared rfl (by simp [hk]) run
  | phi | promotion =>
    cases hty : d.declared with
    | some ty =>
      simp only [hk, hty] at run
      exact hconstant ty hty (by rw [hk]; rfl) run
    | none =>
      simp only [hk, hty] at run
      exact hinferred none hty (by simp [hk]) run

theorem fillDef_ok (hf : f.Numbered) (h : Filled a f seen s) {d : Def} {u : Unit}
    (run : fillDef a f d s = .ok (u, s')) :
    Filled a f (addNew seen ((rootsOf d).flatMap a.withinRoot)) s' ∧
      Grows (· = ⟨d.id.raw⟩) s s' ∧
      ∃ rule, s'.graph.rule? ⟨d.id.raw⟩ = some rule ∧ DefRule f s' d rule := by
  unfold fillDef at run
  obtain ⟨m, s₁, hm, run⟩ := bind_ok run
  obtain ⟨rfl, rfl, hlt⟩ := defNode_ok hf h hm
  obtain ⟨rule, s₂, hrule, run⟩ := bind_ok run
  cases run
  obtain ⟨h₂, hgrows, hdef⟩ := ruleOf_ok hf h hrule
  obtain ⟨h₃, hset⟩ := h₂.setRule ⟨d.id.raw⟩ hlt rule
  refine ⟨h₃, (hgrows.mono fun _ => False.elim).trans hset, rule, ?_, ?_⟩
  · rw [TypeGraph.rule?_setRule (hlt.trans_le h₂.size), if_pos rfl]
  · refine hset.defRule ?_ hdef
    rintro m rfl
    exact hlt

/-- All definitions are filled, one after the other. -/
theorem fillDefs_ok (hf : f.Numbered) : ∀ (ds : List Def) (seen : List (BlockId × NodeId))
    (s s' : Typing) (u : PUnit), (ds.map (·.id)).Nodup → (∀ d ∈ ds, d.id.raw < f.defs.size) →
    Filled a f seen s → ds.forM (fillDef a f) s = .ok (u, s') →
    Filled a f (addNew seen ((ds.flatMap rootsOf).flatMap a.withinRoot)) s' ∧
      Grows (·.raw < f.defs.size) s s' ∧
      (∀ m, (∀ d ∈ ds, m ≠ ⟨d.id.raw⟩) → ∀ rule, s.graph.rule? m = some rule →
        s'.graph.rule? m = some rule) ∧
      ∀ d ∈ ds, ∃ rule, s'.graph.rule? ⟨d.id.raw⟩ = some rule ∧ DefRule f s' d rule := by
  intro ds
  induction ds with
  | nil =>
    intro seen s s' u _ _ h run
    obtain ⟨-, rfl⟩ := pure_ok run
    exact ⟨h, .refl _ _, fun _ _ _ hm => hm, by simp⟩
  | cons d ds ih =>
    intro seen s s' u hnodup hlt h run
    obtain ⟨u₁, s₁, hd, run⟩ := bind_ok run
    obtain ⟨h₁, hgrows₁, rule, hrule, hdef⟩ := fillDef_ok hf h hd
    rw [List.map_cons, List.nodup_cons] at hnodup
    obtain ⟨h₂, hgrows₂, hothers, hdefs⟩ := ih _ s₁ s' u hnodup.2
      (fun e he => hlt e (by simp [he])) h₁ run
    have hfree : ∀ m : TypeNodeId, m = ⟨d.id.raw⟩ → m.raw < f.defs.size := by
      rintro m rfl
      exact hlt d (by simp)
    refine ⟨?_, (hgrows₁.mono hfree).trans hgrows₂, ?_, ?_⟩
    · rw [List.flatMap_cons, List.flatMap_append, addNew_append]
      exact h₂
    · intro m hm rule hrule
      exact hothers m (fun e he => hm e (by simp [he])) rule
        (hgrows₁.rules m rule (hm d (by simp)) hrule)
    · intro e he
      rcases List.mem_cons.mp he with rfl | he
      · refine ⟨rule, hothers _ (fun e' he' hsame => hnodup.1 ?_) rule hrule,
          hgrows₂.defRule (fun _ hm => hm) hdef⟩
        rw [show e.id = e'.id from congrArg (fun m : TypeNodeId => (⟨m.raw⟩ : DefId)) hsame]
        exact List.mem_map_of_mem he'
      · exact hdefs e he

/-! The signature. -/

/-- What a signature does for one parameter. -/
def applyType (f : SsaForm) (p : DefId × Ty) : TypingM Unit := do
  if ((f.definition? p.1).map (·.declared.isNone)).getD false then
    setRule (← defNode f p.1) (.constant p.2)

/-- A parameter without a declared type gets the one of the signature. -/
theorem applyType_ok (hf : f.Numbered) (h : Filled a f seen s) {p : DefId × Ty} {u : Unit}
    (run : applyType f p s = .ok (u, s')) :
    Filled a f seen s' ∧ Grows (·.raw < f.defs.size) s s' ∧
      (∀ d, f.definition? p.1 = some d → d.declared = none →
        s'.graph.rule? ⟨p.1.raw⟩ = some (.constant p.2)) ∧
      ∀ m, (m = ⟨p.1.raw⟩ → ∀ d, f.definition? p.1 = some d → d.declared ≠ none) →
        ∀ rule, s.graph.rule? m = some rule → s'.graph.rule? m = some rule := by
  unfold applyType at run
  cases hd : f.definition? p.1 with
  | none =>
    simp only [hd] at run
    obtain ⟨-, rfl⟩ := pure_ok run
    exact ⟨h, .refl _ _, by simp, fun _ _ _ hm => hm⟩
  | some d =>
    cases hdeclared : d.declared with
    | some ty =>
      simp only [hd, hdeclared, Option.map_some, Option.getD_some] at run
      obtain ⟨-, rfl⟩ := pure_ok run
      refine ⟨h, .refl _ _, ?_, fun _ _ _ hm => hm⟩
      rintro _ ⟨⟩ hnone
      rw [hdeclared] at hnone
      cases hnone
    | none =>
      simp only [hd, hdeclared, Option.map_some, Option.getD_some] at run
      obtain ⟨m, s₁, hm, run⟩ := bind_ok run
      obtain ⟨rfl, rfl, hlt⟩ := defNode_ok hf h hm
      cases run
      obtain ⟨h', hgrows⟩ := h.setRule ⟨p.1.raw⟩ hlt (.constant p.2)
      refine ⟨h', hgrows.mono ?_, fun _ _ _ => ?_, fun m hm rule hrule => ?_⟩
      · rintro m rfl
        exact hlt
      · rw [TypeGraph.rule?_setRule (hlt.trans_le h.size), if_pos rfl]
      · exact hgrows.rules m rule (fun hsame => hm hsame d rfl hdeclared) hrule

theorem forM_applyType_ok (hf : f.Numbered) : ∀ (ps : List (DefId × Ty)) (s s' : Typing)
    (u : PUnit),
    (ps.map (·.1)).Nodup → Filled a f seen s → ps.forM (applyType f) s = .ok (u, s') →
    Filled a f seen s' ∧ Grows (·.raw < f.defs.size) s s' ∧
      (∀ p ∈ ps, ∀ d, f.definition? p.1 = some d → d.declared = none →
        s'.graph.rule? ⟨p.1.raw⟩ = some (.constant p.2)) ∧
      ∀ m, (∀ p ∈ ps, m = ⟨p.1.raw⟩ → ∀ d, f.definition? p.1 = some d → d.declared ≠ none) →
        ∀ rule, s.graph.rule? m = some rule → s'.graph.rule? m = some rule := by
  intro ps
  induction ps with
  | nil =>
    intro s s' u _ h run
    obtain ⟨-, rfl⟩ := pure_ok run
    exact ⟨h, .refl _ _, by simp, fun _ _ _ hm => hm⟩
  | cons p ps ih =>
    intro s s' u hnodup h run
    rw [List.map_cons, List.nodup_cons] at hnodup
    obtain ⟨u₁, s₁, hp, run⟩ := bind_ok run
    obtain ⟨h₁, hgrows₁, hset, hkept⟩ := applyType_ok hf h hp
    obtain ⟨h₂, hgrows₂, hsets, hothers⟩ := ih s₁ s' u hnodup.2 h₁ run
    refine ⟨h₂, hgrows₁.trans hgrows₂, ?_, ?_⟩
    · intro q hq d hd hdeclared
      rcases List.mem_cons.mp hq with rfl | hq
      · refine hothers _ (fun r hr hsame => absurd ?_ hnodup.1) _ (hset d hd hdeclared)
        rw [show q.1 = r.1 from congrArg (fun m : TypeNodeId => (⟨m.raw⟩ : DefId)) hsame]
        exact List.mem_map_of_mem hr
      · exact hsets q hq d hd hdeclared
    · intro m hm rule hrule
      exact hothers m (fun q hq => hm q (by simp [hq])) rule (hkept m (hm p (by simp)) rule hrule)

theorem map_fst_zip_sublist {α β : Type} (xs : List α) (ys : List β) :
    ((xs.zip ys).map (·.1)).Sublist xs := by
  induction xs generalizing ys with
  | nil => simp
  | cons x xs ih =>
    cases ys with
    | nil => simp
    | cons y ys => simpa using ih ys

/-- The signature types the parameters that declare no type, and nothing else. -/
theorem applySignature_ok (hf : f.Numbered) (hnodup : f.params.Nodup) (h : Filled a f seen s)
    {types : List Ty} {u : Unit}
    (run : (f.params.zip types).forM (applyType f) s = .ok (u, s')) :
    Filled a f seen s' ∧ Grows (·.raw < f.defs.size) s s' ∧
      (∀ (i : Nat) id d rule, f.params[i]? = some id → f.definition? id = some d →
        s.graph.rule? ⟨id.raw⟩ = some ((d.declared.map .constant).getD rule) →
        s'.graph.rule? ⟨id.raw⟩ = some (((d.declared.or types[i]?).map .constant).getD rule)) ∧
      ∀ m : TypeNodeId, (∀ id ∈ f.params, m ≠ ⟨id.raw⟩) →
        ∀ rule, s.graph.rule? m = some rule → s'.graph.rule? m = some rule := by
  obtain ⟨h', hgrows, hsets, hothers⟩ := forM_applyType_ok hf _ s s' u
    ((map_fst_zip_sublist _ _).nodup hnodup) h run
  refine ⟨h', hgrows, fun i id d rule hid hd hrule => ?_, fun m hm rule hrule =>
    hothers m (fun p hp hsame => absurd hsame (hm p.1 (List.of_mem_zip hp).1)) rule hrule⟩
  have hraw : ∀ id' : DefId, (⟨id.raw⟩ : TypeNodeId) = ⟨id'.raw⟩ → id = id' :=
    fun id' hsame => congrArg (fun m : TypeNodeId => (⟨m.raw⟩ : DefId)) hsame
  cases hdeclared : d.declared with
  | some ty =>
    rw [hdeclared] at hrule
    refine hothers _ (fun q _ hsame d' hd' => ?_) _ hrule
    rw [← hraw q.1 hsame, hd] at hd'
    cases hd'
    simp [hdeclared]
  | none =>
    rw [hdeclared] at hrule
    cases hty : types[i]? with
    | some ty =>
      have hmem : (id, ty) ∈ f.params.zip types :=
        List.mem_of_getElem? (List.getElem?_zip_eq_some.mpr ⟨hid, hty⟩)
      exact hsets _ hmem d hd hdeclared
    | none =>
      refine hothers _ (fun q hq hsame => absurd hty ?_) _ hrule
      obtain ⟨j, hj⟩ := List.mem_iff_getElem?.mp hq
      obtain ⟨hparam, htype⟩ := List.getElem?_zip_eq_some.mp hj
      rw [← hraw q.1 hsame] at hparam
      obtain rfl := (List.getElem?_inj (List.getElem?_eq_some_iff.mp hid).1 hnodup).mp
        (hid.trans hparam.symm)
      simp [htype]

/-! Blocks. -/

theorem unit_ok (h : Filled a f seen s) (run : unit s = .ok (m, s')) :
    Filled a f seen s' ∧ Grows (fun _ => False) s s' ∧ s'.unitNode = some m := by
  unfold unit at run
  obtain ⟨s₁, s₂, hget, run⟩ := bind_ok run
  cases hget
  cases hunit : s.unitNode with
  | some node =>
    rw [hunit] at run
    obtain ⟨rfl, rfl⟩ := pure_ok run
    exact ⟨h, .refl _ _, hunit⟩
  | none =>
    rw [hunit] at run
    obtain ⟨x, s₁, hx, run⟩ := bind_ok run
    obtain ⟨rfl, rfl⟩ := addNode_ok hx
    obtain ⟨u, s₂, hmodify, run⟩ := bind_ok run
    cases hmodify
    obtain ⟨rfl, rfl⟩ := pure_ok run
    obtain ⟨h', hgrows⟩ := h.addNode (.constant .unit) .synthetic
    refine ⟨{ h' with unit := ?_ }, ⟨hgrows.exprs, hgrows.rules, ?_⟩, rfl⟩
    · rintro m ⟨⟩
      refine ⟨h.size, TypeGraph.rule?_add_self _ _ _, fun k hk => ?_⟩
      exact lt_irrefl _ (h.high k _ hk).2
    · intro m hm
      rw [hunit] at hm
      cases hm

/-- The node of what a return gives back. -/
def IsReturned (s : Typing) : Option (BlockId × NodeId) → TypeNodeId → Prop
  | none, m => s.unitNode = some m
  | some k, m => s.exprs[k]? = some m

theorem IsReturned.grows {free : TypeNodeId → Prop} (h : Grows free s s')
    {r : Option (BlockId × NodeId)} (hr : IsReturned s r m) : IsReturned s' r m := by
  cases r with
  | none => exact h.unit m hr
  | some k => exact h.exprs k m hr

theorem visitSlot_ok (hf : f.Numbered) (h : Filled a f seen s) {slot : Slot} {u : PUnit}
    (run : visitSlot a f block slot s = .ok (u, s')) :
    Filled a f
      (addNew seen (((a.slotRoot? slot).toList.map (Prod.mk block)).flatMap a.withinRoot)) s' ∧
      Grows (fun _ => False) s s' := by
  cases slot with
  | node id =>
    unfold visitSlot at run
    obtain ⟨statement, s₁, hlift, run⟩ := bind_ok run
    obtain ⟨hstatement, rfl⟩ := lift_ok hlift
    rw [Arena.slotRoot?, hstatement]
    cases statement with
    | expr value =>
      obtain ⟨x, hx, -⟩ := map_ok run
      obtain ⟨h', hgrows, -⟩ := expr_ok hf h hx
      exact ⟨by simpa using h', hgrows⟩
    | assign | ifElse | whileLoop | forLoop | tryCatch | breakStmt | continueStmt | returnStmt |
      raise =>
      obtain ⟨-, rfl⟩ := pure_ok run
      exact ⟨h, .refl _ _⟩
  | loopInit | loopStep =>
    obtain ⟨-, rfl⟩ := pure_ok run
    exact ⟨h, .refl _ _⟩

theorem visitSlots_ok (hf : f.Numbered) : ∀ (slots : List Slot) (seen : List (BlockId × NodeId))
    (s s' : Typing) (u : PUnit), Filled a f seen s →
    slots.forM (visitSlot a f block) s = .ok (u, s') →
    Filled a f
      (addNew seen (((slots.filterMap a.slotRoot?).map (Prod.mk block)).flatMap a.withinRoot)) s' ∧
      Grows (fun _ => False) s s' := by
  intro slots
  induction slots with
  | nil =>
    intro seen s s' u h run
    obtain ⟨-, rfl⟩ := pure_ok run
    exact ⟨h, .refl _ _⟩
  | cons slot slots ih =>
    intro seen s s' u h run
    obtain ⟨u₁, s₁, hslot, run⟩ := bind_ok run
    obtain ⟨h₁, hgrows₁⟩ := visitSlot_ok hf h hslot
    obtain ⟨h₂, hgrows₂⟩ := ih _ s₁ s' u h₁ run
    refine ⟨?_, hgrows₁.trans hgrows₂⟩
    rw [← addNew_append, ← List.flatMap_append, ← List.map_append] at h₂
    have hcons : (slot :: slots).filterMap a.slotRoot? =
        (a.slotRoot? slot).toList ++ slots.filterMap a.slotRoot? := by
      cases hroot : a.slotRoot? slot <;> simp [hroot]
    rw [hcons]
    exact h₂

theorem visitEnd_ok (hf : f.Numbered) (h : Filled a f seen s) {b : Block} {nodes : List TypeNodeId}
    (run : visitEnd a f b.id b.terminator s = .ok (nodes, s')) :
    Filled a f
      (addNew seen (((a.endRoot? b.terminator).toList.map (Prod.mk b.id)).flatMap a.withinRoot))
        s' ∧
      Grows (fun _ => False) s s' ∧ List.Forall₂ (IsReturned s') b.returned nodes := by
  unfold Block.returned
  have hvisited : ∀ value (u : PUnit) s₁, discard (expr a f b.id value) s = .ok (u, s₁) →
      Filled a f (addNew seen (((some value).toList.map (Prod.mk b.id)).flatMap a.withinRoot)) s₁ ∧
        Grows (fun _ => False) s s₁ := by
    intro value u s₁ hdiscard
    obtain ⟨x, hx, -⟩ := map_ok hdiscard
    obtain ⟨h', hgrows, -⟩ := expr_ok hf h hx
    exact ⟨by simpa using h', hgrows⟩
  generalize b.terminator = terminator at run ⊢
  rcases terminator with _ | ⟨_ | ⟨⟨test⟩ | ⟨construct⟩⟩ | ⟨value⟩ | ⟨value⟩ | _⟩
  · obtain ⟨rfl, rfl⟩ := pure_ok run
    exact ⟨h, .refl _ _, .nil⟩
  · obtain ⟨rfl, rfl⟩ := pure_ok run
    exact ⟨h, .refl _ _, .nil⟩
  · obtain ⟨u, s₁, hdiscard, run⟩ := bind_ok run
    obtain ⟨rfl, rfl⟩ := pure_ok run
    obtain ⟨h', hgrows⟩ := hvisited test u _ hdiscard
    exact ⟨h', hgrows, .nil⟩
  · obtain ⟨statement, s₁, hlift, run⟩ := bind_ok run
    obtain ⟨hstatement, rfl⟩ := lift_ok hlift
    rw [Arena.endRoot?, hstatement]
    cases statement with
    | forLoop loop =>
      obtain ⟨u, s₂, hdiscard, run⟩ := bind_ok run
      obtain ⟨rfl, rfl⟩ := pure_ok run
      obtain ⟨h', hgrows⟩ := hvisited loop.stop u _ hdiscard
      exact ⟨h', hgrows, .nil⟩
    | expr | assign | ifElse | whileLoop | tryCatch | breakStmt | continueStmt | returnStmt |
      raise =>
      obtain ⟨rfl, rfl⟩ := pure_ok run
      exact ⟨h, .refl _ _, .nil⟩
  · cases value with
    | none =>
      obtain ⟨x, s₁, hx, run⟩ := bind_ok run
      obtain ⟨rfl, rfl⟩ := pure_ok run
      obtain ⟨h', hgrows, hunit⟩ := unit_ok h hx
      exact ⟨h', hgrows, .cons hunit .nil⟩
    | some value =>
      obtain ⟨x, s₁, hx, run⟩ := bind_ok run
      obtain ⟨rfl, rfl⟩ := pure_ok run
      obtain ⟨h', hgrows, hvalue⟩ := expr_ok hf h hx
      exact ⟨by simpa [Arena.endRoot?] using h', hgrows, .cons hvalue .nil⟩
  · cases value with
    | none =>
      obtain ⟨rfl, rfl⟩ := pure_ok run
      exact ⟨h, .refl _ _, .nil⟩
    | some value =>
      obtain ⟨u, s₁, hdiscard, run⟩ := bind_ok run
      obtain ⟨rfl, rfl⟩ := pure_ok run
      obtain ⟨h', hgrows⟩ := hvisited value u _ hdiscard
      exact ⟨h', hgrows, .nil⟩
  · obtain ⟨rfl, rfl⟩ := pure_ok run
    exact ⟨h, .refl _ _, .nil⟩

theorem visitBlock_ok (hf : f.Numbered) (h : Filled a f seen s) {b : Block}
    {nodes : List TypeNodeId}
    (run : visitBlock a f b s = .ok (nodes, s')) :
    Filled a f (addNew seen ((a.blockRoots b).flatMap a.withinRoot)) s' ∧
      Grows (fun _ => False) s s' ∧ List.Forall₂ (IsReturned s') b.returned nodes := by
  obtain ⟨u, s₁, hslots, run⟩ := bind_ok run
  obtain ⟨h₁, hgrows₁⟩ := visitSlots_ok hf b.slots seen s s₁ u h hslots
  obtain ⟨h₂, hgrows₂, hreturned⟩ := visitEnd_ok hf h₁ run
  refine ⟨?_, hgrows₁.trans hgrows₂, hreturned⟩
  rw [Arena.blockRoots, List.map_append, List.flatMap_append, addNew_append]
  exact h₂

theorem visitBlocks_ok (hf : f.Numbered) {blocks : List Block} {nodes : List (List TypeNodeId)}
    (h : Filled a f seen s) (run : blocks.mapM (visitBlock a f) s = .ok (nodes, s')) :
    Filled a f (addNew seen ((blocks.flatMap a.blockRoots).flatMap a.withinRoot)) s' ∧
      Grows (fun _ => False) s s' ∧
      List.Forall₂ (IsReturned s') (blocks.flatMap Block.returned) nodes.flatten := by
  obtain ⟨h', hgrows, hreturned⟩ := mapM_filled
    (fun s b nodes => List.Forall₂ (IsReturned s) b.returned nodes)
    (fun _ _ _ _ hgrows hr => hr.imp fun _ _ hr => hr.grows hgrows)
    (fun _ _ _ _ _ h run => visitBlock_ok hf h run) h run
  rw [List.flatMap_assoc, List.flatMap_def (l := blocks)]
  exact ⟨h', hgrows, List.rel_flatten (List.forall₂_map_left_iff.mpr hreturned)⟩

end TypingM

/-! The whole function. -/

/-- The type graph `t` of a function, of which `s` knows the nodes of the expressions. -/
structure Wired (a : Arena) (g : FlowGraph) (f : SsaForm) (view : FunctionView) (s : Typing)
    (t : FunctionTypes) : Prop where
  filled : s.Filled a f (a.evaluated g f)
  function : t.function = view.name
  graph : t.graph = s.graph
  calls : t.calls = s.calls
  defs : t.defs = s.defs
  params : t.params = f.params.map (fun id => ⟨id.raw⟩)
  param : ∀ (i : Nat) id d, f.params[i]? = some id → f.definition? id = some d →
    s.graph.rule? ⟨id.raw⟩ =
      some (((d.declared.or (view.signature.bind (·[i]?))).map .constant).getD (.join []))
  rules : ∀ id d, f.definition? id = some d → id ∉ f.params →
    ∃ rule, s.graph.rule? ⟨id.raw⟩ = some rule ∧ Typing.DefRule f s d rule
  high : f.defs.size ≤ t.result.raw
  result : ∃ nodes, List.Forall₂ (TypingM.IsReturned s) (g.blocks.flatMap Block.returned) nodes ∧
    s.graph.rule? t.result = some (TypingM.resultRule view.returnType nodes)

namespace TypingM

open Typing

variable {a : Arena} {g : FlowGraph} {f : SsaForm} {view : FunctionView}

theorem function_ok {r : TypeNodeId × List TypeNodeId} {s s' : Typing}
    (run : TypingM.function a g f view s = .ok (r, s')) :
    ∃ s₁ s₂ returns s₃, f.defs.toList.forM (fillDef a f) s = .ok ((), s₁) ∧
      (f.params.zip (view.signature.getD [])).forM (applyType f) s₁ = .ok ((), s₂) ∧
      g.blocks.mapM (visitBlock a f) s₂ = .ok (returns, s₃) ∧ r.1 = ⟨s₃.graph.size⟩ ∧
      f.params.mapM (defNode f) { s₃ with
        graph := (s₃.graph.add (resultRule view.returnType returns.flatten) .result).2 } =
        .ok (r.2, s') := by
  unfold TypingM.function at run
  obtain ⟨u, s₁, hdefs, run⟩ := bind_ok run
  rw [show f.defs.forM (fillDef a f) = f.defs.toList.forM (fillDef a f) from
    List.forM_toArray f.defs.toList (fillDef a f)] at hdefs
  obtain ⟨s₂, hsigned, run⟩ : ∃ s₂,
      (f.params.zip (view.signature.getD [])).forM (applyType f) s₁ = .ok ((), s₂) ∧
      (do
        let returns ← g.blocks.mapM (visitBlock a f)
        let result ← addNode (resultRule view.returnType returns.flatten) .result
        return (result, ← f.params.mapM (defNode f)) : TypingM _) s₂ = .ok (r, s') := by
    cases hsig : view.signature with
    | none =>
      simp only [hsig] at run
      exact ⟨s₁, by rw [Option.getD_none, List.zip_nil_right]; rfl, run⟩
    | some signature =>
      simp only [hsig] at run
      obtain ⟨u, s₂, happly, run⟩ := bind_ok run
      exact ⟨s₂, happly, run⟩
  obtain ⟨returns, s₃, hblocks, run⟩ := bind_ok run
  obtain ⟨result, s₄, hresult, run⟩ := bind_ok run
  obtain ⟨rfl, rfl⟩ := addNode_ok hresult
  obtain ⟨nodes, s₅, hnodes, run⟩ := bind_ok run
  obtain ⟨rfl, rfl⟩ := pure_ok run
  exact ⟨s₁, s₂, returns, s₃, hdefs, hsigned, hblocks, rfl, hnodes⟩

theorem function_wired (hf : f.Numbered)
    (hparams : List.Forall₂ (f.IsParam) view.params.zipIdx f.params)
    {r : TypeNodeId × List TypeNodeId}
    {s : Typing} (run : TypingM.function a g f view (start f) = .ok (r, s)) :
    Wired a g f view s
      { function := view.name, graph := s.graph, defs := s.defs, params := r.2, result := r.1,
        calls := s.calls } := by
  obtain ⟨s₁, s₂, returns, s₃, hdefs, hsigned, hblocks, hresult, hnodes⟩ := function_ok run
  have hplace : ∀ d ∈ f.defs.toList, d.id.raw < f.defs.size := by
    intro d hd
    obtain ⟨i, hi⟩ := Array.mem_iff_getElem?.mp (Array.mem_toList_iff.mp hd)
    rw [hf.defs i d hi]
    exact (Array.getElem?_eq_some_iff.mp hi).1
  obtain ⟨h₁, -, -, hdefs⟩ := fillDefs_ok hf _ [] _ s₁ () hf.ids_nodup hplace
      (start_filled a f) hdefs
  obtain ⟨h₂, hgrows₂, hsigned, hothers⟩ :=
    applySignature_ok hf (SsaForm.params_nodup hparams) h₁ hsigned
  obtain ⟨h₃, hgrows₃, hreturned⟩ := visitBlocks_ok hf h₂ hblocks
  obtain ⟨h₄, hgrows₄⟩ := h₃.addNode (resultRule view.returnType returns.flatten) .result
  obtain ⟨rfl, hplaces⟩ := mapM_defNode_ok hf h₄ id f.params _ hnodes
  have hlast := hgrows₃.trans hgrows₄
  have hdef : ∀ id d, f.definition? id = some d →
      ∃ rule, s₁.graph.rule? ⟨id.raw⟩ = some rule ∧ DefRule f s₁ d rule := by
    intro id d hd
    have hid := hf.definition?_id hd
    subst hid
    exact hdefs d (Array.mem_toList_iff.mpr (hf.mem_defs.mpr hd))
  exact {
    filled := by
      rw [Arena.evaluated, Arena.roots, List.flatMap_append]
      rw [← addNew_append] at h₄
      exact h₄
    function := rfl
    graph := rfl
    calls := rfl
    defs := rfl
    params := hplaces
    param := by
      intro i id d hid hd
      obtain ⟨p, d', -, hd', -, hkind⟩ := SsaForm.param_at hparams hid
      rw [hd] at hd'
      cases hd'
      obtain ⟨rule, hrule, hdefined⟩ := hdef id d hd
      simp only [DefRule, hkind] at hdefined
      subst hdefined
      rw [show view.signature.bind (·[i]?) = (view.signature.getD [])[i]? by
        cases view.signature <;> simp]
      exact hlast.rules _ _ (fun h => h) (hsigned i id d _ hid hd hrule)
    rules := by
      intro id d hd hnot
      obtain ⟨rule, hrule, hdefined⟩ := hdef id d hd
      refine ⟨rule, hlast.rules _ _ (fun h => h) (hothers _ (fun id' hid' hsame => ?_) _ hrule),
        (hgrows₂.trans (hlast.mono fun _ => False.elim)).defRule (fun _ hm => hm) hdefined⟩
      obtain rfl : id = id' := congrArg (fun m : TypeNodeId => (⟨m.raw⟩ : DefId)) hsame
      exact hnot hid'
    high := hresult ▸ h₃.size
    result := by
      refine ⟨returns.flatten, hreturned.imp fun _ _ hr => hr.grows hgrows₄, ?_⟩
      rw [hresult]
      exact TypeGraph.rule?_add_self _ _ _ }

end TypingM

/-- The graph of a function has the nodes of its definitions and its expressions. -/
theorem FunctionTypes.ofForm_wired {a : Arena} {g : FlowGraph} {f : SsaForm} {view : FunctionView}
    {t : FunctionTypes} (hf : f.Numbered) (hview : a.function f.node = .ok view)
    (hparams : List.Forall₂ (f.IsParam) view.params.zipIdx f.params)
    (run : FunctionTypes.ofForm a g f = .ok t) : ∃ s, Wired a g f view s t := by
  unfold FunctionTypes.ofForm at run
  obtain ⟨view', hview', run⟩ := except_bind_ok run
  obtain rfl := Except.ok.inj (hview.symm.trans hview')
  obtain ⟨⟨⟨result, params⟩, s⟩, hrun, run⟩ := except_bind_ok run
  obtain rfl := Except.ok.inj run
  exact ⟨s, TypingM.function_wired hf hparams hrun⟩

end TypedSsa

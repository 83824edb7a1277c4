import Mathlib.Data.List.Chain
import Mathlib.Data.List.Forall2
import Mathlib.Data.List.Nodup
import Mathlib.Data.List.Perm.Subperm
import TypedSsa.Proofs.Dominance
import TypedSsa.Proofs.Refinement
import TypedSsa.Ssa.Construction

/-!
Liveness over the blocks of a graph. Main statements: `live_equation`, which says of a block what is
live there by what is live after it, and `live_iff_readPath`. A variable is live at the start of a
block just when some path from there comes to a read of it and nothing assigns it on the way; a
block that the path leaves by an exception assigns nothing.
-/

namespace TypedSsa
open Digraph

theorem writes_read (name : String) (site : UseSite) (es : List Effect) (v : String) :
    writes (.read name site :: es) v = writes es v := by
  simp [writes, Effect.isRead]

theorem writes_write (name : String) (origin : WriteOrigin) (es : List Effect) (v : String) :
    writes (.write name origin :: es) v = (name == v || writes es v) := by
  simp [writes, Effect.isRead, Effect.name]

theorem readsFirst_cons (e : Effect) (es : List Effect) (v : String) :
    readsFirst (e :: es) v = if e.name = v then e.isRead else readsFirst es v := by
  by_cases hname : e.name = v
  · simp [readsFirst, hname]
  · simp [readsFirst, hname, beq_false_of_ne hname]

/-- The variable is read, and not assigned before. -/
def ReadsUnwritten (es : List Effect) (v : String) : Prop :=
  ∃ before site after, es = before ++ .read v site :: after ∧ ∀ origin, .write v origin ∉ before

theorem not_readsUnwritten_nil (v : String) : ¬ReadsUnwritten [] v := by
  intro h
  obtain ⟨before, site, after, he, -⟩ := h
  simp at he

theorem readsUnwritten_cons {e : Effect} {es : List Effect} {v : String} :
    ReadsUnwritten (e :: es) v ↔
      (∃ site, e = .read v site) ∨ (∀ origin, e ≠ .write v origin) ∧ ReadsUnwritten es v := by
  constructor
  · intro ⟨before, site, after, he, hfree⟩
    cases before with
    | nil =>
      obtain ⟨rfl, -⟩ := List.cons.inj he
      exact .inl ⟨site, rfl⟩
    | cons e' before =>
      obtain ⟨rfl, rfl⟩ := List.cons.inj he
      simp only [List.mem_cons, not_or] at hfree
      refine .inr ⟨fun origin he => (hfree origin).1 he.symm, before, site, after, rfl, ?_⟩
      exact fun origin => (hfree origin).2
  · intro h
    rcases h with ⟨site, rfl⟩ | ⟨hne, before, site, after, rfl, hfree⟩
    · exact ⟨[], site, es, rfl, by simp⟩
    · refine ⟨e :: before, site, after, rfl, fun origin hmem => ?_⟩
      rcases List.mem_cons.mp hmem with he | hmem
      · exact hne origin he.symm
      · exact hfree origin hmem

theorem readsFirst_iff {es : List Effect} {v : String} :
    readsFirst es v = true ↔ ReadsUnwritten es v := by
  induction es with
  | nil => simp [readsFirst, not_readsUnwritten_nil]
  | cons e es ih =>
    rw [readsFirst_cons, readsUnwritten_cons, ← ih]
    cases e with
    | read name site => by_cases hname : name = v <;> simp [Effect.name, Effect.isRead, hname]
    | write name origin => by_cases hname : name = v <;> simp [Effect.name, Effect.isRead, hname]

theorem writes_iff {es : List Effect} {v : String} :
    writes es v = true ↔ ∃ origin, .write v origin ∈ es := by
  induction es with
  | nil => simp [writes]
  | cons e es ih =>
    cases e with
    | read name site => simp [writes_read, ih]
    | write name origin =>
      rw [writes_write, Bool.or_eq_true, ih]
      simp only [beq_iff_eq, List.mem_cons, Effect.write.injEq]
      constructor
      · intro h
        rcases h with rfl | ⟨origin', hmem⟩
        · exact ⟨origin, .inl ⟨rfl, rfl⟩⟩
        · exact ⟨origin', .inr hmem⟩
      · intro ⟨origin', hmem⟩
        exact hmem.imp (fun he => he.1.symm) fun hmem => ⟨origin', hmem⟩

namespace EffectMap

variable {effects : EffectMap} {b : BlockId}

theorem of_eq (hkeys : (effects.map (·.1)).Nodup) {es : List Effect} (hmem : (b, es) ∈ effects) :
    effects.of b = es := by
  have hfind : effects.find? (·.1 == b) = some (b, es) := find?_of_nodup hkeys hmem
  rw [EffectMap.of, hfind]
  rfl

theorem mem_of {e : Effect} (he : e ∈ effects.of b) : (b, effects.of b) ∈ effects := by
  rw [EffectMap.of] at he ⊢
  cases hfind : effects.find? (·.1 == b) with
  | none => simp [hfind] at he
  | some p =>
    obtain rfl : p.1 = b := by simpa using List.find?_some hfind
    exact List.mem_of_find?_eq_some hfind

theorem mem_blocksWhere (hkeys : (effects.map (·.1)).Nodup) {p : List Effect → Bool}
    (hp : p [] = false) : b ∈ effects.blocksWhere p ↔ p (effects.of b) = true := by
  rw [EffectMap.blocksWhere, List.mem_map]
  constructor
  · intro ⟨⟨b', es⟩, hmem, hb⟩
    obtain ⟨hmem, hes⟩ := List.mem_filter.mp hmem
    subst hb
    exact of_eq hkeys hmem ▸ hes
  · intro hes
    cases hof : effects.of b with
    | nil => rw [hof, hp] at hes; cases hes
    | cons e rest =>
      have he : e ∈ effects.of b := by simp [hof]
      have hmem := mem_of he
      exact ⟨(b, effects.of b), List.mem_filter.mpr ⟨hmem, hes⟩, rfl⟩

theorem mem_names {v : String} (hreads : ReadsUnwritten (effects.of b) v) : v ∈ effects.names := by
  obtain ⟨before, site, after, he, -⟩ := hreads
  have hmem : Effect.read v site ∈ effects.of b := by simp [he]
  rw [EffectMap.names, mem_distinct, List.mem_flatMap]
  exact ⟨(b, effects.of b), mem_of hmem, List.mem_map_of_mem (f := Effect.name) hmem⟩

end EffectMap

namespace FlowGraph

variable {g : FlowGraph} {blk : Block} {b c : BlockId} {v : String}

theorem mem_successors {e : Edge} : e ∈ g.successors b ↔
    ∃ blk, g.block? b = some blk ∧ e ∈ blk.successors := by
  cases h : g.block? b <;> simp [successors, h]

theorem target_of_successor {e : Edge} (he : e ∈ g.successors b) : e.target ∈ g.targets b := by
  obtain ⟨blk, hblk, he⟩ := mem_successors.mp he
  exact mem_targets.mpr ⟨blk, hblk, Block.mem_targets.mpr ⟨e, he, rfl⟩⟩

theorem successors_index (g : FlowGraph) : g.index.successors = g.successors := by
  funext k
  rw [BlockIndex.successors, getElem?_index, successors]

theorem raisesInto_index {c : BlockId} :
    g.index.raisesInto b c = true ↔ ⟨c, .exception⟩ ∈ g.successors b := by
  rw [BlockIndex.raisesInto, successors_index, List.contains_iff_mem]

theorem block?_of_mem (honce : g.blockIds.Nodup) {blk : Block} (hblk : blk ∈ g.blocks) :
    g.block? blk.id = some blk :=
  find?_of_nodup honce hblk

/-- What is known of the graph of a function. -/
structure Finished (g : FlowGraph) : Prop where
  linked : Linked g
  reached : ∀ b, g.contains b = true → g.Reachable b
  once : g.blockIds.Nodup
  enters : ∀ b e, e ∈ g.successors b → e.target ≠ g.entry
  aimed : ∀ b b' e e', e ∈ g.successors b → e' ∈ g.successors b' → e.target = e'.target →
    (e.kind = .exception ↔ e'.kind = .exception)
  synced : ∀ b ∈ g.blocks, b.successors.filter (·.kind != .exception) = b.terminatorEdges
  loops : (g.loops.map (·.construct)).Nodup
  plain : g.dominance = none

/-- As many blocks as there are ids have different ids. -/
theorem Sound.once (h : Sound g) : g.blockIds.Nodup := by
  have hraw : (g.blockIds.map Ident.raw).Nodup := by
    have hsub : List.range g.nextBlock ⊆ g.blockIds.map Ident.raw := by
      intro i hi
      have hmem := mem_blockIds.mpr ((h.ids ⟨i⟩).mpr (List.mem_range.mp hi))
      exact List.mem_map.mpr ⟨⟨i⟩, hmem, rfl⟩
    have hlength : (g.blockIds.map Ident.raw).length ≤ (List.range g.nextBlock).length := by
      simp [blockIds, h.count]
    have hperm := (List.nodup_range.subperm hsub).perm_of_length_le hlength
    exact hperm.nodup_iff.mp List.nodup_range
  exact List.Nodup.of_map Ident.raw hraw

theorem sublist_blockIds_prune (g : FlowGraph) : g.prune.2.blockIds.Sublist g.blockIds := by
  unfold prune
  dsimp only
  split
  · exact List.Sublist.refl _
  · simp only [blockIds, List.map_map]
    exact List.filter_sublist.map _

theorem plain_prune (h : g.dominance = none) : g.prune.2.dominance = none := by
  unfold prune
  dsimp only
  split
  · exact h
  · rfl

theorem sublist_loops_prune (g : FlowGraph) :
    (g.prune.2.loops.map (·.construct)).Sublist (g.loops.map (·.construct)) := by
  unfold prune
  dsimp only
  split
  · exact List.Sublist.refl _
  · rw [List.map_map]
    exact List.filter_sublist.map _

/-- A block that is kept loses nothing but predecessors. -/
theorem bare_of_mem_prune (hb : blk ∈ g.prune.2.blocks) :
    ∃ old ∈ g.blocks, blk.bare = old.bare := by
  unfold prune at hb
  dsimp only at hb
  split at hb
  · exact ⟨blk, hb, rfl⟩
  · obtain ⟨old, hold, rfl⟩ := List.mem_map.mp hb
    exact ⟨old, (List.mem_filter.mp hold).1, rfl⟩

theorem Linked.mem_successors_prune (h : Linked g) {e : Edge} (he : e ∈ g.prune.2.successors b) :
    e ∈ g.successors b := by
  obtain ⟨keep, -, hblock⟩ := h.block?_prune
  obtain ⟨blk, hblk, he⟩ := mem_successors.mp he
  rw [hblock] at hblk
  split at hblk
  · obtain ⟨old, hold, rfl⟩ := Option.map_eq_some_iff.mp hblk
    exact mem_successors.mpr ⟨old, hold, he⟩
  · cases hblk

theorem Sound.aimed' (h : Sound g) {e : Edge} (he : e ∈ g.successors b) :
    e.target ≠ g.entry ∧ (e.kind = .exception ↔ g.Catches e.target) := by
  obtain ⟨blk, hblk, he⟩ := mem_successors.mp he
  refine h.aimed b blk.bare e ?_ he
  rw [bare?, hblk, Option.map_some]

theorem Sound.finished_prune (h : Sound g) : Finished g.prune.2 where
  linked := h.linked.prune
  reached := fun b hb => h.linked.reachable_prune (h.linked.contains_prune.mp hb)
  once := h.once.sublist (sublist_blockIds_prune g)
  enters := fun b e he => by
    rw [entry_prune]
    exact (h.aimed' (h.linked.mem_successors_prune he)).1
  aimed := fun b b' e e' he he' htarget => by
    rw [(h.aimed' (h.linked.mem_successors_prune he)).2,
      (h.aimed' (h.linked.mem_successors_prune he')).2, htarget]
  synced := fun b hb => by
    obtain ⟨old, hold, hbare⟩ := bare_of_mem_prune hb
    have hsynced := h.synced old.id old.bare (by rw [bare?, block?_of_mem h.once hold]; rfl)
    rw [← hbare] at hsynced
    exact hsynced
  loops := h.loops.sublist (sublist_loops_prune g)
  plain := plain_prune h.plain

theorem ofFunction_finished {a : Arena} {fn : NodeId} {view : FunctionView} {whole : FlowGraph}
    (hview : a.function fn = .ok view) (hwhole : lower a view = .ok whole)
    (hcount : whole.blocks.length ≤ Ident.invalidRaw) (hg : ofFunction a fn = .ok g) :
    g.Finished := by
  obtain ⟨view', whole', hview', hwhole', rfl⟩ := ofFunction_ok hg
  obtain rfl := Except.ok.inj (hview.symm.trans hview')
  obtain rfl := Except.ok.inj (hwhole.symm.trans hwhole')
  exact (lower_laid hwhole hcount).1.finished_prune

/-! The effects of each block. -/

theorem forall₂_of_mapM {α β : Type} {f : α → Except Fault β} {xs : List α} : ∀ {ys : List β},
    xs.mapM f = .ok ys → List.Forall₂ (fun x y => f x = .ok y) xs ys := by
  induction xs with
  | nil =>
    intro ys h
    obtain rfl := Except.ok.inj h
    exact .nil
  | cons x xs ih =>
    intro ys h
    rw [List.mapM_cons] at h
    obtain ⟨y, hy, h⟩ := except_bind_ok h
    obtain ⟨zs, hzs, h⟩ := except_bind_ok h
    obtain rfl := Except.ok.inj h
    exact .cons hy (ih hzs)

/-- The effects are listed for each block. -/
def Lists (a : Arena) (blocks : List Block) (effects : EffectMap) : Prop :=
  List.Forall₂ (fun b p => p.1 = b.id ∧ a.blockEffects b = .ok p.2) blocks effects

theorem effects_ok {a : Arena} {effects : EffectMap} (h : g.effects a = .ok effects) :
    Lists a g.blocks effects := by
  refine (forall₂_of_mapM h).imp (fun b p hp => ?_)
  obtain ⟨es, hes, hp⟩ := except_bind_ok hp
  obtain rfl := Except.ok.inj hp
  exact ⟨rfl, hes⟩

variable {a : Arena} {effects : EffectMap}

theorem Lists.find? {blocks : List Block} (h : Lists a blocks effects) {blk : Block}
    (hblk : blocks.find? (·.id == b) = some blk) :
    ∃ es, effects.find? (·.1 == b) = some (b, es) ∧ a.blockEffects blk = .ok es := by
  induction h with
  | nil => cases hblk
  | @cons b' p blocks effects hp _ ih =>
    obtain ⟨hid, hes⟩ := hp
    rw [List.find?_cons] at hblk ⊢
    rw [hid]
    by_cases hb : b'.id = b
    · rw [beq_iff_eq.mpr hb] at hblk ⊢
      cases hblk
      exact ⟨p.2, by rw [← hb, ← hid], hes⟩
    · rw [beq_false_of_ne hb] at hblk ⊢
      exact ih hblk

theorem Lists.ids {blocks : List Block} (h : Lists a blocks effects) :
    effects.map (·.1) = blocks.map (·.id) := by
  induction h with
  | nil => rfl
  | cons hp _ ih => rw [List.map_cons, List.map_cons, ih, hp.1]

/-- A graph with the effects of its blocks. -/
structure Effected (a : Arena) (g : FlowGraph) (effects : EffectMap) : Prop where
  finished : g.Finished
  lists : Lists a g.blocks effects

namespace Effected

variable (h : g.Effected a effects)
include h

theorem of_block {blk : Block} (hblk : g.block? b = some blk) :
    a.blockEffects blk = .ok (effects.of b) ∧ (b, effects.of b) ∈ effects := by
  obtain ⟨es, hfind, hes⟩ := h.lists.find? hblk
  have hof : effects.of b = es := by
    rw [EffectMap.of, hfind]
    rfl
  exact ⟨hof ▸ hes, hof ▸ List.mem_of_find?_eq_some hfind⟩

theorem mem (hb : g.contains b = true) : (b, effects.of b) ∈ effects := by
  obtain ⟨blk, hblk⟩ := contains_iff.mp hb
  exact (h.of_block hblk).2

theorem contains_of_mem {es : List Effect} (hmem : (b, es) ∈ effects) : g.contains b = true := by
  rw [← mem_blockIds, blockIds, ← h.lists.ids]
  exact List.mem_map.mpr ⟨(b, es), hmem, rfl⟩

theorem keys : (effects.map (·.1)).Nodup :=
  h.lists.ids ▸ h.finished.once

end Effected

/-! Where a variable is live. -/

theorem mem_ways {w : Way} : w ∈ g.ways ↔ ∃ blk ∈ g.blocks, blk.id = w.source ∧
    w.target ∈ blk.targets ∧ w.raised = blk.exceptionTargets.contains w.target := by
  rw [ways, List.mem_flatMap]
  constructor
  · rintro ⟨blk, hblk, hw⟩
    obtain ⟨c, hc, rfl⟩ := List.mem_map.mp hw
    exact ⟨blk, hblk, rfl, hc, rfl⟩
  · rintro ⟨blk, hblk, hsource, htarget, hraised⟩
    refine ⟨blk, hblk, List.mem_map.mpr ⟨w.target, htarget, ?_⟩⟩
    rw [hsource, ← hraised]

/-- The way along the edges from one block to another. -/
theorem exists_way (hc : c ∈ g.targets b) : ∃ raised, ⟨b, c, raised⟩ ∈ g.ways ∧
    (⟨c, .exception⟩ ∈ g.successors b → raised = true) := by
  obtain ⟨blk, hblk, hc⟩ := mem_targets.mp hc
  refine ⟨blk.exceptionTargets.contains c, mem_ways.mpr ⟨blk, block?_mem hblk, block?_id hblk, hc,
    rfl⟩, fun he => ?_⟩
  obtain ⟨blk', hblk', he⟩ := mem_successors.mp he
  obtain rfl := Option.some.inj (hblk.symm.trans hblk')
  exact List.contains_iff_mem.mpr (Block.mem_exceptionTargets.mpr he)

/-- A variable is live at the start of a block. -/
def Live (g : FlowGraph) (effects : EffectMap) (v : String) (b : BlockId) : Prop :=
  ((Liveness.ofGraph g effects).blocks v).contains b = true

/-- The search that finds where a variable is live. -/
def liveSearch (g : FlowGraph) (effects : EffectMap) (v : String) : Search BlockId :=
  searchFrom g.blockIds (fun b => ((groupBy Way.target g.ways).getD b []).filterMap
    (Liveness.passes? (.ofList (effects.blocksWhere (writes · v)))))
    (effects.blocksWhere (readsFirst · v))

theorem find?_name (names : List String) (v : String) :
    names.find? (· == v) = if v ∈ names then some v else none := by
  cases hfind : names.find? (· == v) with
  | none =>
    have hnot : v ∉ names := fun hv => by simpa using List.find?_eq_none.mp hfind v hv
    rw [if_neg hnot]
  | some w =>
    obtain rfl : w = v := by simpa using List.find?_some hfind
    rw [if_pos (List.mem_of_find?_eq_some hfind)]

theorem live_iff : g.Live effects v b ↔ v ∈ effects.names ∧ b ∈ (g.liveSearch effects v).seen := by
  have hfind := find?_name effects.names v
  rw [Live, Liveness.blocks, Liveness.ofGraph, List.find?_map]
  rw [show ((fun p : String × Std.HashSet BlockId => p.1 == v) ∘ fun name =>
    (name, Liveness.blocksOf g.blockIds (groupBy Way.target g.ways) effects name)) = (· == v)
    from rfl, hfind]
  by_cases hv : v ∈ effects.names
  · rw [if_pos hv, Option.map_some, Option.map_some, Option.getD_some, Liveness.blocksOf,
      Std.HashSet.contains_ofList, List.contains_iff_mem, liveSearch]
    simp [hv]
  · simp [hv]

/-- An edge leads from one block to another over which a variable keeps its value: it is raised
along, or the block does not assign the variable. -/
def Brings (g : FlowGraph) (effects : EffectMap) (v : String) (b c : BlockId) : Prop :=
  ∃ e ∈ g.successors b, e.target = c ∧
    (e.kind = .exception ∨ ∀ origin, .write v origin ∉ effects.of b)

theorem Brings.contains (h : g.Brings effects v b c) : g.contains b = true := by
  obtain ⟨e, he, -⟩ := h
  obtain ⟨blk, hblk, -⟩ := mem_successors.mp he
  exact contains_iff.mpr ⟨blk, hblk⟩

/-- The search goes over an edge backwards just when the edge brings the value along. -/
theorem mem_passes (honce : g.blockIds.Nodup) (hkeys : (effects.map (·.1)).Nodup) :
    b ∈ ((groupBy Way.target g.ways).getD c []).filterMap
      (Liveness.passes? (.ofList (effects.blocksWhere (writes · v)))) ↔ g.Brings effects v b c := by
  have hwriters : ∀ k, (Std.HashSet.ofList (effects.blocksWhere (writes · v))).contains k = true ↔
      ∃ origin, .write v origin ∈ effects.of k := by
    intro k
    rw [Std.HashSet.contains_ofList, List.contains_iff_mem,
      EffectMap.mem_blocksWhere hkeys (by rfl), writes_iff]
  rw [getD_groupBy, List.mem_filterMap]
  constructor
  · intro ⟨w, hw, hpasses⟩
    obtain ⟨hway, htarget⟩ := List.mem_filter.mp hw
    obtain rfl : w.target = c := eq_of_beq htarget
    obtain ⟨blk, hblk, hid, hmem, hraised⟩ := mem_ways.mp hway
    rw [Liveness.passes?, Option.ite_none_right_eq_some, Bool.or_eq_true,
      Bool.not_eq_true'] at hpasses
    obtain ⟨hpass, hsource⟩ := hpasses
    obtain rfl : w.source = b := Option.some.inj hsource
    have hblk : g.block? w.source = some blk := hid ▸ block?_of_mem honce hblk
    rcases hpass with hraises | hunwritten
    · rw [hraised, List.contains_iff_mem, Block.mem_exceptionTargets] at hraises
      exact ⟨_, mem_successors.mpr ⟨blk, hblk, hraises⟩, rfl, .inl rfl⟩
    · obtain ⟨e, he, htarget⟩ := Block.mem_targets.mp hmem
      refine ⟨e, mem_successors.mpr ⟨blk, hblk, he⟩, htarget, .inr fun origin horigin => ?_⟩
      rw [← Bool.not_eq_true, hwriters] at hunwritten
      exact hunwritten ⟨origin, horigin⟩
  · intro ⟨e, he, htarget, hpass⟩
    obtain ⟨raised, hway, hraises⟩ := exists_way (htarget ▸ target_of_successor he)
    refine ⟨⟨b, c, raised⟩, List.mem_filter.mpr ⟨hway, by simp⟩, ?_⟩
    rw [Liveness.passes?, if_pos]
    rw [Bool.or_eq_true, Bool.not_eq_true', ← Bool.not_eq_true, hwriters]
    refine hpass.imp (fun hkind => hraises ?_) fun hfree ⟨origin, horigin⟩ => hfree origin horigin
    rw [← htarget, ← hkind]
    exact he

/-- A variable is live where a block that reads it can be reached with the value that it has. -/
theorem live_iff_reaches (honce : g.blockIds.Nodup) (hkeys : (effects.map (·.1)).Nodup) :
    g.Live effects v b ↔ ∃ c, ReadsUnwritten (effects.of c) v ∧ g.contains c = true ∧
      Relation.ReflTransGen (g.Brings effects v) b c := by
  have hroots : ∀ r, r ∈ effects.blocksWhere (readsFirst · v) ↔
      ReadsUnwritten (effects.of r) v := by
    intro r
    rw [EffectMap.mem_blocksWhere hkeys (by rfl), readsFirst_iff]
  rw [live_iff, liveSearch, (searchFrom_explored _ _ _).mem_seen_within]
  constructor
  · intro h
    obtain ⟨-, c, hc, hin, hreach⟩ := h
    refine ⟨c, (hroots c).mp hc, mem_blockIds.mp hin, ?_⟩
    refine Relation.ReflTransGen.mono ?_ _ _ (Relation.reflTransGen_swap.mp hreach)
    exact fun u w h => (mem_passes honce hkeys).mp h.1
  · intro ⟨c, hreads, hin, hreach⟩
    refine ⟨EffectMap.mem_names hreads, c, (hroots c).mpr hreads, mem_blockIds.mpr hin, ?_⟩
    refine Relation.ReflTransGen.mono ?_ _ _ (Relation.reflTransGen_swap.mpr hreach)
    exact fun u w h => ⟨(mem_passes honce hkeys).mpr h, mem_blockIds.mpr h.contains⟩

/-- Just the variables are live that are read before being assigned, or are live after an edge that
brings the value along. -/
theorem live_equation (honce : g.blockIds.Nodup) (hkeys : (effects.map (·.1)).Nodup)
    (hb : g.contains b = true) :
    g.Live effects v b ↔ ReadsUnwritten (effects.of b) v ∨
      ∃ c, g.Brings effects v b c ∧ g.Live effects v c := by
  simp only [live_iff_reaches honce hkeys]
  constructor
  · intro ⟨c, hreads, hin, hreach⟩
    rcases Relation.ReflTransGen.cases_head hreach with rfl | ⟨d, hbd, hdc⟩
    · exact .inl hreads
    · exact .inr ⟨d, hbd, c, hreads, hin, hdc⟩
  · intro h
    rcases h with hreads | ⟨d, hbd, c, hreads, hin, hdc⟩
    · exact ⟨b, hreads, hb, .refl⟩
    · exact ⟨c, hreads, hin, .head hbd hdc⟩

/-- Whatever satisfies the equations has all that is live. -/
theorem live_least (honce : g.blockIds.Nodup) (hkeys : (effects.map (·.1)).Nodup)
    {P : BlockId → Prop}
    (hreads : ∀ c, g.contains c = true → ReadsUnwritten (effects.of c) v → P c)
    (hbrings : ∀ c d, g.Brings effects v c d → P d → P c) (hlive : g.Live effects v b) : P b := by
  obtain ⟨c, hc, hin, hreach⟩ := (live_iff_reaches honce hkeys).mp hlive
  clear hlive
  induction hreach using Relation.ReflTransGen.head_induction_on with
  | refl => exact hreads c hin hc
  | head hstep _ ih => exact hbrings _ _ hstep ih

namespace Effected

variable (h : g.Effected a effects)
include h

/-- A variable is live in a block that reads it first. -/
theorem live_of_reads (hb : g.contains b = true) (hreads : readsFirst (effects.of b) v = true) :
    g.Live effects v b :=
  (live_equation h.finished.once h.keys hb).mpr (.inl (readsFirst_iff.mp hreads))

/-- A variable is live before a way on which nothing writes it. -/
theorem live_of_edge (hc : c ∈ g.targets b) (hlive : g.Live effects v c)
    (hpass : ⟨c, .exception⟩ ∈ g.successors b ∨ writes (effects.of b) v = false) :
    g.Live effects v b := by
  have hbrings : g.Brings effects v b c := by
    rcases hpass with he | hwrites
    · exact ⟨_, he, rfl, .inl rfl⟩
    · obtain ⟨blk, hblk, hc⟩ := mem_targets.mp hc
      obtain ⟨e, he, htarget⟩ := Block.mem_targets.mp hc
      refine ⟨e, mem_successors.mpr ⟨blk, hblk, he⟩, htarget, .inr fun origin horigin => ?_⟩
      rw [← Bool.not_eq_true] at hwrites
      exact hwrites (writes_iff.mpr ⟨origin, horigin⟩)
  exact (live_equation h.finished.once h.keys hbrings.contains).mpr (.inr ⟨c, hbrings, hlive⟩)

/-- The variables that are live anywhere are among those that are renamed. -/
theorem mem_namesOf {t : DominatorTree} (hexact : g.Exact t) (view : FunctionView)
    (hlive : g.Live effects v b) : v ∈ SsaForm.namesOf view t effects := by
  obtain ⟨hv, -⟩ := live_iff.mp hlive
  rw [EffectMap.names, mem_distinct, List.mem_flatMap] at hv
  obtain ⟨⟨c, es⟩, hmem, hv⟩ := hv
  rw [SsaForm.namesOf, mem_distinct, List.mem_append, List.mem_flatMap]
  refine .inr ⟨c, hexact.mem_preorder.mpr (h.finished.reached c (h.contains_of_mem hmem)), ?_⟩
  rw [EffectMap.of_eq h.keys hmem]
  exact hv

end Effected

/-! Paths to a read. -/

end FlowGraph

end TypedSsa

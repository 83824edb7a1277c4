import TypedSsa.Proofs.Leaving
import TypedSsa.Proofs.Minding
import TypedSsa.Proofs.Rebuilding

/-!
Which functions have no graph. Main statement: `ofFunction_illegal_iff`. A parallel loop that
control leaves early is found again by the check, as long as no other loop takes its place in the
table.
-/

namespace TypedSsa

namespace FlowGraph

variable {g : FlowGraph} {b : BlockId} {l : LoopInfo}

/-! The check of parallel loops. -/

theorem mem_insertByDepth {m : LoopInfo} {ls : List LoopInfo} :
    m ∈ insertByDepth l ls ↔ m = l ∨ m ∈ ls := by
  induction ls with
  | nil => simp [insertByDepth]
  | cons k ls ih =>
    unfold insertByDepth
    split
    · simp
    · simp only [List.mem_cons, ih]
      exact or_left_comm

theorem mem_enclosingLoops : l ∈ g.enclosingLoops b ↔ l ∈ g.loops ∧ b ∈ l.body := by
  have hfold : ∀ ls sorted : List LoopInfo,
      l ∈ ls.foldl (fun sorted l => insertByDepth l sorted) sorted ↔ l ∈ sorted ∨ l ∈ ls := by
    intro ls
    induction ls with
    | nil => simp
    | cons k ls ih =>
      intro sorted
      rw [List.foldl_cons, ih, mem_insertByDepth, List.mem_cons, or_assoc, or_left_comm]
  rw [enclosingLoops, hfold, List.mem_filter, List.contains_iff_mem]
  simp

/-- A block leaves a parallel loop that is around it. -/
def LeavesAt (g : FlowGraph) (b : Block) : Prop :=
  ∃ l ∈ g.loops, l.parallel = true ∧ b.id ∈ l.body ∧
    ∃ x, b.terminator.bind (·.quits?) = some x ∧ (x = none ∨ x = some l.exit)

theorem leaves?_isSome {b : Block} : (g.leaves? b).isSome = true ↔ g.LeavesAt b := by
  have hfind : ∀ (p : LoopInfo → Bool) (f : LoopInfo → NodeId × String),
      (((g.enclosingLoops b.id).find? p).map f).isSome = true ↔
        ∃ l ∈ g.loops, b.id ∈ l.body ∧ p l = true := by
    intro p f
    rw [Option.isSome_map, List.find?_isSome]
    simp only [mem_enclosingLoops, and_assoc]
  unfold leaves? LeavesAt
  cases b.terminator with
  | none => simp
  | some y =>
    cases y with
    | returnWith value =>
      simp only [hfind, Option.bind_some, Terminator.quits?, Option.some.injEq, exists_eq_left',
        true_or, and_true]
      exact exists_congr (fun l => and_congr_right (fun _ => and_comm))
    | jump target kind =>
      cases kind with
      | breakOut =>
        simp only [hfind, Option.bind_some, Terminator.quits?, Option.some.injEq, exists_eq_left',
          reduceCtorEq, false_or, Bool.and_eq_true, beq_iff_eq]
        refine exists_congr (fun l => and_congr_right (fun _ => ?_))
        rw [eq_comm (a := target), and_comm (b := l.parallel = true)]
        exact and_left_comm
      | _ => simp [Terminator.quits?]
    | _ => simp [Terminator.quits?]

theorem checkConstructs_ok : g.checkConstructs = .ok () ↔ ∀ b ∈ g.blocks, ¬g.LeavesAt b := by
  unfold checkConstructs
  cases hfind : g.blocks.findSome? g.leaves? with
  | none =>
    refine iff_of_true rfl (fun b hb hleaves => ?_)
    have hnone := List.findSome?_eq_none_iff.mp hfind b hb
    have hsome := leaves?_isSome.mpr hleaves
    rw [hnone] at hsome
    cases hsome
  | some found =>
    obtain ⟨b, hb, hleaves⟩ := List.exists_of_findSome?_eq_some hfind
    refine iff_of_false nofun (fun h => h b hb (leaves?_isSome.mp ?_))
    rw [hleaves]
    rfl

/-- The check refuses nothing but what leaves a loop. -/
theorem checkConstructs_error {e : Fault} (h : g.checkConstructs = .error e) :
    ∃ construct reason, e = .illegal g.function construct reason := by
  unfold checkConstructs at h
  split at h
  · obtain rfl := Except.error.inj h
    exact ⟨_, _, rfl⟩
  · cases h

/-! The loops that are left after pruning. -/

theorem bare?_of_mem_prune (h : Sound g) {blk : Block} (hblk : blk ∈ g.prune.2.blocks) :
    g.Reachable blk.id ∧ g.bare? blk.id = some blk.bare := by
  obtain ⟨old, hold, hbare⟩ := bare_of_mem_prune hblk
  have hid : blk.bare.id = old.bare.id := congrArg _ hbare
  refine ⟨h.linked.contains_prune.mp (contains_iff.mpr
    ⟨blk, block?_of_mem h.finished_prune.once hblk⟩), ?_⟩
  change g.bare? blk.bare.id = _
  rw [hid, hbare]
  change g.bare? old.id = _
  rw [bare?, block?_of_mem h.once hold, Option.map_some]

theorem block?_prune_bare (h : Sound g) {blk : Block} (hblk : blk ∈ g.prune.2.blocks) :
    g.Reachable blk.id ∧ g.ends? blk.id = blk.terminator := by
  obtain ⟨hreach, hbare⟩ := bare?_of_mem_prune h hblk
  exact ⟨hreach, (ends?_of_bare hbare).trans rfl⟩

/-- What a loop that is kept says of blocks that are kept it said before. -/
theorem mem_loops_prune (h : Sound g) (hheaders : ∀ l ∈ g.loops, g.contains l.header = true)
    (hb : g.Reachable b) {P : Bool → BlockId → Prop} :
    (∃ l ∈ g.prune.2.loops, P l.parallel l.exit ∧ b ∈ l.body) ↔
      ∃ l ∈ g.loops, g.Reachable l.header ∧ P l.parallel l.exit ∧ b ∈ l.body := by
  unfold prune
  dsimp only
  split
  · rename_i hall
    -- Nothing is taken out, as every block is reached.
    refine exists_congr (fun l => and_congr_right (fun hl => ?_))
    rw [List.isEmpty_iff, List.filter_eq_nil_iff] at hall
    have hreach := hall l.header (mem_blockIds.mpr (hheaders l hl))
    rw [Bool.not_eq_true', Bool.not_eq_false, h.linked.kept_iff] at hreach
    exact (and_iff_right hreach).symm
  · simp only [List.mem_map, List.mem_filter]
    constructor
    · intro ⟨l', ⟨l, ⟨hl, hkeep⟩, hrestrict⟩, hP, hbody⟩
      subst hrestrict
      exact ⟨l, hl, h.linked.kept_iff.mp hkeep, hP, (List.mem_filter.mp hbody).1⟩
    · intro ⟨l, hl, hreach, hP, hbody⟩
      exact ⟨_, ⟨l, ⟨hl, h.linked.kept_iff.mpr hreach⟩, rfl⟩, hP,
        List.mem_filter.mpr ⟨hbody, h.linked.kept_iff.mpr hb⟩⟩

/-- Some block leaves a parallel loop in the pruned graph if control leaves one early. -/
theorem exists_leavesAt_prune (h : Sound g)
    (hheld : ∀ l ∈ g.loops, ∀ b, l.Holds b → g.contains b = true) :
    (∃ b ∈ g.prune.2.blocks, g.prune.2.LeavesAt b) ↔ ∃ l ∈ g.loops, g.LeftEarly l := by
  have hloops := fun {b} (hb : g.Reachable b) (x : Option BlockId) =>
    mem_loops_prune h (fun l hl => hheld l hl l.header (.inl rfl)) hb
      (P := fun parallel exit => parallel = true ∧ (x = none ∨ x = some exit))
  constructor
  · intro ⟨blk, hblk, l', hl', hparallel, hbody, x, hquits, hx⟩
    obtain ⟨hreach, hends⟩ := block?_prune_bare h hblk
    obtain ⟨l, hl, hheader, ⟨hparallel, hx⟩, hbody⟩ :=
      (hloops hreach x).mp ⟨l', hl', ⟨hparallel, hx⟩, hbody⟩
    rw [← hends] at hquits
    refine ⟨l, hl, hparallel, hheader, blk.id, hbody, ?_⟩
    rcases hx with rfl | rfl
    · exact .inl ⟨hreach, hquits⟩
    · exact .inr ⟨hreach, hquits⟩
  · intro ⟨l, hl, hparallel, hheader, b, hbody, hquits⟩
    have hx : ∃ x, g.Quits b x ∧ (x = none ∨ x = some l.exit) :=
      hquits.elim (fun h => ⟨_, h, .inl rfl⟩) (fun h => ⟨_, h, .inr rfl⟩)
    obtain ⟨x, ⟨hreach, hquits⟩, hx⟩ := hx
    obtain ⟨blk, hblk⟩ := contains_iff.mp (h.linked.contains_prune.mpr hreach)
    have hid := block?_id hblk
    have hmem := block?_mem hblk
    obtain ⟨l', hl', ⟨hparallel, hx⟩, hbody⟩ :=
      (hloops hreach x).mpr ⟨l, hl, hheader, ⟨hparallel, hx⟩, hbody⟩
    rw [← hid, (block?_prune_bare h hmem).2] at hquits
    exact ⟨blk, hmem, l', hl', hparallel, hid ▸ hbody, x, hquits, hx⟩

theorem validate_prune (h : Sound g) (hended : ∀ b, g.contains b = true → ∃ y, g.ends? b = some y) :
    g.prune.2.validate = .ok () := by
  refine validate_ok.mpr ⟨h.linked.prune.entry, fun blk hblk => ⟨?_, fun e he => ?_⟩⟩
  · obtain ⟨hreach, hends⟩ := block?_prune_bare h hblk
    obtain ⟨y, hy⟩ := hended blk.id (h.linked.contains_of_reachable hreach)
    rw [← hends, hy]
    rfl
  · have hfound := block?_of_mem h.finished_prune.once hblk
    exact h.linked.prune.closed (target_of_successor (mem_successors.mpr ⟨blk, hfound, he⟩))

end FlowGraph

open FlowGraph

variable {a : Arena} {fn : NodeId} {view : FunctionView} {g : FlowGraph} {loops : List LoopInfo}

/-- A parallel loop that is put into the table once stays there. -/
theorem LoweredBody.early_iff (h : LoweredBody a view.body loops g)
    (honce : ∀ id loop, a.statement id = .ok (.forLoop loop) → loop.parallel = true →
      (view.body.flatMap (a.nested a.nodes.size)).count id ≤ 1) :
    (∃ l ∈ g.loops, g.LeftEarly l) ↔ Comes a a.Ends LeavesParallel [] false (.all view.body) := by
  rw [← h.early, h.past.table]
  constructor
  · intro ⟨l, hl, hleft⟩
    exact ⟨l, mem_foldl_putBy hl, hleft⟩
  · intro ⟨l, hl, hleft⟩
    refine ⟨l, mem_foldl_putBy_of_count hl ?_, hleft⟩
    obtain ⟨loop, hst, hparallel⟩ := (h.entered.parallel l hl).resolve_left nofun hleft.1
    have hcount := h.entered.count l.construct
    have honce := honce l.construct loop hst hparallel
    rw [List.map_nil, List.count_nil, Nat.zero_add] at hcount
    exact Nat.le_trans hcount honce

/-- A function is refused for what its statements are if there is a `break` or `continue` outside
of every loop, or if control may come to leave a parallel loop early. -/
theorem ofFunction_illegal_iff (hview : a.function fn = .ok view)
    (hschema : ∀ kind reason, lower a view ≠ .error (.schema kind reason))
    (hcount : ∀ g, lower a view = .ok g → g.blocks.length ≤ Ident.invalidRaw)
    (honce : ∀ id loop, a.statement id = .ok (.forLoop loop) → loop.parallel = true →
      (view.body.flatMap (a.nested a.nodes.size)).count id ≤ 1) :
    (∃ function node reason, ofFunction a fn = .error (.illegal function node reason)) ↔
      Comes a (fun _ _ => True) Strays [] false (.all view.body) ∨
        Comes a a.Ends LeavesParallel [] false (.all view.body) := by
  have hrun : ofFunction a fn = (lower a view >>= fun g =>
      g.prune.2.validate >>= fun _ => g.prune.2.checkConstructs >>= fun _ => .ok g.prune.2) := by
    rw [ofFunction, hview]
    rfl
  cases hlower : lower a view with
  | error e =>
    have hexpected := lower_expected hlower
    rw [hrun, hlower]
    cases e with
    | schema kind reason => exact absurd hlower (hschema kind reason)
    | illegal function node reason => exact iff_of_true ⟨_, _, _, rfl⟩ (.inl hexpected)
    | _ => exact hexpected.elim
  | ok g =>
    obtain ⟨loops, hbody⟩ := lower_flows hlower (hcount g hlower)
    have hheld : ∀ l ∈ g.loops, ∀ b, l.Holds b → g.contains b = true := by
      intro l hl b hb
      obtain ⟨y, hy⟩ := hbody.past.ended l (mem_foldl_putBy (hbody.past.table ▸ hl)) b hb
      exact contains_of_ends hy
    rw [hrun, hlower, or_iff_right hbody.placed, ← hbody.early_iff honce,
      ← exists_leavesAt_prune hbody.sound hheld]
    simp only [bind, Except.bind, validate_prune hbody.sound hbody.ended]
    cases hcheck : g.prune.2.checkConstructs with
    | ok u =>
      have hnone := checkConstructs_ok.mp hcheck
      refine iff_of_false ?_ ?_
      · rintro ⟨function, node, reason, hillegal⟩
        cases hillegal
      · rintro ⟨b, hb, hleaves⟩
        exact hnone b hb hleaves
    | error e =>
      obtain ⟨construct, reason, rfl⟩ := checkConstructs_error hcheck
      refine iff_of_true ⟨_, _, _, rfl⟩ ?_
      by_contra hnone
      rw [checkConstructs_ok.mpr (fun b hb hleaves => hnone ⟨b, hb, hleaves⟩)] at hcheck
      cases hcheck

/-- A function that returns from a parallel loop. -/
def leavingArena : Arena where
  registry := .builtin
  nodes := #[
    ⟨⟨0⟩, ⟨13⟩, .identity, [.str "i"], []⟩,
    ⟨⟨1⟩, ⟨13⟩, .identity, [.str "n"], []⟩,
    ⟨⟨2⟩, ⟨11⟩, .identity, [.absent], []⟩,
    ⟨⟨3⟩, ⟨6⟩, .identity, [.node ⟨0⟩, .node ⟨1⟩, .node ⟨1⟩, .absent, .list [.node ⟨2⟩]],
      [(Kind.parallel, .bool true)]⟩,
    ⟨⟨4⟩, ⟨0⟩, .identity, [.str "f", .list [], .list [.node ⟨3⟩]], []⟩]

def leavingView : FunctionView := ⟨⟨4⟩, "f", [], [⟨3⟩], none, none⟩

/-- The `return` is found. -/
theorem ofFunction_leavingArena : leavingArena.function ⟨4⟩ = .ok leavingView ∧
    ((lower leavingArena leavingView).map (·.blocks.length)).toOption = some 5 ∧
    ∃ function node reason, ofFunction leavingArena ⟨4⟩ = .error (.illegal function node reason) := by
  have hreturn : leavingArena.statement ⟨2⟩ = .ok (.returnStmt none) := rfl
  have hloop : leavingArena.statement ⟨3⟩ =
      .ok (.forLoop ⟨⟨0⟩, "i", ⟨1⟩, ⟨1⟩, none, [⟨2⟩], true⟩) := rfl
  have hnested : leavingView.body.flatMap (leavingArena.nested leavingArena.nodes.size) =
      [⟨3⟩, ⟨2⟩] := rfl
  have hlower : ((lower leavingArena leavingView).map (·.blocks.length)).toOption = some 5 := by
    decide +kernel
  have hview : leavingArena.function ⟨4⟩ = .ok leavingView := rfl
  refine ⟨hview, hlower, (ofFunction_illegal_iff hview ?_ ?_ ?_).mpr ?_⟩
  · intro kind reason h
    rw [h] at hlower
    cases hlower
  · intro g hg
    rw [hg] at hlower
    have hlength : g.blocks.length = 5 := Option.some.inj hlower
    rw [hlength]
    decide
  · intro id _ _ _
    rw [hnested]
    exact List.nodup_iff_count_le_one.mp (by decide) id
  · exact .inr (.first hloop (.forBody (.first hreturn (.here (by simp [LeavesParallel])))))

end TypedSsa

import Mathlib.Data.List.Forall2
import Mathlib.Data.List.Induction
import TypedSsa.Flow.Graph
import TypedSsa.Proofs.Search

/-!
The edges of a graph and its predecessor lists tell the same. Main statement: `Produced.linked`, for
every graph that block creation, terminators, exception edges and pruning make from a new one.
-/

namespace TypedSsa

section
variable {α : Type} [DecidableEq α]

/-- What is not there yet goes to the end. -/
def addNew (seen xs : List α) : List α :=
  xs.foldl (fun seen x => if seen.contains x then seen else seen ++ [x]) seen

theorem addNew_cons (seen : List α) (x : α) (xs : List α) :
    addNew seen (x :: xs) = addNew (if x ∈ seen then seen else seen ++ [x]) xs := by
  simp [addNew]

theorem addNew_append (seen xs ys : List α) :
    addNew seen (xs ++ ys) = addNew (addNew seen xs) ys :=
  List.foldl_append

theorem mem_addNew {seen xs : List α} {x : α} : x ∈ addNew seen xs ↔ x ∈ seen ∨ x ∈ xs := by
  induction xs generalizing seen with
  | nil => simp [addNew]
  | cons y ys ih =>
    rw [addNew_cons, ih]
    split
    · grind
    · simp [or_assoc]

theorem addNew_of_subset {seen xs : List α} (h : ∀ x ∈ xs, x ∈ seen) : addNew seen xs = seen := by
  induction xs with
  | nil => rfl
  | cons x xs ih =>
    rw [addNew_cons, if_pos (h x (by simp))]
    exact ih fun y hy => h y (by simp [hy])

end

section
variable {α β : Type} [BEq α] [LawfulBEq α] [BEq β] [LawfulBEq β]

omit [LawfulBEq α] in
theorem distinct_concat (xs : List α) (x : α) :
    distinct (xs ++ [x]) =
      if (distinct xs).contains x then distinct xs else distinct xs ++ [x] := by
  rw [distinct, List.foldl_append]
  rfl

theorem mem_distinct {xs : List α} {x : α} : x ∈ distinct xs ↔ x ∈ xs := by
  induction xs using List.reverseRecOn with
  | nil => rfl
  | append_singleton xs y ih =>
    rw [distinct_concat]
    split
    · rename_i hknown
      rw [ih, List.mem_append, List.mem_singleton, iff_self_or]
      rintro rfl
      exact ih.mp (List.contains_iff_mem.mp hknown)
    · rw [List.mem_append, List.mem_append, ih]

/-- An item is new where it comes for the first time. -/
theorem distinct_known {xs : List α} {x : α} (h : x ∈ xs) : distinct (xs ++ [x]) = distinct xs := by
  rw [distinct_concat, if_pos (List.contains_iff_mem.mpr (mem_distinct.mpr h))]

theorem distinct_new {xs : List α} {x : α} (h : x ∉ xs) :
    distinct (xs ++ [x]) = distinct xs ++ [x] := by
  rw [distinct_concat, if_neg fun hknown => h (mem_distinct.mp (List.contains_iff_mem.mp hknown))]

theorem nodup_distinct (xs : List α) : (distinct xs).Nodup := by
  induction xs using List.reverseRecOn with
  | nil => exact List.nodup_nil
  | append_singleton xs x ih =>
    by_cases hx : x ∈ xs
    · rwa [distinct_known hx]
    · rw [distinct_new hx]
      refine List.nodup_append.mpr ⟨ih, by simp, fun y hy z hz => ?_⟩
      rw [List.mem_singleton.mp hz]
      rintro rfl
      exact hx (mem_distinct.mp hy)

theorem filter_distinct (p : α → Bool) (xs : List α) :
    (distinct xs).filter p = distinct (xs.filter p) := by
  induction xs using List.reverseRecOn with
  | nil => rfl
  | append_singleton xs x ih =>
    rw [List.filter_append]
    cases hp : p x with
    | true =>
      rw [List.filter_cons_of_pos hp, List.filter_nil]
      by_cases hx : x ∈ xs
      · rw [distinct_known hx, distinct_known (List.mem_filter.mpr ⟨hx, hp⟩), ih]
      · rw [distinct_new hx, distinct_new (fun hmem => hx (List.mem_of_mem_filter hmem)),
          List.filter_append, List.filter_cons_of_pos hp, List.filter_nil, ih]
    | false =>
      rw [List.filter_cons_of_neg (by simp [hp]), List.filter_nil, List.append_nil, ← ih]
      by_cases hx : x ∈ xs
      · rw [distinct_known hx]
      · rw [distinct_new hx]
        simp [hp]

theorem forall₂_distinct {R : α → β → Prop} (hR : Relator.BiUnique R) {xs : List α} {ys : List β}
    (h : List.Forall₂ R xs ys) : List.Forall₂ R (distinct xs) (distinct ys) := by
  suffices ∀ seen seen', List.Forall₂ R seen seen' →
      List.Forall₂ R (xs.foldl (fun seen x => if seen.contains x then seen else seen ++ [x]) seen)
        (ys.foldl (fun seen y => if seen.contains y then seen else seen ++ [y]) seen') from
    this [] [] .nil
  induction h with
  | nil => exact fun _ _ hseen => hseen
  | @cons x y xs ys hxy _ ih =>
    intro seen seen' hseen
    have hmem : x ∈ seen ↔ y ∈ seen' := List.rel_mem hR hxy hseen
    rw [List.foldl_cons, List.foldl_cons]
    by_cases hx : x ∈ seen
    · rw [if_pos (List.contains_iff_mem.mpr hx), if_pos (List.contains_iff_mem.mpr (hmem.mp hx))]
      exact ih _ _ hseen
    · rw [if_neg (mt List.contains_iff_mem.mp hx),
        if_neg (mt List.contains_iff_mem.mp (mt hmem.mpr hx))]
      exact ih _ _ (List.rel_append hseen (.cons hxy .nil))

theorem distinct_map {f : α → β} (hf : Function.Injective f) (xs : List α) :
    distinct (xs.map f) = (distinct xs).map f := by
  have hR : Relator.BiUnique (fun x y => f x = y) :=
    ⟨fun x y z hx hy => hf (hx.trans hy.symm), fun x y z hy hz => hy.symm.trans hz⟩
  have h := forall₂_distinct hR (List.forall₂_map_right_iff.mpr
    (List.forall₂_same.mpr fun x (_ : x ∈ xs) => rfl))
  have hmap := List.forall₂_map_left_iff.mpr h
  rw [List.forall₂_eq_eq_eq] at hmap
  exact hmap.symm

end

theorem except_bind_ok {α β : Type} {m : Except Fault α} {f : α → Except Fault β} {y : β}
    (h : (m >>= f) = .ok y) : ∃ x, m = .ok x ∧ f x = .ok y := by
  cases m with
  | error fault => cases h
  | ok x => exact ⟨x, rfl, h⟩

theorem except_mapError_ok {α ε ε' : Type} {f : ε → ε'} {r : Except ε α} {x : α} :
    r.mapError f = .ok x ↔ r = .ok x := by
  cases r with
  | ok y => constructor <;> (intro h; cases h; rfl)
  | error e => constructor <;> (intro h; cases h)

theorem except_map_ok {α β ε : Type} {f : α → β} {r : Except ε α} {y : β} :
    r.map f = .ok y ↔ ∃ x, r = .ok x ∧ f x = y := by
  cases r <;> simp [Except.map]

/-- A run over a list succeeds just when it does for each item. -/
theorem forM_ok_iff {ε α : Type} {step : α → Except ε PUnit} {xs : List α} :
    xs.forM step = .ok ⟨⟩ ↔ ∀ x ∈ xs, step x = .ok ⟨⟩ := by
  induction xs with
  | nil => exact ⟨fun _ => by simp, fun _ => rfl⟩
  | cons x xs ih =>
    rw [List.forall_mem_cons, ← ih]
    change (step x >>= fun _ => xs.forM step) = _ ↔ _
    cases step x with
    | error e => exact ⟨nofun, fun h => nomatch h.1⟩
    | ok u => exact ⟨fun h => ⟨rfl, h⟩, fun h => h.2⟩

theorem forM_zip_ok_iff {α β ε : Type} {step : α × β → Except ε Unit} {xs : List α}
    {ys : List β} : (xs.zip ys).forM step = .ok () ↔
      ∀ (i : Nat) (x : α) (y : β), xs[i]? = some x → ys[i]? = some y → step (x, y) = .ok () := by
  refine forM_ok_iff.trans ⟨fun h i x y hx hy => ?_, fun h p hp => ?_⟩
  · exact h (x, y) (List.mem_of_getElem? (List.getElem?_zip_eq_some.mpr ⟨hx, hy⟩))
  · obtain ⟨i, hi⟩ := List.mem_iff_getElem?.mp hp
    obtain ⟨hx, hy⟩ := List.getElem?_zip_eq_some.mp hi
    exact h i p.1 p.2 hx hy

theorem array_forM_ok_iff {ε α : Type} {step : α → Except ε PUnit} {xs : Array α} :
    xs.forM step = .ok ⟨⟩ ↔ ∀ x ∈ xs, step x = .ok ⟨⟩ := by
  obtain ⟨xs⟩ := xs
  rw [show (Array.mk xs).forM step = xs.forM step from List.forM_toArray xs step, forM_ok_iff]
  simp only [List.mem_toArray]

theorem mapM_ok {ε α β : Type} {step : α → Except ε β} {make : α → β} {xs : List α}
    (h : ∀ x ∈ xs, step x = .ok (make x)) : xs.mapM step = .ok (xs.map make) := by
  induction xs with
  | nil => rfl
  | cons x xs ih =>
    obtain ⟨hx, hxs⟩ := List.forall_mem_cons.mp h
    rw [List.mapM_cons, hx, ih hxs]
    rfl

/-! Runs with a state taken apart. -/

section
variable {σ α β : Type} {s s' s'' : σ}

theorem bind_ok {m : StateT σ (Except Fault) α} {f : α → StateT σ (Except Fault) β} {y : β}
    (h : (m >>= f) s = .ok (y, s'')) : ∃ x s', m s = .ok (x, s') ∧ f x s' = .ok (y, s'') := by
  have h : (m s >>= fun r => f r.1 r.2) = .ok (y, s'') := h
  obtain ⟨r, hm, h⟩ := except_bind_ok h
  exact ⟨r.1, r.2, hm, h⟩

theorem pure_ok {x y : α} (h : (pure x : StateT σ (Except Fault) α) s = .ok (y, s')) :
    y = x ∧ s = s' := by
  cases h
  exact ⟨rfl, rfl⟩

theorem map_ok {m : StateT σ (Except Fault) α} {f : α → β} {y : β}
    (h : (f <$> m) s = .ok (y, s')) : ∃ x, m s = .ok (x, s') ∧ y = f x := by
  rw [← bind_pure_comp] at h
  obtain ⟨x, s₁, hm, h⟩ := bind_ok h
  obtain ⟨rfl, rfl⟩ := pure_ok h
  exact ⟨x, hm, rfl⟩

theorem lift_ok {m : Except Fault α} {x : α}
    (h : (liftM m : StateT σ (Except Fault) α) s = .ok (x, s')) : m = .ok x ∧ s = s' := by
  cases m with
  | error fault => cases h
  | ok y =>
    cases h
    exact ⟨rfl, rfl⟩

end

namespace Block

theorem mem_targets {b : Block} {t : BlockId} :
    t ∈ b.targets ↔ ∃ e ∈ b.successors, e.target = t := by
  rw [targets, mem_distinct, List.mem_map]

theorem mem_exceptionTargets {b : Block} {t : BlockId} :
    t ∈ b.exceptionTargets ↔ ⟨t, .exception⟩ ∈ b.successors := by
  simp only [exceptionTargets, exceptionEdges, List.mem_map, List.mem_filter, beq_iff_eq]
  constructor
  · rintro ⟨e, ⟨he, hkind⟩, rfl⟩
    exact hkind ▸ he
  · exact fun h => ⟨_, ⟨h, rfl⟩, rfl⟩

end Block

namespace FlowGraph

variable {g : FlowGraph}

theorem block?_id {k : BlockId} {b : Block} (h : g.block? k = some b) : b.id = k := by
  simpa using List.find?_some h

theorem block?_mem {k : BlockId} {b : Block} (h : g.block? k = some b) : b ∈ g.blocks :=
  List.mem_of_find?_eq_some h

theorem contains_eq_isSome (k : BlockId) : g.contains k = (g.block? k).isSome := by
  rw [Bool.eq_iff_iff, block?, List.find?_isSome, contains, List.any_eq_true]

theorem contains_iff {k : BlockId} : g.contains k = true ↔ ∃ b, g.block? k = some b := by
  rw [contains_eq_isSome, Option.isSome_iff_exists]

theorem mem_blockIds {k : BlockId} : k ∈ g.blockIds ↔ g.contains k = true := by
  simp [blockIds, contains]

theorem mem_targets {s t : BlockId} :
    t ∈ g.targets s ↔ ∃ b, g.block? s = some b ∧ t ∈ b.targets := by
  cases h : g.block? s <;> simp [targets, h]

theorem mem_predecessors {p t : BlockId} :
    p ∈ g.predecessors t ↔ ∃ b, g.block? t = some b ∧ p ∈ b.predecessors := by
  cases h : g.block? t <;> simp [predecessors, h]

/-- Every edge leads to a block of the graph, and the predecessors of a block, though one may be
listed again, are the sources of the edges into it. -/
structure Consistent (g : FlowGraph) : Prop where
  entry : g.contains g.entry = true
  closed : ∀ {s t : BlockId}, t ∈ g.targets s → g.contains t = true
  sources : ∀ {p t : BlockId}, p ∈ g.predecessors t ↔ t ∈ g.targets p

/-- Every edge leads to a block of the graph, and the predecessors of a block, each listed once, are
the sources of the edges into it. -/
structure Linked (g : FlowGraph) : Prop where
  entry : g.contains g.entry = true
  closed : ∀ {s t : BlockId}, t ∈ g.targets s → g.contains t = true
  sources : ∀ {p t : BlockId}, p ∈ g.predecessors t ↔ t ∈ g.targets p
  once : ∀ t : BlockId, (g.predecessors t).Nodup

theorem Linked.consistent (h : Linked g) : Consistent g :=
  ⟨h.entry, h.closed, h.sources⟩

/-! What each operation does to the block of an id. -/

theorem find?_map_of_id (bs : List Block) (k : BlockId) (change : Block → Block)
    (keep : ∀ b, (change b).id = b.id) :
    (bs.map change).find? (·.id == k) = (bs.find? (·.id == k)).map change := by
  simp [List.find?_map, Function.comp_def, keep]

theorem block?_updateBlock (g : FlowGraph) (id k : BlockId) (change : Block → Block)
    (keep : ∀ b, (change b).id = b.id) :
    (g.updateBlock id change).block? k =
      (g.block? k).map (fun b => if k = id then change b else b) := by
  have each : ∀ b, (if b.id == id then change b else b).id = b.id := by
    intro b
    split
    · exact keep b
    · rfl
  rw [block?, updateBlock, find?_map_of_id _ k _ each]
  cases h : g.blocks.find? (·.id == k) with
  | none => simp [block?, h]
  | some b => simp [block?, h, block?_id h]

theorem block?_createBlock (g : FlowGraph) (role : BlockRole) (construct : Option NodeId)
    (depth : Nat) (k : BlockId) :
    (g.createBlock role construct depth).2.block? k =
      if k = ⟨g.nextBlock⟩ then some { id := k, origin := ⟨role, depth, construct⟩ }
      else g.block? k := by
  by_cases h : k = ⟨g.nextBlock⟩
  · subst h
    rw [if_pos rfl]
    exact find?_putBy_self Block.id g.blocks ⟨⟨g.nextBlock⟩, [], none, [], [], _⟩
  · rw [if_neg h]
    exact find?_putBy_of_ne Block.id g.blocks ⟨⟨g.nextBlock⟩, [], none, [], [], _⟩ h

@[simp] theorem relinked_id (source : BlockId) (lost gained : List BlockId) (b : Block) :
    (relinked source lost gained b).id = b.id := by
  unfold relinked
  split
  · rfl
  · split <;> rfl

@[simp] theorem relinked_successors (source : BlockId) (lost gained : List BlockId) (b : Block) :
    (relinked source lost gained b).successors = b.successors := by
  unfold relinked
  split
  · rfl
  · split <;> rfl

theorem block?_setSuccessors (id : BlockId) (terminator : Option Terminator)
    (successors : List Edge) (lost gained : List BlockId) (k : BlockId) :
    (g.setSuccessors id terminator successors lost gained).block? k =
      (g.block? k).map (fun b =>
        relinked id lost gained (if k = id then { b with terminator, successors } else b)) := by
  rw [block?, setSuccessors, find?_map_of_id _ k _ (relinked_id id lost gained)]
  have h := g.block?_updateBlock id k (fun b => { b with terminator, successors }) (fun _ => rfl)
  rw [block?] at h
  rw [h, Option.map_map]
  rfl

theorem find?_kept {reached : Std.HashSet BlockId} {k : BlockId} :
    (g.blocks.filter (fun b => reached.contains b.id)).find? (·.id == k) =
      if reached.contains k then g.block? k else none := by
  rw [List.find?_filter]
  by_cases h : reached.contains k = true
  · rw [if_pos h, block?]
    congr 1
    funext b
    cases hb : b.id == k
    · simp
    · rw [eq_of_beq hb, h]
      rfl
  · rw [if_neg h, List.find?_eq_none]
    intro b _ hb
    have hb : reached.contains b.id = true ∧ b.id = k := by simpa using hb
    exact h (hb.2 ▸ hb.1)

/-! The edges after each operation. -/

theorem contains_setSuccessors (id : BlockId) (terminator : Option Terminator)
    (successors : List Edge) (lost gained : List BlockId) (k : BlockId) :
    (g.setSuccessors id terminator successors lost gained).contains k = g.contains k := by
  rw [contains_eq_isSome, contains_eq_isSome, block?_setSuccessors, Option.isSome_map]

theorem mem_targets_setSuccessors {id : BlockId} {b : Block} (hb : g.block? id = some b)
    (terminator : Option Terminator) (successors : List Edge) (lost gained : List BlockId)
    (s t : BlockId) :
    t ∈ (g.setSuccessors id terminator successors lost gained).targets s ↔
      if s = id then ∃ e ∈ successors, e.target = t else t ∈ g.targets s := by
  rw [mem_targets, block?_setSuccessors]
  by_cases hs : s = id
  · subst hs
    simp [hb, Block.mem_targets]
  · simp only [if_neg hs, mem_targets]
    cases g.block? s <;> simp [Block.mem_targets]

theorem mem_relinked {source p : BlockId} {lost gained : List BlockId} {b : Block} :
    p ∈ (relinked source lost gained b).predecessors ↔
      if b.id ∈ lost then p ∈ b.predecessors ∧ p ≠ source
      else p ∈ b.predecessors ∨ (b.id ∈ gained ∧ p = source) := by
  unfold relinked
  by_cases hlost : b.id ∈ lost
  · simp [hlost]
  · by_cases hgained : b.id ∈ gained
    · by_cases hsource : source ∈ b.predecessors
      · simp only [List.contains_eq_mem, hlost, hgained, hsource, decide_false, decide_true,
          Bool.not_true, Bool.and_false, Bool.false_eq_true, if_false, true_and]
        exact ⟨.inl, fun h => h.elim id (fun h => h ▸ hsource)⟩
      · simp [hlost, hgained, hsource]
    · simp [hlost, hgained]

theorem nodup_relinked {source : BlockId} {lost gained : List BlockId} {b : Block}
    (h : b.predecessors.Nodup) : (relinked source lost gained b).predecessors.Nodup := by
  unfold relinked
  split
  · exact h.filter _
  · split
    · rename_i hgained
      have hsource : source ∉ b.predecessors := by
        simp only [Bool.and_eq_true, List.contains_eq_mem, Bool.not_eq_true',
          decide_eq_false_iff_not] at hgained
        exact hgained.2
      exact List.nodup_append.mpr ⟨h, by simp, by
        intro p hp q hq
        rw [List.mem_singleton.mp hq]
        rintro rfl
        exact hsource hp⟩
    · exact h

/-- The targets that a block loses and gains with new successors are told as they are. -/
structure Rewires (b : Block) (successors : List Edge) (lost gained : List BlockId) : Prop where
  lost : ∀ t, t ∈ lost ↔ t ∈ b.targets ∧ ¬∃ e ∈ successors, e.target = t
  gained : ∀ t, t ∈ gained ↔ (∃ e ∈ successors, e.target = t) ∧ t ∉ b.targets

theorem setTerminator_ok {g' : FlowGraph} {id : BlockId} {t : Terminator}
    (run : g.setTerminator id t = .ok g') :
    ∃ b lost gained, g.block? id = some b ∧ (∀ e ∈ t.edges, g.contains e.target = true) ∧
      Rewires b (t.edges ++ b.exceptionEdges) lost gained ∧
      g' = g.setSuccessors id (some t) (t.edges ++ b.exceptionEdges) lost gained := by
  unfold setTerminator at run
  split at run
  · cases run
  · cases run
  · rename_i b hnone hb
    cases run
    refine ⟨b, _, _, hb, fun e he => ?_, ⟨fun x => ?_, fun x => ?_⟩, rfl⟩
    · simpa using List.find?_eq_none.mp hnone e he
    · rw [List.mem_filter, Bool.not_eq_true', List.contains_eq_mem, decide_eq_false_iff_not,
        mem_distinct, List.mem_map]
    · rw [List.mem_filter, Bool.not_eq_true', List.contains_eq_mem, decide_eq_false_iff_not,
        mem_distinct, List.mem_map]

/-- A handler that a block raises to already is not added again. -/
theorem addExceptionEdge_ok {g' : FlowGraph} {source handler : BlockId}
    (run : g.addExceptionEdge source handler = .ok g') :
    g.contains handler = true ∧ ∃ b, g.block? source = some b ∧
      (⟨handler, .exception⟩ ∈ b.successors ∧ g' = g ∨
        ⟨handler, .exception⟩ ∉ b.successors ∧ ∃ gained,
          Rewires b (b.successors ++ [⟨handler, .exception⟩]) [] gained ∧
          g' = g.setSuccessors source b.terminator (b.successors ++ [⟨handler, .exception⟩]) []
            gained) := by
  unfold addExceptionEdge at run
  split at run
  · cases run
  · rename_i hhandler
    refine ⟨by simpa using hhandler, ?_⟩
    split at run
    · cases run
    · rename_i b hb
      dsimp only at run
      by_cases hsame : b.successors.contains ⟨handler, .exception⟩ = true
      · rw [if_pos hsame] at run
        exact ⟨b, hb, .inl ⟨by simpa using hsame, (Except.ok.inj run).symm⟩⟩
      · rw [if_neg hsame] at run
        refine ⟨b, hb, .inr ⟨by simpa using hsame, _, ⟨fun x => ?_, fun x => ?_⟩,
          (Except.ok.inj run).symm⟩⟩
        · simp only [List.not_mem_nil, List.mem_append, List.mem_singleton, false_iff, not_and,
            Classical.not_not, Block.mem_targets]
          rintro ⟨e, he, rfl⟩
          exact ⟨e, .inl he, rfl⟩
        · by_cases hany : ∃ e ∈ b.successors, e.target = handler
          · have : (b.successors.any (·.target == handler)) = true := by simpa using hany
            rw [if_pos this]
            simp only [List.not_mem_nil, false_iff, not_and, Classical.not_not, Block.mem_targets]
            rintro ⟨e, he, rfl⟩
            rcases List.mem_append.mp he with he | he
            · exact ⟨e, he, rfl⟩
            · rw [List.mem_singleton.mp he]
              exact hany
          · have : ¬(b.successors.any (·.target == handler)) = true := by simpa using hany
            rw [if_neg this, List.mem_singleton, Block.mem_targets]
            constructor
            · rintro rfl
              exact ⟨⟨⟨x, .exception⟩, by simp, rfl⟩, hany⟩
            · rintro ⟨⟨e, he, rfl⟩, hnew⟩
              rcases List.mem_append.mp he with he | he
              · exact absurd ⟨e, he, rfl⟩ hnew
              · rw [List.mem_singleton.mp he]

namespace Linked

/-- New successors in the graph keep it linked. -/
theorem setSuccessors (h : Linked g) {id : BlockId} {b : Block} (hb : g.block? id = some b)
    {terminator : Option Terminator} {successors : List Edge} {lost gained : List BlockId}
    (inside : ∀ e ∈ successors, g.contains e.target = true)
    (hrewires : Rewires b successors lost gained) :
    Linked (g.setSuccessors id terminator successors lost gained) := by
  have old : ∀ t, t ∈ g.targets id ↔ t ∈ b.targets := by
    intro t
    simp [mem_targets, hb]
  exact {
    entry := by
      rw [contains_setSuccessors]
      exact h.entry
    closed := by
      intro s t ht
      rw [contains_setSuccessors]
      rw [mem_targets_setSuccessors hb] at ht
      split at ht
      · obtain ⟨e, he, rfl⟩ := ht
        exact inside e he
      · exact h.closed ht
    sources := by
      intro p t
      rw [mem_targets_setSuccessors hb, mem_predecessors, block?_setSuccessors]
      cases ht : g.block? t with
      | none =>
        have absent : ¬g.contains t = true := by
          rw [contains_iff, ht]
          simp
        simp only [Option.map_none, reduceCtorEq, false_and, exists_false, false_iff]
        split
        · rintro ⟨e, he, rfl⟩
          exact absent (inside e he)
        · exact fun hmem => absent (h.closed hmem)
      | some c =>
        have hc := h.sources (p := p) (t := t)
        rw [mem_predecessors, ht] at hc
        simp only [Option.some.injEq, exists_eq_left'] at hc
        have hid : (if t = id then { c with terminator, successors } else c).id = t := by
          have hid := block?_id ht
          split <;> exact hid
        have hpreds : (if t = id then { c with terminator, successors } else c).predecessors =
            c.predecessors := by
          split <;> rfl
        simp only [Option.map_some, Option.some.injEq, exists_eq_left', mem_relinked, hid, hpreds,
          hrewires.lost, hrewires.gained, hc]
        by_cases hp : p = id
        · subst hp
          simp only [old, if_true, ne_eq, not_true_eq_false, and_false, and_true]
          by_cases ho : t ∈ b.targets <;> by_cases hn : ∃ e ∈ successors, e.target = t <;>
            simp [ho, hn]
        · simp only [hp, if_false, ne_eq, not_false_eq_true, and_true, and_false, or_false,
            ite_self]
    once := by
      intro t
      have once := h.once t
      rw [predecessors, block?_setSuccessors]
      cases ht : g.block? t with
      | none => simp
      | some c =>
        rw [predecessors, ht] at once
        refine nodup_relinked ?_
        split <;> exact once }

theorem setTerminator (h : Linked g) {id : BlockId} {t : Terminator} {g' : FlowGraph}
    (run : g.setTerminator id t = .ok g') : Linked g' := by
  obtain ⟨b, lost, gained, hb, hinside, hrewires, rfl⟩ := setTerminator_ok run
  refine h.setSuccessors hb (fun e he => ?_) hrewires
  rcases List.mem_append.mp he with he | he
  · exact hinside e he
  · refine h.closed (s := id) (mem_targets.mpr ⟨b, hb, Block.mem_targets.mpr ⟨e, ?_, rfl⟩⟩)
    exact (List.mem_filter.mp he).1

theorem addExceptionEdge (h : Linked g) {source handler : BlockId} {g' : FlowGraph}
    (run : g.addExceptionEdge source handler = .ok g') : Linked g' := by
  obtain ⟨hhandler, b, hb, ⟨-, rfl⟩ | ⟨-, gained, hrewires, rfl⟩⟩ := addExceptionEdge_ok run
  · exact h
  · refine h.setSuccessors hb (fun e he => ?_) hrewires
    rcases List.mem_append.mp he with he | he
    · exact h.closed (s := source)
        (mem_targets.mpr ⟨b, hb, Block.mem_targets.mpr ⟨e, he, rfl⟩⟩)
    · rw [List.mem_singleton.mp he]
      exact hhandler

theorem new (function : String) : Linked (FlowGraph.new function) := by
  have only : ∀ {k b}, (FlowGraph.new function).block? k = some b →
      b.successors = [] ∧ b.predecessors = [] := by
    intro k b hb
    have hmem : b ∈ (FlowGraph.new function).blocks := block?_mem hb
    rw [FlowGraph.new, List.mem_singleton] at hmem
    rw [hmem]
    exact ⟨rfl, rfl⟩
  have noTargets : ∀ s t, t ∉ (FlowGraph.new function).targets s := by
    intro s t ht
    obtain ⟨b, hb, ht⟩ := mem_targets.mp ht
    obtain ⟨e, he, -⟩ := Block.mem_targets.mp ht
    rw [(only hb).1] at he
    cases he
  have noPredecessors : ∀ t, (FlowGraph.new function).predecessors t = [] := by
    intro t
    rw [predecessors]
    cases h : (FlowGraph.new function).block? t with
    | none => rfl
    | some b => exact (only h).2
  exact {
    entry := by simp [contains, FlowGraph.new]
    closed := fun ht => absurd ht (noTargets _ _)
    sources := by
      intro p t
      rw [noPredecessors]
      exact ⟨fun h => absurd h List.not_mem_nil, fun h => absurd h (noTargets p t)⟩
    once := by simp [noPredecessors] }

/-- A block of a new id has no edges. -/
theorem createBlock (h : Linked g) (role : BlockRole) (construct : Option NodeId) (depth : Nat)
    (fresh : g.contains ⟨g.nextBlock⟩ = false) :
    Linked (g.createBlock role construct depth).2 := by
  have absent : g.block? ⟨g.nextBlock⟩ = none := by
    rw [contains_eq_isSome] at fresh
    simpa using fresh
  have ids : ∀ k, g.contains k = true →
      (g.createBlock role construct depth).2.contains k = true := by
    intro k hk
    rw [contains_eq_isSome, block?_createBlock]
    split
    · rfl
    · rwa [contains_eq_isSome] at hk
  have targets : ∀ s, (g.createBlock role construct depth).2.targets s = g.targets s := by
    intro s
    rw [FlowGraph.targets, FlowGraph.targets, block?_createBlock]
    split
    · rename_i hs
      rw [hs, absent]
      rfl
    · rfl
  have predecessors : ∀ t,
      (g.createBlock role construct depth).2.predecessors t = g.predecessors t := by
    intro t
    rw [FlowGraph.predecessors, FlowGraph.predecessors, block?_createBlock]
    split
    · rename_i ht
      rw [ht, absent]
      rfl
    · rfl
  exact {
    entry := ids _ h.entry
    closed := fun ht => ids _ (h.closed (targets _ ▸ ht))
    sources := by
      intro p t
      rw [predecessors, targets]
      exact h.sources
    once := by
      intro t
      rw [predecessors]
      exact h.once t }

end Linked

/-! What the entry reaches. -/

def Reachable (g : FlowGraph) (b : BlockId) : Prop :=
  Digraph.Reaches g.targets g.entry b

theorem targets_index (g : FlowGraph) : g.index.targets = g.targets := by
  funext id
  rw [BlockIndex.targets, getElem?_index, targets]

theorem predecessors_index (g : FlowGraph) : g.index.predecessors = g.predecessors := by
  funext id
  rw [BlockIndex.predecessors, getElem?_index, predecessors]

/-- The search that the order of blocks comes from. -/
theorem reversePostorder_eq (g : FlowGraph) :
    g.reversePostorder = (Digraph.searchFrom g.blockIds g.targets [g.entry]).left := by
  rw [reversePostorder, Digraph.reversePostorder, targets_index]

theorem reversePostorder_explored (g : FlowGraph) :
    ∃ s : Digraph.Search BlockId, g.reversePostorder = s.left ∧
      Digraph.Explored g.targets g.blockIds [g.entry] s :=
  ⟨_, g.reversePostorder_eq, Digraph.searchFrom_explored g.targets g.blockIds [g.entry]⟩

theorem mem_reversePostorder_of_closed (hentry : g.contains g.entry = true)
    (hclosed : ∀ s t, t ∈ g.targets s → g.contains t = true) {b : BlockId} :
    b ∈ g.reversePostorder ↔ g.Reachable b := by
  obtain ⟨s, hs, explored⟩ := g.reversePostorder_explored
  rw [hs, explored.mem_left, explored.mem_seen (by simpa [mem_blockIds] using hentry)
    (fun _ _ hw => mem_blockIds.mpr (hclosed _ _ hw))]
  simp [Reachable]

theorem Linked.mem_reversePostorder (h : Linked g) {b : BlockId} :
    b ∈ g.reversePostorder ↔ g.Reachable b :=
  mem_reversePostorder_of_closed h.entry (fun _ _ => h.closed)

theorem Linked.contains_of_reachable (h : Linked g) {b : BlockId} (hb : g.Reachable b) :
    g.contains b = true := by
  cases Relation.ReflTransGen.cases_tail hb with
  | inl hb => exact hb ▸ h.entry
  | inr hb =>
    obtain ⟨p, -, hp⟩ := hb
    exact h.closed hp

/-! Pruning. -/

theorem Linked.contains_source (h : Linked g) {p t : BlockId} (hp : p ∈ g.predecessors t) :
    g.contains p = true := by
  obtain ⟨b, hb, -⟩ := mem_targets.mp (h.sources.mp hp)
  exact contains_iff.mpr ⟨b, hb⟩

theorem Linked.kept_iff (h : Linked g) {k : BlockId} :
    (Std.HashSet.ofList g.reversePostorder).contains k = true ↔ g.Reachable k := by
  rw [← h.mem_reversePostorder, Std.HashSet.contains_ofList, List.contains_iff_mem]

/-- Pruning keeps the blocks that the entry reaches, and of their predecessors those too. -/
theorem Linked.block?_prune (h : Linked g) : ∃ keep : BlockId → Bool,
    (∀ k, keep k = true ↔ g.Reachable k) ∧
    ∀ k, g.prune.2.block? k = if keep k then
      (g.block? k).map (fun b => { b with predecessors := b.predecessors.filter keep })
    else none := by
  let reached : Std.HashSet BlockId := .ofList g.reversePostorder
  refine ⟨reached.contains, fun _ => h.kept_iff, ?_⟩
  intro k
  by_cases hall : (g.blockIds.filter (fun id => !reached.contains id)).isEmpty = true
  · have kept : ∀ k, g.contains k = true → reached.contains k = true := by
      intro k hk
      rw [List.isEmpty_iff, List.filter_eq_nil_iff] at hall
      simpa using hall k (mem_blockIds.mpr hk)
    have same : g.prune.2 = g := by
      rw [prune, if_pos hall]
    rw [same]
    cases hb : g.block? k with
    | none => simp
    | some b =>
      have hpreds : b.predecessors.filter reached.contains = b.predecessors := by
        rw [List.filter_eq_self]
        intro p hp
        exact kept p (h.contains_source (mem_predecessors.mpr ⟨b, hb, hp⟩))
      rw [if_pos (kept k (contains_iff.mpr ⟨b, hb⟩)), Option.map_some, hpreds]
  · have pruned : g.prune.2.blocks = (g.blocks.filter (fun b => reached.contains b.id)).map
        (fun b => { b with predecessors := b.predecessors.filter reached.contains }) := by
      rw [prune, if_neg hall]
    rw [block?, pruned, find?_map_of_id _ k
      (fun b => { b with predecessors := b.predecessors.filter reached.contains }) (fun _ => rfl),
      find?_kept]
    split <;> rfl

theorem entry_prune (g : FlowGraph) : g.prune.2.entry = g.entry := by
  simp only [prune]
  split <;> rfl

theorem Linked.mem_targets_prune (h : Linked g) {s t : BlockId} :
    t ∈ g.prune.2.targets s ↔ g.Reachable s ∧ t ∈ g.targets s := by
  obtain ⟨keep, hkeep, hblock⟩ := h.block?_prune
  rw [mem_targets, mem_targets, hblock, ← hkeep]
  cases keep s
  · simp
  · cases g.block? s <;> simp [Block.mem_targets]

theorem Linked.contains_prune (h : Linked g) {k : BlockId} :
    g.prune.2.contains k = true ↔ g.Reachable k := by
  obtain ⟨keep, hkeep, hblock⟩ := h.block?_prune
  rw [contains_eq_isSome, hblock]
  constructor
  · intro hk
    split at hk
    · rename_i hreach
      exact (hkeep k).mp hreach
    · cases hk
  · intro hreach
    rw [if_pos ((hkeep k).mpr hreach), Option.isSome_map, ← contains_eq_isSome]
    exact h.contains_of_reachable hreach

theorem Linked.reachable_prune (h : Linked g) {b : BlockId} (hb : g.Reachable b) :
    g.prune.2.Reachable b := by
  rw [Reachable, entry_prune]
  induction hb with
  | refl => exact .refl
  | tail hreach hedge ih => exact ih.tail (h.mem_targets_prune.mpr ⟨hreach, hedge⟩)

/-- Pruning changes nothing where the entry reaches every block. -/
theorem Linked.prune_eq_self (h : Linked g) (hall : ∀ k ∈ g.blockIds, g.Reachable k) :
    g.prune = ([], g) := by
  rw [FlowGraph.prune]
  dsimp only
  rw [if_pos]
  rw [List.isEmpty_iff, List.filter_eq_nil_iff]
  intro k hk
  have hmem := h.mem_reversePostorder.mpr (hall k hk)
  simpa using hmem

theorem Linked.prune (h : Linked g) : Linked g.prune.2 := by
  obtain ⟨keep, hkeep, hblock⟩ := h.block?_prune
  exact {
    entry := by
      rw [h.contains_prune, entry_prune]
      exact .refl
    closed := by
      intro s t ht
      obtain ⟨hs, ht⟩ := h.mem_targets_prune.mp ht
      exact h.contains_prune.mpr (hs.tail ht)
    sources := by
      intro p t
      rw [h.mem_targets_prune, mem_predecessors, hblock, ← h.sources, mem_predecessors]
      constructor
      · rintro ⟨b, hb, hp⟩
        split at hb
        · cases hold : g.block? t with
          | none => rw [hold] at hb; cases hb
          | some c =>
            rw [hold] at hb
            cases hb
            obtain ⟨hp, hk⟩ := List.mem_filter.mp hp
            exact ⟨(hkeep p).mp hk, c, rfl, hp⟩
        · cases hb
      · rintro ⟨hreach, c, hc, hp⟩
        have ht : t ∈ g.targets p := h.sources.mp (mem_predecessors.mpr ⟨c, hc, hp⟩)
        rw [if_pos ((hkeep t).mpr (hreach.tail ht)), hc]
        exact ⟨_, rfl, List.mem_filter.mpr ⟨hp, (hkeep p).mpr hreach⟩⟩
    once := by
      intro t
      have once := h.once t
      rw [predecessors] at once
      rw [predecessors, hblock]
      split
      · cases hb : g.block? t with
        | none => simp
        | some b =>
          rw [hb] at once
          exact once.filter _
      · simp }

/-- The graphs that can be made from a new one. The 32-bit counter of block ids must not have come
round to a block that still stands. -/
inductive Produced : FlowGraph → Prop
  | new (function : String) : Produced (FlowGraph.new function)
  | createBlock {g : FlowGraph} (role : BlockRole) (construct : Option NodeId) (depth : Nat) :
      Produced g → g.contains ⟨g.nextBlock⟩ = false →
      Produced (g.createBlock role construct depth).2
  | setTerminator {g g' : FlowGraph} {id : BlockId} {t : Terminator} :
      Produced g → g.setTerminator id t = .ok g' → Produced g'
  | addExceptionEdge {g g' : FlowGraph} {source handler : BlockId} :
      Produced g → g.addExceptionEdge source handler = .ok g' → Produced g'
  | prune {g : FlowGraph} : Produced g → Produced g.prune.2

theorem Produced.linked (h : Produced g) : Linked g := by
  induction h with
  | new function => exact .new function
  | createBlock role construct depth _ fresh ih => exact ih.createBlock role construct depth fresh
  | setTerminator _ run ih => exact ih.setTerminator run
  | addExceptionEdge _ run ih => exact ih.addExceptionEdge run
  | prune _ ih => exact ih.prune

end FlowGraph

end TypedSsa

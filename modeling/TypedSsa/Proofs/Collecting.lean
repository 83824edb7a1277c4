import TypedSsa.Proofs.Traversing

/-!
What a traversal collects that looks for the nodes of one kind. Main statements:
`Traverses.mem_collecting`, it comes to what lies below its root, but to nothing below a node of
that kind, and `visit_preorder`.
-/

namespace TypedSsa

open Relation

namespace Arena

variable {a : Arena} {k : KindId} {u m root : NodeId} {n : Node} {x : String}
variable {ids calls : List NodeId}

/-- Collects the nodes of one kind. -/
def collecting (k : KindId) : Dispatch (List NodeId) :=
  { handlers := [(k, fun n found => (.skip, n.id :: found))] }

def ofKind (a : Arena) (k : KindId) (u : NodeId) : Bool :=
  (a.find? u).any (·.kind == k)

/-- From a node to its children, but not from a node of one kind. -/
def LeadsPast (a : Arena) (k : KindId) (u w : NodeId) : Prop :=
  a.Leads u w ∧ a.ofKind k u = false

theorem ofKind_iff (hn : a.find? u = some n) : a.ofKind k u = true ↔ n.kind = k := by
  rw [ofKind, hn, Option.any_some, beq_iff_eq]

theorem exists_of_ofKind (h : a.ofKind k u = true) : ∃ n, a.find? u = some n ∧ n.kind = k := by
  unfold ofKind at h
  cases hn : a.find? u with
  | none => rw [hn] at h; cases h
  | some n => exact ⟨n, rfl, (ofKind_iff hn).mp (by rw [ofKind, hn]; rwa [hn] at h)⟩

section
variable {found state : List NodeId} (hn : a.find? u = some n)
include hn

theorem run_collecting (k : KindId) (found : List NodeId) : (collecting k).run n found =
    if a.ofKind k u then (.skip, u :: found) else (.descend, found) := by
  obtain rfl := (mem_of_find? hn).2
  by_cases hkind : n.kind = k
  · rw [if_pos ((ofKind_iff hn).mpr hkind)]
    simp [Dispatch.run, collecting, hkind]
  · have hne : (k == n.kind) = false := by simpa using fun hsame => hkind hsame.symm
    rw [if_neg (fun hof => hkind ((ofKind_iff hn).mp hof))]
    simp [Dispatch.run, collecting, hne]

theorem of_run_skip (hrun : (collecting k).run n found = (.skip, state)) :
    a.ofKind k u = true ∧ state = u :: found := by
  rw [run_collecting hn] at hrun
  split at hrun <;> cases hrun
  exact ⟨‹_›, rfl⟩

theorem of_run_descend (hrun : (collecting k).run n found = (.descend, state)) :
    a.ofKind k u = false ∧ state = found := by
  rw [run_collecting hn] at hrun
  split at hrun <;> cases hrun
  exact ⟨Bool.eq_false_iff.mpr ‹_›, rfl⟩

theorem run_ne_stop : (collecting k).run n found ≠ (.stop, state) := by
  rw [run_collecting hn]
  split <;> exact nofun

end

namespace Traverses

section
variable {σ : Type} {d : Dispatch σ} {w w' : Walk σ}

theorem seen_subset (h : a.Traverses d ids w calls w') : w'.seen ⊆ calls ++ w.seen := by
  induction h with
  | done => exact List.Subset.refl _
  | again _ _ _ _ ih => exact ih
  | skip _ _ _ _ ih => grind [Walk.seen_after_subset]
  | @stop id _ w n state => exact w.seen_after_subset id n state
  | descend _ _ _ _ _ _ ih ih' => grind [Walk.seen_after_subset]
  | abort _ _ _ _ _ ih => grind [Walk.seen_after_subset]

/-- A traversal that is not stopped passes over no node but for having seen it. -/
theorem handled (h : a.Traverses d ids w calls w') (hgoing : w'.stopped = false) :
    ids ⊆ calls ++ w.seen := by
  induction h with
  | done => exact List.nil_subset _
  | again _ _ hseen _ ih => exact List.cons_subset.mpr ⟨List.mem_append_right _ hseen, ih hgoing⟩
  | skip _ _ _ _ ih => grind [Walk.seen_after_subset]
  | stop => cases hgoing
  | descend _ _ _ hbelow _ _ _ ih' => grind [Walk.seen_after_subset, hbelow.seen_subset]
  | abort _ _ _ _ hstopped _ => exact absurd (hgoing.symm.trans hstopped) nofun

end

section
variable {w w' : Walk (List NodeId)}

theorem going (h : a.Traverses (collecting k) ids w calls w') : w'.stopped = w.stopped := by
  induction h with
  | done => rfl
  | again _ _ _ _ ih => exact ih
  | skip _ _ _ _ ih => exact ih
  | stop hn _ hrun => exact absurd hrun (run_ne_stop hn)
  | descend _ _ _ _ _ _ ih ih' => exact ih'.trans ih
  | abort _ _ _ _ _ ih => exact ih

theorem state_eq (h : a.Traverses (collecting k) ids w calls w') :
    w'.state = (calls.filter (a.ofKind k)).reverse ++ w.state := by
  induction h with
  | done => rfl
  | again _ _ _ _ ih => exact ih
  | skip hn _ hrun _ ih =>
    obtain ⟨hkind, rfl⟩ := of_run_skip hn hrun
    rw [ih, List.filter_cons_of_pos hkind, List.reverse_cons, List.append_assoc]
    rfl
  | stop hn _ hrun => exact absurd hrun (run_ne_stop hn)
  | descend hn _ hrun _ _ _ ih ih' =>
    obtain ⟨hkind, rfl⟩ := of_run_descend hn hrun
    rw [ih', ih, List.filter_cons_of_neg (Bool.eq_false_iff.mp hkind), List.filter_append,
      List.reverse_append, List.append_assoc]
    rfl
  | abort hn _ hrun _ _ ih =>
    obtain ⟨hkind, rfl⟩ := of_run_descend hn hrun
    rw [ih, List.filter_cons_of_neg (Bool.eq_false_iff.mp hkind)]
    rfl

/-- What is handled lies below what is traversed. -/
theorem reached (h : a.Traverses (collecting k) ids w calls w') :
    ∀ m ∈ calls, ∃ id ∈ ids, ReflTransGen (a.LeadsPast k) id m := by
  have hchild : ∀ {id : NodeId} {n : Node} {found state : List NodeId} {m : NodeId},
      a.find? id = some n → (collecting k).run n found = (.descend, state) →
      (∃ c ∈ n.children, ReflTransGen (a.LeadsPast k) c m) →
      ReflTransGen (a.LeadsPast k) id m := by
    rintro id n found state m hn hrun ⟨c, hc, hm⟩
    exact .head ⟨⟨n, hn, hc⟩, (of_run_descend hn hrun).1⟩ hm
  have hrest : ∀ {id : NodeId} {ids : List NodeId} {m : NodeId},
      (∃ c ∈ ids, ReflTransGen (a.LeadsPast k) c m) →
      ∃ c ∈ id :: ids, ReflTransGen (a.LeadsPast k) c m :=
    fun ⟨c, hc, hm⟩ => ⟨c, List.mem_cons_of_mem _ hc, hm⟩
  induction h with
  | done => exact nofun
  | again _ _ _ _ ih => exact fun m hm => hrest (ih m hm)
  | skip _ _ _ _ ih =>
    intro m hm
    rcases List.mem_cons.mp hm with rfl | hm
    · exact ⟨m, List.mem_cons_self, .refl⟩
    · exact hrest (ih m hm)
  | stop hn _ hrun => exact absurd hrun (run_ne_stop hn)
  | descend hn _ hrun _ _ _ ih ih' =>
    intro m hm
    rcases List.mem_cons.mp hm with rfl | hm
    · exact ⟨m, List.mem_cons_self, .refl⟩
    rcases List.mem_append.mp hm with hm | hm
    · exact ⟨_, List.mem_cons_self, hchild hn hrun (ih m hm)⟩
    · exact hrest (ih' m hm)
  | abort hn _ hrun _ _ ih =>
    intro m hm
    rcases List.mem_cons.mp hm with rfl | hm
    · exact ⟨m, List.mem_cons_self, .refl⟩
    · exact ⟨_, List.mem_cons_self, hchild hn hrun (ih m hm)⟩

/-- No child is left out of a node that was handled, unless the node is of the kind. -/
theorem closed (h : a.Traverses (collecting k) ids w calls w') (hgoing : w.stopped = false) :
    ∀ m ∈ calls, ∀ c, a.LeadsPast k m c → c ∈ calls ++ w.seen := by
  induction h with
  | done => exact nofun
  | again _ _ _ _ ih => exact ih hgoing
  | skip hn _ hrun _ ih =>
    intro m hm c hc
    rcases List.mem_cons.mp hm with rfl | hm
    · exact absurd (of_run_skip hn hrun).1 (Bool.eq_false_iff.mp hc.2)
    · have hrest := ih hgoing m hm c hc
      grind [Walk.seen_after_subset]
  | stop hn _ hrun => exact absurd hrun (run_ne_stop hn)
  | @descend id _ below calls w w₁ w' n state hn _ _ hbelow hgoing' _ ih ih' =>
    intro m hm c hc
    have hseen := w.seen_after_subset id n state
    have hseen' := hbelow.seen_subset
    rcases List.mem_cons.mp hm with rfl | hm
    · obtain ⟨⟨n', hn', hmem⟩, -⟩ := hc
      obtain rfl := Option.some.inj (hn.symm.trans hn')
      have hchild := hbelow.handled hgoing' hmem
      grind
    rcases List.mem_append.mp hm with hm | hm
    · have hchild := ih hgoing m hm c hc
      grind
    · have hchild := ih' hgoing' m hm c hc
      grind
  | abort _ _ _ hbelow hstopped _ =>
    exact absurd ((hbelow.going.trans hgoing).symm.trans hstopped) nofun

theorem mem_collecting (h : a.Traverses (collecting k) ids w calls w') (hgoing : w.stopped = false)
    (hseen : w.seen = []) :
    m ∈ calls ↔ ∃ id ∈ ids, ReflTransGen (a.LeadsPast k) id m := by
  refine ⟨h.reached m, ?_⟩
  rintro ⟨id, hid, hm⟩
  have hids := h.handled (h.going.trans hgoing)
  have hclosed := h.closed hgoing
  rw [hseen, List.append_nil] at hids hclosed
  induction hm with
  | refl => exact hids hid
  | tail _ hlast ih => exact hclosed _ ih _ hlast

end

end Traverses

/-! Reads of variables. -/

/-- The name that is read at a node, if it is one. -/
def nameAt (a : Arena) (id : NodeId) : Except Fault (List (String × NodeId)) := do
  match ← a.expression id with
  | .name name => .ok [(name, id)]
  | _ => .ok []

/-- The nodes of a kind are the reads of variables, and a read equals none but itself. -/
structure Reading (a : Arena) (k : KindId) : Prop where
  named : a.registry.kindId? Kind.name = some k
  identity : ∀ u n, a.find? u = some n → n.kind = k → n.mode = .identity
  reads : ∀ u n, a.find? u = some n → n.kind = k → ∃ x, a.expression u = .ok (.name x)

theorem nameAt_name (h : a.expression u = .ok (.name x)) : a.nameAt u = .ok [(x, u)] := by
  rw [nameAt, h]
  rfl

theorem Reading.of_kind (h : a.Reading k) (hm : a.ofKind k m = true) :
    ∃ x, a.expression m = .ok (.name x) := by
  obtain ⟨n, hn, hkind⟩ := exists_of_ofKind hm
  exact h.reads m n hn hkind

/-- A traversal hands over a read once, for it is an identity node. -/
theorem Reading.nodup {σ : Type} {d : Dispatch σ} {w w' : Walk σ} (h : a.Reading k)
    (hcourse : a.Traverses d ids w calls w') : (calls.filter (a.ofKind k)).Nodup := by
  refine List.nodup_iff_count_le_one.mpr fun m => ?_
  by_cases hm : a.ofKind k m = true
  · obtain ⟨n, hn, hkind⟩ := exists_of_ofKind hm
    rw [List.count_filter hm]
    exact hcourse.count_le_one hn (h.identity m n hn hkind)
  · rw [List.count_eq_zero_of_not_mem (fun hmem => hm (List.mem_filter.mp hmem).2)]
    exact Nat.zero_le 1

/-- What was collected is listed with its names. -/
theorem Reading.namesRead_eq (h : a.Reading k) {w : Walk (List NodeId)}
    (hvisit : a.visit root (collecting k) [] = .ok w) {text : NodeId → String}
    (htext : ∀ m ∈ w.state.reverse, a.expression m = .ok (.name (text m))) :
    a.namesRead root = .ok (w.state.reverse.map (fun m => (text m, m))) := by
  have hon : Dispatch.on {} a.registry Kind.name (fun n found => (.skip, n.id :: found)) =
      .ok (collecting k) := by
    rw [Dispatch.on, h.named]
    rfl
  have hnamed : w.state.reverse.mapM a.nameAt =
      .ok (w.state.reverse.map (fun m => [(text m, m)])) :=
    mapM_ok (fun m hm => nameAt_name (htext m hm))
  unfold namesRead
  rw [hon]
  change (a.visit root (collecting k) [] >>= fun w => w.state.reverse.mapM a.nameAt >>= _) = _
  rw [hvisit]
  change (w.state.reverse.mapM a.nameAt >>= _) = _
  rw [hnamed]
  exact congrArg Except.ok (List.flatMap_def.symm.trans List.map_eq_flatMap.symm)

section
variable (hcomplete : a.Complete) (hvalue : ∀ id, ¬TransGen a.Refers id id)
  (hroot : ∃ n, a.find? root = some n)
include hcomplete hvalue hroot

theorem visit_traverses {σ : Type} (d : Dispatch σ) (state : σ) : ∃ calls w,
    a.visit root d state = .ok w ∧ a.Traverses d [root] { state := state } calls w := by
  obtain ⟨w, hw⟩ := visit_total hcomplete hvalue d state hroot
  obtain ⟨calls, h⟩ := traverses_of_walk rfl hw
  exact ⟨calls, w, hw, h⟩

/-- Of the reads below a node each is listed, and once. -/
theorem Reading.namesRead_total (h : a.Reading k) : ∃ found, a.namesRead root = .ok found ∧
    (found.map Prod.snd).Nodup ∧ ∀ x m, (x, m) ∈ found ↔
      ReflTransGen (a.LeadsPast k) root m ∧ a.ofKind k m = true ∧
        a.expression m = .ok (.name x) := by
  obtain ⟨calls, w, hvisit, hcourse⟩ := visit_traverses hcomplete hvalue hroot (collecting k) []
  have hstate : w.state.reverse = calls.filter (a.ofKind k) := by
    rw [hcourse.state_eq, List.append_nil, List.reverse_reverse]
  have hmem : ∀ m, m ∈ w.state.reverse ↔
      ReflTransGen (a.LeadsPast k) root m ∧ a.ofKind k m = true := by
    intro m
    rw [hstate, List.mem_filter, hcourse.mem_collecting rfl rfl]
    simp
  have htext : ∀ m ∈ w.state.reverse, ∃ x, a.expression m = .ok (.name x) :=
    fun m hm => h.of_kind ((hmem m).mp hm).2
  choose! text htext using htext
  refine ⟨_, h.namesRead_eq hvisit htext, ?_, fun x m => ?_⟩
  · have hids : (w.state.reverse.map (fun m => (text m, m))).map Prod.snd =
        calls.filter (a.ofKind k) := by
      rw [List.map_map, ← hstate]
      exact List.map_id _
    rw [hids]
    exact h.nodup hcourse
  · rw [List.mem_map, ← and_assoc, ← hmem]
    constructor
    · rintro ⟨m, hm, hpair⟩
      cases hpair
      exact ⟨hm, htext m hm⟩
    · intro ⟨hm, hx⟩
      have hsame := (htext m hm).symm.trans hx
      cases hsame
      exact ⟨m, hm, rfl⟩

end

/-! The order of a traversal. -/

/-- The nodes `calls` are handed to their handlers in the order in which the recursion comes to
them, and each identity node once. -/
structure Visits {σ : Type} (a : Arena) (root : NodeId) (d : Dispatch σ) (state : σ)
    (calls : List NodeId) (w : Walk σ) : Prop where
  visit : a.visit root d state = .ok w
  noted : a.visit root d.noting (state, []) = .ok (w.noting calls)
  ends : ∃ turns, ∀ fuel, turns ≤ fuel → a.walk d fuel [root] { state := state } = .ok w
  course : ∀ calls' w', a.Traverses d [root] { state := state } calls' w' ↔
    calls' = calls ∧ w' = w
  once : ∀ m n, a.find? m = some n → n.mode = .identity → calls.count m ≤ 1
  visited : w.visited = calls.length

theorem Traverses.visits {σ : Type} {d : Dispatch σ} {state : σ} {w : Walk σ}
    (h : a.Traverses d [root] { state := state } calls w) (hcomplete : a.Complete)
    (hvalue : ∀ id, ¬TransGen a.Refers id id) (hroot : ∃ n, a.find? root = some n) :
    a.Visits root d state calls w := by
  have hvisit : ∀ {τ : Type} {d : Dispatch τ} {state : τ} {w : Walk τ},
      a.Traverses d [root] { state := state } calls w → a.visit root d state = .ok w := by
    intro τ d state w h
    obtain ⟨calls', w', hvisit, h'⟩ := visit_traverses hcomplete hvalue hroot d state
    exact (h.unique h' rfl).2 ▸ hvisit
  exact {
    visit := hvisit h
    noted := hvisit (h.noting [])
    ends := h.walk_eq rfl
    course := fun calls' w' => ⟨fun h' => h'.unique h rfl, fun ⟨hcalls, hw⟩ => hcalls ▸ hw ▸ h⟩
    once := fun m n hm hmode => h.count_le_one hm hmode
    visited := by rw [h.visited, Nat.zero_add] }

/-- Where all references are to nodes of the arena and no value nodes form a cycle, every traversal
ends and is in preorder, and the reads of variables below a node are listed once each. -/
theorem visit_preorder {σ : Type} (d : Dispatch σ) (state : σ) (hcomplete : a.Complete)
    (hvalue : ∀ id, ¬TransGen a.Refers id id) (hroot : ∃ n, a.find? root = some n) :
    (∃ calls w, a.Visits root d state calls w) ∧
      ∀ k, a.Reading k → ∃ found, a.namesRead root = .ok found ∧ (found.map Prod.snd).Nodup ∧
        ∀ x m, (x, m) ∈ found ↔ ReflTransGen (a.LeadsPast k) root m ∧ a.ofKind k m = true ∧
          a.expression m = .ok (.name x) := by
  obtain ⟨calls, w, -, h⟩ := visit_traverses hcomplete hvalue hroot d state
  exact ⟨⟨calls, w, h.visits hcomplete hvalue hroot⟩,
    fun k hk => hk.namesRead_total hcomplete hvalue hroot⟩

end Arena

/-- A call of `f` with `x + x`, twice, and with itself. -/
def selfCall : Arena where
  registry := .builtin
  nodes := #[
    ⟨⟨0⟩, ⟨13⟩, .identity, [.str "x"], []⟩,
    ⟨⟨1⟩, ⟨16⟩, .value, [.str "+", .node ⟨0⟩, .node ⟨0⟩], []⟩,
    ⟨⟨2⟩, ⟨15⟩, .identity, [.str "f", .list [.node ⟨1⟩, .node ⟨1⟩, .node ⟨2⟩]], []⟩]

theorem reading_selfCall : selfCall.Reading ⟨13⟩ := by
  have hfirst : ∀ n ∈ selfCall.nodes.toList, n.kind = ⟨13⟩ → n.mode = .identity ∧ n.id = ⟨0⟩ := by
    decide
  refine ⟨rfl, fun u n hn hkind => ?_, fun u n hn hkind => ?_⟩
  · exact (hfirst n (Array.mem_toList_iff.mpr (Arena.mem_of_find? hn).1) hkind).1
  · obtain ⟨hmem, rfl⟩ := Arena.mem_of_find? hn
    rw [(hfirst n (Array.mem_toList_iff.mpr hmem) hkind).2]
    exact ⟨"x", rfl⟩

theorem visit_preorder_selfCall :
    (selfCall.Complete ∧ (∀ id, ¬TransGen selfCall.Refers id id) ∧
      (∃ n, selfCall.find? ⟨2⟩ = some n) ∧ selfCall.Reading ⟨13⟩) ∧
    (∃ calls w, selfCall.Visits ⟨2⟩ (Arena.collecting ⟨13⟩) [] calls w) ∧
      ∃ found, selfCall.namesRead ⟨2⟩ = .ok found ∧ (found.map Prod.snd).Nodup ∧
        ∀ x m, (x, m) ∈ found ↔ ReflTransGen (selfCall.LeadsPast ⟨13⟩) ⟨2⟩ m ∧
          selfCall.ofKind ⟨13⟩ m = true ∧ selfCall.expression m = .ok (.name x) := by
  have hcomplete : selfCall.Complete := Arena.complete_of_forall (by decide)
  have hvalue := Arena.refers_irrefl_of_earlier (a := selfCall) (by decide)
  have hroot : ∃ n, selfCall.find? ⟨2⟩ = some n := ⟨_, rfl⟩
  have h := Arena.visit_preorder (Arena.collecting ⟨13⟩) [] hcomplete hvalue hroot
  exact ⟨⟨hcomplete, hvalue, hroot, reading_selfCall⟩, h.1, h.2 ⟨13⟩ reading_selfCall⟩

example : selfCall.namesRead ⟨2⟩ = .ok [("x", ⟨0⟩)] := rfl

/-- A pair of the same read twice, where reads are value nodes. -/
def pairOfReads : Arena where
  registry := ⟨[Kind.value Kind.name [⟨"id", .str⟩],
    Kind.identity "Pair" [⟨"left", .node none⟩, ⟨"right", .node none⟩]]⟩
  nodes := #[
    ⟨⟨0⟩, ⟨0⟩, .value, [.str "x"], []⟩,
    ⟨⟨1⟩, ⟨1⟩, .identity, [.node ⟨0⟩, .node ⟨0⟩], []⟩]

/-- Reads that are value nodes are listed as often as they are referred to. -/
theorem namesRead_pairOfReads :
    pairOfReads.Complete ∧ (∀ id, ¬TransGen pairOfReads.Refers id id) ∧
      (∃ n, pairOfReads.find? ⟨1⟩ = some n) ∧
      ¬∃ found, pairOfReads.namesRead ⟨1⟩ = .ok found ∧ (found.map Prod.snd).Nodup := by
  refine ⟨Arena.complete_of_forall (by decide), Arena.refers_irrefl_of_earlier (by decide),
    ⟨_, rfl⟩, ?_⟩
  rintro ⟨found, hfound, hnodup⟩
  have htwice : pairOfReads.namesRead ⟨1⟩ = .ok [("x", ⟨0⟩), ("x", ⟨0⟩)] := rfl
  cases htwice.symm.trans hfound
  exact absurd hnodup (by decide)

end TypedSsa

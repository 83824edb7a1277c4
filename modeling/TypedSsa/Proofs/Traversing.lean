import Mathlib.Algebra.BigOperators.Ring.List
import Mathlib.Algebra.Order.BigOperators.Group.List
import Mathlib.Algebra.Order.Ring.Nat
import Mathlib.Data.Finset.Card
import TypedSsa.Proofs.Arenas
import TypedSsa.Tree.Traversal

/-!
A traversal that keeps a stack against one that recurs. Main statements: `traverses_of_walk` and
`Traverses.walk`, the stack comes to the same nodes in the same order, and `visit_total`, it ends
in any arena whose value nodes form no cycle.
-/

namespace TypedSsa

open Relation

variable {σ : Type} {d : Dispatch σ} {n : Node}

/-! Handlers that take note of their calls. -/

def Handler.noting (handle : Handler σ) : Handler (σ × List NodeId) :=
  fun n s => ((handle n s.1).1, (handle n s.1).2, s.2 ++ [n.id])

namespace Dispatch

def noting (d : Dispatch σ) : Dispatch (σ × List NodeId) where
  handlers := d.handlers.map (fun p => (p.1, p.2.noting))
  fallback := some (d.fallback.getD (fun _ state => (.descend, state))).noting

theorem run_noting (d : Dispatch σ) (n : Node) (state : σ) (calls : List NodeId) :
    d.noting.run n (state, calls) = ((d.run n state).1, (d.run n state).2, calls ++ [n.id]) := by
  have hfind : d.noting.handlers.find? (·.1 == n.kind) =
      (d.handlers.find? (·.1 == n.kind)).map (fun p => (p.1, p.2.noting)) :=
    List.find?_map ..
  unfold run
  rw [hfind]
  cases d.handlers.find? (·.1 == n.kind) with
  | some p => rfl
  | none =>
    have hnone : d.noting.fallback =
        some (d.fallback.getD (fun _ state => (.descend, state))).noting := rfl
    rw [hnone]
    cases d.fallback <;> rfl

end Dispatch

namespace Walk

def noting (w : Walk σ) (calls : List NodeId) : Walk (σ × List NodeId) :=
  { w with state := (w.state, calls) }

@[simp] theorem after_visited (w : Walk σ) (id : NodeId) (n : Node) (state : σ) :
    (w.after id n state).visited = w.visited + 1 := rfl

theorem seen_after_subset (w : Walk σ) (id : NodeId) (n : Node) (state : σ) :
    (w.after id n state).seen ⊆ id :: w.seen := by
  unfold after
  dsimp only
  split
  · exact List.Subset.refl _
  · exact List.subset_cons_self _ _

end Walk

namespace Arena

variable {a : Arena} {u v id root : NodeId} {ids calls : List NodeId} {w w' : Walk σ}

theorem mem_of_find? (hn : a.find? id = some n) : n ∈ a.nodes ∧ n.id = id :=
  mem_of_findNear? hn

/-- From a node to its children. -/
def Leads (a : Arena) (u w : NodeId) : Prop :=
  ∃ n, a.find? u = some n ∧ w ∈ n.children

/-- All references are to nodes of the arena. -/
def Complete (a : Arena) : Prop :=
  ∀ u w, a.Leads u w → ∃ n, a.find? w = some n

theorem complete_of_forall (h : ∀ n ∈ a.nodes.toList, ∀ w ∈ n.children, a.contains w = true) :
    a.Complete := by
  intro u w ⟨n, hn, hw⟩
  have hmem := (mem_of_find? hn).1
  exact Option.isSome_iff_exists.mp (h n (Array.mem_toList_iff.mpr hmem) w hw)

/-! The recursion. -/

/-- The traversal of a list of nodes by recursion, and the nodes that were handed to their handlers
in its course, in order. An identity node that was seen is passed over. -/
inductive Traverses (a : Arena) (d : Dispatch σ) :
    List NodeId → Walk σ → List NodeId → Walk σ → Prop
  | done {w : Walk σ} : Traverses a d [] w [] w
  | again {id : NodeId} {ids calls : List NodeId} {w w' : Walk σ} {n : Node} :
    a.find? id = some n → n.mode = .identity → id ∈ w.seen →
    Traverses a d ids w calls w' → Traverses a d (id :: ids) w calls w'
  | skip {id : NodeId} {ids calls : List NodeId} {w w' : Walk σ} {n : Node} {state : σ} :
    a.find? id = some n → ¬(n.mode = .identity ∧ id ∈ w.seen) → d.run n w.state = (.skip, state) →
    Traverses a d ids (w.after id n state) calls w' → Traverses a d (id :: ids) w (id :: calls) w'
  | stop {id : NodeId} {ids : List NodeId} {w : Walk σ} {n : Node} {state : σ} :
    a.find? id = some n → ¬(n.mode = .identity ∧ id ∈ w.seen) → d.run n w.state = (.stop, state) →
    Traverses a d (id :: ids) w [id] { w.after id n state with stopped := true }
  | descend {id : NodeId} {ids below calls : List NodeId} {w w₁ w' : Walk σ} {n : Node} {state : σ} :
    a.find? id = some n → ¬(n.mode = .identity ∧ id ∈ w.seen) →
    d.run n w.state = (.descend, state) → Traverses a d n.children (w.after id n state) below w₁ →
    w₁.stopped = false → Traverses a d ids w₁ calls w' →
    Traverses a d (id :: ids) w (id :: (below ++ calls)) w'
  | abort {id : NodeId} {ids below : List NodeId} {w w₁ : Walk σ} {n : Node} {state : σ} :
    a.find? id = some n → ¬(n.mode = .identity ∧ id ∈ w.seen) →
    d.run n w.state = (.descend, state) → Traverses a d n.children (w.after id n state) below w₁ →
    w₁.stopped = true → Traverses a d (id :: ids) w (id :: below) w₁

namespace Traverses

/-- A traversal of two lists is one of the first, and if that was not stopped, of the second. -/
theorem split {xs ys : List NodeId} (h : a.Traverses d (xs ++ ys) w calls w')
    (hgoing : w.stopped = false) :
    (a.Traverses d xs w calls w' ∧ w'.stopped = true) ∨
      ∃ before w₁ after, calls = before ++ after ∧ a.Traverses d xs w before w₁ ∧
        w₁.stopped = false ∧ a.Traverses d ys w₁ after w' := by
  induction xs generalizing w calls with
  | nil => exact .inr ⟨[], w, calls, rfl, .done, hgoing, h⟩
  | cons id xs ih =>
    cases h with
    | again hn hmode hseen h =>
      rcases ih h hgoing with ⟨h, hstopped⟩ | ⟨before, w₁, after, rfl, h, hgoing, hys⟩
      · exact .inl ⟨.again hn hmode hseen h, hstopped⟩
      · exact .inr ⟨before, w₁, after, rfl, .again hn hmode hseen h, hgoing, hys⟩
    | skip hn hnew hrun h =>
      rcases ih h hgoing with ⟨h, hstopped⟩ | ⟨before, w₁, after, rfl, h, hgoing, hys⟩
      · exact .inl ⟨.skip hn hnew hrun h, hstopped⟩
      · exact .inr ⟨id :: before, w₁, after, rfl, .skip hn hnew hrun h, hgoing, hys⟩
    | stop hn hnew hrun => exact .inl ⟨.stop hn hnew hrun, rfl⟩
    | descend hn hnew hrun hbelow hgoing' h =>
      rcases ih h hgoing' with ⟨h, hstopped⟩ | ⟨before, w₁, after, rfl, h, hgoing, hys⟩
      · exact .inl ⟨.descend hn hnew hrun hbelow hgoing' h, hstopped⟩
      · refine .inr ⟨_, w₁, after, ?_, .descend hn hnew hrun hbelow hgoing' h, hgoing, hys⟩
        rw [List.cons_append, List.append_assoc]
    | abort hn hnew hrun hbelow hstopped =>
      exact .inl ⟨.abort hn hnew hrun hbelow hstopped, hstopped⟩

end Traverses

/-! The stack. -/

theorem walk_cons (d : Dispatch σ) (fuel : Nat) (ids : List NodeId) (w : Walk σ)
    (hn : a.find? id = some n) : a.walk d (fuel + 1) (id :: ids) w =
      if n.mode = .identity ∧ id ∈ w.seen then a.walk d fuel ids w
      else match d.run n w.state with
        | (.descend, state) => a.walk d fuel (n.children ++ ids) (w.after id n state)
        | (.skip, state) => a.walk d fuel ids (w.after id n state)
        | (.stop, state) => .ok { w.after id n state with stopped := true } := by
  simp only [walk, node_ok.mpr hn, bind, Except.bind]
  rcases d.run n w.state with ⟨action, state⟩
  cases action <;> rfl

theorem walk_nil (d : Dispatch σ) (fuel : Nat) (w : Walk σ) : a.walk d fuel [] w = .ok w := by
  cases fuel <;> rfl

/-- What the stack does, the recursion does. -/
theorem traverses_of_walk {fuel : Nat} (hgoing : w.stopped = false)
    (h : a.walk d fuel ids w = .ok w') : ∃ calls, a.Traverses d ids w calls w' := by
  induction fuel generalizing ids w with
  | zero =>
    cases ids with
    | nil => cases h; exact ⟨[], .done⟩
    | cons id ids => cases h
  | succ fuel ih =>
    cases ids with
    | nil => cases h; exact ⟨[], .done⟩
    | cons id ids =>
      obtain ⟨n, hn, -⟩ := except_bind_ok h
      have hn := node_ok.mp hn
      rw [walk_cons d fuel ids w hn] at h
      split at h
      · rename_i hold
        obtain ⟨calls, h⟩ := ih hgoing h
        exact ⟨calls, .again hn hold.1 hold.2 h⟩
      rename_i hnew
      split at h
      · rename_i state hrun
        obtain ⟨calls, h⟩ := ih (w := w.after id n state) hgoing h
        rcases h.split hgoing with ⟨h, hstopped⟩ | ⟨before, w₁, after, rfl, h, hgoing, hrest⟩
        · exact ⟨_, .abort hn hnew hrun h hstopped⟩
        · exact ⟨_, .descend hn hnew hrun h hgoing hrest⟩
      · rename_i state hrun
        obtain ⟨calls, h⟩ := ih (w := w.after id n state) hgoing h
        exact ⟨_, .skip hn hnew hrun h⟩
      · rename_i state hrun
        cases h
        exact ⟨_, .stop hn hnew hrun⟩

namespace Traverses

/-- What the recursion does, the stack does in so many turns, whatever lies below on it. -/
theorem walk (h : a.Traverses d ids w calls w') (hgoing : w.stopped = false) :
    ∃ turns, ∀ fuel rest, a.walk d (turns + fuel) (ids ++ rest) w =
      if w'.stopped then .ok w' else a.walk d fuel rest w' := by
  induction h with
  | done => exact ⟨0, fun fuel rest => by rw [hgoing, Nat.zero_add]; rfl⟩
  | again hn hmode hseen _ ih =>
    obtain ⟨turns, hturns⟩ := ih hgoing
    refine ⟨turns + 1, fun fuel rest => ?_⟩
    rw [Nat.add_right_comm, List.cons_append, walk_cons _ _ _ _ hn, if_pos ⟨hmode, hseen⟩, hturns]
  | skip hn hnew hrun _ ih =>
    obtain ⟨turns, hturns⟩ := ih hgoing
    refine ⟨turns + 1, fun fuel rest => ?_⟩
    rw [Nat.add_right_comm, List.cons_append, walk_cons _ _ _ _ hn, if_neg hnew, hrun]
    exact hturns fuel rest
  | stop hn hnew hrun =>
    refine ⟨1, fun fuel rest => ?_⟩
    rw [Nat.add_comm, List.cons_append, walk_cons _ _ _ _ hn, if_neg hnew, hrun]
    rfl
  | descend hn hnew hrun _ hgoing' _ ih ih' =>
    obtain ⟨turns, hturns⟩ := ih hgoing
    obtain ⟨turns', hturns'⟩ := ih' hgoing'
    refine ⟨turns + turns' + 1, fun fuel rest => ?_⟩
    rw [Nat.add_right_comm, List.cons_append, walk_cons _ _ _ _ hn, if_neg hnew, hrun,
      Nat.add_assoc]
    refine (hturns _ _).trans ?_
    rw [hgoing']
    exact hturns' fuel rest
  | abort hn hnew hrun _ hstopped ih =>
    obtain ⟨turns, hturns⟩ := ih hgoing
    refine ⟨turns + 1, fun fuel rest => ?_⟩
    rw [Nat.add_right_comm, List.cons_append, walk_cons _ _ _ _ hn, if_neg hnew, hrun]
    refine (hturns fuel _).trans ?_
    rw [if_pos hstopped, if_pos hstopped]

theorem walk_eq (h : a.Traverses d ids w calls w') (hgoing : w.stopped = false) :
    ∃ turns, ∀ fuel, turns ≤ fuel → a.walk d fuel ids w = .ok w' := by
  obtain ⟨turns, hturns⟩ := h.walk hgoing
  refine ⟨turns, fun fuel hle => ?_⟩
  have hfuel := hturns (fuel - turns) []
  rw [Nat.add_sub_cancel' hle, List.append_nil, walk_nil, ite_self] at hfuel
  exact hfuel

/-! What a traversal comes to. -/

theorem noting (h : a.Traverses d ids w calls w') (before : List NodeId) :
    a.Traverses d.noting ids (w.noting before) calls (w'.noting (before ++ calls)) := by
  have hrun : ∀ {id n} {w : Walk σ} {action state} (before : List NodeId), a.find? id = some n →
      d.run n w.state = (action, state) →
      d.noting.run n (w.noting before).state = (action, state, before ++ [id]) := by
    intro id n w action state before hn hrun
    rw [Walk.noting, Dispatch.run_noting, hrun, (mem_of_find? hn).2]
  induction h generalizing before with
  | done => rw [List.append_nil]; exact .done
  | again hn hmode hseen _ ih => exact .again hn hmode hseen (ih before)
  | skip hn hnew hskip _ ih =>
    rw [List.append_cons]
    exact .skip hn hnew (hrun before hn hskip) (ih _)
  | stop hn hnew hstop => exact .stop hn hnew (hrun before hn hstop)
  | descend hn hnew hdescend _ hgoing _ ih ih' =>
    rw [List.append_cons, ← List.append_assoc]
    exact .descend hn hnew (hrun before hn hdescend) (ih _) hgoing (ih' _)
  | abort hn hnew hdescend _ hstopped ih =>
    rw [List.append_cons]
    exact .abort hn hnew (hrun before hn hdescend) (ih _) hstopped

theorem outcome_unique {calls' : List NodeId} {w'' : Walk σ} (h : a.Traverses d ids w calls w')
    (h' : a.Traverses d ids w calls' w'') (hgoing : w.stopped = false) : w' = w'' := by
  obtain ⟨turns, hturns⟩ := h.walk_eq hgoing
  obtain ⟨turns', hturns'⟩ := h'.walk_eq hgoing
  exact Except.ok.inj ((hturns _ (Nat.le_max_left _ _)).symm.trans
    (hturns' _ (Nat.le_max_right _ _)))

/-- The recursion takes one course, for the calls too are an outcome where they are noted. -/
theorem unique {calls' : List NodeId} {w'' : Walk σ} (h : a.Traverses d ids w calls w')
    (h' : a.Traverses d ids w calls' w'') (hgoing : w.stopped = false) :
    calls = calls' ∧ w' = w'' := by
  have hnoted := (h.noting []).outcome_unique (h'.noting []) hgoing
  exact ⟨congrArg (·.state.2) hnoted, h.outcome_unique h' hgoing⟩

theorem visited (h : a.Traverses d ids w calls w') : w'.visited = w.visited + calls.length := by
  induction h with
  | done => rfl
  | again _ _ _ _ ih => exact ih
  | skip _ _ _ _ ih => rw [ih, List.length_cons, Walk.after_visited]; omega
  | stop => rfl
  | descend _ _ _ _ _ _ ih ih' =>
    rw [ih', ih, List.length_cons, List.length_append, Walk.after_visited]
    omega
  | abort _ _ _ _ _ ih => rw [ih, List.length_cons, Walk.after_visited]; omega

/-- An identity node that is handed over was not seen, and is seen from then on. -/
theorem count_after {m : NodeId} {nm : Node} (hm : a.find? m = some nm)
    (hmode : nm.mode = .identity) (hn : a.find? id = some n)
    (hnew : ¬(n.mode = .identity ∧ id ∈ w.seen)) (state : σ) :
    [id].count m + (if m ∈ w.seen then 1 else 0) =
      if m ∈ (w.after id n state).seen then 1 else 0 := by
  by_cases hid : id = m
  · subst hid
    obtain rfl := Option.some.inj (hm.symm.trans hn)
    have hnot : id ∉ w.seen := fun hseen => hnew ⟨hmode, hseen⟩
    simp [Walk.after, hmode, hnot]
  · have hseen : m ∈ (w.after id n state).seen ↔ m ∈ w.seen := by
      unfold Walk.after
      dsimp only
      split
      · rw [List.mem_cons, or_iff_right (Ne.symm hid)]
      · rfl
    simp [hseen, hid]

/-- An identity node is handled if it was not seen before and is seen now, and then once. -/
theorem count (h : a.Traverses d ids w calls w') {m : NodeId} {nm : Node}
    (hm : a.find? m = some nm) (hmode : nm.mode = .identity) :
    calls.count m + (if m ∈ w.seen then 1 else 0) = if m ∈ w'.seen then 1 else 0 := by
  have hcons : ∀ id (xs : List NodeId), (id :: xs).count m = [id].count m + xs.count m := by
    intro id xs
    rw [← List.count_append, List.singleton_append]
  induction h with
  | done => exact Nat.zero_add _
  | again _ _ _ _ ih => exact ih
  | @skip _ _ _ _ _ _ state hn hnew _ _ ih =>
    have hid := count_after hm hmode hn hnew state
    rw [hcons]
    omega
  | @stop _ _ _ _ state hn hnew _ => exact count_after hm hmode hn hnew state
  | @descend _ _ _ _ _ _ _ _ state hn hnew _ _ _ _ ih ih' =>
    have hid := count_after hm hmode hn hnew state
    rw [hcons, List.count_append]
    omega
  | @abort _ _ _ _ _ _ state hn hnew _ _ _ ih =>
    have hid := count_after hm hmode hn hnew state
    rw [hcons]
    omega

theorem count_le_one (h : a.Traverses d ids w calls w') {m : NodeId} {nm : Node}
    (hm : a.find? m = some nm) (hmode : nm.mode = .identity) : calls.count m ≤ 1 := by
  have hcount := h.count hm hmode
  split_ifs at hcount <;> omega

end Traverses

/-! How many turns the stack takes. -/

/-- From a value node to its children. -/
def Nests (a : Arena) (u w : NodeId) : Prop :=
  ∃ n, a.find? u = some n ∧ n.mode = .value ∧ w ∈ n.children

theorem Nests.leads (h : a.Nests u v) : a.Leads u v := by
  obtain ⟨n, hn, -, hv⟩ := h
  exact ⟨n, hn, hv⟩

/-- From one value node to another all between them are value nodes. -/
theorem refers_of_nests (h : TransGen a.Nests u v) (hv : ∃ n, a.find? v = some n ∧ n.mode = .value) :
    TransGen a.Refers u v := by
  induction h with
  | single hlast =>
    obtain ⟨n, hn, -, hmem⟩ := hlast
    obtain ⟨m, hm, hmode⟩ := hv
    exact .single (refers_iff.mpr ⟨n, m, hn, hmem, hm, hmode⟩)
  | tail _ hlast ih =>
    obtain ⟨n, hn, hvalue, hmem⟩ := hlast
    obtain ⟨m, hm, hmode⟩ := hv
    exact (ih ⟨n, hn, hvalue⟩).tail (refers_iff.mpr ⟨n, m, hn, hmem, hm, hmode⟩)

theorem nests_irrefl (hvalue : ∀ id, ¬TransGen a.Refers id id) (u : NodeId) :
    ¬TransGen a.Nests u u := by
  intro hcycle
  obtain ⟨v, ⟨n, hn, hmode, -⟩, -⟩ := TransGen.head'_iff.mp hcycle
  exact hvalue u (refers_of_nests hcycle ⟨n, hn, hmode⟩)

section
variable {R : NodeId → NodeId → Prop}

theorem raw_lt_of_transGen (hlt : ∀ u v, R u v → v.raw < u.raw) (h : TransGen R u v) :
    v.raw < u.raw := by
  induction h with
  | single hlast => exact hlt _ _ hlast
  | tail _ hlast ih => exact Nat.lt_trans (hlt _ _ hlast) ih

/-- Value nodes that are made of earlier nodes only form no cycle. -/
theorem refers_irrefl_of_earlier
    (hearlier : ∀ n ∈ a.nodes.toList, n.mode = .value → ∀ w ∈ n.children, w.raw < n.id.raw) :
    ∀ id, ¬TransGen a.Refers id id := by
  have hnests : ∀ u v, a.Nests u v → v.raw < u.raw := by
    intro u v ⟨n, hn, hmode, hv⟩
    obtain ⟨hmem, rfl⟩ := mem_of_find? hn
    exact hearlier n (Array.mem_toList_iff.mpr hmem) hmode v hv
  refine acyclic_of (R := a.Nests) (fun id hcycle => ?_) (fun u v w huv hvw => ?_)
  · exact Nat.lt_irrefl _ (raw_lt_of_transGen hnests hcycle)
  · obtain ⟨-, m, -, -, hm, hmode⟩ := refers_iff.mp huv
    obtain ⟨m', -, hm', hmem, -⟩ := refers_iff.mp hvw
    obtain rfl := Option.some.inj (hm.symm.trans hm')
    exact ⟨m, hm, hmode, hmem⟩

open Classical in
/-- The nodes of the arena that a relation leads to, directly or not. -/
noncomputable def beyond (a : Arena) (R : NodeId → NodeId → Prop) (u : NodeId) : Finset NodeId :=
  (a.nodes.toList.map (·.id)).toFinset.filter (TransGen R u)

theorem mem_ids (hn : a.find? id = some n) : id ∈ (a.nodes.toList.map (·.id)).toFinset := by
  obtain ⟨hmem, hid⟩ := mem_of_find? hn
  exact List.mem_toFinset.mpr (List.mem_map.mpr ⟨n, Array.mem_toList_iff.mpr hmem, hid⟩)

theorem card_ids_le (a : Arena) : (a.nodes.toList.map (·.id)).toFinset.card ≤ a.nodes.size := by
  have hle := (a.nodes.toList.map (·.id)).toFinset_card_le
  rwa [List.length_map, Array.length_toList] at hle

theorem beyond_subset (a : Arena) (R : NodeId → NodeId → Prop) (u : NodeId) :
    a.beyond R u ⊆ (a.nodes.toList.map (·.id)).toFinset := by
  classical
  exact Finset.filter_subset _ _

namespace Complete
variable (hcomplete : a.Complete) (hleads : ∀ u v, R u v → a.Leads u v)
include hcomplete hleads

theorem mem_beyond : v ∈ a.beyond R u ↔ TransGen R u v := by
  classical
  unfold beyond
  rw [Finset.mem_filter, and_iff_right_iff_imp]
  intro hv
  obtain ⟨m, -, hm⟩ := TransGen.tail'_iff.mp hv
  obtain ⟨n, hn⟩ := hcomplete m v (hleads m v hm)
  exact mem_ids hn

theorem card_beyond_lt (h : R u v) (hv : ¬TransGen R v v) :
    (a.beyond R v).card < (a.beyond R u).card := by
  have hmem : ∀ u m, m ∈ a.beyond R u ↔ TransGen R u m :=
    fun u m => hcomplete.mem_beyond hleads
  apply Finset.card_lt_card
  refine Finset.ssubset_iff_subset_ne.mpr ⟨fun m hm => ?_, fun hsame => ?_⟩
  · exact (hmem u m).mpr (.head h ((hmem v m).mp hm))
  · have hself : v ∈ a.beyond R v := hsame ▸ (hmem u v).mpr (.single h)
    exact hv ((hmem v v).mp hself)

end Complete

end

/-- How far down it goes from a node through value nodes. -/
noncomputable def depth (a : Arena) (u : NodeId) : Nat :=
  (a.beyond a.Nests u).card

/-- The turns that a node on the stack may take, but for those below identity nodes. -/
noncomputable def weight (a : Arena) (u : NodeId) : Nat :=
  (a.references.length + 1) ^ a.depth u

/-- The turns that come from a node's children, if it is an identity node that was not seen. -/
noncomputable def debt (a : Arena) (seen : List NodeId) (n : Node) : Nat :=
  if n.mode = .identity ∧ seen.contains n.id = false then (n.children.map a.weight).sum else 0

noncomputable def owed (a : Arena) (seen : List NodeId) : Nat :=
  (a.nodes.toList.map (a.debt seen)).sum

theorem weight_pos (a : Arena) (u : NodeId) : 0 < a.weight u :=
  Nat.pow_pos (Nat.succ_pos _)

theorem weight_le (a : Arena) (u : NodeId) : a.weight u ≤ (a.references.length + 1) ^ a.nodes.size :=
  Nat.pow_le_pow_right (Nat.succ_pos _)
    (Nat.le_trans (Finset.card_le_card (a.beyond_subset a.Nests u)) a.card_ids_le)

theorem length_references (a : Arena) :
    a.references.length = (a.nodes.toList.map (·.children.length)).sum :=
  List.length_flatMap

theorem length_children_le (hn : a.find? id = some n) :
    n.children.length ≤ a.references.length := by
  rw [length_references]
  exact List.le_sum_of_mem (List.mem_map.mpr
    ⟨n, Array.mem_toList_iff.mpr (mem_of_find? hn).1, rfl⟩)

/-- The weights of some nodes, where each takes no more than its share. -/
theorem sum_weight_mul_le {share total : Nat} (h : ∀ c ∈ ids, a.weight c * share ≤ total) :
    (ids.map a.weight).sum * share ≤ ids.length * total := by
  rw [← List.sum_map_mul_right, ← Nat.nsmul_eq_mul,
    ← List.length_map (f := fun c => a.weight c * share)]
  exact List.sum_le_card_nsmul _ _ (List.forall_mem_map.mpr h)

theorem debt_le (a : Arena) (seen : List NodeId) (n : Node) :
    a.debt seen n ≤ n.children.length * (a.references.length + 1) ^ a.nodes.size := by
  unfold debt
  split
  · have hsum : (n.children.map a.weight).sum * 1 ≤ n.children.length * _ :=
      sum_weight_mul_le fun c _ => (Nat.mul_one _).trans_le (a.weight_le c)
    rwa [Nat.mul_one] at hsum
  · exact Nat.zero_le _

theorem debt_of_mem {seen : List NodeId} (h : n.id ∈ seen) : a.debt seen n = 0 :=
  if_neg fun hnew => absurd (List.contains_iff_mem.mpr h) (Bool.eq_false_iff.mp hnew.2)

theorem debt_of_new {seen : List NodeId} (hmode : n.mode = .identity) (h : n.id ∉ seen) :
    a.debt seen n = (n.children.map a.weight).sum :=
  if_pos ⟨hmode, Bool.eq_false_iff.mpr fun hseen => h (List.contains_iff_mem.mp hseen)⟩

theorem debt_cons_le (a : Arena) (id : NodeId) (seen : List NodeId) (n : Node) :
    a.debt (id :: seen) n ≤ a.debt seen n := by
  by_cases hseen : n.id ∈ id :: seen
  · rw [debt_of_mem hseen]
    exact Nat.zero_le _
  by_cases hmode : n.mode = .identity
  · rw [debt_of_new hmode hseen, debt_of_new hmode fun h => hseen (List.mem_cons_of_mem _ h)]
  · rw [debt, if_neg fun hnew => hmode hnew.1]
    exact Nat.zero_le _

theorem owed_le (a : Arena) (seen : List NodeId) :
    a.owed seen ≤ a.references.length * (a.references.length + 1) ^ a.nodes.size := by
  have hlength : a.references.length * (a.references.length + 1) ^ a.nodes.size =
      (a.nodes.toList.map (fun n => n.children.length *
        (a.references.length + 1) ^ a.nodes.size)).sum := by
    rw [List.sum_map_mul_right, ← length_references]
  rw [hlength]
  exact List.sum_le_sum fun n _ => a.debt_le seen n

theorem sum_map_add_le {α : Type} {f g : α → Nat} {x : α} {k : Nat} : ∀ {xs : List α},
    (∀ y ∈ xs, f y ≤ g y) → x ∈ xs → f x + k ≤ g x → (xs.map f).sum + k ≤ (xs.map g).sum
  | y :: ys, hle, hx, hk => by
    obtain ⟨hy, hys⟩ := List.forall_mem_cons.mp hle
    simp only [List.map_cons, List.sum_cons]
    rcases List.mem_cons.mp hx with rfl | hx
    · have hrest := List.sum_le_sum hys
      omega
    · have hrest := sum_map_add_le hys hx hk
      omega

theorem owed_cons (hn : a.find? id = some n) (hmode : n.mode = .identity) {seen : List NodeId}
    (hnew : id ∉ seen) :
    a.owed (id :: seen) + (n.children.map a.weight).sum ≤ a.owed seen := by
  obtain ⟨hmem, rfl⟩ := mem_of_find? hn
  refine sum_map_add_le (fun m _ => a.debt_cons_le _ seen m) (Array.mem_toList_iff.mpr hmem) ?_
  rw [debt_of_mem List.mem_cons_self, debt_of_new hmode hnew, Nat.zero_add]

section
variable (hcomplete : a.Complete) (hvalue : ∀ id, ¬TransGen a.Refers id id)
include hcomplete

include hvalue

theorem depth_lt_of_nests (h : a.Nests u v) : a.depth v < a.depth u :=
  hcomplete.card_beyond_lt (fun _ _ => Nests.leads) h (nests_irrefl hvalue v)

/-- The children of a value node take fewer turns than the node may. -/
theorem sum_weight_lt (hn : a.find? id = some n) (hmode : n.mode = .value) :
    (n.children.map a.weight).sum < a.weight id := by
  have hsum : (n.children.map a.weight).sum * (a.references.length + 1) ≤
      n.children.length * a.weight id := sum_weight_mul_le fun c hc => by
    rw [weight, ← Nat.pow_succ]
    exact Nat.pow_le_pow_right (Nat.succ_pos _)
      (depth_lt_of_nests hcomplete hvalue ⟨n, hn, hmode, hc⟩)
  refine Nat.lt_of_mul_lt_mul_right (a := a.references.length + 1) (Nat.lt_of_le_of_lt hsum ?_)
  rw [Nat.mul_comm]
  exact Nat.mul_lt_mul_of_pos_left (Nat.lt_succ_of_le (length_children_le hn)) (a.weight_pos id)

/-- A turn pays for the children that it puts on the stack. -/
theorem owed_after (hn : a.find? id = some n) (hnew : ¬(n.mode = .identity ∧ id ∈ w.seen))
    (state : σ) : a.owed (w.after id n state).seen + (n.children.map a.weight).sum <
      a.weight id + a.owed w.seen := by
  cases hmode : n.mode with
  | identity =>
    have hseen : (w.after id n state).seen = id :: w.seen := if_pos hmode
    have howed := owed_cons hn hmode (fun hseen => hnew ⟨hmode, hseen⟩)
    have hpos := a.weight_pos id
    rw [hseen]
    omega
  | value =>
    have hseen : (w.after id n state).seen = w.seen := if_neg (by rw [hmode]; exact nofun)
    have hsum := sum_weight_lt hcomplete hvalue hn hmode
    rw [hseen]
    omega

theorem walk_total (d : Dispatch σ) (fuel : Nat) (ids : List NodeId) (w : Walk σ)
    (hids : ∀ id ∈ ids, ∃ n, a.find? id = some n)
    (hfuel : (ids.map a.weight).sum + a.owed w.seen ≤ fuel) :
    ∃ w', a.walk d fuel ids w = .ok w' := by
  induction fuel generalizing ids w with
  | zero =>
    cases ids with
    | nil => exact ⟨w, rfl⟩
    | cons id ids =>
      have hpos := a.weight_pos id
      rw [List.map_cons, List.sum_cons] at hfuel
      omega
  | succ fuel ih =>
    cases ids with
    | nil => exact ⟨w, rfl⟩
    | cons id ids =>
      obtain ⟨⟨n, hn⟩, hids⟩ := List.forall_mem_cons.mp hids
      rw [List.map_cons, List.sum_cons] at hfuel
      rw [walk_cons d fuel ids w hn]
      split
      · have hpos := a.weight_pos id
        exact ih ids w hids (by omega)
      · rename_i hnew
        split
        · rename_i state _
          have howed := owed_after hcomplete hvalue hn hnew state
          refine ih _ _ (fun c hc => ?_) ?_
          · exact (List.mem_append.mp hc).elim (fun hc => hcomplete id c ⟨n, hn, hc⟩) (hids c)
          · rw [List.map_append, List.sum_append]
            omega
        · rename_i state _
          have howed := owed_after hcomplete hvalue hn hnew state
          exact ih _ _ hids (by omega)
        · exact ⟨_, rfl⟩

/-- In an arena whose value nodes form no cycle every traversal ends. -/
theorem visit_total (d : Dispatch σ) (state : σ) (hroot : ∃ n, a.find? root = some n) :
    ∃ w, a.visit root d state = .ok w := by
  refine walk_total hcomplete hvalue d _ _ _ (List.forall_mem_singleton.mpr hroot) ?_
  have hweight := a.weight_le root
  have howed := a.owed_le ({ state := state } : Walk σ).seen
  change _ ≤ (a.references.length + 1) ^ (a.nodes.size + 1)
  rw [Nat.pow_succ, Nat.mul_succ, Nat.mul_comm _ a.references.length, List.map_singleton,
    List.sum_singleton]
  omega

end

end Arena

end TypedSsa

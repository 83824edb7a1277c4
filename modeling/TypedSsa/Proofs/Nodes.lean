import TypedSsa.Typing.Graph

/-!
The nodes of a type graph that grows: what adding, changing and appending leave of them.
-/

namespace TypedSsa

namespace TypeGraph

theorem node?_isSome {g : TypeGraph} {m : TypeNodeId} (h : m.raw < g.size) :
    ∃ n, g.node? m = some n := by
  rw [node?, Array.getElem?_eq_getElem h]
  exact ⟨_, rfl⟩

theorem raw_lt_of_node? {g : TypeGraph} {m : TypeNodeId} {n : TypeNode}
    (h : g.node? m = some n) : m.raw < g.size :=
  (Array.getElem?_eq_some_iff.mp h).1

theorem raw_lt_of_rule? {g : TypeGraph} {m : TypeNodeId} {rule : TypeRule}
    (h : g.rule? m = some rule) : m.raw < g.size := by
  obtain ⟨n, hn, -⟩ := Option.map_eq_some_iff.mp h
  exact (Array.getElem?_eq_some_iff.mp hn).1

theorem rule?_add (g : TypeGraph) (rule : TypeRule) (origin : TypeOrigin) (m : TypeNodeId) :
    (g.add rule origin).2.rule? m = if m = ⟨g.size⟩ then some rule else g.rule? m := by
  have hraw : m = ⟨g.size⟩ ↔ m.raw = g.nodes.size := by
    cases m
    simp [size]
  by_cases hm : m.raw = g.nodes.size
  · simp [rule?, node?, add, hm, hraw]
  · simp [rule?, node?, add, Array.getElem?_push, hm, hraw]

theorem rule?_add_self (g : TypeGraph) (rule : TypeRule) (origin : TypeOrigin) :
    (g.add rule origin).2.rule? ⟨g.size⟩ = some rule :=
  (rule?_add g rule origin _).trans (if_pos rfl)

theorem rule?_add_kept {g : TypeGraph} {m : TypeNodeId} {rule : TypeRule}
    (h : g.rule? m = some rule) (added : TypeRule) (origin : TypeOrigin) :
    (g.add added origin).2.rule? m = some rule := by
  rw [rule?_add, if_neg, h]
  rintro rfl
  exact Nat.lt_irrefl _ (raw_lt_of_rule? h)

@[simp] theorem size_add (g : TypeGraph) (rule : TypeRule) (origin : TypeOrigin) :
    (g.add rule origin).2.size = g.size + 1 := by
  simp [add, size]

theorem rule?_change (g : TypeGraph) (id : TypeNodeId) (f : TypeNode → TypeNode)
    (m : TypeNodeId) : (g.change id f).rule? m =
      if m = id then (g.node? m).map (fun n => (f n).rule) else g.rule? m := by
  have hraw : id = m ↔ id.raw = m.raw := by
    cases m
    cases id
    simp
  by_cases hm : id = m
  · simp [rule?, node?, change, Array.getElem?_modify, hm, Function.comp_def]
  · have hne : ¬id.raw = m.raw := fun h => hm (hraw.mpr h)
    simp [rule?, node?, change, Array.getElem?_modify, Ne.symm hm, hne]

@[simp] theorem size_change (g : TypeGraph) (id : TypeNodeId) (f : TypeNode → TypeNode) :
    (g.change id f).size = g.size := by
  simp [change, size]

theorem rule?_setRule {g : TypeGraph} {id m : TypeNodeId} {rule : TypeRule} (h : id.raw < g.size) :
    (g.setRule id rule).rule? m = if m = id then some rule else g.rule? m := by
  rw [setRule, rule?_change]
  by_cases hm : m = id
  · rw [if_pos hm, if_pos hm, hm, node?, Array.getElem?_eq_getElem h, Option.map_some]
  · rw [if_neg hm, if_neg hm]

theorem node?_append (g other : TypeGraph) (function : String) (m : TypeNodeId) :
    (g.append other function).node? m =
      if m.raw < g.size then g.node? m
      else (other.node? ⟨m.raw - g.size⟩).map
        (fun n => { n with rule := n.rule.shift g.size, function := some function }) := by
  rw [node?, append, Array.getElem?_append, Array.getElem?_map]
  rfl

@[simp] theorem size_append (g other : TypeGraph) (function : String) :
    (g.append other function).size = g.size + other.size := by
  simp [append, size]

end TypeGraph

end TypedSsa

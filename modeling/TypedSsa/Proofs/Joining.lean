import TypedSsa.Proofs.Assembly
import TypedSsa.Proofs.Confining
import TypedSsa.Proofs.Enclosing

/-!
Linking a program with one function more. Main statement: `link_beside`. If the function and the
others do not call each other, the others are linked as they are without it; their nodes only have
new ids.
-/

namespace TypedSsa

/-! Renamed parts of a program. -/

section
variable (e : Nat → Nat)

def TypeNode.rename (n : TypeNode) : TypeNode :=
  { n with rule := n.rule.rename (.via e) }

def CallSite.rename (c : CallSite) : CallSite :=
  { c with apply := c.apply.via e, args := c.args.map (.via e) }

/-- A function of a program under new ids. Its graph is part of the program's. -/
def FunctionTypes.rename (t : FunctionTypes) : FunctionTypes :=
  { t with
    defs := t.defs.map (fun (d, n) => (d, n.via e))
    params := t.params.map (.via e)
    result := t.result.via e
    calls := t.calls.map (CallSite.rename e) }

def ProgramTypes.Link.rename (l : ProgramTypes.Link) : ProgramTypes.Link :=
  ⟨l.caller, l.call.rename e, l.callee.rename e⟩

end

/-- The nodes that a function refers to. -/
def FunctionTypes.ids (t : FunctionTypes) : List TypeNodeId :=
  t.result :: (t.params ++
    (t.defs.toList.map (·.2) ++ t.calls.flatMap (fun c => c.apply :: c.args)))

namespace FunctionTypes

variable {e : Nat → Nat} {t : FunctionTypes}

theorem forall_ids {P : TypeNodeId → Prop} : (∀ d ∈ t.ids, P d) ↔
    P t.result ∧ (∀ d ∈ t.params, P d) ∧ (∀ p ∈ t.defs, P p.2) ∧
      ∀ c ∈ t.calls, P c.apply ∧ ∀ d ∈ c.args, P d := by
  simp only [ids, List.forall_mem_cons, List.forall_mem_append, List.forall_mem_map,
    Array.mem_toList_iff, List.mem_flatMap]
  grind

theorem Enclosed.ids (h : t.Enclosed) : ∀ d ∈ t.ids, d.raw < t.graph.size :=
  forall_ids.mpr ⟨h.result, h.params, h.defs,
    fun c hc => List.forall_mem_cons.mp (h.calls c hc)⟩

theorem rename_eq_self (h : ∀ d ∈ t.ids, d.via e = d) : t.rename e = t := by
  obtain ⟨hresult, hparams, hdefs, hcalls⟩ := forall_ids.mp h
  have hdefs : t.defs.map (fun (d, n) => (d, n.via e)) = t.defs := by
    refine (Array.map_congr_left fun p hp => ?_).trans (Array.map_id _)
    exact congrArg (p.1, ·) (hdefs p hp)
  have hcalls : t.calls.map (CallSite.rename e) = t.calls := by
    refine (List.map_congr_left fun c hc => ?_).trans (List.map_id _)
    have hargs : c.args.map (.via e) = c.args :=
      (List.map_congr_left (hcalls c hc).2).trans (List.map_id _)
    rw [CallSite.rename, (hcalls c hc).1, hargs]
    rfl
  have hparams : t.params.map (.via e) = t.params :=
    (List.map_congr_left hparams).trans (List.map_id _)
  rw [rename, hresult, hparams, hdefs, hcalls]

end FunctionTypes

theorem TypeRule.rename_eq_self {e : TypeNodeId → TypeNodeId} {rule : TypeRule}
    (h : ∀ d ∈ rule.dependencies, e d = d) : rule.rename e = rule := by
  have hlist : ∀ ids : List TypeNodeId, (∀ d ∈ ids, e d = d) → ids.map e = ids :=
    fun ids h => (List.map_congr_left h).trans (List.map_id _)
  cases rule with
  | constant | undefined => rfl
  | copy source => exact congrArg copy (h source List.mem_cons_self)
  | join inputs => exact congrArg join (hlist inputs h)
  | apply name args => exact congrArg (apply name) (hlist args h)

theorem TypeRule.rename_shift {e : Nat → Nat} {offset offset' : Nat}
    (he : ∀ i, e (i + offset') = i + offset) (rule : TypeRule) :
    (rule.shift offset').rename (.via e) = rule.shift offset := by
  have hid : ∀ d : TypeNodeId, (⟨d.raw + offset'⟩ : TypeNodeId).via e = ⟨d.raw + offset⟩ :=
    fun d => congrArg Ident.mk (he d.raw)
  cases rule <;> simp [shift, rename, hid]

theorem ProgramTypes.rename_shifted {e : Nat → Nat} {offset offset' : Nat}
    (he : ∀ i, e (i + offset') = i + offset) (t : FunctionTypes) :
    (shifted offset' t).rename e = shifted offset t := by
  have hid : ∀ d : TypeNodeId, (⟨d.raw + offset'⟩ : TypeNodeId).via e = ⟨d.raw + offset⟩ :=
    fun d => congrArg Ident.mk (he d.raw)
  simp [shifted, FunctionTypes.rename, shiftCall, CallSite.rename, hid, Function.comp_def]

theorem TypeRule.dependencies_shift (offset : Nat) (rule : TypeRule) :
    (rule.shift offset).dependencies = rule.dependencies.map (⟨·.raw + offset⟩) := by
  cases rule <;> rfl

theorem TypeGraph.mem_dependencies {g : TypeGraph} {m d : TypeNodeId} :
    d ∈ g.dependencies m ↔ ∃ n, g.node? m = some n ∧ d ∈ n.rule.dependencies := by
  rw [dependencies, rule?]
  cases g.node? m <;> simp

namespace TypeGraph

/-- A graph shows another one under new ids. The rest is of one function, and what it depends on is
not shown. -/
structure Shows (name : String) (e : Nat → Nat) (g g' : TypeGraph) : Prop where
  later : ∀ i, e (i + g'.size) = i + g.size
  nodes : ∀ m, g.node? (m.via e) = (g'.node? m).map (.rename e)
  owned : ∀ m n, g'.node? m = some n → n.function ≠ some name
  apart : ∀ m n, g.node? m = some n → m ∉ Set.range (Ident.via e) →
    n.function = some name ∧ ∀ d ∈ n.rule.dependencies, d ∉ Set.range (Ident.via e)

theorem node?_change (g : TypeGraph) (id : TypeNodeId) (f : TypeNode → TypeNode) (m : TypeNodeId) :
    (g.change id f).node? m = if m = id then (g.node? m).map f else g.node? m := by
  have hraw : id.raw = m.raw ↔ m = id :=
    ⟨fun h => (Ident.raw_inj id m h).symm, fun h => congrArg Ident.raw h.symm⟩
  rw [node?, change, Array.getElem?_modify, node?]
  exact if_congr hraw rfl rfl

namespace Shows

variable {name : String} {e : Nat → Nat} {g g' : TypeGraph}

/-- A shown node and the node it is change alike. -/
theorem change (h : Shows name e g g') (he : Function.Injective e) (id : TypeNodeId)
    {f f' : TypeNode → TypeNode} (hf : ∀ n : TypeNode, f (n.rename e) = (f' n).rename e)
    (hfunction : ∀ n, (f' n).function = n.function) :
    Shows name e (g.change (id.via e) f) (g'.change id f') := by
  refine ⟨by simpa using h.later, fun m => ?_, fun m n hn => ?_, fun m n hn hm => ?_⟩
  · rw [node?_change, node?_change, h.nodes]
    by_cases hid : m = id
    · rw [if_pos hid, if_pos (congrArg _ hid), Option.map_map, Option.map_map]
      exact congrArg (Option.map · _) (funext hf)
    · rw [if_neg hid, if_neg fun hsame => hid (Ident.via_injective he hsame)]
  · rw [node?_change] at hn
    split at hn
    · obtain ⟨n', hn', rfl⟩ := Option.map_eq_some_iff.mp hn
      rw [hfunction]
      exact h.owned m n' hn'
    · exact h.owned m n hn
  · rw [node?_change, if_neg fun hid => hm ⟨id, hid.symm⟩] at hn
    exact h.apart m n hn hm

/-- A node that is not shown changes. -/
theorem change_rest (h : Shows name e g g') {id : TypeNodeId}
    (hid : id ∉ Set.range (Ident.via e)) {f : TypeNode → TypeNode}
    (hfunction : ∀ n, (f n).function = n.function)
    (hf : ∀ n, (∀ d ∈ n.rule.dependencies, d ∉ Set.range (Ident.via e)) →
      ∀ d ∈ (f n).rule.dependencies, d ∉ Set.range (Ident.via e)) :
    Shows name e (g.change id f) g' := by
  refine ⟨by simpa using h.later, fun m => ?_, h.owned, fun m n hn hm => ?_⟩
  · rw [node?_change, if_neg fun hsame => hid ⟨m, hsame⟩]
    exact h.nodes m
  · rw [node?_change] at hn
    split at hn
    · obtain ⟨n', hn', rfl⟩ := Option.map_eq_some_iff.mp hn
      obtain ⟨howner, hdeps⟩ := h.apart m n' hn' hm
      exact ⟨(hfunction n').trans howner, hf n' hdeps⟩
    · exact h.apart m n hn hm

theorem inside (h : Shows name e g g') (he : StrictMono e) (v : Nat) :
    e v < g.size ↔ v < g'.size := by
  rw [← he.lt_iff_lt (a := v), ← Nat.zero_add g'.size, h.later, Nat.zero_add]

/-- What is not shown is apart. -/
theorem embeds (h : Shows name e g g') (he : StrictMono e) : g.Embeds e g' := by
  refine ⟨he, h.inside he, fun m => ?_, fun m hm d hd => ?_⟩
  · rw [rule?, rule?, h.nodes, Option.map_map, Option.map_map]
    rfl
  · obtain ⟨n, hn, hd⟩ := mem_dependencies.mp hd
    exact (h.apart m n hn hm).2 d hd

/-- Both get the same nodes. -/
theorem append (h : Shows name e g g') (he : StrictMono e) (other : TypeGraph) {function : String}
    (hne : function ≠ name) :
    Shows name e (g.append other function) (g'.append other function) := by
  have hlow := h.inside he
  refine ⟨fun i => ?_, fun m => ?_, fun m n hn => ?_, fun m n hn hm => ?_⟩
  · rw [size_append, size_append, Nat.add_comm g'.size, ← Nat.add_assoc, h.later]
    omega
  · rw [node?_append, node?_append]
    by_cases hm : m.raw < g'.size
    · rw [if_pos hm, if_pos (show (m.via e).raw < g.size from (hlow m.raw).mpr hm), h.nodes]
    · obtain ⟨i, hi⟩ := Nat.exists_eq_add_of_le' (Nat.le_of_not_lt hm)
      have hplace : (m.via e).raw = i + g.size := by
        rw [Ident.via, hi, h.later]
      rw [if_neg hm, if_neg (show ¬(m.via e).raw < g.size by omega), hplace, hi,
        Nat.add_sub_cancel, Nat.add_sub_cancel, Option.map_map]
      refine congrArg (Option.map · _) (funext fun n => ?_)
      rw [Function.comp_apply, TypeNode.rename, TypeRule.rename_shift h.later]
  · rw [node?_append] at hn
    split at hn
    · exact h.owned m n hn
    · obtain ⟨n', -, rfl⟩ := Option.map_eq_some_iff.mp hn
      exact fun hsame => hne (Option.some.inj hsame)
  · rw [node?_append] at hn
    split at hn
    · exact h.apart m n hn hm
    · rename_i hhigh
      refine absurd (Ident.mem_range_via.mpr ⟨m.raw - g.size + g'.size, ?_⟩) hm
      rw [h.later]
      omega

end Shows

end TypeGraph

namespace ProgramTypes

/-- A program is another one with a function more that no function of the other one calls and that
calls none of these. -/
structure Beside (name : String) (e : Nat → Nat) (p p' : ProgramTypes) : Prop where
  mono : StrictMono e
  graph : p.graph.Shows name e p'.graph
  functions : p.functions.filter (·.function ≠ name) = p'.functions.map (.rename e)
  called : ∀ u ∈ p'.functions, u.function ≠ name ∧ ∀ c ∈ u.calls, c.callee ≠ name
  rest : ∀ t ∈ p.functions, t.function = name → (∀ d ∈ t.ids, d ∉ Set.range (Ident.via e)) ∧
    ∀ c ∈ t.calls, ∀ u ∈ p'.functions, c.callee ≠ u.function
  errors : p.errors.filter (·.1 ≠ name) = p'.errors

/-- All nodes of a program are of its functions, and all that they refer to is there. -/
structure Enclosed (p : ProgramTypes) : Prop where
  rules : ∀ m, ∀ d ∈ p.graph.dependencies m, d.raw < p.graph.size
  functions : ∀ u ∈ p.functions, ∀ d ∈ u.ids, d.raw < p.graph.size
  owned : ∀ m n, p.graph.node? m = some n → ∃ u ∈ p.functions, n.function = some u.function

section
variable {p p' : ProgramTypes} {t : FunctionTypes}

theorem functions_add (h : ∀ u ∈ p.functions, u.function ≠ t.function) :
    (p.add t).functions = p.functions ++ [shifted p.graph.size t] := by
  refine putBy_of_absent _ _ _ (List.any_eq_false.mpr fun u hu hsame => ?_)
  exact h u hu (eq_of_beq hsame)

theorem ids_shifted (offset : Nat) (t : FunctionTypes) :
    (shifted offset t).ids = t.ids.map (⟨·.raw + offset⟩) := by
  simp [FunctionTypes.ids, shifted, shiftCall, List.flatMap_map, List.map_flatMap,
    Function.comp_def]

theorem Enclosed.add (h : p.Enclosed) (ht : t.Enclosed)
    (hnew : ∀ u ∈ p.functions, u.function ≠ t.function) : (p.add t).Enclosed := by
  have hsize : (p.add t).graph.size = p.graph.size + t.graph.size := TypeGraph.size_append _ _ _
  have hnode : ∀ m n, (p.add t).graph.node? m = some n → p.graph.node? m = some n ∨
      ∃ n', t.graph.node? ⟨m.raw - p.graph.size⟩ = some n' ∧
        n = { n' with rule := n'.rule.shift p.graph.size, function := some t.function } := by
    intro m n hn
    rw [show (p.add t).graph = p.graph.append t.graph t.function from rfl,
      TypeGraph.node?_append] at hn
    split at hn
    · exact .inl hn
    · obtain ⟨n', hn', rfl⟩ := Option.map_eq_some_iff.mp hn
      exact .inr ⟨n', hn', rfl⟩
  refine ⟨fun m d hd => ?_, fun u hu => ?_, fun m n hn => ?_⟩
  · rw [hsize]
    obtain ⟨n, hn, hd⟩ := TypeGraph.mem_dependencies.mp hd
    rcases hnode m n hn with hn | ⟨n', hn', rfl⟩
    · exact Nat.lt_add_right _ (h.rules m d (TypeGraph.mem_dependencies.mpr ⟨n, hn, hd⟩))
    · rw [TypeRule.dependencies_shift] at hd
      obtain ⟨d', hd', rfl⟩ := List.mem_map.mp hd
      have hlt := ht.rules _ d' (TypeGraph.mem_dependencies.mpr ⟨n', hn', hd'⟩)
      dsimp only
      omega
  · rw [hsize]
    rw [functions_add hnew] at hu
    rcases List.mem_append.mp hu with hu | hu
    · exact fun d hd => Nat.lt_add_right _ (h.functions u hu d hd)
    · rw [List.mem_singleton.mp hu, ids_shifted, List.forall_mem_map]
      intro d hd
      have hlt := ht.ids d hd
      dsimp only
      omega
  · rw [functions_add hnew]
    rcases hnode m n hn with hn | ⟨n', -, rfl⟩
    · obtain ⟨u, hu, howner⟩ := h.owned m n hn
      exact ⟨u, List.mem_append_left _ hu, howner⟩
    · exact ⟨_, List.mem_append_right _ (List.mem_singleton_self _), rfl⟩

/-- Functions by different names, one after the other. -/
theorem foldl_add_enclosed {ts : List FunctionTypes} (hnodup : (ts.map (·.function)).Nodup)
    (h : ∀ t ∈ ts, t.Enclosed) : (ts.foldl add {}).Enclosed ∧ ∃ placed : List (Nat × FunctionTypes),
      placed.map (·.2) = ts ∧
      (ts.foldl add {}).functions = placed.map (fun q => shifted q.1 q.2) := by
  obtain ⟨placed, hlaid, hplaced⟩ := foldl_add_laid ts hnodup
  refine ⟨?_, placed, hplaced, hlaid.functions⟩
  clear hlaid hplaced
  induction ts using List.reverseRecOn with
  | nil =>
    refine ⟨fun m d hd => ?_, by simp, nofun⟩
    obtain ⟨n, hn, -⟩ := TypeGraph.mem_dependencies.mp hd
    cases hn
  | append_singleton ts t ih =>
    rw [List.map_append, List.nodup_append] at hnodup
    rw [List.foldl_append]
    obtain ⟨placed, hlaid, hplaced⟩ := foldl_add_laid ts hnodup.1
    refine (ih hnodup.1 fun u hu => h u (List.mem_append_left _ hu)).add (h t (by simp)) ?_
    intro u hu
    rw [hlaid.functions] at hu
    obtain ⟨q, hq, rfl⟩ := List.mem_map.mp hu
    have hmem : q.2.function ∈ ts.map (·.function) :=
      List.mem_map_of_mem (hplaced ▸ List.mem_map_of_mem hq)
    exact hnodup.2.2 _ hmem _ (by simp)

end

/-- The number that a place has once `k` places were put in before place `a`. -/
def past (a k v : Nat) : Nat :=
  if v < a then v else v + k

theorem past_strictMono (a k : Nat) : StrictMono (past a k) := by
  intro v w hvw
  unfold past
  split <;> split <;> omega

theorem mem_range_past {a k v : Nat} : v ∈ Set.range (past a k) ↔ v < a ∨ a + k ≤ v := by
  constructor
  · rintro ⟨w, rfl⟩
    unfold past
    split <;> omega
  · rintro (hv | hv)
    · exact ⟨v, if_pos hv⟩
    · exact ⟨v - k, by rw [past, if_neg (by omega)]; omega⟩

theorem via_past {a k : Nat} {d : TypeNodeId} (hd : d.raw < a) : d.via (past a k) = d :=
  congrArg Ident.mk (if_pos hd)

theorem not_mem_range_past {a k : Nat} {d : TypeNodeId} (hd : d.raw < k) :
    (⟨d.raw + a⟩ : TypeNodeId) ∉ Set.range (Ident.via (past a k)) := by
  intro hmem
  have hplace := mem_range_past.mp (Ident.mem_range_via.mp hmem)
  dsimp only at hplace
  omega

/-- A graph shows what it has been appended to. -/
theorem shows_append {g g' : TypeGraph} {name : String}
    (h : ∀ m, ∀ d ∈ g.dependencies m, d.raw < g.size)
    (h' : ∀ m, ∀ d ∈ g'.dependencies m, d.raw < g'.size)
    (howned : ∀ m n, g.node? m = some n → n.function ≠ some name) :
    (g.append g' name).Shows name (past g.size g'.size) g := by
  refine ⟨fun i => ?_, fun m => ?_, howned, fun m n hn hm => ?_⟩
  · rw [past, if_neg (by omega), TypeGraph.size_append]
    omega
  · rw [TypeGraph.node?_append]
    by_cases hm : m.raw < g.size
    · rw [via_past hm, if_pos hm]
      obtain ⟨n, hn⟩ := TypeGraph.node?_isSome hm
      have hrule : n.rule.rename (.via (past g.size g'.size)) = n.rule :=
        TypeRule.rename_eq_self fun d hd =>
          via_past (h m d (TypeGraph.mem_dependencies.mpr ⟨n, hn, hd⟩))
      rw [hn, Option.map_some, TypeNode.rename, hrule]
    · have hplace : (m.via (past g.size g'.size)).raw = m.raw + g'.size := if_neg hm
      have hnone : g.node? m = none := Array.getElem?_eq_none (Nat.le_of_not_lt hm)
      have hnone' : g'.node? ⟨m.raw + g'.size - g.size⟩ = none :=
        Array.getElem?_eq_none (show g'.size ≤ _ by dsimp only; omega)
      rw [hplace, if_neg (by omega), hnone, hnone']
      rfl
  · rw [TypeGraph.node?_append] at hn
    split at hn
    · rename_i hlow
      exact absurd ⟨m, via_past hlow⟩ hm
    · obtain ⟨n', hn', rfl⟩ := Option.map_eq_some_iff.mp hn
      refine ⟨rfl, fun d hd => ?_⟩
      rw [TypeRule.dependencies_shift] at hd
      obtain ⟨d', hd', rfl⟩ := List.mem_map.mp hd
      exact not_mem_range_past (h' _ d' (TypeGraph.mem_dependencies.mpr ⟨n', hn', hd'⟩))

namespace Beside

variable {name : String} {e : Nat → Nat} {p p' : ProgramTypes} {t : FunctionTypes}

/-- A function is put after others. -/
theorem start (h : p.Enclosed) (ht : t.Enclosed) (herrors : p.errors = [])
    (hcalled : ∀ u ∈ p.functions, u.function ≠ t.function ∧ ∀ c ∈ u.calls, c.callee ≠ t.function)
    (hcalls : ∀ c ∈ t.calls, ∀ u ∈ p.functions, c.callee ≠ u.function) :
    Beside t.function (past p.graph.size t.graph.size) (p.add t) p := by
  have hnew : ∀ u ∈ p.functions, u.function ≠ t.function := fun u hu => (hcalled u hu).1
  refine ⟨past_strictMono _ _, shows_append h.rules ht.rules fun m n hn => ?_, ?_, hcalled,
    fun u hu hname => ?_, ?_⟩
  · obtain ⟨u, hu, howner⟩ := h.owned m n hn
    rw [howner]
    exact fun hsame => hnew u hu (Option.some.inj hsame)
  · have hkept : p.functions.filter (·.function ≠ t.function) = p.functions :=
      List.filter_eq_self.mpr fun u hu => decide_eq_true (hnew u hu)
    have hgone : [shifted p.graph.size t].filter (·.function ≠ t.function) = [] :=
      List.filter_cons_of_neg fun hne => of_decide_eq_true hne rfl
    rw [functions_add hnew, List.filter_append, hkept, hgone, List.append_nil]
    refine ((List.map_congr_left fun u hu => ?_).trans (List.map_id _)).symm
    exact FunctionTypes.rename_eq_self fun d hd => via_past (h.functions u hu d hd)
  · rw [functions_add hnew] at hu
    rcases List.mem_append.mp hu with hu | hu
    · exact absurd hname (hnew u hu)
    · rw [List.mem_singleton.mp hu, ids_shifted, List.forall_mem_map]
      refine ⟨fun d hd => not_mem_range_past (ht.ids d hd), fun c hc => ?_⟩
      obtain ⟨c', hc', rfl⟩ := List.mem_map.mp hc
      exact hcalls c' hc'
  · rw [show (p.add t).errors = p.errors from rfl, herrors]
    rfl

/-- Both programs get one function more. -/
theorem add (h : Beside name e p p') (hnew : ∀ u ∈ p.functions, u.function ≠ t.function)
    (hname : t.function ≠ name) (hcalled : ∀ c ∈ t.calls, c.callee ≠ name)
    (hcalls : ∀ u ∈ p.functions, u.function = name → ∀ c ∈ u.calls, c.callee ≠ t.function) :
    Beside name e (p.add t) (p'.add t) := by
  have hnew' : ∀ u ∈ p'.functions, u.function ≠ t.function := by
    intro u hu
    have hmem : u.rename e ∈ p.functions.filter (·.function ≠ name) :=
      h.functions ▸ List.mem_map_of_mem hu
    exact hnew (u.rename e) (List.mem_of_mem_filter hmem)
  refine ⟨h.mono, h.graph.append h.mono t.graph hname, ?_, ?_, ?_, h.errors⟩
  · rw [functions_add hnew, functions_add hnew', List.filter_append, h.functions, List.map_append,
      List.map_singleton, rename_shifted h.graph.later]
    exact congrArg _ (List.filter_cons_of_pos (decide_eq_true hname))
  · rw [functions_add hnew']
    refine List.forall_mem_append.mpr ⟨h.called, ?_⟩
    rw [List.forall_mem_singleton]
    refine ⟨hname, fun c hc => ?_⟩
    obtain ⟨c', hc', rfl⟩ := List.mem_map.mp hc
    exact hcalled c' hc'
  · rw [functions_add hnew, functions_add hnew']
    intro u hu hsame
    rcases List.mem_append.mp hu with hu | hu
    · obtain ⟨hids, hothers⟩ := h.rest u hu hsame
      refine ⟨hids, fun c hc => List.forall_mem_append.mpr ⟨hothers c hc, ?_⟩⟩
      rw [List.forall_mem_singleton]
      exact hcalls u hu hsame c hc
    · rw [List.mem_singleton.mp hu] at hsame
      exact absurd hsame hname

theorem foldl_add {ts : List FunctionTypes} (h : Beside name e p p')
    (hnodup : (p.functions.map (·.function) ++ ts.map (·.function)).Nodup)
    (hcalled : ∀ t ∈ ts, t.function ≠ name ∧ ∀ c ∈ t.calls, c.callee ≠ name)
    (hcalls : ∀ u ∈ p.functions, u.function = name → ∀ c ∈ u.calls, ∀ t ∈ ts,
      c.callee ≠ t.function) :
    Beside name e (ts.foldl ProgramTypes.add p) (ts.foldl ProgramTypes.add p') := by
  induction ts generalizing p p' with
  | nil => exact h
  | cons t ts ih =>
    have hnew : ∀ u ∈ p.functions, u.function ≠ t.function := fun u hu =>
      (List.nodup_append.mp hnodup).2.2 _ (List.mem_map_of_mem hu) _ (by simp)
    obtain ⟨hname, ht⟩ := hcalled t List.mem_cons_self
    have hnext := h.add hnew hname ht fun u hu hsame c hc => hcalls u hu hsame c hc t (by simp)
    refine ih hnext ?_ (fun u hu => hcalled u (List.mem_cons_of_mem t hu)) ?_
    · rw [functions_add hnew, List.map_append]
      simpa [shifted] using hnodup
    · rw [functions_add hnew]
      intro u hu hsame c hc v hv
      rcases List.mem_append.mp hu with hu | hu
      · exact hcalls u hu hsame c hc v (List.mem_cons_of_mem t hv)
      · rw [List.mem_singleton.mp hu] at hsame
        exact absurd hsame hname

end Beside

/-! Connecting them. -/

theorem addInput_rename {e : Nat → Nat} (he : Function.Injective e) (arg : TypeNodeId)
    (rule : TypeRule) : addInput (arg.via e) (rule.rename (.via e)) =
      (addInput arg rule).rename (.via e) := by
  cases rule with
  | join inputs =>
    have hmem : arg.via e ∈ inputs.map (.via e) ↔ arg ∈ inputs :=
      List.mem_map_of_injective (Ident.via_injective he)
    by_cases h : arg ∈ inputs
    · simp [addInput, TypeRule.rename, h, hmem]
    · simp [addInput, TypeRule.rename, h, hmem]
  | constant | undefined | copy | apply => rfl

theorem dependencies_addInput {P : TypeNodeId → Prop} {arg : TypeNodeId} (harg : P arg)
    {rule : TypeRule} (h : ∀ d ∈ rule.dependencies, P d) :
    ∀ d ∈ (addInput arg rule).dependencies, P d := by
  cases rule with
  | join inputs =>
    rw [addInput, TypeRule.dependencies]
    split
    · exact h
    · exact List.forall_mem_append.mpr ⟨h, List.forall_mem_singleton.mpr harg⟩
  | constant | undefined | copy | apply => exact h

section
variable {name : String} {e : Nat → Nat} {g g' : TypeGraph} (h : g.Shows name e g')

include h

theorem shows_bindArgument (he : Function.Injective e) (binding : TypeNodeId × TypeNodeId) :
    (bindArgument g (binding.1.via e, binding.2.via e)).Shows name e (bindArgument g' binding) := by
  refine h.change he binding.1 (fun n => ?_) fun _ => rfl
  simp only [TypeNode.rename, addInput_rename he]

theorem shows_bindArgument_rest {binding : TypeNodeId × TypeNodeId}
    (hparam : binding.1 ∉ Set.range (Ident.via e)) (harg : binding.2 ∉ Set.range (Ident.via e)) :
    (bindArgument g binding).Shows name e g' :=
  h.change_rest hparam (fun _ => rfl) fun _ hdeps => dependencies_addInput harg hdeps

theorem shows_connect (he : Function.Injective e) (l : Link) :
    (connect g (l.rename e)).Shows name e (connect g' l) := by
  have hfits : (l.rename e).fits = l.fits := by
    simp [Link.fits, Link.rename, FunctionTypes.rename, CallSite.rename]
  have hbindings : (l.rename e).bindings =
      l.bindings.map (fun b => (b.1.via e, b.2.via e)) := by
    rw [Link.bindings, Link.bindings, hfits]
    split
    · exact List.zip_map
    · rfl
  rw [connect, connect, hbindings, List.foldl_map]
  refine List.foldl_rel (r := fun g g' => TypeGraph.Shows name e g g') ?_ fun b _ g g' h => ?_
  · exact h.change he l.call.apply (fun _ => rfl) fun _ => rfl
  · exact shows_bindArgument h he b

theorem shows_connect_rest {l : Link} (happly : l.call.apply ∉ Set.range (Ident.via e))
    (hargs : ∀ d ∈ l.call.args, d ∉ Set.range (Ident.via e))
    (hcallee : ∀ d ∈ l.callee.ids, d ∉ Set.range (Ident.via e)) :
    (connect g l).Shows name e g' := by
  obtain ⟨hresult, hparams, -, -⟩ := FunctionTypes.forall_ids.mp hcallee
  have hbindings : ∀ b ∈ l.bindings, b.1 ∈ l.callee.params ∧ b.2 ∈ l.call.args := by
    intro b hb
    rw [Link.bindings] at hb
    split at hb
    · exact List.of_mem_zip hb
    · cases hb
  refine List.foldlRecOn (motive := fun g => g.Shows name e g') l.bindings bindArgument ?_
    fun g h b hb => ?_
  · exact h.change_rest happly (fun _ => rfl) fun _ _ => List.forall_mem_singleton.mpr hresult
  · obtain ⟨hparam, harg⟩ := hbindings b hb
    exact shows_bindArgument_rest h (hparams _ hparam) (hargs _ harg)

theorem shows_openParam (he : Function.Injective e) (param : TypeNodeId) :
    (openParam g (param.via e)).Shows name e (openParam g' param) := by
  have hempty : ∀ n : TypeNode, (n.rename e).rule = .join [] ↔ n.rule = .join [] := by
    intro n
    rw [TypeNode.rename]
    cases n.rule <;> simp [TypeRule.rename]
  refine h.change he param (fun n => ?_) fun n => ?_
  · by_cases hrule : n.rule = .join []
    · rw [if_pos hrule, if_pos ((hempty _).mpr hrule)]
      rfl
    · rw [if_neg hrule, if_neg (mt (hempty _).mp hrule)]
  · split
    · rfl
    · rfl

theorem shows_openParam_rest {param : TypeNodeId} (hparam : param ∉ Set.range (Ident.via e)) :
    (openParam g param).Shows name e g' := by
  refine h.change_rest hparam (fun n => ?_) fun n hdeps => ?_
  · split
    · rfl
    · rfl
  · split
    · exact nofun
    · exact hdeps

end

/-- The functions of a program with their calls bound. -/
def joined (p : ProgramTypes) : ProgramTypes :=
  { p with
    graph := (p.functions.flatMap (·.params)).foldl openParam (p.links.foldl connect p.graph)
    errors := (p.links.filter (!·.fits)).map Link.fault }

theorem link_eq (ts : List FunctionTypes) : link ts = (ts.foldl add {}).joined := rfl

theorem forall₂_of_eq_map {α β : Type} {f : β → α} {xs : List α} {ys : List β}
    (h : xs = ys.map f) : List.Forall₂ (fun x y => x = f y) xs ys := by
  rw [h, List.forall₂_map_left_iff, List.forall₂_same]
  exact fun _ _ => rfl

theorem flatMap_filter {α β : Type} (p : α → Bool) (f : α → List β) (xs : List α) :
    (xs.filter p).flatMap f = xs.flatMap (fun x => if p x then f x else []) := by
  induction xs with
  | nil => rfl
  | cons x xs ih => cases hp : p x <;> simp [hp, ih]

namespace Beside

variable {name : String} {e : Nat → Nat} {p p' : ProgramTypes}

section
variable (h : Beside name e p p')

include h

theorem function? {callee : String} (hne : callee ≠ name) :
    p.function? callee = (p'.function? callee).map (.rename e) := by
  have hkept : p.functions.find? (·.function == callee) =
      (p.functions.filter (·.function ≠ name)).find? (·.function == callee) := by
    rw [List.find?_filter]
    refine congrArg (List.find? · _) (funext fun t => ?_)
    by_cases ht : t.function = callee
    · simp [ht, hne]
    · simp [ht]
  rw [ProgramTypes.function?, hkept, h.functions, List.find?_map]
  rfl

theorem links : p.links.filter (·.caller ≠ name) = p'.links.map (.rename e) := by
  have hcalls : ∀ t : FunctionTypes, (t.calls.filterMap (fun call =>
      (p.function? call.callee).map (Link.mk t.function call))).filter (·.caller ≠ name) =
        if decide (t.function ≠ name) then t.calls.filterMap (fun call =>
          (p.function? call.callee).map (Link.mk t.function call)) else [] := by
    intro t
    have hcaller : ∀ l ∈ t.calls.filterMap (fun call =>
        (p.function? call.callee).map (Link.mk t.function call)), l.caller = t.function := by
      intro l hl
      obtain ⟨call, -, hl⟩ := List.mem_filterMap.mp hl
      obtain ⟨callee, -, rfl⟩ := Option.map_eq_some_iff.mp hl
      rfl
    split
    · rename_i hne
      exact List.filter_eq_self.mpr fun l hl => (hcaller l hl).symm ▸ hne
    · rename_i hsame
      refine List.filter_eq_nil_iff.mpr fun l hl hne => hsame ?_
      exact hcaller l hl ▸ hne
  rw [ProgramTypes.links, List.filter_flatMap, List.flatMap_congr fun t _ => hcalls t,
    ← flatMap_filter, h.functions, List.flatMap_map, ProgramTypes.links, List.map_flatMap]
  refine List.flatMap_congr fun t ht => ?_
  rw [List.map_filterMap, FunctionTypes.rename, List.filterMap_map]
  refine List.filterMap_congr fun call hcall => ?_
  rw [Function.comp_apply, CallSite.rename, h.function? ((h.called t ht).2 call hcall),
    Option.map_map, Option.map_map]
  rfl

/-- A function of the rest is called by the rest only. -/
theorem rest_links {l : Link} (hl : l ∈ p.links) (hcaller : l.caller = name) :
    l.call.apply ∉ Set.range (Ident.via e) ∧ (∀ d ∈ l.call.args, d ∉ Set.range (Ident.via e)) ∧
      ∀ d ∈ l.callee.ids, d ∉ Set.range (Ident.via e) := by
  obtain ⟨t, ht, hl⟩ := List.mem_flatMap.mp hl
  obtain ⟨call, hcall, hl⟩ := List.mem_filterMap.mp hl
  obtain ⟨callee, hcallee, rfl⟩ := Option.map_eq_some_iff.mp hl
  obtain ⟨hids, hothers⟩ := h.rest t ht hcaller
  obtain ⟨-, -, -, hcalls⟩ := FunctionTypes.forall_ids.mp hids
  refine ⟨(hcalls call hcall).1, (hcalls call hcall).2, ?_⟩
  refine (h.rest callee (List.mem_of_find?_eq_some hcallee) ?_).1
  have hfound : callee.function = call.callee := by simpa using List.find?_some hcallee
  by_contra hne
  have hmem : callee ∈ p.functions.filter (·.function ≠ name) :=
    List.mem_filter.mpr ⟨List.mem_of_find?_eq_some hcallee, decide_eq_true hne⟩
  rw [h.functions] at hmem
  obtain ⟨u, hu, rfl⟩ := List.mem_map.mp hmem
  exact hothers call hcall u hu hfound.symm

theorem joined : Beside name e p.joined p'.joined := by
  have hinjective := h.mono.injective
  have hconnected : (p.links.foldl connect p.graph).Shows name e
      (p'.links.foldl connect p'.graph) := by
    refine foldl_alike (p := (·.caller ≠ name)) (forall₂_of_eq_map h.links) ?_ ?_ h.graph
    · rintro _ - l - rfl g g' hg
      exact shows_connect hg hinjective l
    · intro l hl hcaller g g' hg
      obtain ⟨happly, hargs, hcallee⟩ := h.rest_links hl (by simpa using hcaller)
      exact shows_connect_rest hg happly hargs hcallee
  have hopened : ((p.functions.flatMap (·.params)).foldl openParam
      (p.links.foldl connect p.graph)).Shows name e
        ((p'.functions.flatMap (·.params)).foldl openParam (p'.links.foldl connect p'.graph)) := by
    rw [List.foldl_flatMap, List.foldl_flatMap]
    refine foldl_alike (p := (·.function ≠ name)) (forall₂_of_eq_map h.functions) ?_ ?_ hconnected
    · rintro _ - t - rfl g g' hg
      rw [FunctionTypes.rename, List.foldl_map]
      exact List.foldl_rel (r := fun g g' => TypeGraph.Shows name e g g') hg
        fun param _ g g' hg => shows_openParam hg hinjective param
    · intro t ht hname g g' hg
      obtain ⟨-, hparams, -, -⟩ :=
        FunctionTypes.forall_ids.mp (h.rest t ht (by simpa using hname)).1
      exact List.foldlRecOn (motive := fun g => g.Shows name e g') t.params openParam hg
        fun g hg param hparam => shows_openParam_rest hg (hparams param hparam)
  refine ⟨h.mono, hopened, h.functions, h.called, h.rest, ?_⟩
  have hfits : ∀ l : Link, (l.rename e).fits = l.fits := fun l => by
    simp [Link.fits, Link.rename, FunctionTypes.rename, CallSite.rename]
  have hfault : ∀ l : Link, (l.rename e).fault = l.fault := fun l => by
    simp [Link.fault, Link.rename, FunctionTypes.rename, CallSite.rename]
  have hkept : (p.links.filter (!·.fits)).filter (·.caller ≠ name) =
      (p'.links.filter (!·.fits)).map (.rename e) := by
    rw [List.filter_filter, List.filter_congr fun l _ => Bool.and_comm _ _, ← List.filter_filter,
      h.links, List.filter_map]
    exact congrArg _ (List.filter_congr fun l _ => congrArg not (hfits l))
  change ((p.links.filter (!·.fits)).map Link.fault).filter (·.1 ≠ name) =
    (p'.links.filter (!·.fits)).map Link.fault
  rw [List.filter_map]
  refine (congrArg (List.map Link.fault) hkept).trans ?_
  rw [List.map_map]
  exact List.map_congr_left fun l _ => hfault l

/-- A function calls the same functions in both. -/
theorem calleesOf {t : FunctionTypes} (ht : t ∈ p'.functions) :
    p.calleesOf (t.rename e) = p'.calleesOf t := by
  have hcallees : (t.rename e).calls.map (·.callee) = t.calls.map (·.callee) := by
    simp [FunctionTypes.rename, CallSite.rename]
  rw [ProgramTypes.calleesOf, ProgramTypes.calleesOf, hcallees]
  refine congrArg distinct (List.filter_congr fun callee hcallee => ?_)
  obtain ⟨call, hcall, rfl⟩ := List.mem_map.mp hcallee
  rw [h.function? ((h.called t ht).2 call hcall), Option.isSome_map]

/-- The one function more calls no other one. -/
theorem calleesOf_rest {t : FunctionTypes} (ht : t ∈ p.functions) (hname : t.function = name) :
    ∀ callee ∈ p.calleesOf t, callee = name := by
  intro callee hcallee
  rw [ProgramTypes.calleesOf, mem_distinct, List.mem_filter] at hcallee
  obtain ⟨call, hcall, rfl⟩ := List.mem_map.mp hcallee.1
  by_contra hne
  rw [h.function? hne, Option.isSome_map] at hcallee
  obtain ⟨u, hu⟩ := Option.isSome_iff_exists.mp hcallee.2
  have hfound : u.function = call.callee := by simpa using List.find?_some hu
  exact (h.rest t ht hname).2 call hcall u (List.mem_of_find?_eq_some hu) hfound.symm

end

end Beside

theorem names_link {ts : List FunctionTypes} (hnodup : (ts.map (·.function)).Nodup) :
    (link ts).functions.map (·.function) = ts.map (·.function) := by
  obtain ⟨placed, hlaid, rfl⟩ := foldl_add_laid ts hnodup
  have hfunctions : (link (placed.map (·.2))).functions = _ := hlaid.functions
  rw [hfunctions, List.map_map, List.map_map]
  rfl

/-- A function between others that it does not call and that do not call it. -/
theorem link_beside {xs ys : List FunctionTypes} {t : FunctionTypes}
    (hnodup : ((xs ++ t :: ys).map (·.function)).Nodup)
    (henclosed : ∀ u ∈ xs ++ t :: ys, u.Enclosed)
    (hcalled : ∀ u ∈ xs ++ ys, ∀ c ∈ u.calls, c.callee ≠ t.function)
    (hcalls : ∀ c ∈ t.calls, ∀ u ∈ xs ++ ys, c.callee ≠ u.function) :
    ∃ e, Beside t.function e (link (xs ++ t :: ys)) (link (xs ++ ys)) := by
  have hnames : (xs.map (·.function) ++ t.function :: ys.map (·.function)).Nodup := by
    simpa using hnodup
  obtain ⟨hxs, hrest, hapart⟩ := List.nodup_append.mp hnames
  obtain ⟨hp, placed, hplaced, hfunctions⟩ := foldl_add_enclosed hxs
    fun u hu => henclosed u (List.mem_append_left _ hu)
  have hfrom : ∀ u ∈ (xs.foldl add {}).functions, ∃ offset, ∃ v ∈ xs, u = shifted offset v := by
    rw [hfunctions, List.forall_mem_map]
    exact fun q hq => ⟨q.1, q.2, hplaced ▸ List.mem_map_of_mem hq, rfl⟩
  have hcalled' : ∀ u ∈ (xs.foldl add {}).functions,
      u.function ≠ t.function ∧ ∀ c ∈ u.calls, c.callee ≠ t.function := by
    intro u hu
    obtain ⟨offset, v, hv, rfl⟩ := hfrom u hu
    refine ⟨hapart v.function (List.mem_map_of_mem hv) _ List.mem_cons_self, ?_⟩
    exact List.forall_mem_map.mpr (hcalled v (List.mem_append_left _ hv))
  have hcalls' : ∀ c ∈ t.calls, ∀ u ∈ (xs.foldl add {}).functions, c.callee ≠ u.function := by
    intro c hc u hu
    obtain ⟨offset, v, hv, rfl⟩ := hfrom u hu
    exact hcalls c hc v (List.mem_append_left _ hv)
  have herrors : (xs.foldl add {}).errors = [] :=
    List.foldlRecOn (motive := fun p : ProgramTypes => p.errors = []) xs add rfl fun _ h _ _ => h
  have hstart := Beside.start hp (henclosed t (by simp)) herrors hcalled' hcalls'
  have hadded := functions_add fun u hu => (hcalled' u hu).1
  rw [link_eq, link_eq, List.foldl_append, List.foldl_append]
  have hboth : Beside t.function _ (ys.foldl add ((xs.foldl add {}).add t))
      (ys.foldl add (xs.foldl add {})) := hstart.foldl_add ?_ ?_ ?_
  · exact ⟨_, hboth.joined⟩
  · rw [hadded, hfunctions, List.map_append, List.map_map]
    rw [← hplaced, List.map_map] at hnames
    simpa [shifted, Function.comp_def] using hnames
  · intro u hu
    refine ⟨fun hsame => ?_, hcalled u (List.mem_append_right _ hu)⟩
    exact (List.nodup_cons.mp hrest).1 (hsame ▸ List.mem_map_of_mem hu)
  · rw [hadded]
    refine List.forall_mem_append.mpr ⟨fun u hu hname => absurd hname (hcalled' u hu).1, ?_⟩
    rw [List.forall_mem_singleton]
    intro _
    refine List.forall_mem_map.mpr fun c hc u hu => ?_
    exact hcalls c hc u (List.mem_append_right _ hu)

end ProgramTypes

end TypedSsa

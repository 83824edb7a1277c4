import TypedSsa.Program.Report
import TypedSsa.Proofs.Grouping
import TypedSsa.Proofs.Joining

/-!
Which faults concern a function. Main statement: `Beside.findings`. A function that is not called by
the others and calls none of them has no part in what is found of these.
-/

namespace TypedSsa

namespace ProgramTypes

/-- The call graph of a program. -/
def callGraph (p : ProgramTypes) : CallGraph :=
  .ofEdges (p.functions.map (fun t => (t.function, p.calleesOf t)))

/-- The functions of a program that its function by a name calls. -/
def calleesBy (p : ProgramTypes) (name : String) : List String :=
  ((p.function? name).map p.calleesOf).getD []

theorem mem_calleesOf {p : ProgramTypes} {t : FunctionTypes} {callee : String} :
    callee ∈ p.calleesOf t ↔ (∃ c ∈ t.calls, c.callee = callee) ∧ (p.function? callee).isSome := by
  rw [calleesOf, mem_distinct, List.mem_filter, List.mem_map]

section
variable {p : ProgramTypes} (hnodup : (p.functions.map (·.function)).Nodup)

include hnodup

theorem relation_callGraph :
    CallGraph.relation (p.functions.map (fun t => (t.function, p.calleesOf t))) =
      p.functions.map (fun t => (t.function, p.calleesOf t)) := by
  have hnames : (p.functions.map (fun t => (t.function, p.calleesOf t))).map (·.1) =
      p.functions.map (·.function) := List.map_map
  refine CallGraph.relation_eq_self (hnames ▸ hnodup) ?_
  rw [hnames, List.forall_mem_map]
  intro t _ callee hcallee
  obtain ⟨u, hu⟩ := Option.isSome_iff_exists.mp (mem_calleesOf.mp hcallee).2
  have hname : u.function = callee := by simpa using List.find?_some hu
  exact hname ▸ List.mem_map_of_mem (List.mem_of_find?_eq_some hu)

/-- Functions are in one group if they call each other, if need be through others. -/
theorem mem_members_callGraph {f x : String} : x ∈ p.callGraph.members f ↔
    (p.function? f).isSome ∧ Digraph.Mutual p.calleesBy f x := by
  have hcallees : CallGraph.calleesIn
      (p.functions.map (fun t => (t.function, p.calleesOf t))) = p.calleesBy := by
    funext f
    rw [CallGraph.calleesIn, List.find?_map, Option.map_map]
    rfl
  rw [callGraph, CallGraph.mem_members, relation_callGraph hnodup, hcallees, List.map_map]
  refine and_congr_left fun _ => ?_
  rw [function?, List.find?_isSome]
  simp

end

namespace Beside

variable {name : String} {e : Nat → Nat} {p p' : ProgramTypes} (h : Beside name e p p')

include h

theorem calleesBy {f : String} (hf : f ≠ name) : p.calleesBy f = p'.calleesBy f := by
  rw [ProgramTypes.calleesBy, ProgramTypes.calleesBy, h.function? hf]
  cases hfind : p'.function? f with
  | none => rfl
  | some t => exact h.calleesOf (List.mem_of_find?_eq_some hfind)

theorem calleesBy_ne {f x : String} (hx : x ∈ p'.calleesBy f) :
    x ≠ name := by
  rw [ProgramTypes.calleesBy] at hx
  cases hfind : p'.function? f with
  | none => simp [hfind] at hx
  | some t =>
    rw [hfind] at hx
    obtain ⟨⟨c, hc, rfl⟩, -⟩ := mem_calleesOf.mp hx
    exact (h.called t (List.mem_of_find?_eq_some hfind)).2 c hc

theorem calleesBy_rest {x : String} (hx : x ∈ p.calleesBy name) : x = name := by
  rw [ProgramTypes.calleesBy] at hx
  cases hfind : p.function? name with
  | none => simp [hfind] at hx
  | some t =>
    rw [hfind] at hx
    have hname : t.function = name := by simpa using List.find?_some hfind
    exact h.calleesOf_rest (List.mem_of_find?_eq_some hfind) hname x hx

/-- Calls of the others lead to no more than the others. -/
theorem reaches_ne {f x : String} (hf : f ≠ name) (hreach : Digraph.Reaches p'.calleesBy f x) :
    x ≠ name := by
  cases hreach with
  | refl => exact hf
  | tail _ hx => exact h.calleesBy_ne hx

theorem reaches_iff {f x : String} (hf : f ≠ name) :
    Digraph.Reaches p.calleesBy f x ↔ Digraph.Reaches p'.calleesBy f x := by
  constructor
  · intro hreach
    induction hreach with
    | refl => exact .refl
    | tail _ hx ih =>
      rw [h.calleesBy (h.reaches_ne hf ih)] at hx
      exact ih.tail hx
  · intro hreach
    induction hreach with
    | refl => exact .refl
    | tail hto hx ih =>
      rw [← h.calleesBy (h.reaches_ne hf hto)] at hx
      exact ih.tail hx

theorem reaches_rest {x : String} (hreach : Digraph.Reaches p.calleesBy name x) : x = name := by
  induction hreach with
  | refl => rfl
  | tail _ hx ih => exact h.calleesBy_rest (ih ▸ hx)

section
variable (hnodup : (p.functions.map (·.function)).Nodup)

include hnodup

theorem nodup : (p'.functions.map (·.function)).Nodup := by
  have hnames : p'.functions.map (·.function) =
      (p.functions.filter (·.function ≠ name)).map (·.function) := by
    rw [h.functions, List.map_map]
    rfl
  rw [hnames]
  exact hnodup.sublist (List.filter_sublist.map _)

theorem members {f x : String} (hf : f ≠ name) :
    x ∈ p.callGraph.members f ↔ x ∈ p'.callGraph.members f := by
  rw [mem_members_callGraph hnodup, mem_members_callGraph (h.nodup hnodup),
    h.function? hf, Option.isSome_map]
  refine and_congr_right fun _ => ?_
  rw [Digraph.Mutual, Digraph.Mutual, h.reaches_iff hf]
  exact and_congr_right fun hto => h.reaches_iff (h.reaches_ne hf hto)

theorem members_rest {x : String} (hx : x ∈ p.callGraph.members name) : x = name :=
  h.reaches_rest ((mem_members_callGraph hnodup).mp hx).2.1

end

end Beside

/-! Whom a fault concerns. -/

/-- The function that a node is of. -/
def owner? (p : ProgramTypes) (m : TypeNodeId) : Option String :=
  (p.graph.node? m).bind (·.function)

namespace Beside

variable {name : String} {e : Nat → Nat} {p p' : ProgramTypes} (h : Beside name e p p')

include h

theorem owner?_via (m : TypeNodeId) : p.owner? (m.via e) = p'.owner? m := by
  rw [owner?, owner?, h.graph.nodes, Option.bind_map]
  rfl

theorem owner?_rest {m : TypeNodeId} (hm : m ∉ Set.range (Ident.via e)) {f : String}
    (hf : p.owner? m = some f) : f = name := by
  obtain ⟨n, hn, howner⟩ := Option.bind_eq_some_iff.mp hf
  exact Option.some.inj (howner.symm.trans (h.graph.apart m n hn hm).1)

end Beside

end ProgramTypes

/-! Findings of one function. -/

/-- A finding is another one, but for the nodes that did not settle. -/
structure Finding.Renumbers (e : Nat → Nat) (f f' : Finding) : Prop where
  function : f.function = f'.function
  severe : f.severe = f'.severe
  fault : f.fault = f'.fault ∨ f.fault = f'.fault.rename (.via e)

theorem Finding.Renumbers.refl (e : Nat → Nat) (f : Finding) : f.Renumbers e f :=
  ⟨rfl, rfl, .inl rfl⟩

/-- The functions that a cycle concerns. -/
def ProgramTypes.concerned (p : ProgramTypes) (f : RecursionFailure) : List String :=
  (f.members.filterMap p.owner?).flatMap (fun owner => p.callGraph.members owner ++ [owner])

/-- A cycle concerns a function once. -/
theorem Finding.filter_ofFailure (p : ProgramTypes) (f : RecursionFailure) (function : String) :
    (Finding.ofFailure p p.callGraph f).filter (·.function = function) =
      if function ∈ p.concerned f then [⟨function, f.fallback.isNone, f.error⟩] else [] := by
  have hkept : (distinct (p.concerned f)).filter (· = function) =
      if function ∈ p.concerned f then [function] else [] := by
    rw [List.filter_eq, (nodup_distinct (p.concerned f)).count, if_congr mem_distinct rfl rfl]
    split
    · rfl
    · rfl
  have hdistinct : Finding.ofFailure p p.callGraph f =
      (distinct (p.concerned f)).map (⟨·, f.fallback.isNone, f.error⟩) := rfl
  rw [hdistinct, List.filter_map]
  refine (congrArg _ hkept).trans ?_
  split
  · rfl
  · rfl

/-- What is dropped in the end can be dropped before. -/
theorem filter_filterMap_of {α β : Type} {f : α → Option β} {p : α → Bool} {q : β → Bool}
    (h : ∀ x, p x = false → ∀ y, f x = some y → q y = false) (xs : List α) :
    (xs.filterMap f).filter q = ((xs.filter p).filterMap f).filter q := by
  rw [List.filter_filterMap, List.filter_filterMap, List.filterMap_filter]
  refine List.filterMap_congr fun x _ => ?_
  cases hp : p x with
  | true => rfl
  | false =>
    cases hf : f x with
    | none => rfl
    | some y => exact Option.filter_some_neg (by simp [h x hp y hf])

namespace ProgramTypes.Beside

variable {name : String} {e : Nat → Nat} {p p' : ProgramTypes} {res res' : Resolution}

section
variable (h : Beside name e p p')

include h

theorem mem_concerned (hnodup : (p.functions.map (·.function)).Nodup) {f f' : RecursionFailure}
    (hf : f.Matches e f') {function : String} :
    function ∈ p.concerned f ↔ function ∈ p'.concerned f' := by
  have howners : f.members.filterMap p.owner? = f'.members.filterMap p'.owner? := by
    rw [hf.members, List.filterMap_map]
    exact List.filterMap_congr fun m _ => h.owner?_via m
  rw [concerned, concerned, howners, List.mem_flatMap, List.mem_flatMap]
  refine exists_congr fun owner => and_congr_right fun howner => ?_
  obtain ⟨m, -, howner⟩ := List.mem_filterMap.mp howner
  obtain ⟨n, hn, hfunction⟩ := Option.bind_eq_some_iff.mp howner
  have hne : owner ≠ name := fun hsame => h.graph.owned m n hn (hsame ▸ hfunction)
  rw [List.mem_append, List.mem_append, h.members hnodup hne]

/-- A cycle of the one function more concerns no other one. -/
theorem concerned_rest (hnodup : (p.functions.map (·.function)).Nodup) {f : RecursionFailure}
    (hf : ∀ m ∈ f.members, m ∉ Set.range (Ident.via e)) {function : String}
    (hfunction : function ∈ p.concerned f) : function = name := by
  obtain ⟨owner, howner, hfunction⟩ := List.mem_flatMap.mp hfunction
  obtain ⟨m, hm, howner⟩ := List.mem_filterMap.mp howner
  obtain rfl := h.owner?_rest (hf m hm) howner
  rcases List.mem_append.mp hfunction with hmember | hself
  · exact h.members_rest hnodup hmember
  · exact List.mem_singleton.mp hself

open Classical in
theorem filter_ofNode (severe : Bool) {function : String} (hne : function ≠ name)
    {entries entries' : List (TypeNodeId × Fault)}
    (hentries : entries.filter (·.1 ∈ Set.range (Ident.via e)) = entries'.map (Resolver.moved e)) :
    (entries.filterMap (Finding.ofNode p severe)).filter (·.function = function) =
      (entries'.filterMap (Finding.ofNode p' severe)).filter (·.function = function) := by
  rw [filter_filterMap_of (p := (·.1 ∈ Set.range (Ident.via e))), hentries, List.filterMap_map]
  · refine congrArg _ (List.filterMap_congr fun entry _ => ?_)
    exact congrArg (Option.map _) (h.owner?_via entry.1)
  · intro entry hout f hf
    obtain ⟨owner, howner, rfl⟩ := Option.map_eq_some_iff.mp hf
    obtain rfl := h.owner?_rest (of_decide_eq_false hout) howner
    exact decide_eq_false hne.symm

variable (hres : Resolution.Reflects e p.graph p'.graph res res')

include hres

/-- A cycle of the others concerns a function as it does without the one more. -/
theorem filter_ofFailure (hnodup : (p.functions.map (·.function)).Nodup)
    (hsolution : ∀ f ∈ res.failures, ¬f.Of e → ∀ m ∈ f.members, m ∉ Set.range (Ident.via e))
    {function : String} (hne : function ≠ name) :
    List.Forall₂ (Finding.Renumbers e)
      ((res.failures.flatMap (Finding.ofFailure p p.callGraph)).filter (·.function = function))
      ((res'.failures.flatMap (Finding.ofFailure p' p'.callGraph)).filter
        (·.function = function)) := by
  classical
  have hrest : ∀ f ∈ res.failures,
      (Finding.ofFailure p p.callGraph f).filter (·.function = function) =
        if decide (f.Of e) then
          (Finding.ofFailure p p.callGraph f).filter (·.function = function) else [] := by
    intro f hf
    split
    · rfl
    · rename_i hnot
      rw [Finding.filter_ofFailure, if_neg]
      intro hmem
      refine hne (h.concerned_rest hnodup (hsolution f hf ?_) hmem)
      simpa using hnot
  rw [List.filter_flatMap, List.filter_flatMap, List.flatMap_congr hrest, ← flatMap_filter]
  refine List.rel_flatMap hres.failures fun f f' hf => ?_
  rw [Finding.filter_ofFailure, Finding.filter_ofFailure,
    if_congr (h.mem_concerned hnodup hf) rfl rfl]
  split
  · exact .cons ⟨rfl, congrArg Option.isNone hf.fallback, .inr hf.error⟩ .nil
  · exact .nil

/-- What is found of a function is what is found of it without the one more. -/
theorem findings (hnodup : (p.functions.map (·.function)).Nodup)
    (hsolution : ∀ f ∈ res.failures, ¬f.Of e → ∀ m ∈ f.members, m ∉ Set.range (Ident.via e))
    {function : String} (hne : function ≠ name) :
    List.Forall₂ (Finding.Renumbers e)
      ((Finding.all p p.callGraph res).filter (·.function = function))
      ((Finding.all p' p'.callGraph res').filter (·.function = function)) := by
  have herrors : (p.errors.map (fun entry => (⟨entry.1, true, entry.2⟩ : Finding))).filter
      (·.function = function) = (p'.errors.map (fun entry => ⟨entry.1, true, entry.2⟩)).filter
        (·.function = function) := by
    rw [← h.errors, List.filter_map, List.filter_map, List.filter_filter]
    refine congrArg _ (List.filter_congr fun entry _ => ?_)
    by_cases hfunction : entry.1 = function
    · simp [hfunction, hne]
    · simp [hfunction]
  rw [Finding.all, Finding.all, List.filter_append, List.filter_append, List.filter_append,
    List.filter_append, List.filter_append, List.filter_append, herrors,
    h.filter_ofNode true hne hres.errors, h.filter_ofNode false hne hres.warnings]
  refine List.rel_append ?_ (h.filter_ofFailure hres hnodup hsolution hne)
  exact List.forall₂_same.mpr fun f _ => .refl e f

end

end ProgramTypes.Beside

end TypedSsa

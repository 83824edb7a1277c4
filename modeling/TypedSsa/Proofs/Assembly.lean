import TypedSsa.Proofs.Wiring
import TypedSsa.Typing.Program

/-!
What linking makes of the graphs of functions. Main statements: `link_kept`, `link_call` and
`link_param`. A function's nodes move up together. A call of a function of the program takes the
type of its result, a parameter without a type joins what the calls pass for it, and all other nodes
stay as they are.
-/

namespace TypedSsa

/-- An id that moves up. -/
def Ident.up {s : Named} (offset : Nat) (id : Ident s) : Ident s :=
  ⟨id.raw + offset⟩

theorem Ident.up_inj {s : Named} {offset : Nat} {i j : Ident s} :
    i.up offset = j.up offset ↔ i = j := by
  cases i
  cases j
  simp [Ident.up]

namespace ProgramTypes

/-! The functions one after the other. -/

/-- Each function's graph stands in the program's from its place on. -/
structure Laid (placed : List (Nat × FunctionTypes)) (p : ProgramTypes) : Prop where
  functions : p.functions = placed.map (fun q => shifted q.1 q.2)
  nodes : ∀ q ∈ placed, ∀ m n, q.2.graph.node? m = some n → p.graph.node? (m.up q.1) =
    some { n with rule := n.rule.shift q.1, function := some q.2.function }
  apart : placed.Pairwise (fun q r => q.1 + q.2.graph.size ≤ r.1)
  inside : ∀ q ∈ placed, q.1 + q.2.graph.size ≤ p.graph.size
  covered : ∀ i, i < p.graph.size → ∃ q ∈ placed, q.1 ≤ i ∧ i < q.1 + q.2.graph.size

variable {placed : List (Nat × FunctionTypes)} {p : ProgramTypes}

theorem Laid.add (h : Laid placed p) {t : FunctionTypes}
    (hnew : t.function ∉ placed.map (·.2.function)) :
    Laid (placed ++ [(p.graph.size, t)]) (p.add t) := by
  have habsent : p.functions.any (·.function == (shifted p.graph.size t).function) = false := by
    rw [List.any_eq_false]
    intro u hu hsame
    rw [h.functions] at hu
    obtain ⟨q, hq, rfl⟩ := List.mem_map.mp hu
    exact hnew (List.mem_map.mpr ⟨q, hq, eq_of_beq hsame⟩)
  have hsize : (p.add t).graph.size = p.graph.size + t.graph.size := TypeGraph.size_append _ _ _
  exact {
    functions := by
      rw [ProgramTypes.add, putBy_of_absent _ _ _ habsent, h.functions]
      simp
    nodes := by
      intro q hq m n hm
      have hlt := TypeGraph.raw_lt_of_node? hm
      refine (TypeGraph.node?_append _ _ _ _).trans ?_
      rcases List.mem_append.mp hq with hq | hq
      · have hinside := h.inside q hq
        rw [if_pos (by simp only [Ident.up]; omega)]
        exact h.nodes q hq m n hm
      · obtain rfl := List.mem_singleton.mp hq
        rw [if_neg (by simp only [Ident.up]; omega)]
        simp [Ident.up, hm]
    apart := by
      refine List.pairwise_append.mpr ⟨h.apart, List.pairwise_singleton _ _, ?_⟩
      intro q hq r hr
      rw [List.mem_singleton.mp hr]
      exact h.inside q hq
    inside := by
      intro q hq
      rw [hsize]
      rcases List.mem_append.mp hq with hq | hq
      · exact (h.inside q hq).trans (Nat.le_add_right _ _)
      · rw [List.mem_singleton.mp hq]
    covered := by
      intro i hi
      rw [hsize] at hi
      by_cases hold : i < p.graph.size
      · obtain ⟨q, hq, hplace⟩ := h.covered i hold
        exact ⟨q, List.mem_append_left _ hq, hplace⟩
      · exact ⟨_, List.mem_append_right _ (List.mem_singleton.mpr rfl), by simpa using hold, hi⟩ }

theorem foldl_add_laid (ts : List FunctionTypes) (hnodup : (ts.map (·.function)).Nodup) :
    ∃ placed, Laid placed (ts.foldl add {}) ∧ placed.map (·.2) = ts := by
  suffices ∀ (rest : List FunctionTypes) (placed : List (Nat × FunctionTypes)) (p : ProgramTypes),
      Laid placed p → ((placed.map (·.2) ++ rest).map (·.function)).Nodup →
      ∃ placed', Laid placed' (rest.foldl add p) ∧ placed'.map (·.2) = placed.map (·.2) ++ rest by
    refine this ts [] {} ⟨rfl, by simp, .nil, by simp, ?_⟩ hnodup
    intro i hi
    cases hi
  intro rest
  induction rest with
  | nil => exact fun placed p h _ => ⟨placed, h, by simp⟩
  | cons t rest ih =>
    intro placed p h hnodup
    have hnew : t.function ∉ placed.map (·.2.function) := by
      intro hmem
      rw [List.map_append, List.map_cons] at hnodup
      have hne := (List.nodup_append.mp hnodup).2.2
      obtain ⟨q, hq, hsame⟩ := List.mem_map.mp hmem
      exact hne _ (List.mem_map.mpr ⟨q.2, List.mem_map_of_mem hq, hsame⟩) _ List.mem_cons_self rfl
    obtain ⟨placed', hlaid, hplaced⟩ := ih _ _ (h.add hnew) (by simpa using hnodup)
    exact ⟨placed', hlaid, by simpa using hplaced⟩

namespace Laid

/-- Two functions have no node in common. -/
theorem unique (h : Laid placed p) {q r : Nat × FunctionTypes} (hq : q ∈ placed) (hr : r ∈ placed)
    {m m' : TypeNodeId} (hm : m.raw < q.2.graph.size) (hm' : m'.raw < r.2.graph.size)
    (hsame : m.up q.1 = m'.up r.1) : q = r ∧ m = m' := by
  have hraw : m.raw + q.1 = m'.raw + r.1 := congrArg Ident.raw hsame
  obtain ⟨i, hi⟩ := List.mem_iff_getElem?.mp hq
  obtain ⟨j, hj⟩ := List.mem_iff_getElem?.mp hr
  obtain ⟨hi', rfl⟩ := List.getElem?_eq_some_iff.mp hi
  obtain ⟨hj', rfl⟩ := List.getElem?_eq_some_iff.mp hj
  rcases Nat.lt_trichotomy i j with hlt | rfl | hlt
  · have hapart := List.pairwise_iff_getElem.mp h.apart i j hi' hj' hlt
    omega
  · exact ⟨rfl, Ident.up_inj.mp hsame⟩
  · have hapart := List.pairwise_iff_getElem.mp h.apart j i hj' hi' hlt
    omega

theorem rule? (h : Laid placed p) {q : Nat × FunctionTypes} (hq : q ∈ placed) {m : TypeNodeId}
    {rule : TypeRule} (hm : q.2.graph.rule? m = some rule) :
    p.graph.rule? (m.up q.1) = some (rule.shift q.1) := by
  obtain ⟨n, hn, rfl⟩ := Option.map_eq_some_iff.mp hm
  rw [TypeGraph.rule?, h.nodes q hq m n hn, Option.map_some]

theorem function?_eq (h : Laid placed p) (hnodup : (placed.map (·.2.function)).Nodup)
    {q : Nat × FunctionTypes} (hq : q ∈ placed) :
    p.function? q.2.function = some (shifted q.1 q.2) := by
  rw [function?, h.functions, List.find?_map]
  cases hfind : placed.find? ((·.function == q.2.function) ∘ fun q => shifted q.1 q.2) with
  | none =>
    have hnot := List.find?_eq_none.mp hfind q hq
    simp [shifted] at hnot
  | some r =>
    have hsame : r.2.function = q.2.function := by simpa [shifted] using List.find?_some hfind
    rw [List.inj_on_of_nodup_map hnodup (List.mem_of_find?_eq_some hfind) hq hsame,
      Option.map_some]

theorem of_function? (h : Laid placed p) {name : String} {u : FunctionTypes}
    (hu : p.function? name = some u) :
    ∃ q ∈ placed, q.2.function = name ∧ u = shifted q.1 q.2 := by
  have hmem := List.mem_of_find?_eq_some hu
  have hname := List.find?_some hu
  rw [h.functions] at hmem
  obtain ⟨q, hq, rfl⟩ := List.mem_map.mp hmem
  exact ⟨q, hq, by simpa [shifted] using hname, rfl⟩

/-- A link is between a call of one function and the other function. -/
theorem of_mem_links (h : Laid placed p) {l : Link} (hl : l ∈ p.links) :
    ∃ q ∈ placed, ∃ c ∈ q.2.calls, ∃ r ∈ placed, r.2.function = c.callee ∧
      l = ⟨q.2.function, shiftCall q.1 c, shifted r.1 r.2⟩ := by
  obtain ⟨caller, hcaller, hl⟩ := List.mem_flatMap.mp hl
  rw [h.functions] at hcaller
  obtain ⟨q, hq, rfl⟩ := List.mem_map.mp hcaller
  obtain ⟨call, hcall, hl⟩ := List.mem_filterMap.mp hl
  obtain ⟨c, hc, rfl⟩ := List.mem_map.mp hcall
  obtain ⟨callee, hcallee, rfl⟩ := Option.map_eq_some_iff.mp hl
  obtain ⟨r, hr, hname, rfl⟩ := h.of_function? hcallee
  exact ⟨q, hq, c, hc, r, hr, hname, rfl⟩

theorem mem_links (h : Laid placed p) (hnodup : (placed.map (·.2.function)).Nodup)
    {q r : Nat × FunctionTypes} (hq : q ∈ placed) {c : CallSite} (hc : c ∈ q.2.calls)
    (hr : r ∈ placed) (hname : r.2.function = c.callee) :
    ⟨q.2.function, shiftCall q.1 c, shifted r.1 r.2⟩ ∈ p.links := by
  refine List.mem_flatMap.mpr ⟨shifted q.1 q.2, ?_, List.mem_filterMap.mpr
    ⟨shiftCall q.1 c, List.mem_map_of_mem hc, Option.map_eq_some_iff.mpr ⟨_, ?_, rfl⟩⟩⟩
  · rw [h.functions]
    exact List.mem_map_of_mem hq
  · exact (congrArg p.function? hname.symm).trans (h.function?_eq hnodup hr)

end Laid

/-! Connecting them. -/

/-- What is bound to a node. -/
def fed (bindings : List (TypeNodeId × TypeNodeId)) (m : TypeNodeId) : List TypeNodeId :=
  (bindings.filter (·.1 = m)).map (·.2)

theorem fed_append (bs bs' : List (TypeNodeId × TypeNodeId)) (m : TypeNodeId) :
    fed (bs ++ bs') m = fed bs m ++ fed bs' m := by
  simp [fed]

theorem fed_flatMap {α : Type} (xs : List α) (bindings : α → List (TypeNodeId × TypeNodeId))
    (m : TypeNodeId) : fed (xs.flatMap bindings) m = xs.flatMap (fun x => fed (bindings x) m) := by
  simp [fed, List.filter_flatMap, List.map_flatMap]

theorem fed_eq_nil {bs : List (TypeNodeId × TypeNodeId)} {m : TypeNodeId}
    (h : ∀ b ∈ bs, b.1 ≠ m) : fed bs m = [] := by
  rw [fed, List.filter_eq_nil_iff.mpr, List.map_nil]
  intro b hb
  simpa using h b hb

theorem fed_zip {params args : List TypeNodeId} (hnodup : params.Nodup) {i : Nat} {m : TypeNodeId}
    (hm : params[i]? = some m) : fed (params.zip args) m = args[i]?.toList := by
  induction params generalizing args i with
  | nil => cases hm
  | cons x params ih =>
    cases args with
    | nil => simp [fed]
    | cons y args =>
      rw [List.nodup_cons] at hnodup
      cases i with
      | zero =>
        obtain rfl : x = m := Option.some.inj hm
        have hrest : fed (params.zip args) x = [] := by
          refine fed_eq_nil fun b hb hsame => hnodup.1 ?_
          exact hsame ▸ (List.of_mem_zip hb).1
        rw [fed] at hrest
        simp [fed, hrest]
      | succ i =>
        have hne : x ≠ m := by
          rintro rfl
          exact hnodup.1 (List.mem_of_getElem? hm)
        have hrest := @ih args hnodup.2 i hm
        rw [fed] at hrest
        simp [fed, hne, hrest]

def feed (xs : List TypeNodeId) (rule : TypeRule) : TypeRule :=
  xs.foldl (fun rule x => addInput x rule) rule

@[simp] theorem map_feed_nil (rule : Option TypeRule) : rule.map (feed []) = rule := by
  cases rule <;> rfl

theorem rule?_foldl_bind (bs : List (TypeNodeId × TypeNodeId)) (g : TypeGraph) (m : TypeNodeId) :
    (bs.foldl bindArgument g).rule? m = (g.rule? m).map (feed (fed bs m)) := by
  induction bs generalizing g with
  | nil => simp [fed]
  | cons b bs ih =>
    rw [List.foldl_cons, ih, bindArgument, TypeGraph.rule?_change]
    by_cases hm : m = b.1
    · subst hm
      rw [if_pos rfl, TypeGraph.rule?, Option.map_map, Option.map_map]
      simp [fed, feed, Function.comp_def]
    · rw [if_neg hm]
      simp [fed, Ne.symm hm]

@[simp] theorem size_connect (g : TypeGraph) (l : Link) : (connect g l).size = g.size := by
  have hbind : ∀ (bs : List (TypeNodeId × TypeNodeId)) (g : TypeGraph),
      (bs.foldl bindArgument g).size = g.size := by
    intro bs
    induction bs with
    | nil => exact fun _ => rfl
    | cons b bs ih => exact fun g => (ih _).trans (TypeGraph.size_change _ _ _)
  exact (hbind _ _).trans (TypeGraph.size_change _ _ _)

theorem rule?_foldl_connect_of_ne {ls : List Link} {m : TypeNodeId}
    (h : ∀ l ∈ ls, m ≠ l.call.apply) (g : TypeGraph) :
    (ls.foldl connect g).rule? m = (g.rule? m).map (feed (fed (ls.flatMap Link.bindings) m)) := by
  induction ls generalizing g with
  | nil => simp [fed]
  | cons l ls ih =>
    rw [List.foldl_cons, ih fun l' hl' => h l' (by simp [hl']), connect, rule?_foldl_bind,
      TypeGraph.setRule, TypeGraph.rule?_change, if_neg (h l (by simp)), Option.map_map,
      List.flatMap_cons, fed_append]
    congr 1
    funext rule
    simp [feed]

theorem rule?_foldl_connect_apply {ls : List Link} {m result : TypeNodeId}
    (hbindings : ∀ l ∈ ls, ∀ b ∈ l.bindings, b.1 ≠ m)
    (hresult : ∀ l ∈ ls, m = l.call.apply → l.callee.result = result) (g : TypeGraph)
    (hm : m.raw < g.size)
    (hsome : (∃ l ∈ ls, m = l.call.apply) ∨ g.rule? m = some (.copy result)) :
    (ls.foldl connect g).rule? m = some (.copy result) := by
  induction ls generalizing g with
  | nil => simpa using hsome
  | cons l ls ih =>
    rw [List.foldl_cons]
    refine ih (fun l' hl' => hbindings l' (by simp [hl']))
      (fun l' hl' => hresult l' (by simp [hl'])) _
      (by rwa [size_connect]) ?_
    have hfed : fed l.bindings m = [] := fed_eq_nil (hbindings l (by simp))
    rcases eq_or_ne m l.call.apply with rfl | hne
    · refine .inr ?_
      rw [connect, rule?_foldl_bind, TypeGraph.rule?_setRule hm, if_pos rfl, hfed, map_feed_nil,
        hresult l (by simp) rfl]
    · rcases hsome with ⟨l', hl', hl₂⟩ | hrule
      · rcases List.mem_cons.mp hl' with rfl | hl'
        · exact absurd hl₂ hne
        · exact .inl ⟨l', hl', hl₂⟩
      · refine .inr ?_
        rw [connect, rule?_foldl_bind, TypeGraph.setRule, TypeGraph.rule?_change, if_neg hne, hrule,
          hfed, map_feed_nil]

theorem rule?_openParam (g : TypeGraph) (param m : TypeNodeId) :
    (openParam g param).rule? m = if m = param ∧ g.rule? m = some (.join []) then
      some (.constant .dynamic) else g.rule? m := by
  rw [openParam, TypeGraph.rule?_change]
  by_cases hm : m = param
  · subst hm
    rw [if_pos rfl, TypeGraph.rule?]
    cases g.node? m with
    | none => simp
    | some n => by_cases hn : n.rule = .join [] <;> simp [hn]
  · rw [if_neg hm, if_neg (fun h => hm h.1)]

theorem rule?_foldl_openParam (ps : List TypeNodeId) (g : TypeGraph) (m : TypeNodeId) :
    (ps.foldl openParam g).rule? m = if m ∈ ps ∧ g.rule? m = some (.join []) then
      some (.constant .dynamic) else g.rule? m := by
  induction ps generalizing g with
  | nil => simp
  | cons p ps ih =>
    rw [List.foldl_cons, ih, rule?_openParam]
    by_cases hp : m = p ∧ g.rule? m = some (.join [])
    · rw [if_pos hp, if_neg (by simp), if_pos ⟨by simp [hp.1], hp.2⟩]
    · rw [if_neg hp]
      by_cases hps : m ∈ ps ∧ g.rule? m = some (.join [])
      · rw [if_pos hps, if_pos ⟨List.mem_cons_of_mem _ hps.1, hps.2⟩]
      · rw [if_neg hps, if_neg]
        rintro ⟨hmem, hrule⟩
        rcases List.mem_cons.mp hmem with hm | hm
        · exact hp ⟨hm, hrule⟩
        · exact hps ⟨hm, hrule⟩

/-! What linking needs to know of a function. -/

/-- Parameters come before calls, and no two of either have one node. -/
structure Shaped (low : Nat) (t : FunctionTypes) : Prop where
  low_le : low ≤ t.graph.size
  params : ∀ x ∈ t.params, x.raw < low
  nodup : t.params.Nodup
  calls : ∀ c ∈ t.calls, low ≤ c.apply.raw ∧ c.apply.raw < t.graph.size
  apart : ∀ c ∈ t.calls, ∀ c' ∈ t.calls, c.apply = c'.apply → c = c'

/-- Functions by different names of which each can be linked, and how they are laid out. -/
structure Assembled (ts : List FunctionTypes) (placed : List (Nat × FunctionTypes)) : Prop where
  laid : Laid placed (ts.foldl add {})
  all : placed.map (·.2) = ts
  nodup : (placed.map (·.2.function)).Nodup
  shaped : ∀ q ∈ placed, ∃ low, Shaped low q.2

theorem assembled {ts : List FunctionTypes} (hnodup : (ts.map (·.function)).Nodup)
    (hshaped : ∀ t ∈ ts, ∃ low, Shaped low t) : ∃ placed, Assembled ts placed := by
  obtain ⟨placed, hlaid, hplaced⟩ := foldl_add_laid ts hnodup
  refine ⟨placed, hlaid, hplaced, ?_, fun q hq => hshaped q.2 (hplaced ▸ List.mem_map_of_mem hq)⟩
  rw [← hplaced, List.map_map] at hnodup
  exact hnodup

namespace Assembled

variable {ts : List FunctionTypes}

/-- The graph before and after parameters without a type are opened. -/
theorem rule?_link (ts : List FunctionTypes) (m : TypeNodeId) :
    (link ts).graph.rule? m =
      if m ∈ (ts.foldl add {}).functions.flatMap (·.params) ∧
          ((ts.foldl add {}).links.foldl connect (ts.foldl add {}).graph).rule? m =
            some (.join []) then
        some (.constant .dynamic)
      else ((ts.foldl add {}).links.foldl connect (ts.foldl add {}).graph).rule? m :=
  rule?_foldl_openParam _ _ m

theorem raw_lt (h : Assembled ts placed) {q : Nat × FunctionTypes} (hq : q ∈ placed)
    {x : TypeNodeId} (hx : x ∈ q.2.params) : x.raw < q.2.graph.size := by
  obtain ⟨low, hlow⟩ := h.shaped q hq
  exact (hlow.params x hx).trans_le hlow.low_le

theorem mem_params (h : Assembled ts placed) {q : Nat × FunctionTypes} (hq : q ∈ placed)
    {m : TypeNodeId} (hm : m.raw < q.2.graph.size) :
    m.up q.1 ∈ (ts.foldl add {}).functions.flatMap (·.params) ↔ m ∈ q.2.params := by
  rw [h.laid.functions, List.flatMap_map, List.mem_flatMap]
  constructor
  · rintro ⟨r, hr, hmem⟩
    obtain ⟨x, hx, hsame⟩ := List.mem_map.mp hmem
    obtain ⟨rfl, rfl⟩ := h.laid.unique hq hr hm (h.raw_lt hr hx) hsame.symm
    exact hx
  · exact fun hmem => ⟨q, hq, List.mem_map_of_mem hmem⟩

/-- Only parameters are bound to anything. -/
theorem binding_ne (h : Assembled ts placed) {q : Nat × FunctionTypes} (hq : q ∈ placed)
    {m : TypeNodeId} (hm : m.raw < q.2.graph.size) (hnot : m ∉ q.2.params) :
    ∀ l ∈ (ts.foldl add {}).links, ∀ b ∈ l.bindings, b.1 ≠ m.up q.1 := by
  intro l hl b hb hsame
  obtain ⟨q', -, c, -, r, hr, -, rfl⟩ := h.laid.of_mem_links hl
  rw [Link.bindings] at hb
  split at hb
  · obtain ⟨x, hx, hup⟩ := List.mem_map.mp (List.of_mem_zip hb).1
    obtain ⟨rfl, rfl⟩ := h.laid.unique hq hr hm (h.raw_lt hr hx) (hsame.symm.trans hup.symm)
    exact hnot hx
  · cases hb

/-- Only calls take the type of a result. -/
theorem apply_eq (h : Assembled ts placed) {q : Nat × FunctionTypes} (hq : q ∈ placed)
    {m : TypeNodeId} (hm : m.raw < q.2.graph.size) {l : Link} (hl : l ∈ (ts.foldl add {}).links)
    (hsame : m.up q.1 = l.call.apply) : ∃ c ∈ q.2.calls, c.apply = m ∧
      ∃ r ∈ placed, r.2.function = c.callee ∧ l.callee = shifted r.1 r.2 := by
  obtain ⟨q', hq', c, hc, r, hr, hname, rfl⟩ := h.laid.of_mem_links hl
  obtain ⟨low, hlow⟩ := h.shaped q' hq'
  obtain ⟨rfl, rfl⟩ := h.laid.unique hq hq' hm (hlow.calls c hc).2 hsame
  exact ⟨c, hc, rfl, r, hr, hname, rfl⟩

/-- Other nodes stay as they are. -/
theorem link_kept (h : Assembled ts placed) {q : Nat × FunctionTypes} (hq : q ∈ placed)
    {m : TypeNodeId} {rule : TypeRule} (hrule : q.2.graph.rule? m = some rule)
    (hparam : m ∉ q.2.params)
    (hcall : ∀ c ∈ q.2.calls, c.apply = m → ∀ r ∈ placed, r.2.function ≠ c.callee) :
    (link ts).graph.rule? (m.up q.1) = some (rule.shift q.1) := by
  have hm := TypeGraph.raw_lt_of_rule? hrule
  have happly : ∀ l ∈ (ts.foldl add {}).links, m.up q.1 ≠ l.call.apply := by
    intro l hl hsame
    obtain ⟨c, hc, happly, r, hr, hname, -⟩ := h.apply_eq hq hm hl hsame
    exact hcall c hc happly r hr hname
  have hfed : fed ((ts.foldl add {}).links.flatMap Link.bindings) (m.up q.1) = [] := by
    refine fed_eq_nil fun b hb => ?_
    obtain ⟨l, hl, hb⟩ := List.mem_flatMap.mp hb
    exact h.binding_ne hq hm hparam l hl b hb
  rw [rule?_link, if_neg fun hopen => hparam ((h.mem_params hq hm).mp hopen.1),
    rule?_foldl_connect_of_ne happly, hfed, map_feed_nil, h.laid.rule? hq hrule]

/-- A call of a function of the program has the type of its result. -/
theorem link_call (h : Assembled ts placed) {q r : Nat × FunctionTypes} (hq : q ∈ placed)
    {c : CallSite} (hc : c ∈ q.2.calls) (hr : r ∈ placed) (hname : r.2.function = c.callee) :
    (link ts).graph.rule? (c.apply.up q.1) = some (.copy (r.2.result.up r.1)) := by
  obtain ⟨low, hlow⟩ := h.shaped q hq
  obtain ⟨hcall, hm⟩ := hlow.calls c hc
  have hparam : c.apply ∉ q.2.params := fun hmem => absurd (hlow.params _ hmem) (by omega)
  have hresult : ∀ l ∈ (ts.foldl add {}).links, c.apply.up q.1 = l.call.apply →
      l.callee.result = r.2.result.up r.1 := by
    intro l hl hsame
    obtain ⟨c', hc', happly, r', hr', hname', hcallee⟩ := h.apply_eq hq hm hl hsame
    obtain rfl := hlow.apart c' hc' c hc happly
    rw [hcallee, List.inj_on_of_nodup_map h.nodup hr' hr (hname'.trans hname.symm)]
    rfl
  have hlink := h.laid.mem_links h.nodup hq hc hr hname
  have hinside := h.laid.inside q hq
  rw [rule?_link, if_neg fun hopen => hparam ((h.mem_params hq hm).mp hopen.1)]
  exact rule?_foldl_connect_apply (h.binding_ne hq hm hparam) hresult _
    (by simp only [Ident.up]; omega) (.inl ⟨_, hlink, rfl⟩)

/-- What the calls of a function pass for one parameter, in the order of the program. -/
def passed (placed : List (Nat × FunctionTypes)) (name : String) (i : Nat) : List TypeNodeId :=
  placed.flatMap (fun q => (q.2.calls.filter (·.callee = name)).flatMap
    (fun c => (c.args[i]?.map (·.up q.1)).toList))

/-- What one link binds to a parameter. -/
theorem fed_link (h : Assembled ts placed) {q r r' : Nat × FunctionTypes} (hr : r ∈ placed)
    (hr' : r' ∈ placed) {c : CallSite} (hname : r'.2.function = c.callee) {i : Nat} {x : TypeNodeId}
    (hx : r.2.params[i]? = some x)
    (hfits : (⟨q.2.function, shiftCall q.1 c, shifted r'.1 r'.2⟩ : Link).fits = true) :
    fed (⟨q.2.function, shiftCall q.1 c, shifted r'.1 r'.2⟩ : Link).bindings (x.up r.1) =
      if c.callee = r.2.function then (c.args[i]?.map (·.up q.1)).toList else [] := by
  obtain ⟨low, hlow⟩ := h.shaped r hr
  rw [Link.bindings, if_pos hfits]
  split
  · rename_i hsame
    obtain rfl := List.inj_on_of_nodup_map h.nodup hr' hr (hname.trans hsame)
    have hup : (shifted r'.1 r'.2).params[i]? = some (x.up r'.1) := by
      rw [shifted, List.getElem?_map, hx]
      rfl
    have hnodup : (shifted r'.1 r'.2).params.Nodup :=
      hlow.nodup.map fun _ _ hsame => Ident.up_inj.mp hsame
    rw [fed_zip hnodup hup, shiftCall, List.getElem?_map]
    rfl
  · rename_i hne
    refine fed_eq_nil fun b hb hsame => hne ?_
    obtain ⟨y, hy, hup⟩ := List.mem_map.mp (List.of_mem_zip hb).1
    obtain ⟨rfl, -⟩ := h.laid.unique hr hr' (h.raw_lt hr (List.mem_of_getElem? hx))
      (h.raw_lt hr' hy) (hsame.symm.trans hup.symm)
    exact hname.symm

theorem fed_links (h : Assembled ts placed) (hfits : ∀ l ∈ (ts.foldl add {}).links, l.fits = true)
    {r : Nat × FunctionTypes} (hr : r ∈ placed) {i : Nat} {x : TypeNodeId}
    (hx : r.2.params[i]? = some x) :
    fed ((ts.foldl add {}).links.flatMap Link.bindings) (x.up r.1) =
      passed placed r.2.function i := by
  have hcalls : ∀ q ∈ placed, ∀ cs : List CallSite, (∀ c ∈ cs, c ∈ q.2.calls) →
      ((cs.map (shiftCall q.1)).filterMap (fun call => ((ts.foldl add {}).function? call.callee).map
        (fun callee => (⟨q.2.function, call, callee⟩ : Link)))).flatMap
          (fun l => fed l.bindings (x.up r.1)) =
        (cs.filter (·.callee = r.2.function)).flatMap
          (fun c => (c.args[i]?.map (·.up q.1)).toList) := by
    intro q hq cs
    induction cs with
    | nil => exact fun _ => rfl
    | cons c cs ih =>
      intro hcs
      have hrest := ih fun c' hc' => hcs c' (by simp [hc'])
      rw [List.map_cons, List.filterMap_cons]
      cases hcallee : (ts.foldl add {}).function? (shiftCall q.1 c).callee with
      | none =>
        have hne : c.callee ≠ r.2.function := by
          rintro hsame
          rw [show (shiftCall q.1 c).callee = r.2.function from hsame,
            h.laid.function?_eq h.nodup hr] at hcallee
          cases hcallee
        simpa [hne] using hrest
      | some callee =>
        obtain ⟨r', hr', hname, rfl⟩ := h.laid.of_function? hcallee
        have hlink := h.laid.mem_links h.nodup hq (hcs c (by simp)) hr' hname
        rw [Option.map_some]
        dsimp only
        rw [List.flatMap_cons, hrest, h.fed_link (q := q) (c := c) hr hr' hname hx (hfits _ hlink)]
        by_cases hsame : c.callee = r.2.function <;> simp [hsame]
  rw [fed_flatMap, links, List.flatMap_assoc, h.laid.functions, List.flatMap_map, passed]
  exact List.flatMap_congr fun q hq => hcalls q hq q.2.calls fun _ hc => hc

theorem feed_constant (xs : List TypeNodeId) (ty : Ty) : feed xs (.constant ty) = .constant ty := by
  induction xs with
  | nil => rfl
  | cons x xs ih => exact ih

theorem feed_join {xs : List TypeNodeId} (hnodup : xs.Nodup) : feed xs (.join []) = .join xs := by
  suffices ∀ done : List TypeNodeId, (done ++ xs).Nodup → feed xs (.join done) =
      .join (done ++ xs) from
    this [] hnodup
  induction xs with
  | nil => simp [feed]
  | cons x xs ih =>
    intro done hdone
    have hnew : x ∉ done := fun hx =>
      (List.nodup_append.mp hdone).2.2 x hx x List.mem_cons_self rfl
    have hstep : feed (x :: xs) (.join done) = feed xs (.join (done ++ [x])) := by
      simp [feed, addInput, hnew]
    rw [hstep, ih hnodup.of_cons _ (by simpa using hdone)]
    simp

theorem connected_param (h : Assembled ts placed) {r : Nat × FunctionTypes} (hr : r ∈ placed)
    {x : TypeNodeId} (hx : x ∈ r.2.params) {rule : TypeRule}
    (hrule : r.2.graph.rule? x = some rule) :
    ((ts.foldl add {}).links.foldl connect (ts.foldl add {}).graph).rule? (x.up r.1) =
      some (feed (fed ((ts.foldl add {}).links.flatMap Link.bindings) (x.up r.1))
        (rule.shift r.1)) := by
  obtain ⟨low, hlow⟩ := h.shaped r hr
  have happly : ∀ l ∈ (ts.foldl add {}).links, x.up r.1 ≠ l.call.apply := by
    intro l hl hsame
    obtain ⟨c, hc, rfl, -⟩ := h.apply_eq hr (h.raw_lt hr hx) hl hsame
    exact absurd (hlow.params _ hx) (not_lt.mpr (hlow.calls c hc).1)
  rw [rule?_foldl_connect_of_ne happly, h.laid.rule? hr hrule, Option.map_some]

/-- A parameter with a type keeps it. -/
theorem link_typed_param (h : Assembled ts placed) {r : Nat × FunctionTypes} (hr : r ∈ placed)
    {x : TypeNodeId} (hx : x ∈ r.2.params) {ty : Ty}
    (hrule : r.2.graph.rule? x = some (.constant ty)) :
    (link ts).graph.rule? (x.up r.1) = some (.constant ty) := by
  have hconnected := h.connected_param hr hx hrule
  rw [show (TypeRule.constant ty).shift r.1 = .constant ty from rfl, feed_constant] at hconnected
  rw [rule?_link, if_neg, hconnected]
  rintro ⟨-, hopen⟩
  rw [hconnected] at hopen
  cases hopen

/-- A parameter without a type joins what the calls pass for it. -/
theorem link_param (h : Assembled ts placed) (hfits : ∀ l ∈ (ts.foldl add {}).links, l.fits = true)
    {r : Nat × FunctionTypes} (hr : r ∈ placed) {i : Nat} {x : TypeNodeId}
    (hx : r.2.params[i]? = some x) (hrule : r.2.graph.rule? x = some (.join []))
    (hnodup : (passed placed r.2.function i).Nodup) :
    (link ts).graph.rule? (x.up r.1) =
      some (if passed placed r.2.function i = [] then .constant .dynamic
        else .join (passed placed r.2.function i)) := by
  have hmem := List.mem_of_getElem? hx
  have hconnected := h.connected_param hr hmem hrule
  rw [h.fed_links hfits hr hx, TypeRule.shift, List.map_nil, feed_join hnodup] at hconnected
  rw [rule?_link, hconnected]
  by_cases hnone : passed placed r.2.function i = []
  · rw [if_pos hnone, if_pos ⟨(h.mem_params hr (h.raw_lt hr hmem)).mpr hmem, by rw [hnone]⟩]
  · rw [if_neg hnone, if_neg]
    rintro ⟨-, hopen⟩
    exact hnone (TypeRule.join.inj (Option.some.inj hopen))

/-! Whose nodes they are. -/

/-- Nodes keep their owners. -/
def Owned (g g' : TypeGraph) : Prop :=
  ∀ m : TypeNodeId, (g'.node? m).map (·.function) = (g.node? m).map (·.function)

theorem owned_change (g : TypeGraph) (id : TypeNodeId) {change : TypeNode → TypeNode}
    (hchange : ∀ n, (change n).function = n.function) : Owned g (g.change id change) := by
  intro m
  rw [TypeGraph.node?, TypeGraph.node?, TypeGraph.change, Array.getElem?_modify]
  split
  · rw [Option.map_map]
    congr 1
    funext n
    exact hchange n
  · rfl

theorem owned_foldl {α : Type} {step : TypeGraph → α → TypeGraph}
    (hstep : ∀ g x, Owned g (step g x))
    (xs : List α) (g : TypeGraph) : Owned g (xs.foldl step g) := by
  induction xs generalizing g with
  | nil => exact fun _ => rfl
  | cons x xs ih => exact fun m => (ih (step g x) m).trans (hstep g x m)

theorem owned_link (ts : List FunctionTypes) : Owned (ts.foldl add {}).graph (link ts).graph := by
  intro m
  refine (owned_foldl (fun g param => owned_change g param ?_) _ _ m).trans
    (owned_foldl (fun g l m => ?_) _ _ m)
  · intro n
    split <;> rfl
  · have hbind : ∀ g b, Owned g (bindArgument g b) := fun g b => owned_change g b.1 fun _ => rfl
    have hset : ∀ id rule, Owned g (g.setRule id rule) := fun id _ => owned_change g id fun _ => rfl
    exact (owned_foldl hbind _ _ m).trans (hset _ _ m)

theorem owner (h : Assembled ts placed) {m : TypeNodeId} (hm : m.raw < (link ts).graph.size) :
    ∃ q ∈ placed, ((link ts).graph.node? m).bind (·.function) = some q.2.function := by
  obtain ⟨n, hn⟩ := TypeGraph.node?_isSome hm
  have howned := owned_link ts m
  rw [hn, Option.map_some] at howned
  obtain ⟨n', hn', hsame⟩ := Option.map_eq_some_iff.mp howned.symm
  obtain ⟨q, hq, hlow, hhigh⟩ := h.laid.covered m.raw (TypeGraph.raw_lt_of_node? hn')
  obtain ⟨n₀, hn₀⟩ := TypeGraph.node?_isSome (g := q.2.graph) (m := ⟨m.raw - q.1⟩)
    (show m.raw - q.1 < q.2.graph.size by omega)
  have hplace := h.laid.nodes q hq _ n₀ hn₀
  have hup : (⟨m.raw - q.1⟩ : TypeNodeId).up q.1 = m := by
    cases m
    simp only [Ident.up, Ident.mk.injEq] at hlow ⊢
    omega
  rw [hup, hn'] at hplace
  refine ⟨q, hq, ?_⟩
  rw [hn, Option.bind_some, ← hsame, Option.some.inj hplace]

end Assembled

end ProgramTypes

end TypedSsa

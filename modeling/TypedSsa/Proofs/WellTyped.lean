import TypedSsa.Proofs.Equations
import TypedSsa.Proofs.Liveness
import TypedSsa.Proofs.Routes

/-!
The types that compiling infers solve the typing equations of the program. Main statement:
`compile_wellTyped`, for every compilation that reports nothing.
-/

namespace TypedSsa

/-- Different returns give back different nodes. -/
theorem Typing.Filled.isReturned_biUnique {a : Arena} {f : SsaForm}
    {seen : List (BlockId × NodeId)} {s : Typing} (h : Filled a f seen s) :
    Relator.BiUnique (TypingM.IsReturned s) := by
  constructor
  · rintro (_ | k) (_ | k') m hk hk'
    · rfl
    · exact absurd hk' ((h.unit m hk).2.2 k')
    · exact absurd hk ((h.unit m hk').2.2 k)
    · exact congrArg some (h.inj k k' m hk hk')
  · rintro (_ | k) m m' hm hm' <;> exact Option.some.inj (hm.symm.trans hm')

/-! Rules of one function in the program. -/

/-- The types that a function's nodes have in the program. -/
def Resolution.typeIn (r : Resolution) (offset : Nat) (m : TypeNodeId) : Option Ty :=
  r.typeOf? (m.up offset)

theorem TypeRule.holds_shift {l : Lattice} {s : RuleSet} {r : Resolution} {offset : Nat}
    {ty : Option Ty} {rule : TypeRule} (h : (rule.shift offset).Holds l s r.typeOf? ty) :
    rule.Holds l s (r.typeIn offset) ty := by
  cases rule with
  | constant | copy | undefined => exact h
  | join | apply =>
    rw [TypeRule.shift, TypeRule.Holds, List.map_map] at h
    exact h

theorem Lattice.joins_same (l : Lattice) {tys : List (Option Ty)} {ty : Ty} (hne : tys ≠ [])
    (h : ∀ t ∈ tys, t = some ty) : l.Joins tys (some ty) := by
  obtain ⟨n, rfl⟩ : ∃ n, tys = List.replicate (n + 1) (some ty) := by
    cases tys with
    | nil => exact absurd rfl hne
    | cons t tys => exact ⟨tys.length, List.eq_replicate_iff.mpr ⟨rfl, h⟩⟩
  have hextend : ∀ n, (List.replicate n ty).foldlM l.extend (.joined ty) = .ok (.joined ty) := by
    intro n
    induction n with
    | zero => rfl
    | succ n ih =>
      have hstep : l.extend (.joined ty) ty = .ok (.joined ty) := by
        simp [extend, joinOrFallback, join]
      rw [List.replicate_succ, List.foldlM_cons, hstep]
      exact ih
  rw [Joins, List.filterMap_replicate_of_some (show id (some ty) = some ty from rfl),
    List.replicate_succ, joinAll, hextend]
  rfl

theorem Resolution.ty?_outcome (r : Resolution) (m : TypeNodeId) :
    (r.outcome m).ty? = r.typeOf? m := by
  unfold outcome
  cases r.typeOf? m with
  | some ty => rfl
  | none =>
    cases r.errorFor? m with
    | some e => rfl
    | none => cases r.failureFor? m <;> rfl

theorem Resolution.typeOf?_irOf {u : FunctionUnit} (hf : u.form.Numbered) (r : Resolution)
    (t : FunctionTypes) {d : Def} (hd : d ∈ u.form.defs) :
    (r.irOf t u).typeOf? d.id = some (r.outcomeOf t d) := by
  have hmem := Array.mem_toList_iff.mpr hd
  have hfind : u.form.defs.toList.find? (·.id == d.id) = some d := by
    cases hfind : u.form.defs.toList.find? (·.id == d.id) with
    | none => exact absurd (beq_self_eq_true d.id) (List.find?_eq_none.mp hfind d hmem)
    | some e =>
      rw [List.inj_on_of_nodup_map hf.ids_nodup (List.mem_of_find?_eq_some hfind) hmem
        (by simpa using List.find?_some hfind)]
  rw [TypedFunction.typeOf?, irOf]
  dsimp only
  rw [List.find?_map, show ((·.1 == d.id) ∘ fun d => (d.id, r.outcomeOf t d) : Def → Bool) =
    (·.id == d.id) from rfl, hfind]
  rfl

/-- The nodes of definitions are the first ones of a function. -/
theorem Wired.defNode?_shifted {a : Arena} {g : FlowGraph} {f : SsaForm} {view : FunctionView}
    {s : Typing} {t : FunctionTypes} (h : Wired a g f view s t) (hf : f.Numbered) {i : DefId}
    {d : Def}
    (hd : f.definition? i = some d) (offset : Nat) :
    (ProgramTypes.shifted offset t).defNode? i = some ((⟨i.raw⟩ : TypeNodeId).up offset) := by
  have hget : ∀ j : Nat, (ProgramTypes.shifted offset t).defs[j]? =
      (f.defs[j]?).map (fun d => (d.id, (⟨j⟩ : TypeNodeId).up offset)) := by
    intro j
    rw [ProgramTypes.shifted, Array.getElem?_map, h.defs, h.filled.defs, Typing.start,
      Array.getElem?_map, Array.getElem?_zipIdx]
    cases f.defs[j]? <;> simp [Ident.up]
  rw [FunctionTypes.defNode?, findNear?_of_placed, hget, ← hf.definition?_eq, hd]
  · rfl
  · intro j x hx
    rw [hget] at hx
    obtain ⟨e, he, rfl⟩ := Option.map_eq_some_iff.mp hx
    exact hf.defs j e he

namespace Clean

variable {c : Compiler} {a : Arena} {functions : List NodeId} {pieces : List (Nat × FunctionUnit)}
  {res : Resolution} {report : ProgramReport}

theorem mem_typed (h : Clean c a functions pieces res report) {f : TypedFunction} :
    f ∈ report.typedFunctions ↔
      ∃ q ∈ pieces, f = res.irOf (ProgramTypes.shifted q.1 q.2.types) q.2 := by
  rw [h.typed, List.mem_map]
  simp only [eq_comm]

theorem wired (h : Clean c a functions pieces res report) {q : Nat × FunctionUnit}
    (hq : q ∈ pieces) : ∃ fn view s, FunctionUnit.BuiltFrom a fn view q.2 ∧
      Wired a q.2.graph q.2.form view s q.2.types := by
  obtain ⟨fn, -, view, hbuilt⟩ := exists_left_of_forall₂ h.built q hq
  obtain ⟨s, hwired⟩ := hbuilt.wired
  exact ⟨fn, view, s, hbuilt, hwired⟩

theorem mem_placed {q : Nat × FunctionUnit} (hq : q ∈ pieces) :
    (q.1, q.2.types) ∈ pieces.map (fun q => (q.1, q.2.types)) :=
  List.mem_map_of_mem hq

/-- A node that neither is a parameter nor calls a function of the program keeps its rule. -/
theorem kept (h : Clean c a functions pieces res report) {q : Nat × FunctionUnit} (hq : q ∈ pieces)
    {m : TypeNodeId} {rule : TypeRule} (hrule : q.2.types.graph.rule? m = some rule)
    (hparam : m ∉ q.2.types.params) (hcall : ∀ call ∈ q.2.types.calls, call.apply = m →
      ∀ r ∈ pieces, r.2.types.function ≠ call.callee) :
    rule.Holds (.ofConfig c.config) c.rules (res.typeIn q.1) (res.typeIn q.1 m) := by
  refine TypeRule.holds_shift (h.holds _ _ (h.assembled.link_kept (mem_placed hq) hrule hparam ?_))
  intro call hc happly r hr
  obtain ⟨piece, hpiece, rfl⟩ := List.mem_map.mp hr
  exact hcall call hc happly piece hpiece

section

variable {fn : NodeId} {view : FunctionView} {s : Typing} {q : Nat × FunctionUnit}
  (h : Clean c a functions pieces res report) (hq : q ∈ pieces)
  (hbuilt : FunctionUnit.BuiltFrom a fn view q.2)
  (hwired : Wired a q.2.graph q.2.form view s q.2.types)

include hwired in
theorem rule_of_call {call : CallSite} (hc : call ∈ q.2.types.calls) :
    ∃ k : BlockId × NodeId, s.exprs[k]? = some call.apply ∧
      Typing.CallOf a s call.apply k call ∧
      ∃ nodes, s.graph.rule? call.apply = some (.apply call.callee nodes) := by
  rw [hwired.calls] at hc
  obtain ⟨k, -, m, hm, hcall⟩ := exists_left_of_forall₂ hwired.filled.calls call hc
  obtain rfl := hcall.2.2.1
  obtain ⟨-, -, -, args, he, -⟩ := id hcall
  obtain ⟨e, rule, he', hrule, hexpr⟩ := hwired.filled.rules k.1 k.2 _ hm
  obtain rfl := Except.ok.inj (he.symm.trans he')
  obtain ⟨nodes, -, rfl⟩ := hexpr
  exact ⟨k, hm, hcall, nodes, hrule⟩

include hwired in
/-- An evaluated call is noted. -/
theorem call_at {k : BlockId × NodeId} {m : TypeNodeId} (hk : s.exprs[k]? = some m)
    {callee : String}
    {args : List NodeId} (he : a.expression k.2 = .ok (.call callee args)) :
    ∃ call ∈ q.2.types.calls, call.apply = m ∧ call.callee = callee := by
  have hmem : k ∈ (a.evaluated q.2.graph q.2.form).filter (fun k => a.isCall k.2) := by
    refine List.mem_filter.mpr ⟨(hwired.filled.mem k).mpr ⟨m, hk⟩, ?_⟩
    rw [Arena.isCall, he]
  obtain ⟨call, hc, m', hm', -, -, happly, args', hcall, -⟩ :=
    exists_right_of_forall₂ hwired.filled.calls k hmem
  obtain rfl := Option.some.inj (hk.symm.trans hm')
  exact ⟨call, by rw [hwired.calls]; exact hc, happly,
    (Expression.call.inj (Except.ok.inj (he.symm.trans hcall))).1.symm⟩

include hbuilt hwired in
theorem not_param {m : TypeNodeId} (hm : q.2.form.defs.size ≤ m.raw) : m ∉ q.2.types.params :=
  fun hparam =>
    absurd ((hwired.shaped hbuilt.settled.numbered hbuilt.settled.params).params m hparam)
    (Nat.not_lt_of_le hm)

include h hq hbuilt hwired in
/-- A node past the definitions whose rule applies nothing keeps its rule. -/
theorem kept_of_plain {m : TypeNodeId} {rule : TypeRule} (hm : q.2.form.defs.size ≤ m.raw)
    (hrule : s.graph.rule? m = some rule) (hplain : ∀ name nodes, rule ≠ .apply name nodes) :
    rule.Holds (.ofConfig c.config) c.rules (res.typeIn q.1) (res.typeIn q.1 m) := by
  refine h.kept hq (by rw [hwired.graph]; exact hrule) (not_param hbuilt hwired hm) ?_
  intro call hc happly
  obtain ⟨k, -, -, nodes, hcall⟩ := rule_of_call hwired hc
  rw [happly, hrule] at hcall
  exact absurd (Option.some.inj hcall) (hplain _ _)

include h hq hbuilt hwired in
/-- The rules of definitions are kept. -/
theorem kept_def {i : DefId} {d : Def} {rule : TypeRule} (hd : q.2.form.definition? i = some d)
    (hparam : i ∉ q.2.form.params) (hrule : s.graph.rule? ⟨i.raw⟩ = some rule) :
    rule.Holds (.ofConfig c.config) c.rules (res.typeIn q.1) (res.typeIn q.1 ⟨i.raw⟩) := by
  refine h.kept hq (by rw [hwired.graph]; exact hrule) ?_ ?_
  · rw [hwired.params]
    intro hmem
    obtain ⟨j, hj, hsame⟩ := List.mem_map.mp hmem
    obtain rfl : j = i := congrArg (fun m : TypeNodeId => (⟨m.raw⟩ : DefId)) hsame
    exact hparam hj
  · intro call hc happly
    have hlow := ((hwired.shaped hbuilt.settled.numbered hbuilt.settled.params).calls call hc).1
    rw [hbuilt.settled.numbered.definition?_eq] at hd
    have hlt := (Array.getElem?_eq_some_iff.mp hd).1
    rw [happly] at hlow
    exact absurd hlt (Nat.not_lt_of_le hlow)

include hbuilt in
theorem param_kind {i : DefId} (hi : i ∈ q.2.form.params) : ∃ (j : Nat) (p : ParamView) (d : Def),
    q.2.form.params[j]? = some i ∧ view.params[j]? = some p ∧ q.2.form.definition? i = some d ∧
      d.kind = .param j p.node := by
  obtain ⟨j, hj⟩ := List.mem_iff_getElem?.mp hi
  obtain ⟨p, d, hp, hd, -, hkind⟩ := SsaForm.param_at hbuilt.settled.params hj
  exact ⟨j, p, d, hj, hp, hd, hkind⟩

include h hq hbuilt hwired in
/-- A definition has the type that it comes with. -/
theorem declared_type {i : DefId} {d : Def} {ty : Ty} (hd : q.2.form.definition? i = some d)
    (hty : d.declared = some ty) : res.typeIn q.1 ⟨i.raw⟩ = some ty := by
  by_cases hi : i ∈ q.2.form.params
  · obtain ⟨j, -, d', hj, -, hd', -⟩ := param_kind hbuilt hi
    obtain rfl := Option.some.inj (hd.symm.trans hd')
    have hrule := hwired.param j i d hj hd
    rw [hty, Option.some_or, Option.map_some, Option.getD_some, ← hwired.graph] at hrule
    have hmem : (⟨i.raw⟩ : TypeNodeId) ∈ q.2.types.params := by
      rw [hwired.params]
      exact List.mem_map_of_mem hi
    exact h.holds _ _ (h.assembled.link_typed_param (mem_placed hq) hmem hrule)
  · obtain ⟨rule, hrule, hdef⟩ := hwired.rules i d hd hi
    have hholds := h.kept_def hq hbuilt hwired hd hi hrule
    suffices hconstant : rule = .constant ty by
      subst hconstant
      exact hholds
    have hgiven := hbuilt.settled.given i d hd
    unfold Typing.DefRule at hdef
    unfold Def.Given at hgiven
    cases hkind : d.kind with
    | param | phi =>
      simp only [hkind, hty] at hdef
      exact hdef
    | assign | loopInit =>
      simp only [hkind, hty] at hdef
      obtain ⟨x, -, hrule⟩ := hdef
      exact hrule
    | promotion =>
      simp only [hkind] at hdef
      exact hdef ty hty
    | loopStep | undefined =>
      simp only [hkind, hty] at hgiven
      cases hgiven

include h hq hbuilt hwired in
theorem tyOf?_eq {i : DefId} {d : Def} (hd : q.2.form.definition? i = some d) :
    (res.irOf (ProgramTypes.shifted q.1 q.2.types) q.2).tyOf? i = res.typeIn q.1 ⟨i.raw⟩ := by
  have hf := hbuilt.settled.numbered
  obtain rfl := hf.definition?_id hd
  rw [TypedFunction.tyOf?, Resolution.typeOf?_irOf hf _ _ (hf.mem_defs.mpr hd)]
  simp only [Option.bind_some, Resolution.outcomeOf, hwired.defNode?_shifted hf hd]
  cases hkind : d.kind with
  | undefined =>
    have hi : d.id ∉ q.2.form.params := by
      intro hi
      obtain ⟨j, p, d', -, -, hd', hparam⟩ := param_kind hbuilt hi
      obtain rfl := Option.some.inj (hd.symm.trans hd')
      rw [hkind] at hparam
      cases hparam
    obtain ⟨rule, hrule, hdef⟩ := hwired.rules d.id d hd hi
    simp only [Typing.DefRule, hkind] at hdef
    subst hdef
    exact (h.kept_def hq hbuilt hwired hd hi hrule).symm
  | param | assign | loopInit | loopStep | phi | promotion => exact res.ty?_outcome _

include hbuilt hwired in
theorem name_irOf : (res.irOf (ProgramTypes.shifted q.1 q.2.types) q.2).name =
    q.2.types.function :=
  hbuilt.settled.function.trans hwired.function.symm

include h hq hwired in
/-- The node of a call of a function of the program has the type of what that returns. -/
theorem call_type {block : BlockId} {node : NodeId} {m : TypeNodeId} {args : List NodeId}
    {r : Nat × FunctionUnit} (hk : s.exprs[(block, node)]? = some m)
    (he : a.expression node = .ok (.call r.2.types.function args)) (hr : r ∈ pieces) :
    HasType c a report.typedFunctions (res.irOf (ProgramTypes.shifted q.1 q.2.types) q.2) block node
      (res.typeIn q.1 m) := by
  obtain ⟨call, hc, happly, hcallee⟩ := call_at hwired hk he
  obtain ⟨fn', view', s', hbuilt', hwired'⟩ := h.wired hr
  have hcopy := h.holds _ _ (h.assembled.link_call (mem_placed hq) hc (mem_placed hr) hcallee.symm)
  rw [happly] at hcopy
  rw [show res.typeIn q.1 m = _ from hcopy]
  have hresult : (res.irOf (ProgramTypes.shifted r.1 r.2.types) r.2).result.ty? =
      res.typeOf? (r.2.types.result.up r.1) := res.ty?_outcome _
  rw [← hresult]
  exact .call (h.mem_typed.mpr ⟨r, hr, rfl⟩) (by rw [name_irOf hbuilt' hwired', he])

include h hq hbuilt hwired in
/-- The node of an evaluated expression has its type. -/
theorem expr_type : ∀ (n : Nat) (k : BlockId × NodeId) (m : TypeNodeId), m.raw < n →
    s.exprs[k]? = some m →
    HasType c a report.typedFunctions (res.irOf (ProgramTypes.shifted q.1 q.2.types) q.2) k.1 k.2
      (res.typeIn q.1 m) := by
  intro n
  induction n with
  | zero => exact fun k m hm => absurd hm (Nat.not_lt_zero _)
  | succ n ih =>
    rintro ⟨block, node⟩ m hm hk
    obtain ⟨e, rule, he, hrule, hexpr⟩ := hwired.filled.rules block node m hk
    obtain ⟨hlow, -⟩ := hwired.filled.high _ m hk
    have hplain := h.kept_of_plain hq hbuilt hwired hlow hrule
    have hpart : ∀ x ∈ a.parts node, ∀ y, s.exprs[(block, x)]? = some y →
        HasType c a report.typedFunctions
          (res.irOf (ProgramTypes.shifted q.1 q.2.types) q.2) block x
          (res.typeIn q.1 y) := by
      intro x hx y hy
      obtain ⟨y', hy', hlt⟩ := hwired.filled.below block node m hk x hx
      obtain rfl := Option.some.inj (hy.symm.trans hy')
      exact ih (block, x) y (by omega) hy
    rw [Arena.parts, he] at hpart
    -- A call that has this node is the expression itself.
    have hself : ∀ call ∈ q.2.types.calls, call.apply = m → ∃ args, e = .call call.callee args := by
      intro call hc happly
      obtain ⟨k', hk', ⟨-, -, -, args, hcall, -⟩, -⟩ := rule_of_call hwired hc
      rw [happly] at hk'
      obtain rfl := hwired.filled.inj _ _ m hk' hk
      exact ⟨args, Except.ok.inj (he.symm.trans hcall)⟩
    cases e with
    | name name =>
      obtain ⟨u, hu, hlt, rfl⟩ := hexpr
      have hd := (hbuilt.settled.numbered.definition?_eq u.definition).trans
        (Array.getElem?_eq_getElem hlt)
      rw [show res.typeIn q.1 m = _ from hplain (by simp), ← h.tyOf?_eq hq hbuilt hwired hd]
      exact .name he hu
    | const ty =>
      subst hexpr
      rw [show res.typeIn q.1 m = _ from hplain (by simp)]
      exact .const he
    | cast value ty =>
      subst hexpr
      rw [show res.typeIn q.1 m = _ from hplain (by simp)]
      exact .cast he
    | other kind =>
      subst hexpr
      rw [show res.typeIn q.1 m = _ from hplain (by simp)]
      exact .other he
    | binary op left right =>
      obtain ⟨x, y, hx, hy, rfl⟩ := hexpr
      have hholds := h.kept hq (by rw [hwired.graph]; exact hrule) (not_param hbuilt hwired hlow)
        fun call hc happly => by
          obtain ⟨args, hcall⟩ := hself call hc happly
          cases hcall
      exact .binary he (hpart left (by simp [Expression.parts]) x hx)
        (hpart right (by simp [Expression.parts]) y hy) hholds
    | call callee args =>
      obtain ⟨nodes, hargs, rfl⟩ := hexpr
      by_cases hprogram : ∃ r ∈ pieces, r.2.types.function = callee
      · obtain ⟨r, hr, rfl⟩ := hprogram
        exact h.call_type hq hwired hk he hr
      · have hholds := h.kept hq (by rw [hwired.graph]; exact hrule)
          (not_param hbuilt hwired hlow) fun call hc happly r hr hname => by
            obtain ⟨args', hcall⟩ := hself call hc happly
            obtain ⟨rfl, -⟩ := Expression.call.inj hcall
            exact hprogram ⟨r, hr, hname⟩
        have hnodes : nodes.map (res.typeIn q.1) =
            args.map (fun x => (s.exprs[(block, x)]?).bind (res.typeIn q.1)) := by
          clear hrule hholds hplain hpart hself he
          induction hargs with
          | nil => rfl
          | cons hx _ ih => rw [List.map_cons, List.map_cons, ih, hx, Option.bind_some]
        rw [TypeRule.Holds, hnodes] at hholds
        refine .rule he ?_ (fun x hx => ?_) hholds
        · rintro g hg rfl
          obtain ⟨r, hr, rfl⟩ := h.mem_typed.mp hg
          obtain ⟨fn', view', s', hbuilt', hwired'⟩ := h.wired hr
          exact hprogram ⟨r, hr, (name_irOf hbuilt' hwired').symm⟩
        · obtain ⟨y, -, hy⟩ := exists_right_of_forall₂ hargs x hx
          rw [hy, Option.bind_some]
          exact hpart x hx y hy

/-- The node of what a call passes. -/
def IsArgument (res : Resolution) (q : Nat × FunctionUnit) (s : Typing)
    (x : TypedFunction × BlockId × NodeId) (m : TypeNodeId) : Prop :=
  x.1 = res.irOf (ProgramTypes.shifted q.1 q.2.types) q.2 ∧
    ∃ y : TypeNodeId, s.exprs[x.2]? = some y ∧ m = y.up q.1

include hwired in
theorem isArgument_biUnique (res : Resolution) : Relator.BiUnique (IsArgument res q s) := by
  constructor
  · rintro ⟨f, k⟩ ⟨f', k'⟩ m ⟨rfl, y, hy, rfl⟩ ⟨rfl, y', hy', hsame⟩
    obtain rfl := Ident.up_inj.mp hsame
    rw [hwired.filled.inj k k' y hy hy']
  · rintro ⟨f, k⟩ m m' ⟨-, y, hy, rfl⟩ ⟨-, y', hy', rfl⟩
    rw [Option.some.inj (hy.symm.trans hy')]

theorem argumentOf_eq_some {name : String} {i : Nat} {f : TypedFunction} {k : BlockId × NodeId}
    {x : TypedFunction × BlockId × NodeId} (hx : argumentOf a name i f k = some x) :
    ∃ args node, a.expression k.2 = .ok (.call name args) ∧ args[i]? = some node ∧
      x = (f, k.1, node) := by
  unfold argumentOf at hx
  split at hx
  · rename_i callee args he
    split at hx
    · rename_i hname
      subst hname
      obtain ⟨node, hnode, rfl⟩ := Option.map_eq_some_iff.mp hx
      exact ⟨args, node, he, hnode, rfl⟩
    · cases hx
  · cases hx

/-- What one function passes in its calls of another, and the nodes of that. -/
def passedBy (q : Nat × FunctionUnit) (name : String) (i : Nat) : List TypeNodeId :=
  (q.2.types.calls.filter (·.callee = name)).flatMap (fun c => (c.args[i]?.map (·.up q.1)).toList)

include hwired in
theorem forall₂_passedBy (res : Resolution) (name : String) (i : Nat) :
    List.Forall₂ (IsArgument res q s)
      ((a.evaluated q.2.graph q.2.form).filterMap
        (argumentOf a name i (res.irOf (ProgramTypes.shifted q.1 q.2.types) q.2)))
      (passedBy q name i) := by
  have hkeys : (a.evaluated q.2.graph q.2.form).filterMap
      (argumentOf a name i (res.irOf (ProgramTypes.shifted q.1 q.2.types) q.2)) =
        ((a.evaluated q.2.graph q.2.form).filter (fun k => a.isCall k.2)).filterMap
          (argumentOf a name i (res.irOf (ProgramTypes.shifted q.1 q.2.types) q.2)) := by
    rw [List.filterMap_filter]
    refine List.filterMap_congr fun k _ => ?_
    unfold argumentOf Arena.isCall
    rcases a.expression k.2 with e | e
    · rfl
    · cases e <;> rfl
  have hcalls : ∀ calls : List CallSite,
      (calls.filter (·.callee = name)).flatMap (fun c => (c.args[i]?.map (·.up q.1)).toList) =
        calls.filterMap (fun c => if c.callee = name then c.args[i]?.map (·.up q.1) else none) := by
    intro calls
    induction calls with
    | nil => rfl
    | cons c calls ih =>
      by_cases hname : c.callee = name
      · rw [List.filter_cons_of_pos (by simpa using hname), List.flatMap_cons, ih,
          List.filterMap_cons, if_pos hname]
        cases c.args[i]? <;> simp
      · rw [List.filter_cons_of_neg (by simpa using hname), ih, List.filterMap_cons, if_neg hname]
  rw [hkeys, passedBy, hcalls, hwired.calls]
  refine List.rel_filterMap (fun k call hcall => ?_) hwired.filled.calls
  obtain ⟨m, -, -, -, -, args, he, hargs⟩ := hcall
  have hget := forall₂_getElem? hargs i
  unfold argumentOf
  rw [he]
  dsimp only
  split
  · generalize args[i]? = x at hget ⊢
    generalize call.args[i]? = y at hget ⊢
    cases hget with
    | none => exact .none
    | some hy => exact .some ⟨rfl, _, hy, rfl⟩
  · exact .none

include hwired in
/-- No call passes what another passes. -/
theorem passedBy_nodup (hunshared : q.2.Unshared a) (name : String) (i : Nat) :
    (passedBy q name i).Nodup := by
  refine (List.rel_nodup (isArgument_biUnique hwired {}) (forall₂_passedBy hwired {} name i)).mp ?_
  refine List.pairwise_filterMap.mpr (hwired.filled.nodup.imp_of_mem fun {k k'} hk hk' hne => ?_)
  rintro x hx _ hx' rfl
  obtain ⟨args, node, he, hnode, rfl⟩ := argumentOf_eq_some hx
  obtain ⟨args', node', he', hnode', hsame⟩ := argumentOf_eq_some hx'
  simp only [Prod.mk.injEq, true_and] at hsame
  obtain ⟨hblock, rfl⟩ := hsame
  refine hne (Prod.ext hblock (hunshared k hk k' hk' node ?_ ?_))
  · rw [Arena.parts, he]
    exact List.mem_of_getElem? hnode
  · rw [Arena.parts, he']
    exact List.mem_of_getElem? hnode'

end

theorem names_nodup (h : Clean c a functions pieces res report) :
    (report.typedFunctions.map (·.name)).Nodup := by
  have hnames : report.typedFunctions.map (·.name) =
      (pieces.map (fun q => (q.1, q.2.types))).map (·.2.function) := by
    rw [h.typed, List.map_map, List.map_map]
    refine List.map_congr_left fun q hq => ?_
    obtain ⟨fn, view, s, hbuilt, hwired⟩ := h.wired hq
    exact name_irOf hbuilt hwired
  rw [hnames]
  exact h.assembled.nodup

/-! Parameters. -/

theorem passed_eq (pieces : List (Nat × FunctionUnit)) (name : String) (i : Nat) :
    ProgramTypes.Assembled.passed (pieces.map (fun q => (q.1, q.2.types))) name i =
      pieces.flatMap (fun q => passedBy q name i) := by
  rw [ProgramTypes.Assembled.passed, List.flatMap_map]
  rfl

theorem passed_nodup (h : Clean c a functions pieces res report)
    (hunshared : ∀ q ∈ pieces, q.2.Unshared a) (name : String) (i : Nat) :
    (ProgramTypes.Assembled.passed (pieces.map (fun q => (q.1, q.2.types))) name i).Nodup := by
  rw [passed_eq]
  refine List.nodup_flatMap.mpr ⟨fun q hq => ?_, ?_⟩
  · obtain ⟨fn, view, s, -, hwired⟩ := h.wired hq
    exact passedBy_nodup hwired (hunshared q hq) name i
  · refine (List.pairwise_map.mp h.assembled.laid.apart).imp_of_mem fun {q r} hq hr hapart => ?_
    obtain ⟨fn, view, s, -, hwired⟩ := h.wired hq
    obtain ⟨fn', view', s', -, hwired'⟩ := h.wired hr
    rintro m hm hm'
    obtain ⟨x, -, -, y, hy, rfl⟩ :=
      exists_left_of_forall₂ (forall₂_passedBy hwired res name i) m hm
    obtain ⟨x', -, -, y', hy', hsame⟩ :=
      exists_left_of_forall₂ (forall₂_passedBy hwired' res name i) _ hm'
    have hraw : y.raw + q.1 = y'.raw + r.1 := congrArg Ident.raw hsame
    have hlt := (hwired.filled.high _ y hy).2
    rw [← hwired.graph] at hlt
    simp only at hapart
    omega

/-- What is passed for a parameter has the types of the arguments. -/
theorem forall₂_passed (h : Clean c a functions pieces res report) (name : String) (i : Nat) :
    List.Forall₂ (fun x m => HasType c a report.typedFunctions x.1 x.2.1 x.2.2 (res.typeOf? m))
      (argumentsOf a report.typedFunctions name i)
      (ProgramTypes.Assembled.passed (pieces.map (fun q => (q.1, q.2.types))) name i) := by
  rw [passed_eq, argumentsOf, h.typed, List.flatMap_map]
  have hpieces : List.Forall₂ (fun q q' => q = q' ∧ q ∈ pieces) pieces pieces :=
    List.forall₂_same.mpr fun q hq => ⟨rfl, hq⟩
  refine List.rel_flatMap hpieces ?_
  rintro q _ ⟨rfl, hq⟩
  obtain ⟨fn, view, s, hbuilt, hwired⟩ := h.wired hq
  refine (forall₂_passedBy hwired res name i).imp ?_
  rintro ⟨f, k⟩ m ⟨rfl, y, hy, rfl⟩
  rw [← h.typed]
  exact h.expr_type hq hbuilt hwired _ k y (Nat.lt_succ_self _) hy

section

variable {fn : NodeId} {view : FunctionView} {s : Typing} {q : Nat × FunctionUnit}
  (h : Clean c a functions pieces res report) (hq : q ∈ pieces)
  (hbuilt : FunctionUnit.BuiltFrom a fn view q.2)
  (hwired : Wired a q.2.graph q.2.form view s q.2.types)

include h hq hbuilt hwired

theorem param_type (hunshared : ∀ q ∈ pieces, q.2.Unshared a) {i : Nat} {p : ParamView} {id : DefId}
    (hp : view.params[i]? = some p) (hid : q.2.form.params[i]? = some id) :
    Prefers (p.declared.or (view.signature.bind (·[i]?)))
      (PassedType c a report.typedFunctions view.name i)
      ((res.irOf (ProgramTypes.shifted q.1 q.2.types) q.2).tyOf? id) := by
  obtain ⟨p', d, hp', hd, -, hkind⟩ := SsaForm.param_at hbuilt.settled.params hid
  obtain rfl := Option.some.inj (hp.symm.trans hp')
  have hgiven := hbuilt.settled.given id d hd
  rw [Def.Given, hkind] at hgiven
  obtain ⟨p', hp', -, hdeclared⟩ := hgiven
  obtain rfl := Option.some.inj (hp.symm.trans hp')
  have hrule := hwired.param i id d hid hd
  rw [hdeclared, ← hwired.graph] at hrule
  have hx : q.2.types.params[i]? = some ⟨id.raw⟩ := by
    rw [hwired.params, List.getElem?_map, hid]
    rfl
  rw [h.tyOf?_eq hq hbuilt hwired hd]
  cases hknown : p.declared.or (view.signature.bind (·[i]?)) with
  | some ty =>
    rw [hknown] at hrule
    exact h.holds _ _ (h.assembled.link_typed_param (mem_placed hq) (List.mem_of_getElem? hx) hrule)
  | none =>
    rw [hknown] at hrule
    have hnodup := h.passed_nodup hunshared view.name i
    have hpassed := h.forall₂_passed view.name i
    rw [← hwired.function] at hnodup hpassed ⊢
    have hholds := h.holds _ _ (h.assembled.link_param h.fits (mem_placed hq) hx hrule hnodup)
    rw [Prefers, PassedType]
    dsimp only at hholds
    by_cases hnone : argumentsOf a report.typedFunctions q.2.types.function i = []
    · rw [if_pos hnone]
      rw [hnone, List.forall₂_nil_left_iff] at hpassed
      rw [if_pos hpassed] at hholds
      exact hholds
    · rw [if_neg hnone]
      rw [if_neg fun hempty => hnone (by rwa [hempty, List.forall₂_nil_right_iff] at hpassed)]
        at hholds
      exact ⟨_, List.forall₂_map_right_iff.mpr hpassed, hholds⟩

/-- What a phi joins when all that it reads has its type. -/
theorem typed_phi {i : DefId} {d : Def} {incoming : List UseId} {ty : Ty}
    (hd : q.2.form.definition? i = some d) (hkind : d.kind = .phi incoming)
    (hty : d.declared = some ty) : (Lattice.ofConfig c.config).Joins
      ((distinct (q.2.form.sources incoming)).map
        (res.irOf (ProgramTypes.shifted q.1 q.2.types) q.2).tyOf?) (some ty) := by
  obtain ⟨hne, htyped⟩ := hbuilt.settled.typed i d incoming ty hd hkind hty
  have hsource : ∀ u ∈ incoming, ∃ e, q.2.form.definitionOf? u = some e ∧
      q.2.form.definition? e.id = some e ∧ e.declared = some ty := by
    intro u hu
    obtain ⟨use, e, huse, he, hety⟩ := SsaForm.declaredOf?_eq_some.mp (htyped u hu)
    refine ⟨e, ?_, ?_, hety⟩
    · rw [SsaForm.definitionOf?, huse, Option.bind_some, he]
    · rw [hbuilt.settled.numbered.definition?_id he]
      exact he
  refine Lattice.joins_same _ ?_ ?_
  · obtain ⟨u, hu⟩ := List.exists_mem_of_ne_nil _ hne
    obtain ⟨e, hdef, he, hety⟩ := hsource u hu
    have hbound : e.kind ≠ .undefined := by
      intro hundefined
      have hgiven := hbuilt.settled.given e.id e he
      rw [Def.Given, hundefined, hety] at hgiven
      cases hgiven
    refine List.ne_nil_of_mem (List.mem_map_of_mem (a := e.id) (mem_distinct.mpr ?_))
    exact List.mem_map_of_mem (List.mem_filter.mpr
      ⟨List.mem_filterMap.mpr ⟨u, hu, hdef⟩, by simpa using hbound⟩)
  · intro t ht
    obtain ⟨id, hid, rfl⟩ := List.mem_map.mp ht
    obtain ⟨e, he, rfl⟩ := List.mem_map.mp (mem_distinct.mp hid)
    obtain ⟨u, hu, hdef⟩ := List.mem_filterMap.mp (List.mem_of_mem_filter he)
    obtain ⟨e', hdef', he', hety⟩ := hsource u hu
    obtain rfl := Option.some.inj (hdef.symm.trans hdef')
    rw [h.tyOf?_eq hq hbuilt hwired he']
    exact h.declared_type hq hbuilt hwired he' hety

/-- A definition that takes the type of an expression unless it comes with one. -/
theorem valued_type {d : Def} {value : NodeId} {rule : TypeRule}
    (hvalue : ∃ x, s.exprs[(d.block, value)]? = some x ∧
      rule = (d.declared.map .constant).getD (.copy x))
    (hholds :
      rule.Holds (.ofConfig c.config) c.rules (res.typeIn q.1) (res.typeIn q.1 ⟨d.id.raw⟩)) :
    Prefers d.declared (HasType c a report.typedFunctions
      (res.irOf (ProgramTypes.shifted q.1 q.2.types) q.2) d.block value)
      (res.typeIn q.1 ⟨d.id.raw⟩) := by
  obtain ⟨x, hx, rfl⟩ := hvalue
  cases hdeclared : d.declared with
  | some ty =>
    rw [hdeclared] at hholds
    exact hholds
  | none =>
    rw [hdeclared] at hholds
    rw [Prefers, show res.typeIn q.1 ⟨d.id.raw⟩ = _ from hholds]
    exact h.expr_type hq hbuilt hwired _ (d.block, value) x (Nat.lt_succ_self _) hx

theorem types_of_sources (incoming : List UseId) :
    (distinct (q.2.form.sources incoming)).map
      (res.irOf (ProgramTypes.shifted q.1 q.2.types) q.2).tyOf? =
        (distinct (q.2.form.sources incoming)).map
          (res.typeIn q.1 ∘ fun id : DefId => ⟨id.raw⟩) := by
  refine List.map_congr_left fun id hid => ?_
  obtain ⟨e, he, rfl⟩ := List.mem_map.mp (mem_distinct.mp hid)
  obtain ⟨u, -, hdef⟩ := List.mem_filterMap.mp (List.mem_of_mem_filter he)
  obtain ⟨use, -, he⟩ := Option.bind_eq_some_iff.mp hdef
  rw [hbuilt.settled.numbered.definition?_id he]
  exact h.tyOf?_eq hq hbuilt hwired he

theorem def_type {d : Def} (hd : d ∈ q.2.form.defs) : DefType c a report.typedFunctions
    (res.irOf (ProgramTypes.shifted q.1 q.2.types) q.2) d
    ((res.irOf (ProgramTypes.shifted q.1 q.2.types) q.2).tyOf? d.id) := by
  have hd := hbuilt.settled.numbered.mem_defs.mp hd
  have hty := h.tyOf?_eq hq hbuilt hwired hd
  by_cases hi : d.id ∈ q.2.form.params
  · obtain ⟨j, p, d', -, -, hd', hkind⟩ := param_kind hbuilt hi
    obtain rfl := Option.some.inj (hd.symm.trans hd')
    rw [DefType, hkind]
    trivial
  obtain ⟨rule, hrule, hdef⟩ := hwired.rules d.id d hd hi
  have hholds := h.kept_def hq hbuilt hwired hd hi hrule
  have hgiven := hbuilt.settled.given d.id d hd
  unfold Typing.DefRule at hdef
  unfold Def.Given at hgiven
  unfold DefType
  cases hkind : d.kind with
  | param => trivial
  | assign stmt value =>
    simp only [hkind] at hdef hgiven ⊢
    rw [hty, ← hgiven]
    exact h.valued_type hq hbuilt hwired hdef hholds
  | loopInit construct start =>
    simp only [hkind] at hdef hgiven ⊢
    rw [hty, ← hgiven]
    exact h.valued_type hq hbuilt hwired hdef hholds
  | loopStep construct step previous =>
    simp only [hkind] at hdef hgiven ⊢
    obtain ⟨u, x, hu, hlt, hstep, rfl⟩ := hdef
    have hread := (hbuilt.settled.numbered.definition?_eq u.definition).trans
      (Array.getElem?_eq_getElem hlt)
    rw [hgiven] at hholds
    refine ⟨u, res.typeIn q.1 x, hu, ?_, ?_⟩
    · cases step with
      | some step =>
        exact h.expr_type hq hbuilt hwired _ (d.block, step) x (Nat.lt_succ_self _) hstep
      | none => exact h.kept_of_plain hq hbuilt hwired hstep.1 hstep.2 (by simp)
    · rw [hty, h.tyOf?_eq hq hbuilt hwired hread]
      exact hholds
  | phi incoming =>
    simp only [hkind] at hdef ⊢
    cases hdeclared : d.declared with
    | some ty =>
      rw [hty, h.declared_type hq hbuilt hwired hd hdeclared]
      exact h.typed_phi hq hbuilt hwired hd hkind hdeclared
    | none =>
      rw [hdeclared] at hdef
      subst hdef
      have hinj : Function.Injective (fun id : DefId => (⟨id.raw⟩ : TypeNodeId)) :=
        fun i j hsame => congrArg (fun m : TypeNodeId => (⟨m.raw⟩ : DefId)) hsame
      rw [Option.map_none, Option.getD_none, TypeRule.Holds, distinct_map hinj, List.map_map]
        at hholds
      rw [hty]
      exact (h.types_of_sources hq hbuilt hwired incoming).symm ▸ hholds
  | promotion source phi =>
    simp only [hkind] at hgiven ⊢
    obtain ⟨merged, hmerged, hsame⟩ := hbuilt.settled.promoted d.id d source phi hd hkind
    obtain ⟨ty, hdeclared⟩ := Option.isSome_iff_exists.mp hgiven
    rw [hty, h.declared_type hq hbuilt hwired hd hdeclared, h.tyOf?_eq hq hbuilt hwired hmerged,
      h.declared_type hq hbuilt hwired hmerged (hsame.trans hdeclared)]
  | undefined =>
    simp only [hkind] at hdef ⊢
    subst hdef
    rw [hty]
    exact hholds

theorem result_type : Prefers view.returnType (ResultType c a report.typedFunctions
    (res.irOf (ProgramTypes.shifted q.1 q.2.types) q.2))
    (res.irOf (ProgramTypes.shifted q.1 q.2.types) q.2).result.ty? := by
  obtain ⟨nodes, hreturned, hrule⟩ := hwired.result
  have hresult : (res.irOf (ProgramTypes.shifted q.1 q.2.types) q.2).result.ty? =
      res.typeIn q.1 q.2.types.result := res.ty?_outcome _
  have hholds := h.kept_of_plain hq hbuilt hwired hwired.high hrule (by
    intro name nodes
    unfold TypingM.resultRule
    split
    · simp
    · split <;> simp)
  rw [hresult]
  unfold TypingM.resultRule at hholds
  cases hdeclared : view.returnType with
  | some ty =>
    rw [hdeclared] at hholds
    exact hholds
  | none =>
    rw [hdeclared] at hholds
    dsimp only at hholds
    rw [Prefers, ResultType]
    have hgraph : (res.irOf (ProgramTypes.shifted q.1 q.2.types) q.2).graph = q.2.graph := rfl
    rw [hgraph]
    by_cases hnone : q.2.graph.blocks.flatMap Block.returned = []
    · rw [if_pos hnone]
      rw [hnone, List.forall₂_nil_left_iff] at hreturned
      rw [hreturned] at hholds
      exact hholds
    · rw [if_neg hnone]
      have hnodes : nodes ≠ [] := by
        rintro rfl
        exact hnone (List.forall₂_nil_right_iff.mp hreturned)
      rw [if_neg (by simpa using hnodes)] at hholds
      refine ⟨_, List.forall₂_map_right_iff.mpr ?_, hholds⟩
      refine (forall₂_distinct hwired.filled.isReturned_biUnique hreturned).imp ?_
      rintro (_ | k) m hm
      · obtain ⟨hlow, hunit, -⟩ := hwired.filled.unit m hm
        exact h.kept_of_plain hq hbuilt hwired hlow hunit (by simp)
      · exact h.expr_type hq hbuilt hwired _ k m (Nat.lt_succ_self _) hm

omit hbuilt in
theorem arity {k : BlockId × NodeId} (hk : k ∈ a.evaluated q.2.graph q.2.form) {callee : String}
    {args : List NodeId} (he : a.expression k.2 = .ok (.call callee args)) {g : TypedFunction}
    (hg : g ∈ report.typedFunctions) (hname : g.name = callee) :
    args.length = g.form.params.length := by
  obtain ⟨m, hm⟩ := (hwired.filled.mem k).mp hk
  obtain ⟨call, hc, happly, hcallee⟩ := call_at hwired hm he
  obtain ⟨k', hk', ⟨-, -, -, args', hcall, hargs⟩, -⟩ := rule_of_call hwired hc
  rw [happly] at hk'
  obtain rfl := hwired.filled.inj k' k m hk' hm
  obtain ⟨-, rfl⟩ := Expression.call.inj (Except.ok.inj (he.symm.trans hcall))
  obtain ⟨r, hr, rfl⟩ := h.mem_typed.mp hg
  obtain ⟨fn', view', s', hbuilt', hwired'⟩ := h.wired hr
  rw [name_irOf hbuilt' hwired', ← hcallee] at hname
  have hfits := h.fits _ (h.assembled.laid.mem_links h.assembled.nodup (mem_placed hq) hc
    (mem_placed hr) hname)
  simp only [ProgramTypes.Link.fits, ProgramTypes.shifted, ProgramTypes.shiftCall, List.length_map,
    hwired'.params, beq_iff_eq] at hfits
  rw [hargs.length_eq, ← hfits]
  rfl

omit h hq hwired in
theorem reachable {whole : FlowGraph} (hwhole : FlowGraph.lower a view = .ok whole)
    (hcount : whole.blocks.length ≤ Ident.invalidRaw) {b : Block} (hb : b ∈ q.2.graph.blocks) :
    q.2.graph.Reachable b.id := by
  obtain ⟨g, t, hg, hgraph⟩ := hbuilt.graph
  have hfinished := FlowGraph.ofFunction_finished hbuilt.function hwhole hcount hg
  rw [hgraph] at hb ⊢
  exact hfinished.reached b.id
    (FlowGraph.contains_iff.mpr ⟨b, FlowGraph.block?_of_mem hfinished.once hb⟩)

theorem wellTyped (hunshared : ∀ q ∈ pieces, q.2.Unshared a) :
    WellTyped c a report.typedFunctions view
      (res.irOf (ProgramTypes.shifted q.1 q.2.types) q.2) where
  name := hbuilt.settled.function
  node := hbuilt.settled.node
  reachable _ hwhole hcount _ hb := reachable hbuilt hwhole hcount hb
  expressions k hk := by
    obtain ⟨m, hm⟩ := (hwired.filled.mem k).mp hk
    have htype := h.expr_type hq hbuilt hwired _ k m (Nat.lt_succ_self _) hm
    exact ⟨_, htype, fun ty hty => hty.unique h.names_nodup htype⟩
  arity k hk callee args he g hg hname := h.arity hq hwired hk he hg hname
  params := by
    have hlength := hbuilt.settled.params.length_eq
    rw [List.length_zipIdx] at hlength
    exact hlength.symm
  param i p id hp hid := h.param_type hq hbuilt hwired hunshared hp hid
  defs d hd := h.def_type hq hbuilt hwired hd
  result := h.result_type hq hbuilt hwired

end

end Clean

namespace Compiler

/-- The types of a program for which nothing is reported solve its equations. Every function of it
is compiled, unless a report on a function is lost under a name that another has. -/
theorem compile_wellTyped (c : Compiler) (a : Arena) (functions : List NodeId) (memo : Memo)
    (hmemo : memo.Faithful c.rules (.ofConfig c.config))
    (hclear : Collected.Clear {} (c.outcomes a functions))
    (hunshared : ∀ u, .ok u ∈ c.outcomes a functions → u.Unshared a)
    (herrors : (c.compile a functions memo).1.errors = [])
    (hwarnings : (c.compile a functions memo).1.warnings = []) :
    ((c.compile a functions memo).1.typedFunctions.map (·.name)).Nodup ∧
      List.Forall₂ (fun fn f => ∃ view, a.function fn = .ok view ∧
        WellTyped c a (c.compile a functions memo).1.typedFunctions view f)
        functions (c.compile a functions memo).1.typedFunctions := by
  obtain ⟨pieces, res, h⟩ := clean_of_silent hmemo hclear herrors hwarnings
  have hunshared : ∀ q ∈ pieces, q.2.Unshared a := fun q hq =>
    hunshared q.2 (h.outcomes ▸ List.mem_map_of_mem hq)
  refine ⟨h.names_nodup, ?_⟩
  have hbuilt : List.Forall₂ (fun q fn => q ∈ pieces ∧ ∃ view, FunctionUnit.BuiltFrom a fn view q.2)
      pieces functions := (List.forall₂_and_left _ _).mpr ⟨fun _ hq => hq, h.built.flip⟩
  suffices List.Forall₂ (fun fn f => ∃ view, a.function fn = .ok view ∧
      WellTyped c a (c.compile a functions memo).1.typedFunctions view f) functions
      (pieces.map (fun q => res.irOf (ProgramTypes.shifted q.1 q.2.types) q.2)) by
    rwa [← h.typed] at this
  refine List.forall₂_map_right_iff.mpr (hbuilt.flip.imp ?_)
  rintro fn q ⟨hq, view, hbuilt⟩
  obtain ⟨s, hwired⟩ := hbuilt.wired
  exact ⟨view, hbuilt.function, h.wellTyped hq hbuilt hwired hunshared⟩

end Compiler

/-! A function that calls itself and gives back what it is called with. -/

section
open Digraph SsaForm FlowGraph

def loopArena : Arena where
  registry := .builtin
  nodes := #[
    ⟨⟨0⟩, ⟨14⟩, .value, [.type .int64, .str "1"], []⟩,
    ⟨⟨1⟩, ⟨15⟩, .identity, [.str "f", .list [.node ⟨0⟩]], []⟩,
    ⟨⟨2⟩, ⟨3⟩, .identity, [.node ⟨1⟩], []⟩,
    ⟨⟨3⟩, ⟨13⟩, .identity, [.str "x"], []⟩,
    ⟨⟨4⟩, ⟨11⟩, .identity, [.node ⟨3⟩], []⟩,
    ⟨⟨5⟩, ⟨1⟩, .identity, [.str "x"], []⟩,
    ⟨⟨6⟩, ⟨0⟩, .identity, [.str "f", .list [.node ⟨5⟩], .list [.node ⟨2⟩, .node ⟨4⟩]], []⟩]

def loopView : FunctionView :=
  ⟨⟨6⟩, "f", [⟨⟨5⟩, "x", none⟩], [⟨2⟩, ⟨4⟩], none, none⟩

def loopGraph : FlowGraph where
  function := "f"
  entry := ⟨0⟩
  blocks := [{
    id := ⟨0⟩
    slots := [.node ⟨2⟩]
    terminator := some (.returnWith (some ⟨3⟩))
    origin := ⟨.entry, 0, none⟩ }]
  nextBlock := 1

def loopTree : DominatorTree :=
  .ofParents #[⟨0⟩] #[[]] #[0] 1

def loopBuilt : FlowGraph :=
  { loopGraph with dominance := some loopTree }

theorem function_loopArena : loopArena.function ⟨6⟩ = .ok loopView := rfl

set_option maxRecDepth 10000 in
theorem lower_loopArena : FlowGraph.lower loopArena loopView = .ok loopGraph := rfl

theorem ofFunction_loopArena : FlowGraph.ofFunction loopArena ⟨6⟩ = .ok loopGraph := by
  refine ofFunction_eq rfl lower_loopArena (by decide) (fun k hk => ?_) rfl rfl
  obtain rfl : k = ⟨0⟩ := List.mem_singleton.mp hk
  exact .refl

theorem reversePostorder_loopGraph : loopGraph.reversePostorder = [⟨0⟩] := by
  rw [FlowGraph.reversePostorder, Digraph.reversePostorder, targets_index]
  simp [searchFrom, search, blockIds, loopGraph, targets, block?, Block.targets, distinct]

theorem buildDominance_loopGraph : loopGraph.buildDominance = .ok loopTree := by
  have hcontains : loopGraph.contains loopGraph.entry = true := by decide
  have hpositions : (#[[]] : Array (List Nat)) =
      (#[⟨0⟩] : Array BlockId).map (fun b => (loopGraph.predecessors b).filterMap
        ((DominatorTree.numbered [⟨0⟩])[·]?)) := by
    simp [loopGraph, predecessors, block?]
  have hsettle : DominatorTree.settle #[[]] (1 * 1 + 1) (DominatorTree.started 1) 0 =
      (#[some 0], 1) := by decide
  rw [FlowGraph.buildDominance, if_pos hcontains, predecessors_index, reversePostorder_loopGraph]
  refine (DominatorTree.build_eq _ hpositions hsettle ?_).trans (by simp [loopTree])
  unfold DominatorTree.Known
  decide

theorem ensureDominance_loopGraph : loopGraph.ensureDominance = .ok (loopTree, loopBuilt) := by
  have hplain : loopGraph.dominance = none := rfl
  rw [ensureDominance, hplain, buildDominance_loopGraph]
  rfl

theorem walk_loopTree :
    (DominatorTree.walk #[0]).seen = [0] ∧ (DominatorTree.walk #[0]).left = [0] := by
  have hchildren : DominatorTree.childrenOf #[0] 0 = [] := by decide
  simp [DominatorTree.walk, searchFrom, search, hchildren]

theorem preorder_loopTree : loopTree.preorder = [⟨0⟩] := by
  rw [loopTree, DominatorTree.ofParents, walk_loopTree.1]
  rfl

theorem immediateDominator?_loopTree : loopTree.immediateDominator? ⟨0⟩ = none := by
  simp [DominatorTree.immediateDominator?, DominatorTree.position?, loopTree,
    DominatorTree.ofParents, DominatorTree.numbered]

theorem isReachable_loopTree : loopTree.isReachable ⟨0⟩ = true := by
  simp [DominatorTree.isReachable, loopTree, DominatorTree.ofParents, DominatorTree.mem_numbered]

theorem dominates_loopTree : loopTree.dominates ⟨0⟩ ⟨0⟩ = true := by
  have hentered : loopTree.entered = DominatorTree.numbered [⟨0⟩] :=
    congrArg DominatorTree.numbered preorder_loopTree
  have hleft : loopTree.left = DominatorTree.numbered [⟨0⟩] := by
    rw [loopTree, DominatorTree.ofParents, walk_loopTree.2]
    rfl
  simp [DominatorTree.dominates, hentered, hleft, DominatorTree.numbered]

def loopEffects : EffectMap :=
  [(⟨0⟩, [.read "x" (.name ⟨3⟩)])]

theorem namesOf_loopView : namesOf loopView loopTree loopEffects = ["x"] := by
  rw [namesOf, preorder_loopTree]
  rfl

def loopDef : Def :=
  { id := ⟨0⟩, name := "x", block := ⟨0⟩, kind := .param 0 ⟨5⟩ }

def loopUse : Use :=
  { id := ⟨0⟩, name := "x", block := ⟨0⟩, site := .name ⟨3⟩, definition := ⟨0⟩ }

/-- The form before any block is renamed. -/
def loopOpened : SsaForm where
  function := "f"
  node := ⟨6⟩
  params := [⟨0⟩]
  defs := #[loopDef]
  events := (∅ : Std.HashMap BlockId (Array Event)).alter ⟨0⟩
    (fun es => some ((es.getD #[]).push (.define ⟨0⟩)))
  nextDef := 1

def loopForm : SsaForm :=
  { loopOpened with
    uses := #[loopUse]
    events := loopOpened.events.alter ⟨0⟩ (fun es => some ((es.getD #[]).push (.use ⟨0⟩)))
    nextUse := 1 }

/-- The read is always bound. -/
def loopBound : SsaForm :=
  { loopForm with uses := #[{ loopUse with binding := some .always }] }

theorem start_loopBuilt (live : Liveness) :
    start loopView loopBuilt.entry live ["x"] = (loopOpened, [("x", ⟨0⟩)]) := by
  have hrest : ["x"].filter (fun name => !(loopView.params.map (·.name)).contains name &&
      (live.blocks name).contains loopBuilt.entry) = [] := by
    simp [loopView]
  rw [start, hrest]
  rfl

theorem addPhis_loopBuilt (live : Liveness) (f : SsaForm) :
    addPhis loopBuilt loopBuilt.index loopTree loopEffects live ["x"] f = f := by
  have horder : loopTree.order.toList = [⟨0⟩] := rfl
  have hentry : loopBuilt.entry = ⟨0⟩ := rfl
  simp [addPhis, phiBlocks, horder, hentry]

def loopSetting : Setting where
  arena := loopArena
  blocks := loopBuilt.index
  tree := loopTree
  effects := loopEffects
  phis := groupBy Def.block []
  first := [("x", ⟨0⟩)]

theorem renameBlock_loopSetting : ∃ ends,
    loopTree.preorder.foldlM (renameBlock loopSetting) { form := loopOpened } =
      .ok ⟨loopForm, ends⟩ := by
  have hblocks : loopSetting.blocks = loopBuilt.index := rfl
  have htree : loopSetting.tree = loopTree := rfl
  have hphis : loopSetting.phis = groupBy Def.block [] := rfl
  rw [preorder_loopTree]
  simp only [List.foldlM_cons, List.foldlM_nil, renameBlock, hblocks, htree, hphis, fillSlots,
    targets_index, getD_groupBy, immediateDominator?_loopTree]
  exact ⟨_, rfl⟩

theorem verify_loopForm : loopForm.verify loopBuilt = .ok () := by
  have huses : ∀ u ∈ [loopUse], loopForm.verifyUse loopTree u = .ok () := by
    simp [verifyUse, definition?, findNear?, loopForm, loopOpened, loopUse, loopDef, placeOf,
      isReachable_loopTree, dominates_loopTree]
  exact array_forM_ok_iff.mpr fun u hu => huses u (List.mem_toArray.mp hu)

theorem ofGraph_loopArena : ofGraph loopArena loopGraph ⟨6⟩ = .ok (loopForm, loopBuilt) := by
  obtain ⟨ends, hrenamed⟩ := renameBlock_loopSetting
  have heffects : loopBuilt.effects loopArena = .ok loopEffects := rfl
  have hfilled : loopForm.checkFilled = .ok () := rfl
  rw [ofGraph, function_loopArena]
  simp only [Bind.bind, Except.bind, ensureDominance_loopGraph, heffects, namesOf_loopView,
    start_loopBuilt, addPhis_loopBuilt]
  have hsetting : ({
      arena := loopArena
      blocks := loopBuilt.index
      tree := loopTree
      effects := loopEffects
      phis := groupBy Def.block loopOpened.phis
      first := [("x", ⟨0⟩)] } : Setting) = loopSetting := rfl
  simp only [hsetting, hrenamed, hfilled, verify_loopForm]

theorem states_loopForm {x : Analysis} (hform : x.form = loopForm) (horder : x.order = [⟨0⟩]) :
    x.states = [(⟨0⟩, .always)] := by
  have hevents : loopForm.eventsIn ⟨0⟩ = [.define ⟨0⟩, .use ⟨0⟩] := by
    simp [eventsIn, loopForm, loopOpened]
  have hedges : x.edgeStates = [] := by
    rw [Analysis.edgeStates, hform]
    rfl
  have hreads : x.readStates ⟨0⟩ = [(⟨0⟩, .always)] := by
    rw [Analysis.readStates, hform, hevents]
    simp [Analysis.read, hform, noteEvent, loopForm, loopOpened, loopDef, loopUse, definition?,
      use?, findNear?, DefKind.assigns?, Assigned.classify]
  rw [Analysis.states, horder, hedges]
  simp [hreads]

theorem bind_loopForm : loopForm.bind loopBuilt .error = (loopBound, { always := 1 }) := by
  have hstates : (Analysis.ofForm loopBuilt loopForm).states = [(⟨0⟩, .always)] :=
    states_loopForm rfl reversePostorder_loopGraph
  have hreport : [(⟨0⟩, .always)].foldl (loopForm.reportRead .error) {} = { always := 1 } := rfl
  simp only [SsaForm.bind, hstates, hreport]
  simp [mark, loopForm, loopOpened, loopBound, loopUse, loopDef]

def loopTypes : FunctionTypes where
  function := "f"
  graph := ⟨#[⟨.join [], .definition ⟨0⟩, none⟩, ⟨.constant .int64, .expr ⟨0⟩, none⟩,
    ⟨.apply "f" [⟨1⟩], .expr ⟨1⟩, none⟩, ⟨.copy ⟨0⟩, .expr ⟨3⟩, none⟩,
    ⟨.join [⟨3⟩], .result, none⟩]⟩
  defs := #[(⟨0⟩, ⟨0⟩)]
  params := [⟨0⟩]
  result := ⟨4⟩
  calls := [⟨"f", ⟨0⟩, ⟨1⟩, ⟨2⟩, [⟨1⟩]⟩]

/-- The state once some of the nodes are made. -/
def loopTyping (count : Nat) (exprs : Std.HashMap (BlockId × NodeId) TypeNodeId)
    (calls : List CallSite) : Typing where
  graph := ⟨loopTypes.graph.nodes.take count⟩
  defs := loopTypes.defs
  reads := indexBy (fun u => (u.site, u.block)) loopBound.uses.toList
  exprs
  calls

def constExprs : Std.HashMap (BlockId × NodeId) TypeNodeId :=
  Std.HashMap.insert {} (⟨0⟩, ⟨0⟩) ⟨1⟩

def callExprs : Std.HashMap (BlockId × NodeId) TypeNodeId :=
  constExprs.insert (⟨0⟩, ⟨1⟩) ⟨2⟩

def loopExprs : Std.HashMap (BlockId × NodeId) TypeNodeId :=
  callExprs.insert (⟨0⟩, ⟨3⟩) ⟨3⟩

theorem stateT_bind_eq {σ α β : Type} {s s' : σ} {m : StateT σ (Except Fault) α} {x : α}
    (h : m s = .ok (x, s')) (f : α → StateT σ (Except Fault) β) : (m >>= f) s = f x s' := by
  change (m s >>= fun r => f r.1 r.2) = _
  rw [h]
  rfl

namespace TypingM

theorem exprWithin_new {a : Arena} {f : SsaForm} {block : BlockId} {node : NodeId} {s s' : Typing}
    {id : TypeNodeId} {fuel : Nat} (hnone : s.exprs[(block, node)]? = none)
    (hnew : newExpr a f block (exprWithin a f block fuel) node s = .ok (id, s')) :
    exprWithin a f block (fuel + 1) node s =
      .ok (id, { s' with exprs := s'.exprs.insert (block, node) id }) := by
  have hget : (get : TypingM Typing) s = .ok (s, s) := rfl
  rw [exprWithin, stateT_bind_eq hget, hnone]
  exact stateT_bind_eq hnew _

theorem fillDef_loopBound :
    fillDef loopArena loopBound loopDef (Typing.start loopBound) =
      .ok (⟨⟩, loopTyping 1 {} []) := by
  have hstart : Typing.start loopBound =
      { loopTyping 1 {} [] with graph := ⟨#[⟨.undefined, .definition ⟨0⟩, none⟩]⟩ } := by
    simp [Typing.start, loopTyping, loopBound, loopForm, loopOpened, loopDef, loopTypes]
  have hrule : TypeGraph.setRule ⟨#[⟨.undefined, .definition ⟨0⟩, none⟩]⟩ ⟨0⟩ (.join []) =
      ⟨loopTypes.graph.nodes.take 1⟩ := by
    simp [TypeGraph.setRule, TypeGraph.change, loopTypes]
  rw [hstart]
  change Except.ok (_, { loopTyping 1 {} [] with
    graph := TypeGraph.setRule ⟨#[⟨.undefined, .definition ⟨0⟩, none⟩]⟩ ⟨0⟩ (.join []) }) = _
  rw [hrule]
  rfl

theorem expr_loop_call : expr loopArena loopBound ⟨0⟩ ⟨1⟩ (loopTyping 1 {} []) =
    .ok (⟨2⟩, loopTyping 3 callExprs loopTypes.calls) := by
  have hconst : exprWithin loopArena loopBound ⟨0⟩ 6 ⟨0⟩ (loopTyping 1 {} []) =
      .ok (⟨1⟩, loopTyping 2 constExprs []) := by
    have hnew : newExpr loopArena loopBound ⟨0⟩ (exprWithin loopArena loopBound ⟨0⟩ 5) ⟨0⟩
        (loopTyping 1 {} []) = .ok (⟨1⟩, loopTyping 2 {} []) := rfl
    exact exprWithin_new (by simp [loopTyping]) hnew
  have hargs : [(⟨0⟩ : NodeId)].mapM (exprWithin loopArena loopBound ⟨0⟩ 6) (loopTyping 1 {} []) =
      .ok ([⟨1⟩], loopTyping 2 constExprs []) := by
    rw [List.mapM_cons, stateT_bind_eq hconst]
    rfl
  have hnew : newExpr loopArena loopBound ⟨0⟩ (exprWithin loopArena loopBound ⟨0⟩ 6) ⟨1⟩
      (loopTyping 1 {} []) = .ok (⟨2⟩, loopTyping 3 constExprs loopTypes.calls) :=
    stateT_bind_eq hargs (addCall "f" ⟨0⟩ ⟨1⟩)
  exact exprWithin_new (by simp [loopTyping]) hnew

theorem expr_loop_name : expr loopArena loopBound ⟨0⟩ ⟨3⟩ (loopTyping 3 callExprs loopTypes.calls) =
    .ok (⟨3⟩, loopTyping 4 loopExprs loopTypes.calls) := by
  have hread : (loopTyping 3 callExprs loopTypes.calls).reads[
      ((.name ⟨3⟩ : UseSite), (⟨0⟩ : BlockId))]? =
        some { loopUse with binding := some .always } := by
    rw [loopTyping, getElem?_indexBy]
    rfl
  have hnew : newExpr loopArena loopBound ⟨0⟩ (exprWithin loopArena loopBound ⟨0⟩ 6) ⟨3⟩
      (loopTyping 3 callExprs loopTypes.calls) =
        .ok (⟨3⟩, loopTyping 4 callExprs loopTypes.calls) := by
    have hview : (liftM (loopArena.expression ⟨3⟩) : TypingM _)
        (loopTyping 3 callExprs loopTypes.calls) =
          .ok (.name "x", loopTyping 3 callExprs loopTypes.calls) := rfl
    have hget : (get : TypingM Typing) (loopTyping 3 callExprs loopTypes.calls) =
        .ok (loopTyping 3 callExprs loopTypes.calls, loopTyping 3 callExprs loopTypes.calls) := rfl
    rw [newExpr, stateT_bind_eq hview]
    dsimp only
    rw [stateT_bind_eq hget, hread]
    rfl
  exact exprWithin_new (by simp [loopTyping, callExprs, constExprs]) hnew

theorem function_loopBound :
    function loopArena loopBuilt loopBound loopView (Typing.start loopBound) =
      .ok ((⟨4⟩, [⟨0⟩]), loopTyping 5 loopExprs loopTypes.calls) := by
  have hdefs : (loopBound.defs.forM (fillDef loopArena loopBound)) (Typing.start loopBound) =
      .ok (⟨⟩, loopTyping 1 {} []) := by
    have hlist := List.forM_toArray [loopDef] (fillDef loopArena loopBound)
    rw [show loopBound.defs.forM _ = _ from hlist]
    exact (stateT_bind_eq fillDef_loopBound _).trans rfl
  have hslot : visitSlot loopArena loopBound ⟨0⟩ (.node ⟨2⟩) (loopTyping 1 {} []) =
      .ok (⟨⟩, loopTyping 3 callExprs loopTypes.calls) :=
    (stateT_bind_eq expr_loop_call (fun _ => pure ())).trans rfl
  have hslots : [Slot.node ⟨2⟩].forM (visitSlot loopArena loopBound ⟨0⟩) (loopTyping 1 {} []) =
      .ok (⟨⟩, loopTyping 3 callExprs loopTypes.calls) :=
    (stateT_bind_eq hslot _).trans rfl
  have hblock : visitBlock loopArena loopBound loopBuilt.blocks[0] (loopTyping 1 {} []) =
      .ok ([⟨3⟩], loopTyping 4 loopExprs loopTypes.calls) := by
    refine (stateT_bind_eq hslots _).trans ?_
    exact (stateT_bind_eq expr_loop_name _).trans rfl
  have hblocks : [loopBuilt.blocks[0]].mapM (visitBlock loopArena loopBound) (loopTyping 1 {} []) =
      .ok ([[⟨3⟩]], loopTyping 4 loopExprs loopTypes.calls) := by
    rw [List.mapM_cons, stateT_bind_eq hblock]
    rfl
  rw [TypingM.function, stateT_bind_eq hdefs]
  exact stateT_bind_eq hblocks _

end TypingM

theorem ofForm_loopBound : FunctionTypes.ofForm loopArena loopBuilt loopBound = .ok loopTypes := by
  have hview : loopArena.function loopBound.node = .ok loopView := rfl
  rw [FunctionTypes.ofForm, hview]
  simp only [Bind.bind, Except.bind, StateT.run, TypingM.function_loopBound]
  rfl

def loopUnit : FunctionUnit where
  report := { name := "f", node := ⟨6⟩, lints := [Reason.noSignature "f" ["x"]] }
  graph := loopBuilt
  form := loopBound
  types := loopTypes
  requirements := []

def loopCompiler : Compiler where
  config := {}
  rules := { id := 0, rules := RuleSet.builtinRules }

theorem outcomes_loopArena : loopCompiler.outcomes loopArena [⟨6⟩] = [.ok loopUnit] := by
  have hlints : Validator.run loopCompiler.validators loopView =
      .ok [Reason.noSignature "f" ["x"]] := rfl
  have hpromote : loopForm.promote (.ofConfig loopCompiler.config) =
      (loopForm, { passes := 1 }) := rfl
  have hunbound : loopCompiler.config.unbound = .error := rfl
  have hnode : loopView.node = ⟨6⟩ := rfl
  have hbuild : FunctionUnit.build loopCompiler.config loopCompiler.validators loopArena ⟨6⟩ =
      .ok loopUnit := by
    rw [FunctionUnit.build, function_loopArena]
    simp only [hlints, FunctionUnit.lower, hnode, hunbound, ofFunction_loopArena, Bind.bind,
      Except.bind, ofGraph_loopArena, hpromote, bind_loopForm, ofForm_loopBound]
    rfl
  exact congrArg (fun o => [o]) hbuild

/-- The parameter joins the argument, and the call copies the result. -/
def loopProgram : TypeGraph :=
  ⟨#[⟨.join [⟨1⟩], .definition ⟨0⟩, some "f"⟩, ⟨.constant .int64, .expr ⟨0⟩, some "f"⟩,
    ⟨.copy ⟨4⟩, .expr ⟨1⟩, some "f"⟩, ⟨.copy ⟨0⟩, .expr ⟨3⟩, some "f"⟩,
    ⟨.join [⟨3⟩], .result, some "f"⟩]⟩

theorem graph_loopTypes : (ProgramTypes.link [loopTypes]).graph = loopProgram := by
  decide +kernel

/-- The nodes rank above those that they depend on. -/
def loopRank (m : TypeNodeId) : Nat :=
  [1, 0, 4, 2, 3].getD m.raw 0

theorem loopProgram_acyclic (m : TypeNodeId) : ¬Relation.TransGen loopProgram.DependsOn m m := by
  have hrank : ∀ i < 5, ∀ d ∈ loopProgram.dependencies ⟨i⟩, loopRank d < loopRank ⟨i⟩ := by decide
  intro hcycle
  have hlower := hcycle.lift (p := (· > ·)) loopRank fun m d hd => hrank m.raw hd.source_lt d hd.1
  rw [Relation.transGen_eq_self] at hlower
  exact Nat.lt_irrefl _ hlower

namespace Resolver

variable {r : Resolver} {g : TypeGraph}

/-- A rule that cannot fail: it neither applies an operator nor joins two nodes. -/
def Faultless : TypeRule → Prop
  | .constant _ | .copy _ | .undefined | .join [] | .join [_] => True
  | _ => False

theorem Faultless.quiet {lookup : TypeNodeId → Option Ty} {rule : TypeRule} (h : Faultless rule) :
    (Plain.evaluate r lookup rule).error = none ∧
      (Plain.evaluate r lookup rule).warning = none := by
  match rule with
  | .constant _ | .copy _ | .undefined | .join [] => exact ⟨rfl, rfl⟩
  | .join [m] =>
    have hknown : [m].filterMap lookup = (lookup m).toList := by
      cases hm : lookup m <;> simp [hm]
    rw [Plain.evaluate, hknown]
    cases lookup m <;> exact ⟨rfl, rfl⟩

theorem Solution.nothing_reported {res : Resolution} (h : Solution r g res)
    (hrules : ∀ m, Faultless (ruleOf g m)) (hacyclic : ∀ m, ¬Relation.TransGen g.DependsOn m m) :
    res.errors = [] ∧ res.warnings = [] ∧ res.failures = [] := by
  have hquiet : ∀ {kind : Evaluation → Option Fault} {found : List (TypeNodeId × Fault)},
      Plain.Reports r g kind (·.raw < g.size) res found →
      (∀ m, kind (Plain.outcome r g res.types m) = none) → found = [] := by
    intro kind found hreports hnone
    refine List.eq_nil_iff_forall_not_mem.mpr fun entry hentry => ?_
    obtain ⟨-, -, he⟩ := (hreports.mem_iff entry.1 entry.2).mp hentry
    rw [hnone] at he
    cases he
  refine ⟨hquiet h.errors fun m => (hrules m).quiet.1,
    hquiet h.warnings fun m => (hrules m).quiet.2,
    List.eq_nil_iff_forall_not_mem.mpr fun f hf => ?_⟩
  obtain ⟨c, hc, hcyclic, -⟩ := h.failures f hf
  have hmem := g.condense_order_perm.mem_iff.mpr (Array.mem_toList_iff.mpr hc)
  obtain ⟨m, -, hm⟩ := (g.condense_schedule.cyclic c hmem).mp hcyclic
  exact hacyclic m hm

end Resolver

theorem Compiler.finished_silent {p : ProgramTypes} {res : Resolution} {u : FunctionUnit}
    (h : u.report.Silent) (hdominance : u.graph.dominance ≠ none) :
    (finished p res [] u).Silent := by
  unfold finished
  cases p.function? u.name with
  | none => exact h
  | some t =>
    dsimp only
    unfold TypedFunction.ofParts
    rw [if_neg (by simpa using hdominance)]
    exact h

theorem functions_loopArena : ∃ res,
    (loopCompiler.compile loopArena [⟨6⟩] {}).1.functions =
      [("f", Compiler.finished (.link [loopTypes]) res [] loopUnit)] := by
  set r := Resolver.ofConfig loopCompiler.config loopCompiler.rules
  set p := ProgramTypes.link [loopTypes] with hp
  have hyields := Resolver.resolve_yields r p.graph {} (Memo.faithful_empty _ _)
  have hrules : ∀ m, Resolver.Faultless (Resolver.ruleOf p.graph m) := by
    rw [hp, graph_loopTypes]
    rintro ⟨_ | _ | _ | _ | _ | n⟩ <;> trivial
  obtain ⟨herrors, hwarnings, hfailures⟩ :=
      (Resolver.Plain.resolve_solution r p.graph).nothing_reported
    hrules (by rw [hp, graph_loopTypes]; exact loopProgram_acyclic)
  rw [← hyields.1] at herrors hwarnings hfailures
  obtain ⟨calls, hreport⟩ := loopCompiler.compile_linked loopArena [⟨6⟩] {}
  rw [Compiler.collected, outcomes_loopArena] at hreport
  have hlinked : p.errors = [] := rfl
  have hnone : Finding.all p calls ((r.resolve p.graph).run {}).1 = [] := by
    rw [Finding.all, hlinked, herrors, hwarnings, hfailures]
    rfl
  exact ⟨_, hreport.trans (congrArg
    (fun found => [("f", Compiler.finished p _ found loopUnit)]) hnone)⟩

theorem length_typedFunctions_loopArena :
    (loopCompiler.compile loopArena [⟨6⟩] {}).1.typedFunctions.length = 1 := by
  obtain ⟨res, hfunctions⟩ := functions_loopArena
  have hsilent : (Compiler.finished (.link [loopTypes]) res [] loopUnit).Silent :=
    Compiler.finished_silent ⟨rfl, rfl⟩ (by simp [loopUnit, loopBuilt])
  have hfunction : (ProgramTypes.link [loopTypes]).function? loopUnit.name =
      some (ProgramTypes.shifted 0 loopTypes) := rfl
  rw [ProgramReport.typedFunctions, hfunctions, Compiler.finished_eq hfunction hsilent.1]
  rfl

theorem compile_wellTyped_loopArena :
    (Memo.Faithful {} loopCompiler.rules (.ofConfig loopCompiler.config) ∧
      Collected.Clear {} (loopCompiler.outcomes loopArena [⟨6⟩]) ∧
      (∀ u, .ok u ∈ loopCompiler.outcomes loopArena [⟨6⟩] → u.Unshared loopArena) ∧
      (loopCompiler.compile loopArena [⟨6⟩] {}).1.errors = [] ∧
      (loopCompiler.compile loopArena [⟨6⟩] {}).1.warnings = []) ∧
    List.Forall₂ (fun fn f => ∃ view, loopArena.function fn = .ok view ∧
      WellTyped loopCompiler loopArena (loopCompiler.compile loopArena [⟨6⟩] {}).1.typedFunctions
        view f) [⟨6⟩] (loopCompiler.compile loopArena [⟨6⟩] {}).1.typedFunctions := by
  have hmemo := Memo.faithful_empty loopCompiler.rules (.ofConfig loopCompiler.config)
  have hclear : Collected.Clear {} (loopCompiler.outcomes loopArena [⟨6⟩]) := by
    rw [outcomes_loopArena]
    exact ⟨by simp [Collected.refused?, Collected.taken, Reports.has], trivial⟩
  have hunshared : ∀ u, .ok u ∈ loopCompiler.outcomes loopArena [⟨6⟩] → u.Unshared loopArena := by
    rw [outcomes_loopArena]
    intro u hu
    obtain rfl : u = loopUnit := by simpa using hu
    have hevaluated : loopArena.evaluated loopUnit.graph loopUnit.form =
        [(⟨0⟩, ⟨0⟩), (⟨0⟩, ⟨1⟩), (⟨0⟩, ⟨3⟩)] := rfl
    rw [FunctionUnit.Unshared, hevaluated]
    decide
  obtain ⟨res, hfunctions⟩ := functions_loopArena
  have hsilent : (Compiler.finished (.link [loopTypes]) res [] loopUnit).Silent :=
    Compiler.finished_silent ⟨rfl, rfl⟩ (by simp [loopUnit, loopBuilt])
  have herrors : (loopCompiler.compile loopArena [⟨6⟩] {}).1.errors = [] := by
    rw [ProgramReport.errors, hfunctions]
    simp [hsilent.1]
  have hwarnings : (loopCompiler.compile loopArena [⟨6⟩] {}).1.warnings = [] := by
    rw [ProgramReport.warnings, hfunctions]
    simp [hsilent.2]
  exact ⟨⟨hmemo, hclear, hunshared, herrors, hwarnings⟩,
    (loopCompiler.compile_wellTyped loopArena [⟨6⟩] {} hmemo hclear hunshared herrors hwarnings).2⟩

end

end TypedSsa

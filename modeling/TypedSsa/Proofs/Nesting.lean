import TypedSsa.Flow.Effects
import TypedSsa.Proofs.Arenas
import TypedSsa.Proofs.Collecting

/-!
What lies below a node. Main statements: `expression_total`, each node of an arena can be read as an
expression, and `reads_total`, the reads of an expression are found, and none is missed however its
parts are shared.
-/

namespace TypedSsa

open Relation

/-- The expressions that an expression is made of. -/
def Expression.parts : Expression → List NodeId
  | call _ args => args
  | binary _ left right => [left, right]
  | cast value _ => [value]
  | name _ | const _ | other _ => []

/-- The expressions and statements that a statement is made of, and its handlers. -/
def Statement.parts : Statement → List NodeId
  | assign _ _ value _ | expr value => [value]
  | ifElse test body orelse => test :: (body ++ orelse)
  | whileLoop test body => test :: body
  | forLoop loop => loop.start :: loop.stop :: (loop.step.toList ++ loop.body)
  | tryCatch body handlers => body ++ handlers
  | returnStmt value | raise value => value.toList
  | breakStmt | continueStmt => []

namespace Arena

variable {a : Arena} {u w m root : NodeId} {n : Node} {v : FieldValue} {name what : String}

/-- Nothing that a node refers to, directly or not, refers back to itself. -/
def Grounded (a : Arena) (root : NodeId) : Prop :=
  ∀ w, ReflTransGen a.Leads root w → ¬TransGen a.Leads w w

/-- The kinds of statements and expressions are among the arena's. -/
def Basic (a : Arena) : Prop :=
  Kind.builtin ⊆ a.registry.kinds

/-- Where nodes refer to earlier ones only, nothing refers back to itself. -/
theorem Ordered.grounded_of_earlier (h : a.Ordered)
    (hearlier : ∀ n ∈ a.nodes.toList, ∀ w ∈ n.children, w.raw < n.id.raw) (root : NodeId) :
    a.Grounded root := by
  have hedge : ∀ u w, a.Leads u w → w.raw < u.raw := by
    intro u w hleads
    obtain ⟨n, hn, hw⟩ := hleads
    obtain ⟨hmem, rfl⟩ := h.find?_iff.mp hn
    exact hearlier n (Array.mem_toList_iff.mpr hmem) w hw
  exact fun w _ hcycle => Nat.lt_irrefl _ (raw_lt_of_transGen hedge hcycle)

theorem Formed.find?_of_leads (h : a.Formed) (hw : a.Leads u w) : ∃ n, a.find? w = some n := by
  obtain ⟨n, hn, hw⟩ := hw
  obtain ⟨s, hfits, -⟩ := h.registered hn
  obtain ⟨k, hk⟩ := hfits.known hw
  obtain ⟨m, hm, -⟩ := Option.bind_eq_some_iff.mp hk
  exact ⟨m, hm⟩

theorem Formed.complete (h : a.Formed) : a.Complete :=
  fun _ _ hleads => h.find?_of_leads hleads

/-! Fields. -/

theorem field_ok : a.field u name = .ok v ↔ ∃ n s i, a.find? u = some n ∧
    a.registry.schema? n.kind = some s ∧ s.fieldIndex? name = some i ∧ n.fields[i]? = some v := by
  constructor
  · intro h
    obtain ⟨n, hn, h⟩ := except_bind_ok h
    obtain ⟨s, hs, h⟩ := except_bind_ok h
    split at h
    · rename_i value hvalue
      cases h
      obtain ⟨i, hi, hv⟩ := Option.bind_eq_some_iff.mp hvalue
      exact ⟨n, s, i, node_ok.mp hn, schemaOf_ok.mp hs, hi, hv⟩
    · cases h
  · intro ⟨n, s, i, hn, hs, hi, hv⟩
    simp only [field, node_ok.mpr hn, schemaOf_ok.mpr hs, hi, hv, bind, Except.bind,
      Option.bind_some]

theorem leads_of_field (h : a.field u name = .ok v) (hw : w ∈ v.references) : a.Leads u w := by
  obtain ⟨n, -, i, hn, -, -, hv⟩ := field_ok.mp h
  exact ⟨n, hn, List.mem_flatMap.mpr ⟨v, List.mem_of_getElem? hv, hw⟩⟩

theorem fieldAs_ok {α : Type} {read : FieldValue → Option α} {x : α} :
    a.fieldAs u name what read = .ok x ↔ ∃ v, a.field u name = .ok v ∧ read v = some x := by
  constructor
  · intro h
    obtain ⟨v, hv, h⟩ := except_bind_ok h
    split at h
    · rename_i y hy
      cases h
      exact ⟨v, hv, hy⟩
    · cases h
  · intro ⟨v, hv, hx⟩
    simp only [fieldAs, hv, hx, bind, Except.bind]

theorem leads_of_nodeField (h : a.nodeField u name = .ok w) : a.Leads u w := by
  obtain ⟨v, hv, hw⟩ := fieldAs_ok.mp h
  apply leads_of_field hv
  cases v <;> cases hw
  exact List.mem_singleton_self _

theorem leads_of_nodeField? {found : Option NodeId} (h : a.nodeField? u name = .ok found)
    (hw : w ∈ found.toList) : a.Leads u w := by
  obtain ⟨v, hv, rfl⟩ := except_map_ok.mp h
  apply leads_of_field hv
  cases v <;> simp_all [FieldValue.node?, FieldValue.references]

theorem leads_of_listField {found : List NodeId} (h : a.listField u name = .ok found)
    (hw : w ∈ found) : a.Leads u w := by
  obtain ⟨v, hv, rfl⟩ := except_map_ok.mp h
  exact leads_of_field hv hw

/-! Nodes read as what they are. -/

theorem kindName_ok {kind : String} : a.kindName u = .ok kind ↔ a.kindName? u = some kind := by
  unfold kindName
  cases a.kindName? u <;> simp

/-- The kind of the node that an expression stands in, and the fields that it was read from. -/
def ReadsExpression (a : Arena) (u : NodeId) : Expression → Prop
  | .name name => a.kindName? u = some Kind.name ∧ a.strField u "id" = .ok name
  | .const ty => a.kindName? u = some Kind.const ∧ a.typeField u "ty" = .ok ty
  | .call callee args =>
    a.kindName? u = some Kind.call ∧ a.strField u "func" = .ok callee ∧
      a.listField u "args" = .ok args
  | .binary op left right =>
    a.kindName? u = some Kind.binary ∧ a.strField u "op" = .ok op ∧
      a.nodeField u "left" = .ok left ∧ a.nodeField u "right" = .ok right
  | .cast value ty =>
    a.kindName? u = some Kind.cast ∧ a.nodeField u "value" = .ok value ∧
      a.typeField u "ty" = .ok ty
  | .other kind => a.kindName? u = some kind

theorem readsExpression {e : Expression} (h : a.expression u = .ok e) : a.ReadsExpression u e := by
  obtain ⟨kind, hkind, h⟩ := except_bind_ok h
  have hk := kindName_ok.mp hkind
  rcases ite_eq_iff.mp h with ⟨hname, h⟩ | ⟨-, h⟩
  · obtain ⟨name, hid, rfl⟩ := except_map_ok.mp h
    exact ⟨hname ▸ hk, hid⟩
  rcases ite_eq_iff.mp h with ⟨hconst, h⟩ | ⟨-, h⟩
  · obtain ⟨ty, hty, rfl⟩ := except_map_ok.mp h
    exact ⟨hconst ▸ hk, hty⟩
  rcases ite_eq_iff.mp h with ⟨hcall, h⟩ | ⟨-, h⟩
  · obtain ⟨callee, hcallee, h⟩ := except_bind_ok h
    obtain ⟨args, hargs, h⟩ := except_bind_ok h
    cases h
    exact ⟨hcall ▸ hk, hcallee, hargs⟩
  rcases ite_eq_iff.mp h with ⟨hbinary, h⟩ | ⟨-, h⟩
  · obtain ⟨op, hop, h⟩ := except_bind_ok h
    obtain ⟨left, hleft, h⟩ := except_bind_ok h
    obtain ⟨right, hright, h⟩ := except_bind_ok h
    cases h
    exact ⟨hbinary ▸ hk, hop, hleft, hright⟩
  rcases ite_eq_iff.mp h with ⟨hcast, h⟩ | ⟨-, h⟩
  · obtain ⟨value, hvalue, h⟩ := except_bind_ok h
    obtain ⟨ty, hty, h⟩ := except_bind_ok h
    cases h
    exact ⟨hcast ▸ hk, hvalue, hty⟩
  cases h
  exact hk

theorem leads_of_expression {e : Expression} (h : a.expression u = .ok e) (hw : w ∈ e.parts) :
    a.Leads u w := by
  have hread := readsExpression h
  cases e with
  | call callee args => exact leads_of_listField hread.2.2 hw
  | binary op left right =>
    rcases List.mem_pair.mp hw with rfl | rfl
    · exact leads_of_nodeField hread.2.2.1
    · exact leads_of_nodeField hread.2.2.2
  | cast value ty =>
    rw [List.mem_singleton.mp hw]
    exact leads_of_nodeField hread.2.1
  | name | const | other => cases hw

theorem leads_of_countedLoop {loop : CountedLoop} (h : a.countedLoop u = .ok loop)
    (hw : w ∈ (Statement.forLoop loop).parts) : a.Leads u w := by
  obtain ⟨target, -, h⟩ := except_bind_ok h
  obtain ⟨name, -, h⟩ := except_bind_ok h
  obtain ⟨start, hstart, h⟩ := except_bind_ok h
  obtain ⟨stop, hstop, h⟩ := except_bind_ok h
  obtain ⟨step, hstep, h⟩ := except_bind_ok h
  obtain ⟨body, hbody, h⟩ := except_bind_ok h
  cases h
  simp only [Statement.parts, List.mem_cons, List.mem_append] at hw
  rcases hw with rfl | rfl | hw | hw
  · exact leads_of_nodeField hstart
  · exact leads_of_nodeField hstop
  · exact leads_of_nodeField? hstep hw
  · exact leads_of_listField hbody hw

/-- The kind of the node that a statement stands in, and the fields that it was read from. -/
def ReadsStatement (a : Arena) (u : NodeId) : Statement → Prop
  | .assign target name value declared =>
    a.kindName? u = some Kind.assign ∧ a.nodeField u "target" = .ok target ∧
      a.strField target "id" = .ok name ∧ a.nodeField u "value" = .ok value ∧
      declared = a.declaredType? u
  | .expr value => a.kindName? u = some Kind.exprStmt ∧ a.nodeField u "value" = .ok value
  | .ifElse test body orelse =>
    a.kindName? u = some Kind.ifElse ∧ a.nodeField u "test" = .ok test ∧
      a.listField u "body" = .ok body ∧ a.listField u "orelse" = .ok orelse
  | .whileLoop test body =>
    a.kindName? u = some Kind.whileLoop ∧ a.nodeField u "test" = .ok test ∧
      a.listField u "body" = .ok body
  | .forLoop loop => a.kindName? u = some Kind.forLoop ∧ a.countedLoop u = .ok loop
  | .tryCatch body handlers =>
    a.kindName? u = some Kind.tryCatch ∧ a.listField u "body" = .ok body ∧
      a.listField u "handlers" = .ok handlers
  | .breakStmt => a.kindName? u = some Kind.breakStmt
  | .continueStmt => a.kindName? u = some Kind.continueStmt
  | .returnStmt value => a.kindName? u = some Kind.returnStmt ∧ a.nodeField? u "value" = .ok value
  | .raise value => a.kindName? u = some Kind.raise ∧ a.nodeField? u "value" = .ok value

theorem readsStatement {st : Statement} (h : a.statement u = .ok st) : a.ReadsStatement u st := by
  obtain ⟨kind, hkind, h⟩ := except_bind_ok h
  have hk := kindName_ok.mp hkind
  rcases ite_eq_iff.mp h with ⟨hassign, h⟩ | ⟨-, h⟩
  · obtain ⟨target, htarget, h⟩ := except_bind_ok h
    obtain ⟨name, hname, h⟩ := except_bind_ok h
    obtain ⟨value, hvalue, h⟩ := except_bind_ok h
    cases h
    exact ⟨hassign ▸ hk, htarget, hname, hvalue, rfl⟩
  rcases ite_eq_iff.mp h with ⟨hexpr, h⟩ | ⟨-, h⟩
  · obtain ⟨value, hvalue, rfl⟩ := except_map_ok.mp h
    exact ⟨hexpr ▸ hk, hvalue⟩
  rcases ite_eq_iff.mp h with ⟨hif, h⟩ | ⟨-, h⟩
  · obtain ⟨test, htest, h⟩ := except_bind_ok h
    obtain ⟨body, hbody, h⟩ := except_bind_ok h
    obtain ⟨orelse, horelse, h⟩ := except_bind_ok h
    cases h
    exact ⟨hif ▸ hk, htest, hbody, horelse⟩
  rcases ite_eq_iff.mp h with ⟨hwhile, h⟩ | ⟨-, h⟩
  · obtain ⟨test, htest, h⟩ := except_bind_ok h
    obtain ⟨body, hbody, h⟩ := except_bind_ok h
    cases h
    exact ⟨hwhile ▸ hk, htest, hbody⟩
  rcases ite_eq_iff.mp h with ⟨hfor, h⟩ | ⟨-, h⟩
  · obtain ⟨loop, hloop, rfl⟩ := except_map_ok.mp h
    exact ⟨hfor ▸ hk, hloop⟩
  rcases ite_eq_iff.mp h with ⟨htry, h⟩ | ⟨-, h⟩
  · obtain ⟨body, hbody, h⟩ := except_bind_ok h
    obtain ⟨handlers, hhandlers, h⟩ := except_bind_ok h
    cases h
    exact ⟨htry ▸ hk, hbody, hhandlers⟩
  rcases ite_eq_iff.mp h with ⟨hbreak, h⟩ | ⟨-, h⟩
  · cases h
    exact hk.trans (congrArg some hbreak)
  rcases ite_eq_iff.mp h with ⟨hcontinue, h⟩ | ⟨-, h⟩
  · cases h
    exact hk.trans (congrArg some hcontinue)
  rcases ite_eq_iff.mp h with ⟨hreturn, h⟩ | ⟨-, h⟩
  · obtain ⟨value, hvalue, rfl⟩ := except_map_ok.mp h
    exact ⟨hreturn ▸ hk, hvalue⟩
  rcases ite_eq_iff.mp h with ⟨hraise, h⟩ | ⟨-, h⟩
  · obtain ⟨value, hvalue, rfl⟩ := except_map_ok.mp h
    exact ⟨hraise ▸ hk, hvalue⟩
  cases h

theorem leads_of_statement {st : Statement} (h : a.statement u = .ok st) (hw : w ∈ st.parts) :
    a.Leads u w := by
  have hread := readsStatement h
  cases st with
  | assign target name value declared =>
    rw [List.mem_singleton.mp hw]
    exact leads_of_nodeField hread.2.2.2.1
  | expr value =>
    rw [List.mem_singleton.mp hw]
    exact leads_of_nodeField hread.2
  | ifElse test body orelse =>
    simp only [Statement.parts, List.mem_cons, List.mem_append] at hw
    rcases hw with rfl | hw | hw
    · exact leads_of_nodeField hread.2.1
    · exact leads_of_listField hread.2.2.1 hw
    · exact leads_of_listField hread.2.2.2 hw
  | whileLoop test body =>
    rcases List.mem_cons.mp hw with rfl | hw
    · exact leads_of_nodeField hread.2.1
    · exact leads_of_listField hread.2.2 hw
  | forLoop loop => exact leads_of_countedLoop hread.2 hw
  | tryCatch body handlers =>
    rcases List.mem_append.mp hw with hw | hw
    · exact leads_of_listField hread.2.1 hw
    · exact leads_of_listField hread.2.2 hw
  | breakStmt | continueStmt => cases hw
  | returnStmt | raise => exact leads_of_nodeField? hread.2 hw

/-- The kind of the node that a function stands in, and the fields that it was read from. -/
structure ReadsFunction (a : Arena) (u : NodeId) (view : FunctionView) : Prop where
  node : view.node = u
  kind : a.kindName? u = some Kind.function
  params : ∃ ids, a.listField u "params" = .ok ids ∧ ids.mapM a.param = .ok view.params
  name : a.strField u "name" = .ok view.name
  body : a.listField u "body" = .ok view.body

theorem readsFunction {view : FunctionView} (h : a.function u = .ok view) :
    a.ReadsFunction u view := by
  obtain ⟨kind, hkind, h⟩ := except_bind_ok h
  rcases ite_eq_iff.mp h with ⟨-, h⟩ | ⟨hfunction, h⟩
  · cases h
  obtain ⟨ids, hids, h⟩ := except_bind_ok h
  obtain ⟨params, hparams, h⟩ := except_bind_ok h
  obtain ⟨name, hname, h⟩ := except_bind_ok h
  obtain ⟨body, hbody, h⟩ := except_bind_ok h
  cases h
  exact ⟨rfl, Classical.not_not.mp hfunction ▸ kindName_ok.mp hkind, ⟨ids, hids, hparams⟩, hname,
    hbody⟩

theorem function_node {view : FunctionView} (h : a.function u = .ok view) : view.node = u :=
  (readsFunction h).node

theorem leads_of_function {view : FunctionView} (h : a.function u = .ok view)
    (hw : w ∈ view.body) : a.Leads u w :=
  leads_of_listField (readsFunction h).body hw

/-! Expressions. -/

section
variable (h : a.Formed) (hbasic : a.Basic)
include h hbasic

/-- A kind's name tells the kind. -/
theorem Formed.schema_of_builtin {s : KindSchema} (hs : s ∈ Kind.builtin)
    (hk : a.kindName? u = some s.name) :
    ∃ n, a.find? u = some n ∧ a.Fits n s := by
  obtain ⟨n, hn, hname⟩ := Option.bind_eq_some_iff.mp hk
  obtain ⟨t, ht, hsame⟩ := Option.map_eq_some_iff.mp hname
  obtain ⟨t', hfits, -⟩ := h.registered hn
  cases hfits.schema.symm.trans ht
  obtain rfl : t = s := List.inj_on_of_nodup_map h.kinds (List.mem_of_getElem? ht) (hbasic hs) hsame
  exact ⟨n, hn, hfits⟩

theorem Formed.field_of_builtin (name : String) {s : KindSchema} (hs : s ∈ Kind.builtin)
    (hk : a.kindName? u = some s.name) {spec : FieldSpec} (hspec : s.field? name = some spec) :
    ∃ v, a.field u name = .ok v ∧ a.checkValue spec.type v = .ok () := by
  obtain ⟨n, hn, hfits⟩ := h.schema_of_builtin hbasic hs hk
  obtain ⟨i, hi⟩ : ∃ i, s.fieldIndex? name = some i := by
    apply Option.isSome_iff_exists.mp
    rw [KindSchema.fieldIndex?, List.findIdx?_isSome]
    have hsome : (s.fields.find? (·.name == name)).isSome = true := Option.isSome_of_eq_some hspec
    simpa using hsome
  have hspec : s.fields[i]? = some spec := getElem?_of_findIdx? hi hspec
  have hlt : i < n.fields.length := by
    rw [hfits.length]
    exact (List.getElem?_eq_some_iff.mp hspec).1
  exact ⟨n.fields[i], field_ok.mpr ⟨n, s, i, hn, hfits.schema, hi, List.getElem?_eq_getElem hlt⟩,
    hfits.fields i spec _ hspec (List.getElem?_eq_getElem hlt)⟩

theorem Formed.strField_of_builtin (name : String) {s : KindSchema} (hs : s ∈ Kind.builtin)
    (hk : a.kindName? u = some s.name) (hspec : s.field? name = some ⟨name, .str⟩) :
    ∃ x, a.strField u name = .ok x := by
  obtain ⟨v, hv, hfits⟩ := h.field_of_builtin hbasic name hs hk hspec
  cases v with
  | str x => exact ⟨x, fieldAs_ok.mpr ⟨_, hv, rfl⟩⟩
  | _ => cases hfits

theorem Formed.typeField_of_builtin (name : String) {s : KindSchema} (hs : s ∈ Kind.builtin)
    (hk : a.kindName? u = some s.name) (hspec : s.field? name = some ⟨name, .type⟩) :
    ∃ x, a.typeField u name = .ok x := by
  obtain ⟨v, hv, hfits⟩ := h.field_of_builtin hbasic name hs hk hspec
  cases v with
  | type x => exact ⟨x, fieldAs_ok.mpr ⟨_, hv, rfl⟩⟩
  | _ => cases hfits

theorem Formed.nodeField_of_builtin (name : String) {s : KindSchema} (hs : s ∈ Kind.builtin)
    (hk : a.kindName? u = some s.name) {kind : Option String}
    (hspec : s.field? name = some ⟨name, .node kind⟩) :
    ∃ x, a.nodeField u name = .ok x := by
  obtain ⟨v, hv, hfits⟩ := h.field_of_builtin hbasic name hs hk hspec
  obtain ⟨x, -, rfl, -⟩ := checkValue_node.mp hfits
  exact ⟨x, fieldAs_ok.mpr ⟨_, hv, rfl⟩⟩

theorem Formed.listField_of_builtin (name : String) {s : KindSchema} (hs : s ∈ Kind.builtin)
    (hk : a.kindName? u = some s.name) {spec : FieldSpec} (hspec : s.field? name = some spec) :
    ∃ x, a.listField u name = .ok x := by
  obtain ⟨v, hv, -⟩ := h.field_of_builtin hbasic name hs hk hspec
  exact ⟨v.references, except_map_ok.mpr ⟨v, hv, rfl⟩⟩

/-- Every node can be read as an expression. -/
theorem Formed.expression_total (hn : a.find? u = some n) : ∃ e, a.expression u = .ok e := by
  obtain ⟨s, -, hk⟩ := h.registered hn
  have hkind : a.kindName u = .ok s.name := by rw [kindName, hk]
  have named {kind : String} (hs : s.name = kind) : a.kindName? u = some kind := hs ▸ hk
  simp only [expression, hkind, bind, Except.bind]
  split_ifs with hname hconst hcall hbinary hcast
  · obtain ⟨x, hx⟩ := h.strField_of_builtin hbasic "id" (List.mem_of_getElem? (i := 13) rfl)
      (named hname) rfl
    exact ⟨_, by rw [hx]; rfl⟩
  · obtain ⟨x, hx⟩ := h.typeField_of_builtin hbasic "ty" (List.mem_of_getElem? (i := 14) rfl)
      (named hconst) rfl
    exact ⟨_, by rw [hx]; rfl⟩
  · have hs := List.mem_of_getElem? (show Kind.builtin[15]? = some _ from rfl)
    obtain ⟨callee, hcallee⟩ := h.strField_of_builtin hbasic "func" hs (named hcall) rfl
    obtain ⟨args, hargs⟩ := h.listField_of_builtin hbasic "args" hs (named hcall) rfl
    exact ⟨_, by rw [hcallee, hargs]⟩
  · have hs := List.mem_of_getElem? (show Kind.builtin[16]? = some _ from rfl)
    obtain ⟨op, hop⟩ := h.strField_of_builtin hbasic "op" hs (named hbinary) rfl
    obtain ⟨left, hleft⟩ := h.nodeField_of_builtin hbasic "left" hs (named hbinary) rfl
    obtain ⟨right, hright⟩ := h.nodeField_of_builtin hbasic "right" hs (named hbinary) rfl
    exact ⟨_, by rw [hop, hleft, hright]⟩
  · have hs := List.mem_of_getElem? (show Kind.builtin[17]? = some _ from rfl)
    obtain ⟨value, hvalue⟩ := h.nodeField_of_builtin hbasic "value" hs (named hcast) rfl
    obtain ⟨ty, hty⟩ := h.typeField_of_builtin hbasic "ty" hs (named hcast) rfl
    exact ⟨_, by rw [hvalue, hty]⟩
  · exact ⟨_, rfl⟩

/-- A read of a variable has no parts. -/
theorem Formed.not_leads_of_name (hk : a.kindName? u = some Kind.name) : ¬a.Leads u w := by
  intro ⟨n, hn, hw⟩
  obtain ⟨n', hn', hfits⟩ := h.schema_of_builtin hbasic (List.mem_of_getElem? (i := 13) rfl) hk
  cases hn'.symm.trans hn
  obtain ⟨v, hv, hw⟩ := List.mem_flatMap.mp hw
  obtain ⟨i, hi, rfl⟩ := List.getElem_of_mem hv
  have hone : n.fields.length = 1 := hfits.length
  obtain rfl : i = 0 := by omega
  have hstr := hfits.fields 0 ⟨"id", .str⟩ _ rfl (List.getElem?_eq_getElem hi)
  cases hfield : n.fields[0] with
  | str x =>
    rw [hfield] at hw
    cases hw
  | _ =>
    rw [hfield] at hstr
    cases hstr

end

/-! The reads found by a traversal. -/

section
variable (h : a.Formed) (hbasic : a.Basic)
include h hbasic

theorem Formed.kindId?_name : ∃ k, a.registry.kindId? Kind.name = some k ∧
    ∀ u n, a.find? u = some n → (n.kind = k ↔ a.kindName? u = some Kind.name) := by
  have hs := hbasic (List.mem_of_getElem? (show Kind.builtin[13]? = some _ from rfl))
  obtain ⟨i, hi⟩ := List.mem_iff_getElem?.mp hs
  have hid := h.kinds.kindId? (show a.registry.schema? ⟨i⟩ = some _ from hi)
  refine ⟨⟨i⟩, hid, fun u n hn => ⟨?_, fun hk => ?_⟩⟩
  · intro hkind
    rw [kindName?, hn, Option.bind_some, hkind]
    exact congrArg (Option.map _) hi
  · obtain ⟨s, hfits, hname⟩ := h.registered hn
    have hsame : s.name = Kind.name := Option.some.inj (hname.symm.trans hk)
    have hid' := h.kinds.kindId? hfits.schema
    rw [hsame] at hid'
    exact Option.some.inj (hid'.symm.trans hid)

theorem Formed.reading : ∃ k, a.Reading k ∧
    ∀ u n, a.find? u = some n → (n.kind = k ↔ a.kindName? u = some Kind.name) := by
  obtain ⟨k, hid, hk⟩ := h.kindId?_name hbasic
  refine ⟨k, ⟨hid, fun u n hn hkind => ?_, fun u n hn hkind => ?_⟩, hk⟩
  · obtain ⟨n', hn', hfits⟩ := h.schema_of_builtin hbasic (List.mem_of_getElem? (i := 13) rfl)
      ((hk u n hn).mp hkind)
    cases hn'.symm.trans hn
    exact hfits.mode
  · have hname := (hk u n hn).mp hkind
    obtain ⟨x, hx⟩ := h.strField_of_builtin hbasic "id" (List.mem_of_getElem? (i := 13) rfl)
      hname rfl
    have hkind : a.kindName u = .ok Kind.name := by rw [kindName, hname]
    exact ⟨x, by rw [expression, hkind]; simp [hx, bind, Except.bind]⟩

/-- The reads of an expression are found, however often its parts are shared, and none is missed. -/
theorem Formed.reads_total (hn : a.find? root = some n) :
    ∃ es, a.reads root = .ok es ∧ ∀ m x, ReflTransGen a.Leads root m →
      a.expression m = .ok (.name x) → .read x (.name m) ∈ es := by
  obtain ⟨k, hreading, hk⟩ := h.reading hbasic
  obtain ⟨found, hfound, -, hmem⟩ := hreading.namesRead_total h.complete h.acyclic ⟨n, hn⟩
  refine ⟨found.map (fun p => .read p.1 (.name p.2)), by rw [reads, hfound]; rfl, ?_⟩
  intro m x hm hx
  have hkind : a.ofKind k m = true := by
    have hname := (readsExpression hx).1
    obtain ⟨nm, hnm, -⟩ := Option.bind_eq_some_iff.mp hname
    exact (ofKind_iff hnm).mpr ((hk m nm hnm).mpr hname)
  -- nothing lies below a read, so none is passed on the way down
  have hpast : ReflTransGen (a.LeadsPast k) root m := by
    refine ReflTransGen.mono (fun u w huw => ⟨huw, Bool.eq_false_iff.mpr fun hof => ?_⟩) _ _ hm
    obtain ⟨nu, hnu, hkind⟩ := exists_of_ofKind hof
    exact h.not_leads_of_name hbasic ((hk u nu hnu).mp hkind) huw
  exact List.mem_map.mpr ⟨(x, m), (hmem x m).mpr ⟨hpast, hkind, hx⟩, rfl⟩

end

end Arena

end TypedSsa

import TypedSsa.Proofs.Rows
import TypedSsa.Tree.Build

/-!
Arenas under any sequence of operations. Main statement: `run_wellFormed`. Values fit what they were
checked against, for nodes are never taken away and keep their kinds; and as a value node refers to
older nodes alone, for good, value nodes form no cycle.
-/

namespace TypedSsa
open Relation

/-- An operation on an arena, which may be refused. -/
inductive Edit where
  | create (kind : String) (fields : List FieldValue)
  | setField (id : NodeId) (name : String) (value : FieldValue)
  | setAttribute (id : NodeId) (name : String) (value : FieldValue)
  | register (schema : KindSchema)

def Edit.run : Edit → TreeM Unit
  | .create kind fields => do
    let _ ← TreeM.create kind fields
  | .setField id name value => TreeM.setField id name value
  | .setAttribute id name value => TreeM.setAttribute id name value
  | .register schema => TreeM.change (fun a =>
    (a.registry.register schema).map (fun r => { a with registry := r.2 }))

/-- One operation after another, each with its outcome. -/
def Grove.run (g : Grove) : List Edit → List (Except Fault Unit) × Grove
  | [] => ([], g)
  | edit :: edits =>
    let (outcome, g) := edit.run g
    let (outcomes, g) := g.run edits
    (outcome :: outcomes, g)

namespace Arena

variable {a a' a'' : Arena} {t : FieldType} {v : FieldValue} {id : NodeId} {n : Node}

/-! What a well-formed arena is. -/

/-- A value is of a type: the nodes that it refers to are there, and of the kind that is asked
for. -/
inductive Suits (a : Arena) : FieldType → FieldValue → Prop
  | absent {t : FieldType} : Suits a (.optional t) .absent
  | present {t : FieldType} {v : FieldValue} : Suits a t v → Suits a (.optional t) v
  | node {kind : Option String} {id : NodeId} {n : Node} {s : KindSchema} :
    a.find? id = some n → a.registry.schema? n.kind = some s →
    (∀ name, kind = some name → name = s.name) → Suits a (.node kind) (.node id)
  | list {t : FieldType} {items : List FieldValue} :
    (∀ x ∈ items, Suits a t x) → Suits a (.list t) (.list items)
  | int (value : Int) : Suits a .int (.int value)
  | float (value : Binary64) : Suits a .float (.float value)
  | str (value : String) : Suits a .str (.str value)
  | bool (value : Bool) : Suits a .bool (.bool value)
  | type (value : Ty) : Suits a .type (.type value)

/-- A node has the mode and the fields that its kind declares, and no attributes but such. -/
structure Declared (a : Arena) (n : Node) (s : KindSchema) : Prop where
  schema : a.registry.schema? n.kind = some s
  mode : n.mode = s.mode
  fields : List.Forall₂ (fun spec v => a.Suits spec.type v) s.fields n.fields
  attributes : ∀ p ∈ n.attributes, ∃ spec ∈ s.hidden, spec.name = p.1 ∧ a.Suits spec.type p.2

/-- Nodes are found by their own ids and as they are declared, they refer to nodes that are there,
and none is on a cycle of value nodes. -/
structure WellFormed (a : Arena) : Prop where
  own : ∀ id n, a.find? id = some n → n.id = id
  declared : ∀ id n, a.find? id = some n → ∃ s, a.Declared n s
  present : ∀ id n, a.find? id = some n → ∀ v ∈ n.fields ++ n.attributes.map (·.2),
    ∀ w ∈ v.references, a.contains w = true
  acyclic : ∀ id, ¬TransGen a.Refers id id

/-- Nodes stay, with their ids, kinds and modes, and value nodes with their fields. Kinds stay what
they were. -/
structure Extends (a a' : Arena) : Prop where
  kinds : ∀ k s, a.registry.schema? k = some s → a'.registry.schema? k = some s
  nodes : ∀ id n, a.find? id = some n → ∃ n', a'.find? id = some n' ∧ n'.id = n.id ∧
    n'.kind = n.kind ∧ n'.mode = n.mode ∧ (n.mode = .value → n'.fields = n.fields)

/-! What has been checked. -/

theorem suits_of_checkValue : ∀ {t : FieldType} {v : FieldValue},
    a.checkValue t v = .ok () → a.Suits t v := by
  intro t
  induction t with
  | optional t ih =>
    intro v hv
    rcases checkValue_optional.mp hv with rfl | hv
    · exact .absent
    · exact .present (ih hv)
  | list t ih =>
    intro v hv
    obtain ⟨items, rfl, hitems⟩ := checkValue_list.mp hv
    exact .list (fun x hx => ih (hitems x hx))
  | node kind =>
    intro v hv
    obtain ⟨id, name, rfl, hname, hkind⟩ := checkValue_node.mp hv
    obtain ⟨n, hn, hname⟩ := Option.bind_eq_some_iff.mp hname
    obtain ⟨s, hs, rfl⟩ := Option.map_eq_some_iff.mp hname
    exact .node hn hs hkind
  | int | float | str | bool | type =>
    intro v hv
    cases v <;> first | constructor | cases hv

theorem Suits.present_refs (h : a.Suits t v) : ∀ w ∈ v.references, a.contains w = true := by
  induction h with
  | present _ ih => exact ih
  | @node kind id n s hn _ _ =>
    intro w hw
    obtain rfl := List.mem_singleton.mp hw
    rw [contains, hn]
    rfl
  | list _ ih =>
    intro w hw
    obtain ⟨x, hx, hw⟩ := mem_referencesOf.mp hw
    exact ih x hx w hw
  | _ =>
    intro w hw
    cases hw

theorem Fits.declared {s : KindSchema} (h : a.Fits n s) : a.Declared n s where
  schema := h.schema
  mode := h.mode
  fields := by
    refine List.forall₂_iff_get.mpr ⟨h.length.symm, fun i hs hn => ?_⟩
    exact suits_of_checkValue
      (h.fields i _ _ (List.getElem?_eq_getElem hs) (List.getElem?_eq_getElem hn))
  attributes := by
    intro p hp
    obtain ⟨spec, hspec, hv⟩ := h.attributes p hp
    have hname : spec.name = p.1 := by simpa using List.find?_some hspec
    exact ⟨spec, List.mem_of_find?_eq_some hspec, hname, suits_of_checkValue hv⟩

theorem Declared.present {s : KindSchema} (h : a.Declared n s) :
    ∀ v ∈ n.fields ++ n.attributes.map (·.2), ∀ w ∈ v.references, a.contains w = true := by
  intro v hv
  rcases List.mem_append.mp hv with hv | hv
  · obtain ⟨i, hi, rfl⟩ := List.getElem_of_mem hv
    have hlt : i < s.fields.length := h.fields.length_eq ▸ hi
    exact ((List.forall₂_iff_get.mp h.fields).2 i hlt hi).present_refs
  · obtain ⟨p, hp, rfl⟩ := List.mem_map.mp hv
    obtain ⟨spec, -, -, hsuits⟩ := h.attributes p hp
    exact hsuits.present_refs

theorem Formed.wellFormed (h : a.Formed) : a.WellFormed := by
  have hdeclared : ∀ id n, a.find? id = some n → ∃ s, a.Declared n s := by
    intro id n hn
    obtain ⟨s, hs, -⟩ := h.registered hn
    exact ⟨s, hs.declared⟩
  refine ⟨fun id n hn => (h.ordered.find?_iff.mp hn).2, hdeclared, fun id n hn => ?_, h.acyclic⟩
  obtain ⟨s, hs⟩ := hdeclared id n hn
  exact hs.present

/-! What each operation leaves as it was. -/

namespace Extends

theorem refl (a : Arena) : Extends a a :=
  ⟨fun _ _ h => h, fun _ n hn => ⟨n, hn, rfl, rfl, rfl, fun _ => rfl⟩⟩

theorem trans (h : Extends a a') (h' : Extends a' a'') : Extends a a'' := by
  refine ⟨fun k s hs => h'.kinds k s (h.kinds k s hs), fun id n hn => ?_⟩
  obtain ⟨n', hn', hid, hkind, hmode, hfields⟩ := h.nodes id n hn
  obtain ⟨n'', hn'', hid', hkind', hmode', hfields'⟩ := h'.nodes id n' hn'
  refine ⟨n'', hn'', hid'.trans hid, hkind'.trans hkind, hmode'.trans hmode, fun hvalue => ?_⟩
  rw [hfields' (hmode.trans hvalue), hfields hvalue]

theorem insert (h : a.Formed) (hnew : a.find? n.id = none) : Extends a (a.insert n) := by
  refine ⟨fun k s hs => ?_, fun id m hm => ⟨m, ?_, rfl, rfl, rfl, fun _ => rfl⟩⟩
  · unfold Arena.insert
    split <;> exact hs
  · rw [h.ordered.insert_find? hnew, if_neg, hm]
    rintro rfl
    rw [hnew] at hm
    cases hm

theorem update (h : a.Formed) {change : Node → Node} (hid : ∀ m, (change m).id = m.id)
    (hkind : ∀ m, (change m).kind = m.kind) (hmode : ∀ m, (change m).mode = m.mode)
    (hfields : ∀ m, a.find? id = some m → m.mode = .value → (change m).fields = m.fields) :
    Extends a (a.update id change) := by
  refine ⟨fun k s hs => hs, fun k m hm => ?_⟩
  rw [(h.ordered.update hid id).2]
  split
  · rename_i hk
    subst hk
    exact ⟨change m, by rw [hm, Option.map_some], hid m, hkind m, hmode m, hfields m hm⟩
  · exact ⟨m, hm, rfl, rfl, rfl, fun _ => rfl⟩

theorem register (h : a.Formed) {s : KindSchema} {k : KindId} {r : Registry}
    (run : a.registry.register s = .ok (k, r)) : Extends a { a with registry := r } :=
  ⟨(Registry.register_ok h.kinds run).2, fun _ n hn => ⟨n, hn, rfl, rfl, rfl, fun _ => rfl⟩⟩

theorem create (h : a.Formed) {ids ids' : IdSupply .node} {kind : String}
    {fields : List FieldValue} (hnew : a.find? ids.peek = none)
    (run : a.create ids kind fields = (.ok (id, a'), ids')) : Extends a a' := by
  obtain ⟨kindId, mode, -, -, -, -, rfl⟩ := create_ok run
  exact insert h hnew

theorem setField (h : a.Formed) {name : String} {value : FieldValue}
    (run : a.setField id name value = .ok a') : Extends a a' := by
  obtain ⟨n, s, index, spec, hn, -, hidentity, -, -, -, rfl⟩ := setField_ok run
  refine update h (fun _ => rfl) (fun _ => rfl) (fun _ => rfl) (fun m hm hvalue => ?_)
  obtain rfl := Option.some.inj ((node_ok.mp hn).symm.trans hm)
  exact absurd hvalue hidentity

theorem setAttribute (h : a.Formed) {name : String} {value : FieldValue}
    (run : a.setAttribute id name value = .ok a') : Extends a a' := by
  obtain ⟨n, s, spec, -, -, -, -, rfl⟩ := setAttribute_ok run
  exact update h (fun _ => rfl) (fun _ => rfl) (fun _ => rfl) (fun _ _ _ => rfl)

end Extends

theorem Grown.fresh {ids : IdSupply .node} (h : a.Grown ids) : a.find? ids.peek = none := by
  cases hfind : a.find? ids.peek with
  | none => rfl
  | some n => exact absurd (h.formed.2 ids.peek (by rw [contains, hfind]; rfl)) (Nat.lt_irrefl _)

end Arena

namespace Grove

variable {g g' : Grove} {edit : Edit} {outcome : Except Fault Unit}

theorem run_create {kind : String} {fields : List FieldValue} :
    (Edit.create kind fields).run g =
      match g.arena.create g.ids kind fields with
      | (.ok (_, arena), ids) => (.ok (), ⟨arena, ids⟩)
      | (.error e, ids) => (.error e, { g with ids }) := by
  unfold Edit.run
  dsimp only [bind, ExceptT.bind, ExceptT.mk, ExceptT.bindCont, StateT.bind, TreeM.create]
  cases g.arena.create g.ids kind fields with
  | mk result ids => cases result <;> rfl

theorem run_change {step : Arena → Except Fault Arena} (run : TreeM.change step g = (outcome, g')) :
    (∃ a, step g.arena = .ok a ∧ outcome = .ok () ∧ g' = { g with arena := a }) ∨
      ∃ e, step g.arena = .error e ∧ outcome = .error e ∧ g' = g := by
  unfold TreeM.change at run
  split at run
  · rename_i a ha
    cases run
    exact .inl ⟨a, ha, rfl, rfl⟩
  · rename_i e he
    cases run
    exact .inr ⟨e, he, rfl, rfl⟩

/-- An operation is done, or it is refused and changes nothing, as long as there are ids. -/
theorem edit_cases (h : g.arena.Grown g.ids) (run : edit.run g = (outcome, g'))
    (houtcome : outcome ≠ .error .idsExhausted) :
    (outcome = .ok () ∧ g'.arena.Grown g'.ids ∧ g.arena.Extends g'.arena) ∨
      (∃ e, outcome = .error e) ∧ g' = g := by
  have hformed := h.formed.1
  have change : ∀ {step : Arena → Except Fault Arena}, TreeM.change step g = (outcome, g') →
      (∀ a, step g.arena = .ok a → a.Grown g.ids ∧ g.arena.Extends a) →
      (outcome = .ok () ∧ g'.arena.Grown g'.ids ∧ g.arena.Extends g'.arena) ∨
        (∃ e, outcome = .error e) ∧ g' = g := by
    intro step run hstep
    rcases run_change run with ⟨a, ha, rfl, rfl⟩ | ⟨e, -, rfl, rfl⟩
    · exact .inl ⟨rfl, hstep a ha⟩
    · exact .inr ⟨⟨e, rfl⟩, rfl⟩
  cases edit with
  | create kind fields =>
    rw [run_create] at run
    split at run
    · rename_i id a ids hcreate
      cases run
      exact .inl ⟨rfl, h.create hcreate, .create hformed h.fresh hcreate⟩
    · rename_i e ids hcreate
      cases run
      have hids := Arena.create_refused hcreate (fun he => houtcome (congrArg Except.error he))
      exact .inr ⟨⟨e, rfl⟩, by rw [hids]⟩
  | setField id name value =>
    have run : TreeM.change (·.setField id name value) g = (outcome, g') := run
    exact change run (fun a ha => ⟨h.setField ha, .setField hformed ha⟩)
  | setAttribute id name value =>
    have run : TreeM.change (·.setAttribute id name value) g = (outcome, g') := run
    exact change run (fun a ha => ⟨h.setAttribute ha, .setAttribute hformed ha⟩)
  | register schema =>
    have run : TreeM.change (fun a => (a.registry.register schema).map
      (fun r => { a with registry := r.2 })) g = (outcome, g') := run
    refine change run (fun a ha => ?_)
    obtain ⟨⟨k, r⟩, hr, rfl⟩ := except_map_ok.mp ha
    exact ⟨h.register hr, .register hformed hr⟩

theorem edit_grown (h : g.arena.Grown g.ids) (run : edit.run g = (outcome, g'))
    (houtcome : outcome ≠ .error .idsExhausted) :
    g'.arena.Grown g'.ids ∧ g.arena.Extends g'.arena := by
  rcases edit_cases h run houtcome with ⟨-, hdone⟩ | ⟨-, rfl⟩
  · exact hdone
  · exact ⟨h, .refl _⟩

theorem run_grown {edits : List Edit} (h : g.arena.Grown g.ids)
    (hids : .error .idsExhausted ∉ (g.run edits).1) :
    (g.run edits).2.arena.Grown (g.run edits).2.ids ∧ g.arena.Extends (g.run edits).2.arena := by
  induction edits generalizing g with
  | nil => exact ⟨h, .refl _⟩
  | cons edit edits ih =>
    obtain ⟨hfirst, hrest⟩ := not_or.mp (fun hmem => hids (List.mem_cons.mpr hmem))
    obtain ⟨hgrown, hextends⟩ :=
      edit_grown h (rfl : edit.run g = (_, _)) (fun heq => hfirst heq.symm)
    obtain ⟨hgrown', hextends'⟩ := ih hgrown hrest
    exact ⟨hgrown', hextends.trans hextends'⟩

theorem run_append (before after : List Edit) : (g.run (before ++ after)) =
    ((g.run before).1 ++ ((g.run before).2.run after).1, ((g.run before).2.run after).2) := by
  induction before generalizing g with
  | nil => rfl
  | cons edit before ih =>
    simp only [List.cons_append, Grove.run, ih]
    rfl

/-- Whatever is done to an arena that began empty, it is well formed, no cycle of values is found,
and all that was there before more was done is kept. -/
theorem run_wellFormed {r : Registry} (hr : r.Grown) (ids : IdSupply .node) (before after : List Edit)
    (hids : .error .idsExhausted ∉
      ((Grove.mk { registry := r } ids).run (before ++ after)).1) :
    let g := ((Grove.mk { registry := r } ids).run before).2
    let g' := ((Grove.mk { registry := r } ids).run (before ++ after)).2
    g'.arena.WellFormed ∧ g'.arena.checkValuesAcyclic = .ok () ∧ g.arena.Extends g'.arena := by
  dsimp only
  rw [run_append] at hids ⊢
  obtain ⟨hbefore, hafter⟩ := not_or.mp (fun hmem => hids (List.mem_append.mpr hmem))
  have hgrown := (run_grown (.new hr) hbefore).1
  obtain ⟨hgrown', hextends⟩ := run_grown hgrown hafter
  have hformed := hgrown'.formed.1
  exact ⟨hformed.wellFormed, (NodeTable.checkValuesAcyclic_ok hformed.ordered).mpr hformed.acyclic,
    hextends⟩

/-- Two values are paired, and the pair is put into a slot that is changed to hold the slot itself. -/
def pairing : List Edit := [
  .register ⟨"Pair", .value, [⟨"left", .node none⟩, ⟨"right", .optional (.node none)⟩], []⟩,
  .register ⟨"Slot", .identity, [⟨"held", .list (.node none)⟩], [⟨"mark", .bool⟩]⟩,
  .create Kind.const [.type .int64, .str "1"],
  .create "Pair" [.node ⟨0⟩, .absent],
  .create "Slot" [.list [.node ⟨1⟩]]]

def rewiring : List Edit := [
  .setField ⟨1⟩ "left" (.node ⟨1⟩),
  .setField ⟨2⟩ "held" (.list [.node ⟨2⟩, .node ⟨1⟩]),
  .setAttribute ⟨2⟩ "mark" (.bool true),
  .register ⟨"Pair", .identity, [], []⟩]

/-- The pair itself refuses to change, and its kind to be registered again. -/
theorem run_wellFormed_pairing :
    let g := ((Grove.mk { registry := .builtin } {}).run pairing).2
    let g' := ((Grove.mk { registry := .builtin } {}).run (pairing ++ rewiring)).2
    ((Grove.mk { registry := .builtin } {}).run (pairing ++ rewiring)).1 =
      [.ok (), .ok (), .ok (), .ok (), .ok (), .error (.schema "Pair" Reason.immutable), .ok (), .ok (),
        .error (.schema "Pair" Reason.kindTaken)] ∧
    g'.arena.WellFormed ∧ g'.arena.checkValuesAcyclic = .ok () ∧ g.arena.Extends g'.arena := by
  have hrun : ((Grove.mk { registry := .builtin } {}).run (pairing ++ rewiring)).1 =
      [.ok (), .ok (), .ok (), .ok (), .ok (), .error (.schema "Pair" Reason.immutable), .ok (), .ok (),
        .error (.schema "Pair" Reason.kindTaken)] := rfl
  refine ⟨hrun, run_wellFormed Registry.grown_builtin {} pairing rewiring ?_⟩
  rw [hrun]
  simp

end Grove

end TypedSsa

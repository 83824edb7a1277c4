import TypedSsa.Proofs.Editing

/-!
Which tables are read. Main statement: `NodeTable.import_wellFormed`. Rows may come in any order, for
all are allocated before any is checked. So a value fits in the arena of all rows just when it fits in
the table, and value nodes form a cycle just when rows do.
-/

namespace TypedSsa
open Relation

/-! What is listed more than once. -/

section
variable {α κ : Type} [BEq κ] [LawfulBEq κ]

theorem map_foldl_putBy (key : α → κ) (xs : List α) :
    (xs.foldl (putBy key) []).map key = distinct (xs.map key) := by
  induction xs using List.reverseRecOn with
  | nil => rfl
  | append_singleton xs x ih =>
    rw [List.foldl_append, List.map_append, List.map_singleton, distinct_concat, ← ih]
    refine (map_putBy key _ x).trans ?_
    rw [Bool.eq_iff_iff.mpr (any_key_iff.trans List.contains_iff_mem.symm)]

theorem find?_foldl_putBy (key : α → κ) (xs : List α) (k : κ) :
    (xs.foldl (putBy key) []).find? (key · == k) = xs.reverse.find? (key · == k) := by
  induction xs using List.reverseRecOn with
  | nil => rfl
  | append_singleton xs x ih =>
    rw [List.foldl_append, List.reverse_concat, List.find?_cons]
    by_cases hk : key x = k
    · rw [← hk, beq_self_eq_true]
      exact find?_putBy_self key _ x
    · rw [beq_eq_false_iff_ne.mpr hk, ← ih]
      exact find?_putBy_of_ne key _ x (Ne.symm hk)

/-- What is put one after another is the last item of each key, in the place of the first. -/
theorem foldl_putBy_eq_filterMap (key : α → κ) (xs : List α) :
    xs.foldl (putBy key) [] =
      (distinct (xs.map key)).filterMap (fun k => xs.reverse.find? (key · == k)) := by
  have hfound : ∀ x ∈ xs.foldl (putBy key) [], xs.reverse.find? (key · == key x) = some x := by
    intro x hx
    rw [← find?_foldl_putBy]
    exact find?_of_nodup (nodup_foldl_putBy key xs) hx
  rw [← map_foldl_putBy, List.filterMap_map]
  exact ((List.filterMap_congr hfound).trans List.filterMap_some).symm

end

/-! Values and rows that fit. -/

/-- A value is of a type, when it is known which ids have a node, of the kind that is asked for. -/
inductive FieldType.Holds (known : Option String → NodeId → Prop) : FieldType → FieldValue → Prop
  | absent {t : FieldType} : Holds known (.optional t) .absent
  | present {t : FieldType} {v : FieldValue} : Holds known t v → Holds known (.optional t) v
  | node {kind : Option String} {id : NodeId} : known kind id → Holds known (.node kind) (.node id)
  | list {t : FieldType} {items : List FieldValue} :
    (∀ x ∈ items, Holds known t x) → Holds known (.list t) (.list items)
  | int (value : Int) : Holds known .int (.int value)
  | float (value : Binary64) : Holds known .float (.float value)
  | str (value : String) : Holds known .str (.str value)
  | bool (value : Bool) : Holds known .bool (.bool value)
  | type (value : Ty) : Holds known .type (.type value)

/-- The arena has a node of the id, of the kind that is asked for. -/
def Arena.Knows (a : Arena) (kind : Option String) (id : NodeId) : Prop :=
  ∃ k, a.kindName? id = some k ∧ ∀ e, kind = some e → e = k

theorem Arena.checkValue_ok {a : Arena} {t : FieldType} : ∀ {v : FieldValue},
    a.checkValue t v = .ok () ↔ t.Holds a.Knows v := by
  induction t with
  | optional t ih =>
    intro v
    rw [checkValue_optional, ih]
    constructor
    · rintro (rfl | hv)
      · exact .absent
      · exact .present hv
    · intro hv
      cases hv with
      | absent => exact .inl rfl
      | present hv => exact .inr hv
  | list t ih =>
    intro v
    rw [checkValue_list]
    constructor
    · rintro ⟨items, rfl, hitems⟩
      exact .list (fun x hx => ih.mp (hitems x hx))
    · rintro ⟨⟩
      rename_i items hitems
      exact ⟨items, rfl, fun x hx => ih.mpr (hitems x hx)⟩
  | node kind =>
    intro v
    rw [checkValue_node]
    constructor
    · rintro ⟨id, k, rfl, hk⟩
      exact .node ⟨k, hk⟩
    · rintro ⟨⟩
      rename_i id hk
      obtain ⟨k, hk⟩ := hk
      exact ⟨id, k, rfl, hk⟩
  | int | float | str | bool | type =>
    intro v
    constructor
    · intro hv
      cases v <;> first | constructor | cases hv
    · rintro ⟨⟩
      rfl

/-- The nodes that the fields refer to. -/
def NodeRow.children (row : NodeRow) : List NodeId :=
  row.fields.flatMap FieldValue.references

/-- The row is of a kind of values. -/
def NodeRow.IsValue (r : Registry) (row : NodeRow) : Prop :=
  ∃ s, r.named? row.kind = some s ∧ s.mode = .value

/-- The row with each attribute once, as it is listed last, where it is listed first. -/
def NodeRow.settled (row : NodeRow) : NodeRow :=
  { row with
    attributes := (distinct (row.attributes.map (·.1))).filterMap
      (fun name => row.attributes.reverse.find? (·.1 == name)) }

/-- The node that a row is of. -/
def NodeRow.node? (r : Registry) (row : NodeRow) : Option Node :=
  match r.kindId? row.kind, r.named? row.kind with
  | some kind, some s =>
    some ⟨row.id, kind, s.mode, row.fields, row.settled.attributes⟩
  | _, _ => none

namespace NodeTable

variable {t : NodeTable} {r : Registry} {a : Arena} {row : NodeRow} {n : Node}

/-- There is a row of the id, of the kind that is asked for. -/
def Has (t : NodeTable) (kind : Option String) (id : NodeId) : Prop :=
  ∃ row ∈ t.rows, row.id = id ∧ ∀ e, kind = some e → e = row.kind

/-- A row has the fields of its kind, and attributes that its kind declares. -/
structure Fits (t : NodeTable) (row : NodeRow) (s : KindSchema) : Prop where
  fields : List.Forall₂ (fun spec v => FieldType.Holds t.Has spec.type v) s.fields row.fields
  attributes : ∀ p ∈ row.attributes, ∃ spec, s.hidden? p.1 = some spec ∧
    FieldType.Holds t.Has spec.type p.2

/-- From the row of a value to those of the values that its fields refer to. -/
def Refers (t : NodeTable) (r : Registry) (u w : NodeId) : Prop :=
  ∃ row ∈ t.rows, ∃ row' ∈ t.rows, row.id = u ∧ row'.id = w ∧ row.IsValue r ∧ row'.IsValue r ∧
    w ∈ row.children

/-- The rows are those of an arena. -/
structure WellFormed (t : NodeTable) (r : Registry) : Prop where
  valid : ∀ row ∈ t.rows, row.id.isValid = true
  once : (t.rows.map (·.id)).Nodup
  fits : ∀ row ∈ t.rows, ∃ s, r.named? row.kind = some s ∧ t.Fits row s
  acyclic : ∀ id, ¬TransGen (t.Refers r) id id

/-- The arena has the nodes of the rows, and no others. -/
structure HeldBy (t : NodeTable) (r : Registry) (a : Arena) : Prop where
  registry : a.registry = r
  ordered : a.Ordered
  nodes : ∀ n, n ∈ a.nodes ↔ ∃ row ∈ t.rows, row.node? r = some n

end NodeTable

theorem Registry.exists_kindId? {r : Registry} {name : String} {s : KindSchema}
    (hs : r.named? name = some s) : ∃ k, r.kindId? name = some k := by
  have hsome : (r.kinds.findIdx? (·.name == name)).isSome = true := by
    rw [List.findIdx?_isSome, List.any_eq_true]
    exact ⟨s, List.mem_of_find?_eq_some hs, by simpa using List.find?_some hs⟩
  obtain ⟨i, hi⟩ := Option.isSome_iff_exists.mp hsome
  exact ⟨⟨i⟩, by rw [kindId?, hi, Option.map_some]⟩

namespace NodeTable

variable {t : NodeTable} {r : Registry} {a : Arena} {row : NodeRow} {n n' : Node} {s s' : KindSchema}
  {rows : List NodeRow}

/-! Rows as they are allocated. -/

theorem exists_allocated (hs : r.named? row.kind = some s) (hvalid : row.id.isValid = true) :
    ∃ n, Allocated r row n s := by
  obtain ⟨k, hk⟩ := Registry.exists_kindId? hs
  exact ⟨{ id := row.id, kind := k, mode := s.mode }, hk, hs, rfl, hvalid⟩

theorem Allocated.node? (h : Allocated r row n s) : row.node? r = some (row.fill n) := by
  rw [NodeRow.node?, h.kind, h.schema, NodeRow.fill, foldl_putBy_eq_filterMap, h.node]
  rfl

/-- Rows of known kinds, with valid ids that are new, are all allocated. -/
theorem exists_foldlM_allocate {rows : List NodeRow} {a : Arena} (h : a.Ordered)
    (hrows : ∀ row ∈ rows, row.id.isValid = true ∧ ∃ s, a.registry.named? row.kind = some s)
    (honce : (rows.map (·.id)).Nodup) (hnew : ∀ row ∈ rows, a.find? row.id = none) :
    ∃ a', rows.foldlM allocate a = .ok a' := by
  induction rows generalizing a with
  | nil => exact ⟨a, rfl⟩
  | cons row rows ih =>
    obtain ⟨⟨hvalid, s, hs⟩, hrows⟩ := List.forall_mem_cons.mp hrows
    obtain ⟨hfirst, hnew⟩ := List.forall_mem_cons.mp hnew
    obtain ⟨hother, honce⟩ := List.nodup_cons.mp honce
    obtain ⟨n, hn⟩ := exists_allocated hs hvalid
    have hid : n.id = row.id := by rw [hn.node]
    have hfree : a.find? n.id = none := hid ▸ hfirst
    have hrow : allocate a row = .ok (a.insert n) := allocate_ok.mpr ⟨n, s, hn, hfirst, rfl⟩
    rw [List.foldlM_cons, hrow]
    refine ih (h.insert hfree).1 ?_ honce (fun row' hrow' => ?_)
    · rw [insert_registry]
      exact hrows
    · rw [h.insert_find? hfree, if_neg, hnew row' hrow']
      rw [hid]
      exact fun hsame => hother (List.mem_map.mpr ⟨row', hrow', hsame⟩)

namespace Allocates

/-- With all rows allocated, the arena knows what the table has. -/
theorem knows (h : Allocates { registry := r } rows a) : a.Knows = Has ⟨rows⟩ := by
  have hname : ∀ {row n s}, Allocated r row n s →
      (a.registry.schema? n.kind).map (·.name) = some row.kind := by
    intro row n s hn
    obtain ⟨hschema, hname⟩ := Registry.schema?_of_kindId? hn.kind hn.schema
    rw [h.registry, hschema, Option.map_some, hname]
  funext kind id
  refine propext ⟨?_, ?_⟩
  · rintro ⟨k, hk, hkind⟩
    obtain ⟨n, hfind, hschema⟩ := Option.bind_eq_some_iff.mp hk
    obtain ⟨hmem, rfl⟩ := h.ordered.find?_iff.mp hfind
    obtain ⟨row, hrow, s, hn⟩ := h.mem_nodes.mp hmem
    obtain rfl := Option.some.inj ((hname hn).symm.trans hschema)
    exact ⟨row, hrow, by rw [hn.node], hkind⟩
  · rintro ⟨row, hrow, rfl, hkind⟩
    obtain ⟨n, s, hn, hmem⟩ := h.adds row hrow
    have hfind : a.find? row.id = some n := h.ordered.find?_iff.mpr ⟨hmem, by rw [hn.node]⟩
    exact ⟨row.kind, by rw [Arena.kindName?, hfind, Option.bind_some, hname hn], hkind⟩

theorem checked_iff (h : Allocates { registry := r } rows a) :
    Checked a row s ↔ r.named? row.kind = some s ∧ Fits ⟨rows⟩ row s := by
  have hholds : ∀ {spec : FieldSpec} {v}, a.checkValue spec.type v = .ok () ↔
      FieldType.Holds (Has ⟨rows⟩) spec.type v := by
    intro spec v
    rw [Arena.checkValue_ok, h.knows]
  have hregistry : a.registry = r := h.registry
  constructor
  · intro hrow
    refine ⟨hregistry ▸ hrow.schema,
      List.forall₂_iff_get.mpr ⟨hrow.length.symm, fun i hs hv => hholds.mp ?_⟩, fun p hp => ?_⟩
    · exact hrow.fields i _ _ (List.getElem?_eq_getElem hs) (List.getElem?_eq_getElem hv)
    · obtain ⟨spec, hspec, hv⟩ := hrow.attributes p hp
      exact ⟨spec, hspec, hholds.mp hv⟩
  · rintro ⟨hs, hfits⟩
    refine ⟨hregistry ▸ hs, hfits.fields.length_eq.symm, fun i spec v hspec hv => ?_,
      fun p hp => ?_⟩
    · obtain ⟨hi, rfl⟩ := List.getElem?_eq_some_iff.mp hspec
      obtain ⟨hi', rfl⟩ := List.getElem?_eq_some_iff.mp hv
      exact hholds.mpr ((List.forall₂_iff_get.mp hfits.fields).2 i hi hi')
    · obtain ⟨spec, hspec, hv⟩ := hfits.attributes p hp
      exact ⟨spec, hspec, hholds.mpr hv⟩

/-- Filled, the nodes are those of the rows. -/
theorem heldBy (h : Allocates { registry := r } rows a) : HeldBy ⟨rows⟩ r (rows.foldl fill a) := by
  have hfilled : ∀ {row n s}, row ∈ rows → Allocated r row n s → filled rows n = row.fill n :=
    fun hrow hn => filled_of_mem h.once hrow (by rw [hn.node])
  rw [foldl_fill h.ordered h.once]
  refine ⟨h.registry, (h.ordered.map (fun n => (filled_id rows n).1)).1, fun m => ?_⟩
  rw [Array.mem_map]
  constructor
  · rintro ⟨n, hn, rfl⟩
    obtain ⟨row, hrow, s, hn⟩ := h.mem_nodes.mp hn
    exact ⟨row, hrow, hn.node?.trans (congrArg some (hfilled hrow hn).symm)⟩
  · rintro ⟨row, hrow, hm⟩
    obtain ⟨n, s, hn, hmem⟩ := h.adds row hrow
    obtain rfl := Option.some.inj (hn.node?.symm.trans hm)
    exact ⟨n, hmem, hfilled hrow hn⟩

end Allocates

end NodeTable

/-! Nodes of rows. -/

namespace NodeRow

variable {r : Registry} {row : NodeRow} {n : Node}

theorem node?_eq_some : row.node? r = some n ↔ ∃ k s, r.kindId? row.kind = some k ∧
    r.named? row.kind = some s ∧ n = ⟨row.id, k, s.mode, row.fields, row.settled.attributes⟩ := by
  unfold node?
  cases r.kindId? row.kind with
  | none => simp
  | some k => cases r.named? row.kind <;> simp [eq_comm]

theorem isValue_iff (h : row.node? r = some n) : row.IsValue r ↔ n.mode = .value := by
  obtain ⟨k, s, -, hs, rfl⟩ := node?_eq_some.mp h
  simp [IsValue, hs]

theorem IsValue.exists_node (h : row.IsValue r) : ∃ n, row.node? r = some n := by
  obtain ⟨s, hs, -⟩ := h
  obtain ⟨k, hk⟩ := Registry.exists_kindId? hs
  exact ⟨_, node?_eq_some.mpr ⟨k, s, hk, hs, rfl⟩⟩

end NodeRow

namespace NodeTable

variable {t : NodeTable} {r : Registry} {a : Arena} {row : NodeRow} {n : Node}

namespace HeldBy

theorem find?_iff (h : t.HeldBy r a) {id : NodeId} :
    a.find? id = some n ↔ ∃ row ∈ t.rows, row.id = id ∧ row.node? r = some n := by
  rw [h.ordered.find?_iff, h.nodes]
  have hid : ∀ {row : NodeRow}, row.node? r = some n → n.id = row.id := by
    intro row hnode
    obtain ⟨k, s, -, -, rfl⟩ := NodeRow.node?_eq_some.mp hnode
    rfl
  constructor
  · rintro ⟨⟨row, hrow, hnode⟩, rfl⟩
    exact ⟨row, hrow, (hid hnode).symm, hnode⟩
  · rintro ⟨row, hrow, rfl, hnode⟩
    exact ⟨⟨row, hrow, hnode⟩, hid hnode⟩

/-- Rows of values refer to each other as their nodes do. -/
theorem refers_iff (h : t.HeldBy r a) {u w : NodeId} : t.Refers r u w ↔
    a.Refers u w ∧ ∃ n, a.find? u = some n ∧ n.mode = .value := by
  have hchildren : ∀ {row : NodeRow} {n}, row.node? r = some n → n.children = row.children := by
    intro row n hnode
    obtain ⟨k, s, -, -, rfl⟩ := NodeRow.node?_eq_some.mp hnode
    rfl
  rw [Arena.refers_iff]
  constructor
  · rintro ⟨row, hrow, row', hrow', rfl, rfl, hvalue, hvalue', hchild⟩
    obtain ⟨n, hn⟩ := hvalue.exists_node
    obtain ⟨m, hm⟩ := hvalue'.exists_node
    have hfind := h.find?_iff.mpr ⟨row, hrow, rfl, hn⟩
    refine ⟨⟨n, m, hfind, hchildren hn ▸ hchild, h.find?_iff.mpr ⟨row', hrow', rfl, hm⟩, ?_⟩,
      n, hfind, ?_⟩
    · exact (NodeRow.isValue_iff hm).mp hvalue'
    · exact (NodeRow.isValue_iff hn).mp hvalue
  · rintro ⟨⟨n, m, hfind, hchild, hfind', hmode'⟩, n', hsame, hmode⟩
    obtain rfl := Option.some.inj (hfind.symm.trans hsame)
    obtain ⟨row, hrow, hid, hn⟩ := h.find?_iff.mp hfind
    obtain ⟨row', hrow', hid', hm⟩ := h.find?_iff.mp hfind'
    exact ⟨row, hrow, row', hrow', hid, hid', (NodeRow.isValue_iff hn).mpr hmode,
      (NodeRow.isValue_iff hm).mpr hmode', hchildren hn ▸ hchild⟩

theorem acyclic_iff (h : t.HeldBy r a) :
    a.checkValuesAcyclic = .ok () ↔ ∀ id, ¬TransGen (t.Refers r) id id := by
  rw [checkValuesAcyclic_ok h.ordered]
  constructor
  · exact fun hacyclic id hcycle =>
      hacyclic id (TransGen.mono (fun u w huw => (h.refers_iff.mp huw).1) id id hcycle)
  · -- What is referred to as a value is one, so on a cycle all are.
    refine fun hacyclic => Arena.acyclic_of hacyclic (fun u v w huv hvw => ?_)
    obtain ⟨-, m, -, -, hm, hmode⟩ := Arena.refers_iff.mp huv
    exact h.refers_iff.mpr ⟨hvw, m, hm, hmode⟩

theorem rowOf (h : t.HeldBy r a) (hnode : row.node? r = some n) :
    NodeTable.rowOf a n = .ok row.settled ∧ a.row n = row.settled := by
  obtain ⟨k, s, hk, hs, rfl⟩ := NodeRow.node?_eq_some.mp hnode
  obtain ⟨hschema, hname⟩ := Registry.schema?_of_kindId? hk hs
  rw [← h.registry] at hschema
  rw [NodeTable.rowOf, Arena.row, hschema]
  simp [hname, NodeRow.settled]

/-- The arena is written as the rows in the order of their ids, each attribute once. -/
theorem ofArena (h : t.HeldBy r a) (hnode : ∀ row ∈ t.rows, ∃ n, row.node? r = some n)
    (honce : (t.rows.map (·.id)).Nodup) : ∃ rows, NodeTable.ofArena a = .ok ⟨rows⟩ ∧
      rows.Pairwise (·.id.raw < ·.id.raw) ∧ rows.Perm (t.rows.map NodeRow.settled) := by
  refine ⟨a.nodes.toList.map a.row, ?_, List.pairwise_map.mpr h.ordered, ?_⟩
  · have hrows : a.nodes.toList.mapM (NodeTable.rowOf a) = .ok (a.nodes.toList.map a.row) := by
      refine mapM_ok (fun n hn => ?_)
      obtain ⟨row, -, hn⟩ := (h.nodes n).mp (Array.mem_toList_iff.mp hn)
      rw [(h.rowOf hn).1, (h.rowOf hn).2]
    rw [NodeTable.ofArena, hrows]
    rfl
  · have hleft : (a.nodes.toList.map a.row).Nodup := by
      refine List.Nodup.of_map (·.id) ?_
      rw [List.map_map]
      exact h.ordered.nodup
    have hright : (t.rows.map NodeRow.settled).Nodup := by
      refine List.Nodup.of_map (·.id) ?_
      rw [List.map_map]
      exact honce
    refine (List.perm_ext_iff_of_nodup hleft hright).mpr (fun written => ?_)
    rw [List.mem_map, List.mem_map]
    constructor
    · rintro ⟨n, hn, rfl⟩
      obtain ⟨row, hrow, hn⟩ := (h.nodes n).mp (Array.mem_toList_iff.mp hn)
      exact ⟨row, hrow, (h.rowOf hn).2.symm⟩
    · rintro ⟨row, hrow, rfl⟩
      obtain ⟨n, hn⟩ := hnode row hrow
      exact ⟨n, Array.mem_toList_iff.mpr ((h.nodes n).mpr ⟨row, hrow, hn⟩), (h.rowOf hn).2⟩

end HeldBy

/-! Whole tables. -/

theorem toArena_wellFormed (run : t.toArena r = .ok a) : t.WellFormed r ∧ t.HeldBy r a := by
  obtain ⟨a₁, halloc, hrows, rfl, hacyclic⟩ := toArena_ok.mp run
  have h : Allocates { registry := r } t.rows a₁ := foldlM_allocate List.Pairwise.nil halloc
  refine ⟨⟨fun row hrow => ?_, h.once, fun row hrow => ?_, h.heldBy.acyclic_iff.mp hacyclic⟩,
    h.heldBy⟩
  · obtain ⟨n, s, hn, -⟩ := h.adds row hrow
    exact hn.valid
  · obtain ⟨s, hs⟩ := hrows row hrow
    exact ⟨s, h.checked_iff.mp hs⟩

theorem WellFormed.exists_toArena (h : t.WellFormed r) : ∃ a, t.toArena r = .ok a := by
  have hempty : Arena.Ordered { registry := r } := List.Pairwise.nil
  obtain ⟨a, halloc⟩ := exists_foldlM_allocate hempty
    (fun row hrow => ⟨h.valid row hrow, (h.fits row hrow).imp (fun s hs => hs.1)⟩) h.once
    (fun row _ => hempty.find?_none.mpr nofun)
  have hallocates := foldlM_allocate hempty halloc
  refine ⟨_, toArena_ok.mpr ⟨a, halloc, fun row hrow => ?_, rfl,
    hallocates.heldBy.acyclic_iff.mpr h.acyclic⟩⟩
  obtain ⟨s, hs⟩ := h.fits row hrow
  exact ⟨s, hallocates.checked_iff.mpr hs⟩

theorem WellFormed.node? (h : t.WellFormed r) : ∀ row ∈ t.rows, ∃ n, row.node? r = some n := by
  intro row hrow
  obtain ⟨s, hs, -⟩ := h.fits row hrow
  obtain ⟨k, hk⟩ := Registry.exists_kindId? hs
  exact ⟨_, NodeRow.node?_eq_some.mpr ⟨k, s, hk, hs, rfl⟩⟩

/-- The supply is moved to the id after the last that is read, if it is not past it. -/
theorem counter_foldl {rows : List NodeRow} {ids : IdSupply .node}
    (h : ∀ row ∈ rows, row.id.raw < Ident.invalidRaw) :
    (rows.foldl (fun ids row => ids.advancePast row.id) ids).counter =
      (rows.map (·.id.raw + 1)).foldl max ids.counter := by
  induction rows generalizing ids with
  | nil => rfl
  | cons row rows ih =>
    obtain ⟨hrow, hrows⟩ := List.forall_mem_cons.mp h
    have hvalid : row.id.isValid = true := by
      simpa [Ident.isValid] using Nat.ne_of_lt hrow
    have hnext : (ids.advancePast row.id).counter = max ids.counter (row.id.raw + 1) := by
      rw [IdSupply.advancePast, if_pos hvalid]
      exact congrArg (max ids.counter) (Nat.min_eq_left hrow)
    rw [List.foldl_cons, ih hrows, hnext]
    rfl

/-- The outcome of an import, and the supply after it. -/
def importWith (t : NodeTable) (r : Registry) (ids : IdSupply .node) :
    Except Fault Arena × IdSupply .node :=
  match t.import? r ids with
  | .ok (a, ids') => (.ok a, ids')
  | .error e => (.error e, ids)

theorem importWith_cases (t : NodeTable) (r : Registry) (ids : IdSupply .node) :
    (∃ a, t.toArena r = .ok a ∧ t.importWith r ids =
        (.ok a, t.rows.foldl (fun ids row => ids.advancePast row.id) ids)) ∨
      ∃ e, t.toArena r = .error e ∧ t.importWith r ids = (.error e, ids) := by
  unfold importWith import?
  cases t.toArena r with
  | ok a => exact .inl ⟨a, rfl, rfl⟩
  | error e => exact .inr ⟨e, rfl, rfl⟩

/-- A table is read just when it is well formed. Its rows are then the nodes of the arena, which is
written as the same rows, by id, and the supply is past all ids; or else nothing is changed. What is
written of an arena whose ids came from one supply is read as that arena. -/
theorem import_wellFormed :
    (∀ (t : NodeTable) (r : Registry) (ids : IdSupply .node),
      (∀ row ∈ t.rows, row.id.raw ≤ Ident.invalidRaw) →
      let outcome := (t.importWith r ids).1
      let ids' := (t.importWith r ids).2
      ((∃ a, outcome = .ok a) ↔ t.WellFormed r) ∧
        (∀ e, outcome = .error e → ids' = ids) ∧
        ∀ a, outcome = .ok a → a.registry = r ∧
          (∀ id n, a.find? id = some n ↔ ∃ row ∈ t.rows, row.id = id ∧ row.node? r = some n) ∧
          (∃ rows, ofArena a = .ok ⟨rows⟩ ∧ rows.Pairwise (·.id.raw < ·.id.raw) ∧
            rows.Perm (t.rows.map NodeRow.settled)) ∧
          ids'.counter = (t.rows.map (·.id.raw + 1)).foldl max ids.counter) ∧
    ∀ (a : Arena) (ids : IdSupply .node), a.Grown ids →
      ∃ t, ofArena a = .ok t ∧ ∀ ids', (t.importWith a.registry ids').1 = .ok a := by
  refine ⟨fun t r ids hwords => ?_, fun a ids h => ?_⟩
  · rcases t.importWith_cases r ids with ⟨a, harena, hrun⟩ | ⟨e, herror, hrun⟩
    · rw [hrun]
      obtain ⟨hformed, hheld⟩ := toArena_wellFormed harena
      refine ⟨iff_of_true ⟨a, rfl⟩ hformed, by rintro e ⟨⟩, ?_⟩
      rintro a' ⟨⟩
      refine ⟨hheld.registry, fun id n => hheld.find?_iff, hheld.ofArena hformed.node? hformed.once,
        counter_foldl (fun row hrow => ?_)⟩
      have hvalid : row.id.raw ≠ Ident.invalidRaw := by
        simpa [Ident.isValid] using hformed.valid row hrow
      exact Nat.lt_of_le_of_ne (hwords row hrow) hvalid
    · rw [hrun]
      refine ⟨iff_of_false (by rintro ⟨a, ⟨⟩⟩) (fun hformed => ?_), fun _ _ => rfl, by rintro a ⟨⟩⟩
      obtain ⟨a, harena⟩ := hformed.exists_toArena
      rw [herror] at harena
      cases harena
  · have hformed := h.formed.1
    refine ⟨_, hformed.ofArena, fun ids' => ?_⟩
    rcases importWith_cases ⟨a.nodes.toList.map a.row⟩ a.registry ids' with
      ⟨a', harena, hrun⟩ | ⟨e, herror, -⟩
    · rw [hrun, ← harena, hformed.restored]
    · rw [hformed.restored] at herror
      cases herror

/-- Kinds of two sorts of values and of chained cells. -/
def cellKinds : Registry := ⟨[
  ⟨"Leaf", .value, [⟨"value", .int⟩], []⟩,
  ⟨"Box", .value, [⟨"held", .node none⟩], []⟩,
  ⟨"Cell", .identity, [⟨"next", .optional (.node (some "Cell"))⟩], [⟨"tag", .str⟩]⟩]⟩

/-- Two cells are a chain that comes back, and one has an attribute that is listed twice. -/
def cells : NodeTable := ⟨[
  ⟨"Cell", ⟨7⟩, [.node ⟨3⟩], [("tag", .str "tail"), ("tag", .str "head")]⟩,
  ⟨"Box", ⟨5⟩, [.node ⟨2⟩], []⟩,
  ⟨"Cell", ⟨3⟩, [.node ⟨7⟩], []⟩,
  ⟨"Leaf", ⟨2⟩, [.int 1], []⟩]⟩

/-- Two boxes hold each other. -/
def boxes : NodeTable := ⟨[
  ⟨"Box", ⟨0⟩, [.node ⟨1⟩], []⟩,
  ⟨"Box", ⟨1⟩, [.node ⟨0⟩], []⟩]⟩

theorem wellFormed_cells : cells.WellFormed cellKinds where
  valid := by decide
  once := by decide
  fits := by
    have hcell : ∀ {id next : NodeId} {attributes}, (∃ row ∈ cells.rows, row.id = next ∧
        row.kind = "Cell") → (∀ p ∈ attributes, ∃ text, p = ("tag", FieldValue.str text)) →
        ∃ s, cellKinds.named? "Cell" = some s ∧
          cells.Fits ⟨"Cell", id, [.node next], attributes⟩ s := by
      rintro id next attributes ⟨row, hrow, hid, hkind⟩ hattributes
      refine ⟨_, rfl, .cons (.present (.node ⟨row, hrow, hid, ?_⟩)) .nil, fun p hp => ?_⟩
      · rintro e ⟨⟩
        exact hkind.symm
      · obtain ⟨text, rfl⟩ := hattributes p hp
        exact ⟨_, rfl, .str text⟩
    intro row hrow
    simp only [cells, List.mem_cons, List.not_mem_nil, or_false] at hrow
    obtain rfl | rfl | rfl | rfl := hrow
    · exact hcell ⟨_, List.mem_of_getElem? (i := 2) rfl, rfl, rfl⟩ (by simp)
    · exact ⟨_, rfl, .cons (.node ⟨_, List.mem_of_getElem? (i := 3) rfl, rfl, nofun⟩) .nil, nofun⟩
    · exact hcell ⟨_, List.mem_of_getElem? (i := 0) rfl, rfl, rfl⟩ nofun
    · exact ⟨_, rfl, .cons (.int 1) .nil, nofun⟩
  acyclic := by
    have hdown : ∀ u w, cells.Refers cellKinds u w → w.raw < u.raw := by
      rintro u w ⟨row, hrow, row', -, rfl, rfl, ⟨s, hs, hvalue⟩, -, hchild⟩
      simp only [cells, List.mem_cons, List.not_mem_nil, or_false] at hrow
      obtain rfl | rfl | rfl | rfl := hrow
      · cases hs
        cases hvalue
      · simp [NodeRow.children, FieldValue.references] at hchild
        simp [hchild]
      · cases hs
        cases hvalue
      · simp [NodeRow.children, FieldValue.references] at hchild
    intro id hcycle
    have hbelow : ∀ w, TransGen (cells.Refers cellKinds) id w → w.raw < id.raw := by
      intro w hw
      induction hw with
      | single hedge => exact hdown _ _ hedge
      | tail _ hedge ih => exact Nat.lt_trans (hdown _ _ hedge) ih
    exact Nat.lt_irrefl _ (hbelow id hcycle)

theorem not_wellFormed_boxes : ¬ boxes.WellFormed cellKinds := by
  have hthere : boxes.Refers cellKinds ⟨0⟩ ⟨1⟩ :=
    ⟨_, List.mem_of_getElem? (i := 0) rfl, _, List.mem_of_getElem? (i := 1) rfl, rfl, rfl,
      ⟨_, rfl, rfl⟩, ⟨_, rfl, rfl⟩, List.mem_singleton_self _⟩
  have hback : boxes.Refers cellKinds ⟨1⟩ ⟨0⟩ :=
    ⟨_, List.mem_of_getElem? (i := 1) rfl, _, List.mem_of_getElem? (i := 0) rfl, rfl, rfl,
      ⟨_, rfl, rfl⟩, ⟨_, rfl, rfl⟩, List.mem_singleton_self _⟩
  exact fun h => h.acyclic ⟨0⟩ (.tail (.single hthere) hback)

theorem import_wellFormed_cells :
    let g := ((Grove.mk { registry := .builtin } {}).run Grove.pairing).2
    (∀ row ∈ cells.rows ++ boxes.rows, row.id.raw ≤ Ident.invalidRaw) ∧
      (∃ a n, (cells.importWith cellKinds {}).1 = .ok a ∧ a.find? ⟨7⟩ = some n ∧
        n.attributes.map (·.1) = ["tag"] ∧ n.attribute? "tag" = some (.str "head")) ∧
      (cells.importWith cellKinds {}).2.counter = 8 ∧
      (¬ ∃ a, (boxes.importWith cellKinds {}).1 = .ok a) ∧
      (boxes.importWith cellKinds {}).2.counter = 0 ∧
      g.arena.Grown g.ids ∧
      ∃ t, ofArena g.arena = .ok t ∧ (t.importWith g.arena.registry {}).1 = .ok g.arena := by
  obtain ⟨hread, hrestored⟩ := import_wellFormed
  have hwords : ∀ row ∈ cells.rows ++ boxes.rows, row.id.raw ≤ Ident.invalidRaw := by decide
  obtain ⟨haccepted, -, hheld⟩ :=
    hread cells cellKinds {} (fun row hrow => hwords row (List.mem_append_left _ hrow))
  obtain ⟨hrefused, hunchanged, -⟩ :=
    hread boxes cellKinds {} (fun row hrow => hwords row (List.mem_append_right _ hrow))
  obtain ⟨a, ha⟩ := haccepted.mpr wellFormed_cells
  obtain ⟨-, hfind, -, hcounter⟩ := hheld a ha
  have hnone := mt hrefused.mp not_wellFormed_boxes
  have hdone : ((Grove.mk { registry := .builtin } {}).run Grove.pairing).1 =
      [.ok (), .ok (), .ok (), .ok (), .ok ()] := rfl
  have hgrown := (Grove.run_grown (g := ⟨{ registry := .builtin }, {}⟩)
    (.new Registry.grown_builtin) (by rw [hdone]; simp)).1
  obtain ⟨t, ht, hback⟩ := hrestored _ _ hgrown
  refine ⟨hwords, ⟨a, _, ha, (hfind _ _).mpr ⟨_, List.mem_cons_self, rfl, rfl⟩, rfl, rfl⟩, hcounter,
    hnone, ?_, hgrown, t, ht, hback {}⟩
  cases hrun : (boxes.importWith cellKinds {}).1 with
  | ok a => exact absurd ⟨a, hrun⟩ hnone
  | error e => exact congrArg IdSupply.counter (hunchanged e hrun)

end NodeTable

end TypedSsa

import TypedSsa.Proofs.Arenas
import TypedSsa.Tree.Table

/-!
Arenas as rows. An arena that is built from rows is well formed, and the rows of a well-formed arena
give that arena back: `Arena.Formed.restored`.
-/

namespace TypedSsa
open Relation

/-- A node that is allocated and not yet filled. -/
def Node.bare (n : Node) : Node :=
  { n with fields := [], attributes := [] }

/-- Gives a node the contents of its row. -/
def NodeRow.fill (row : NodeRow) (n : Node) : Node :=
  { n with fields := row.fields, attributes := row.attributes.foldl (putBy Prod.fst) [] }

namespace NodeTable

variable {a a' : Arena} {n : Node} {row : NodeRow} {rows : List NodeRow}

/-! Allocation. -/

/-- The node that a row is allocated as. -/
structure Allocated (r : Registry) (row : NodeRow) (n : Node) (s : KindSchema) : Prop where
  kind : r.kindId? row.kind = some n.kind
  schema : r.named? row.kind = some s
  node : n = { id := row.id, kind := n.kind, mode := s.mode }
  valid : row.id.isValid = true

theorem allocate_ok : allocate a row = .ok a' ↔
    ∃ n s, Allocated a.registry row n s ∧ a.find? row.id = none ∧ a' = a.insert n := by
  unfold allocate
  constructor
  · intro run
    split at run
    · rename_i k s hk hs
      split at run
      · cases run
      · rename_i hvalid
        split at run
        · cases run
        · rename_i hnew
          cases run
          exact ⟨_, s, ⟨hk, hs, rfl, by simpa using hvalid⟩,
            by simpa [Arena.contains] using hnew, rfl⟩
    · cases run
  · rintro ⟨n, s, h, hnew, rfl⟩
    rw [h.kind, h.schema]
    simp only [h.valid, Arena.contains, hnew]
    rw [← h.node]
    rfl

theorem insert_registry (a : Arena) (n : Node) : (a.insert n).registry = a.registry := by
  unfold Arena.insert
  split <;> rfl

/-- What the allocation of rows makes of an arena. -/
structure Allocates (a : Arena) (rows : List NodeRow) (a' : Arena) : Prop where
  registry : a'.registry = a.registry
  ordered : a'.Ordered
  once : (rows.map (·.id)).Nodup
  fresh : ∀ row ∈ rows, a.find? row.id = none
  keeps : ∀ n ∈ a.nodes, n ∈ a'.nodes
  adds : ∀ row ∈ rows, ∃ n s, Allocated a.registry row n s ∧ n ∈ a'.nodes
  only : ∀ n ∈ a'.nodes, n ∈ a.nodes ∨ ∃ row ∈ rows, n.id = row.id

theorem foldlM_allocate : ∀ {rows : List NodeRow} {a a' : Arena}, a.Ordered →
    rows.foldlM allocate a = .ok a' → Allocates a rows a'
  | [], a, a', h, run => by
    cases run
    exact ⟨rfl, h, List.nodup_nil, nofun, fun n hn => hn, nofun, fun n hn => .inl hn⟩
  | row :: rows, a, a', h, run => by
    rw [List.foldlM_cons] at run
    obtain ⟨a₁, hrow, run⟩ := except_bind_ok run
    obtain ⟨n, s, halloc, hnew, rfl⟩ := allocate_ok.mp hrow
    have hid : n.id = row.id := by rw [halloc.node]
    rw [← hid] at hnew
    obtain ⟨hordered, hmem⟩ := h.insert hnew
    have ih := foldlM_allocate hordered run
    have hfresh : ∀ row' ∈ rows, row'.id ≠ n.id ∧ a.find? row'.id = none := by
      intro row' hrow'
      have hnone := ih.fresh row' hrow'
      rw [h.insert_find? hnew] at hnone
      split at hnone
      · cases hnone
      · rename_i hne
        exact ⟨hne, hnone⟩
    have hregistry := insert_registry a n
    exact {
      registry := ih.registry.trans hregistry
      ordered := ih.ordered
      once := by
        rw [List.map_cons, List.nodup_cons]
        refine ⟨fun hin => ?_, ih.once⟩
        obtain ⟨row', hrow', hsame⟩ := List.mem_map.mp hin
        exact (hfresh row' hrow').1 (hsame.trans hid.symm)
      fresh := List.forall_mem_cons.mpr ⟨hid ▸ hnew, fun row' hrow' => (hfresh row' hrow').2⟩
      keeps := fun m hm => ih.keeps m ((hmem m).mpr (.inr hm))
      adds := List.forall_mem_cons.mpr
        ⟨⟨n, s, halloc, ih.keeps n ((hmem n).mpr (.inl rfl))⟩, hregistry ▸ ih.adds⟩
      only := by
        intro m hm
        rcases ih.only m hm with hm | ⟨row', hrow', hsame⟩
        · rcases (hmem m).mp hm with rfl | hm
          · exact .inr ⟨row, List.mem_cons_self, hid⟩
          · exact .inl hm
        · exact .inr ⟨row', List.mem_cons_of_mem row hrow', hsame⟩ }

theorem Allocated.unique {r : Registry} {n' : Node} {s s' : KindSchema} (h : Allocated r row n s)
    (h' : Allocated r row n' s') : n = n' := by
  have hkind := Option.some.inj (h.kind.symm.trans h'.kind)
  obtain rfl := Option.some.inj (h.schema.symm.trans h'.schema)
  rw [h.node, h'.node, hkind]

/-- In an arena that was empty, there are no nodes but those that are allocated. -/
theorem Allocates.mem_nodes {r : Registry} (h : Allocates { registry := r } rows a) :
    n ∈ a.nodes ↔ ∃ row ∈ rows, ∃ s, Allocated r row n s := by
  constructor
  · intro hn
    obtain ⟨row, hrow, hid⟩ := (h.only n hn).resolve_left nofun
    obtain ⟨n', s, hn', hmem⟩ := h.adds row hrow
    obtain rfl := h.ordered.unique hmem hn (by rw [hn'.node, hid])
    exact ⟨row, hrow, s, hn'⟩
  · rintro ⟨row, hrow, s, hn⟩
    obtain ⟨n', s', hn', hmem⟩ := h.adds row hrow
    exact hn.unique hn' ▸ hmem

/-! Filling. -/

/-- A node with the contents of its row, if it has one. -/
def filled (rows : List NodeRow) (n : Node) : Node :=
  match rows.find? (·.id == n.id) with
  | some row => row.fill n
  | none => n

theorem filled_cons (hnew : row.id ∉ rows.map (·.id)) (n : Node) :
    filled (row :: rows) n = filled rows (if n.id == row.id then row.fill n else n) := by
  unfold filled
  rw [List.find?_cons]
  by_cases hid : n.id = row.id
  · have hnone : rows.find? (·.id == row.id) = none := by
      rw [List.find?_eq_none]
      intro row' hrow' hsame
      exact hnew (List.mem_map.mpr ⟨row', hrow', eq_of_beq hsame⟩)
    simp [hid, NodeRow.fill, hnone]
  · have hid' : (row.id == n.id) = false := by simpa using fun h => hid h.symm
    simp [hid, hid']

theorem foldl_fill : ∀ {rows : List NodeRow} {a : Arena}, a.Ordered → (rows.map (·.id)).Nodup →
    rows.foldl fill a = { a with nodes := a.nodes.map (filled rows) }
  | [], a, _, _ => by
    rw [show filled [] = id from rfl, Array.map_id]
    rfl
  | row :: rows, a, h, hrows => by
    rw [List.map_cons, List.nodup_cons] at hrows
    have hfill : fill a row =
        { a with nodes := a.nodes.map (fun n => if n.id == row.id then row.fill n else n) } :=
      h.update_eq row.id row.fill
    have hordered : (fill a row).Ordered :=
      (h.update (show ∀ n, (row.fill n).id = n.id from fun _ => rfl) row.id).1
    rw [List.foldl_cons, foldl_fill hordered hrows.2, hfill]
    simp only [Array.map_map, Function.comp_def, ← filled_cons hrows.1]

/-- A row is as its kind wants it. -/
structure Checked (a : Arena) (row : NodeRow) (s : KindSchema) : Prop where
  schema : a.registry.named? row.kind = some s
  length : row.fields.length = s.fields.length
  fields : ∀ (i : Nat) (spec : FieldSpec) (v : FieldValue), s.fields[i]? = some spec →
    row.fields[i]? = some v → a.checkValue spec.type v = .ok ()
  attributes : ∀ p ∈ row.attributes, ∃ spec, s.hidden? p.1 = some spec ∧
    a.checkValue spec.type p.2 = .ok ()

theorem checkAttribute_ok {s : KindSchema} {p : String × FieldValue} :
    checkAttribute a row s p = .ok () ↔ ∃ spec, s.hidden? p.1 = some spec ∧
      a.checkValue spec.type p.2 = .ok () := by
  unfold checkAttribute
  cases s.hidden? p.1 with
  | none => simp
  | some spec => simp [except_mapError_ok]

theorem checkRow_ok : checkRow a row = .ok () ↔ ∃ s, Checked a row s := by
  unfold checkRow
  cases hs : a.registry.named? row.kind with
  | none =>
    constructor
    · intro run
      cases run
    · rintro ⟨s, h⟩
      cases hs.symm.trans h.schema
  | some s =>
    dsimp only
    by_cases hlength : s.fields.length = row.fields.length
    · rw [if_neg (not_not.mpr hlength)]
      constructor
      · intro run
        obtain ⟨⟨⟩, hfields, hattributes⟩ := except_bind_ok run
        refine ⟨s, hs, hlength.symm, fun i spec v hspec hv => ?_, fun p hp => ?_⟩
        · exact except_mapError_ok.mp (forM_zip_ok_iff.mp hfields i spec v hspec hv)
        · exact checkAttribute_ok.mp (forM_ok_iff.mp hattributes p hp)
      · rintro ⟨s', h⟩
        obtain rfl := Option.some.inj (hs.symm.trans h.schema)
        have hfields : (s.fields.zip row.fields).forM (fun p =>
            (a.checkValue p.1.type p.2).mapError
              (fun reason => Fault.table (Reason.rowField row.id p.1.name reason))) = .ok () :=
          forM_zip_ok_iff.mpr (fun i spec v hspec hv =>
            except_mapError_ok.mpr (h.fields i spec v hspec hv))
        refine (congrArg (· >>= _) hfields).trans ?_
        exact forM_ok_iff.mpr (fun p hp => checkAttribute_ok.mpr (h.attributes p hp))
    · rw [if_pos hlength]
      constructor
      · intro run
        cases run
      · rintro ⟨s', h⟩
        obtain rfl := Option.some.inj (hs.symm.trans h.schema)
        exact absurd h.length.symm hlength

theorem checkValuesAcyclic_ok (h : a.Ordered) :
    a.checkValuesAcyclic = .ok () ↔ ∀ id, ¬TransGen a.Refers id id := by
  have hvalues : ∀ u w, w ∈ a.valueChildren u →
      w ∈ (a.nodes.toList.filter (·.mode == .value)).map (·.id) := by
    intro u w hw
    obtain ⟨-, m, -, -, hm, hvalue⟩ := Arena.refers_iff.mp hw
    obtain ⟨hmem, rfl⟩ := h.find?_iff.mp hm
    exact List.mem_map_of_mem (List.mem_filter.mpr ⟨hmem.val, by simp [hvalue]⟩)
  refine Iff.trans ?_ (Digraph.firstOnCycle?_eq_none hvalues)
  unfold Arena.checkValuesAcyclic
  dsimp only
  cases Digraph.firstOnCycle? _ a.valueChildren <;> simp

theorem toArena_ok {t : NodeTable} {r : Registry} : t.toArena r = .ok a ↔
    ∃ a₁, t.rows.foldlM allocate { registry := r } = .ok a₁ ∧
      (∀ row ∈ t.rows, ∃ s, Checked a₁ row s) ∧ a = t.rows.foldl fill a₁ ∧
      a.checkValuesAcyclic = .ok () := by
  unfold toArena
  constructor
  · intro run
    obtain ⟨a₁, halloc, run⟩ := except_bind_ok run
    obtain ⟨⟨⟩, hrows, run⟩ := except_bind_ok run
    dsimp only at run
    split at run
    · rename_i hacyclic
      cases run
      exact ⟨a₁, halloc, fun row hrow => checkRow_ok.mp (forM_ok_iff.mp hrows row hrow), rfl,
        hacyclic⟩
    · cases run
  · rintro ⟨a₁, halloc, hrows, rfl, hacyclic⟩
    have hrows : t.rows.forM (checkRow a₁) = .ok () :=
      forM_ok_iff.mpr (fun row hrow => checkRow_ok.mpr (hrows row hrow))
    simp only [halloc, hrows, Bind.bind, Except.bind, hacyclic]

theorem filled_of_mem (hrows : (rows.map (·.id)).Nodup) (hrow : row ∈ rows) (hid : n.id = row.id) :
    filled rows n = row.fill n := by
  rw [filled, hid, find?_of_nodup hrows hrow]

theorem filled_id (rows : List NodeRow) (n : Node) :
    (filled rows n).id = n.id ∧ (filled rows n).kind = n.kind ∧ (filled rows n).mode = n.mode := by
  unfold filled
  split <;> exact ⟨rfl, rfl, rfl⟩

/-- An arena that is built from rows is well formed, and has a node for each row. -/
theorem toArena_formed {t : NodeTable} {r : Registry} (hr : r.Distinct)
    (hwords : ∀ row ∈ t.rows, row.id.raw ≤ Ident.invalidRaw) (run : t.toArena r = .ok a) :
    a.Formed ∧ ∀ n ∈ a.nodes, ∃ row ∈ t.rows, n.id = row.id := by
  obtain ⟨a₁, halloc, hrows, ha, hacyclic⟩ := toArena_ok.mp run
  have hempty : Arena.Ordered { registry := r } := List.Pairwise.nil
  have h := foldlM_allocate hempty halloc
  rw [foldl_fill h.ordered h.once] at ha
  obtain ⟨hordered, hfind⟩ := h.ordered.map (fun n => (filled_id t.rows n).1)
  rw [← ha] at hordered hfind
  have hregistry : a.registry = r := ha ▸ h.registry
  have hkeeps : Arena.Keeps a₁ a := by
    refine .of_find? (fun k s hs => hregistry.trans h.registry.symm ▸ hs) (fun id n hn => ?_)
    exact ⟨filled t.rows n, by rw [hfind, hn, Option.map_some], (filled_id t.rows n).2.1⟩
  have hrow : ∀ m ∈ a.nodes, ∃ row ∈ t.rows, ∃ n s, Allocated r row n s ∧ m = row.fill n := by
    intro m hm
    rw [ha] at hm
    obtain ⟨n, hn, rfl⟩ := Array.mem_map.mp hm
    obtain ⟨row, hrow, s, hn⟩ := h.mem_nodes.mp hn
    exact ⟨row, hrow, n, s, hn, filled_of_mem h.once hrow (by rw [hn.node])⟩
  refine ⟨{
    kinds := hregistry ▸ hr
    ordered := hordered
    valid := ?_
    fits := ?_
    acyclic := (checkValuesAcyclic_ok hordered).mp hacyclic }, ?_⟩
  · intro m hm
    obtain ⟨row, hrow, n, s, hn, rfl⟩ := hrow m hm
    have hvalid : row.id.raw ≠ Ident.invalidRaw := by simpa [Ident.isValid] using hn.valid
    have hid : n.id = row.id := by rw [hn.node]
    exact Nat.lt_of_le_of_ne (hid ▸ hwords row hrow) (hid ▸ hvalid)
  · intro m hm
    obtain ⟨row, hrow, n, s, hn, rfl⟩ := hrow m hm
    obtain ⟨s', hs'⟩ := hrows row hrow
    obtain rfl := Option.some.inj (hn.schema.symm.trans (h.registry ▸ hs'.schema))
    have hschema := (Registry.schema?_of_kindId? hn.kind hn.schema).1
    refine ⟨s, hregistry ▸ hschema, by rw [NodeRow.fill, hn.node], hs'.length,
      fun i spec v hspec hv => hkeeps.checkValue (hs'.fields i spec v hspec hv), fun p hp => ?_,
      nodup_foldl_putBy Prod.fst _⟩
    obtain ⟨spec, hspec, hv⟩ := hs'.attributes p (mem_foldl_putBy hp)
    exact ⟨spec, hspec, hkeeps.checkValue hv⟩
  · intro m hm
    obtain ⟨row, hrow, n, s, hn, rfl⟩ := hrow m hm
    exact ⟨row, hrow, by rw [NodeRow.fill, hn.node]⟩

end NodeTable

/-! The rows of a well-formed arena. -/

namespace Arena

variable {a : Arena} {n : Node}

/-- The row of a node of a known kind. -/
def row (a : Arena) (n : Node) : NodeRow :=
  ⟨((a.registry.schema? n.kind).map (·.name)).getD unknown, n.id, n.fields, n.attributes⟩

/-- The arena with its nodes not yet filled. -/
def bare (a : Arena) : Arena :=
  { a with nodes := a.nodes.map Node.bare }

theorem Fits.row_kind {s : KindSchema} (h : a.Fits n s) : (a.row n).kind = s.name := by
  rw [row, h.schema]
  rfl

theorem Fits.rowOf {s : KindSchema} (h : a.Fits n s) : NodeTable.rowOf a n = .ok (a.row n) := by
  rw [NodeTable.rowOf, h.schema, row, h.schema]
  rfl

theorem Ordered.bare (h : a.Ordered) :
    a.bare.Ordered ∧ ∀ id, a.bare.find? id = (a.find? id).map Node.bare :=
  h.map (fun _ => rfl)

namespace Formed

theorem ofArena (h : a.Formed) : NodeTable.ofArena a = .ok ⟨a.nodes.toList.map a.row⟩ := by
  have hrows : a.nodes.toList.mapM (NodeTable.rowOf a) = .ok (a.nodes.toList.map a.row) :=
    mapM_ok (fun n hn => by
      obtain ⟨s, hs⟩ := h.fits n (by simpa using hn)
      exact hs.rowOf)
  rw [NodeTable.ofArena, hrows]
  rfl

theorem allocated (h : a.Formed) (hn : n ∈ a.nodes) :
    ∃ s, NodeTable.Allocated a.registry (a.row n) n.bare s := by
  obtain ⟨s, hs⟩ := h.fits n hn
  have hvalid : n.id.isValid = true := by
    simpa [Ident.isValid] using Nat.ne_of_lt (h.valid n hn)
  refine ⟨s, ?_, ?_, ?_, hvalid⟩
  · rw [hs.row_kind]
    exact h.kinds.kindId? hs.schema
  · rw [hs.row_kind]
    exact h.kinds.named? hs.schema
  · rw [← hs.mode]
    rfl

/-- Nodes with rising ids are allocated one after the other. -/
theorem foldlM_allocate (h : a.Formed) : ∀ {rest done : List Node}, a.nodes.toList = done ++ rest →
    (rest.map a.row).foldlM NodeTable.allocate
      { registry := a.registry, nodes := (done.map Node.bare).toArray } = .ok a.bare
  | [], done, hsplit => by
    rw [List.append_nil] at hsplit
    rw [bare, show a.nodes = done.toArray by rw [← hsplit], List.map_toArray]
    rfl
  | n :: rest, done, hsplit => by
    have hordered := h.ordered
    rw [Ordered, hsplit, List.pairwise_append] at hordered
    obtain ⟨hdone, -, hbefore⟩ := hordered
    have hlast : ∀ m ∈ done, m.id.raw < n.id.raw :=
      fun m hm => hbefore m hm n List.mem_cons_self
    have hdone' : Ordered { registry := a.registry, nodes := (done.map Node.bare).toArray } := by
      rw [Ordered, List.pairwise_map]
      exact hdone
    obtain ⟨s, hs⟩ := h.allocated (n := n) (Array.mem_toList_iff.mp (hsplit ▸ by simp))
    have hrow : NodeTable.allocate
        { registry := a.registry, nodes := (done.map Node.bare).toArray } (a.row n) =
        .ok { registry := a.registry, nodes := ((done ++ [n]).map Node.bare).toArray } := by
      have hbelow : ∀ m ∈ (done.map Node.bare).toArray, m.id.raw < n.bare.id.raw := by
        intro m hm
        obtain ⟨m', hm', rfl⟩ := List.mem_map.mp (List.mem_toArray.mp hm)
        exact hlast m' hm'
      refine NodeTable.allocate_ok.mpr
        ⟨n.bare, s, hs, hdone'.find?_none.mpr (fun m hm hid => ?_), ?_⟩
      · exact Nat.ne_of_lt (hbelow m hm) (congrArg Ident.raw hid)
      · rw [insert_last hbelow]
        simp
    rw [List.map_cons, List.foldlM_cons, hrow]
    exact foldlM_allocate h (hsplit.trans (List.append_cons done n rest))

/-- The rows of a well-formed arena give it back. -/
theorem restored (h : a.Formed) :
    (NodeTable.mk (a.nodes.toList.map a.row)).toArena a.registry = .ok a := by
  obtain ⟨hordered, hfind⟩ := h.ordered.bare
  have hkeeps : Keeps a a.bare := .of_find? (fun k s hs => hs) (fun id n hn =>
    ⟨n.bare, by rw [hfind, hn, Option.map_some], rfl⟩)
  have honce : ((a.nodes.toList.map a.row).map (·.id)).Nodup := by
    rw [List.map_map]
    exact h.ordered.nodup
  refine NodeTable.toArena_ok.mpr ⟨a.bare, h.foldlM_allocate (List.nil_append _).symm, ?_, ?_,
    (NodeTable.checkValuesAcyclic_ok h.ordered).mpr h.acyclic⟩
  · intro row hrow
    obtain ⟨n, hn, rfl⟩ := List.mem_map.mp hrow
    obtain ⟨s, hs⟩ := h.fits n (by simpa using hn)
    obtain ⟨s', hs'⟩ := h.allocated (n := n) (by simpa using hn)
    have hkept := hs.keep hkeeps
    exact ⟨s, by rw [hs.row_kind]; exact h.kinds.named? hs.schema, hkept.length, hkept.fields,
      hkept.attributes⟩
  · rw [NodeTable.foldl_fill hordered honce, bare, Array.map_map]
    refine congrArg (Arena.mk a.registry) ?_
    refine (Array.map_congr_left (fun n hn => ?_)).trans (Array.map_id _) |>.symm
    obtain ⟨s, hs⟩ := h.fits n hn
    rw [Function.comp_apply, NodeTable.filled_of_mem (n := n.bare) honce
      (List.mem_map_of_mem (Array.mem_toList_iff.mpr hn)) rfl, NodeRow.fill, row,
      foldl_putBy_eq_self hs.once]
    rfl

end Formed

/-- An arena whose ids came from one supply. It begins empty or is read from rows; kinds are
registered, and nodes are created and changed. Others may take ids from the supply as well. -/
inductive Grown : Arena → IdSupply .node → Prop
  | new {r : Registry} {ids : IdSupply .node} : r.Grown → Grown { registry := r } ids
  | register {a : Arena} {ids : IdSupply .node} {s : KindSchema} {k : KindId} {r : Registry} :
    Grown a ids → a.registry.register s = .ok (k, r) → Grown { a with registry := r } ids
  | create {a a' : Arena} {ids ids' : IdSupply .node} {kind : String} {fields : List FieldValue}
    {id : NodeId} :
    Grown a ids → a.create ids kind fields = (.ok (id, a'), ids') → Grown a' ids'
  | setField {a a' : Arena} {ids : IdSupply .node} {id : NodeId} {name : String}
    {value : FieldValue} :
    Grown a ids → a.setField id name value = .ok a' → Grown a' ids
  | setAttribute {a a' : Arena} {ids : IdSupply .node} {id : NodeId} {name : String}
    {value : FieldValue} :
    Grown a ids → a.setAttribute id name value = .ok a' → Grown a' ids
  | advance {a : Arena} {ids ids' : IdSupply .node} :
    Grown a ids → ids.counter ≤ ids'.counter → Grown a ids'
  | read {a : Arena} {ids ids' : IdSupply .node} {t : NodeTable} {r : Registry} :
    r.Grown → (∀ row ∈ t.rows, row.id.raw ≤ Ident.invalidRaw) →
    t.import? r ids = .ok (a, ids') → Grown a ids'

theorem counter_advancePast (ids : IdSupply .node) (id : NodeId) :
    ids.counter ≤ (ids.advancePast id).counter ∧
      (id.raw < Ident.invalidRaw → id.raw < (ids.advancePast id).counter) := by
  unfold IdSupply.advancePast
  split
  · exact ⟨Nat.le_max_left _ _, fun h => by dsimp only; omega⟩
  · rename_i hvalid
    refine ⟨Nat.le_refl _, fun h => absurd ?_ hvalid⟩
    simpa [Ident.isValid] using Nat.ne_of_lt h

theorem counter_foldl_advancePast : ∀ (rows : List NodeRow) (ids : IdSupply .node),
    ids.counter ≤ (rows.foldl (fun ids row => ids.advancePast row.id) ids).counter ∧
      ∀ row ∈ rows, row.id.raw < Ident.invalidRaw →
        row.id.raw < (rows.foldl (fun ids row => ids.advancePast row.id) ids).counter
  | [], ids => ⟨Nat.le_refl _, nofun⟩
  | row :: rows, ids => by
    obtain ⟨hle, hlt⟩ := counter_advancePast ids row.id
    obtain ⟨hle', hlt'⟩ := counter_foldl_advancePast rows (ids.advancePast row.id)
    exact ⟨Nat.le_trans hle hle',
      List.forall_mem_cons.mpr ⟨fun h => Nat.lt_of_lt_of_le (hlt h) hle', hlt'⟩⟩

/-- An arena is well formed at all times, and the supply is ahead of its ids. -/
theorem Grown.formed {ids : IdSupply .node} (h : a.Grown ids) :
    a.Formed ∧ ∀ id, a.contains id = true → id.raw < ids.counter := by
  induction h with
  | new hr => exact ⟨.new hr.distinct, fun id hid => nomatch hid⟩
  | register _ run ih => exact ⟨ih.1.register run, ih.2⟩
  | create _ run ih =>
    rename_i a a' ids ids' _ _ _ _
    have hnew : a.find? ids.peek = none := by
      cases hfind : a.find? ids.peek with
      | none => rfl
      | some n => exact absurd (ih.2 ids.peek (by rw [contains, hfind]; rfl)) (Nat.lt_irrefl _)
    obtain ⟨hformed, hcounter, hcontains⟩ := ih.1.create hnew run
    refine ⟨hformed, fun k hk => ?_⟩
    rw [hcounter]
    rcases hcontains k hk with rfl | hk
    · exact Nat.lt_succ_self _
    · exact Nat.lt_succ_of_lt (ih.2 k hk)
  | setField _ run ih =>
    obtain ⟨hformed, hcontains⟩ := ih.1.setField run
    exact ⟨hformed, fun k hk => ih.2 k (hcontains k ▸ hk)⟩
  | setAttribute _ run ih =>
    obtain ⟨hformed, hcontains⟩ := ih.1.setAttribute run
    exact ⟨hformed, fun k hk => ih.2 k (hcontains k ▸ hk)⟩
  | advance _ hle ih => exact ⟨ih.1, fun k hk => Nat.lt_of_lt_of_le (ih.2 k hk) hle⟩
  | read hr hwords run =>
    obtain ⟨a₁, harena, hsame⟩ := except_map_ok.mp run
    cases hsame
    obtain ⟨hformed, hrows⟩ := NodeTable.toArena_formed hr.distinct hwords harena
    refine ⟨hformed, fun k hk => ?_⟩
    obtain ⟨n, hn⟩ := Option.isSome_iff_exists.mp hk
    obtain ⟨hmem, rfl⟩ := hformed.ordered.find?_iff.mp hn
    obtain ⟨row, hrow, hid⟩ := hrows n hmem
    rw [hid]
    exact (counter_foldl_advancePast _ _).2 row hrow (hid ▸ hformed.valid n hmem)

end Arena

end TypedSsa

import TypedSsa.Tree.Equality

/-!
Arenas as flat rows. References are ids, so cyclic arenas need no special care.
-/

namespace TypedSsa

structure NodeRow where
  kind : String
  id : NodeId
  fields : List FieldValue
  attributes : List (String × FieldValue) := []
deriving Repr, BEq

structure NodeTable where
  rows : List NodeRow := []
deriving Repr, BEq, Inhabited

namespace NodeTable

def rowOf (a : Arena) (n : Node) : Except Fault NodeRow :=
  match a.registry.schema? n.kind with
  | some schema => .ok ⟨schema.name, n.id, n.fields, n.attributes⟩
  | none => .error (.table (Reason.rowOfUnregistered n.id))

/-- The rows of an arena, by id. -/
def ofArena (a : Arena) : Except Fault NodeTable :=
  (a.nodes.toList.mapM (rowOf a)).map (⟨·⟩)

/-- Adds a row's node, still without its fields. -/
def allocate (a : Arena) (row : NodeRow) : Except Fault Arena :=
  match a.registry.kindId? row.kind, a.registry.named? row.kind with
  | some kind, some schema =>
    if !row.id.isValid then .error (.table Reason.rowInvalid)
    else if a.contains row.id then .error (.table (Reason.rowRepeated row.id))
    else .ok (a.insert { id := row.id, kind, mode := schema.mode })
  | _, _ => .error (.table (Reason.rowOfUnknownKind row.kind row.id))

def checkAttribute (a : Arena) (row : NodeRow) (schema : KindSchema)
    (entry : String × FieldValue) : Except Fault Unit :=
  match schema.hidden? entry.1 with
  | none => .error (.table (Reason.rowUndeclared row.id entry.1))
  | some spec =>
    (a.checkValue spec.type entry.2).mapError
      (fun reason => .table (Reason.rowAttribute row.id entry.1 reason))

/-- Whether a row fits its kind, in an arena that holds all rows. -/
def checkRow (a : Arena) (row : NodeRow) : Except Fault Unit :=
  match a.registry.named? row.kind with
  | none => .error (.table (Reason.rowOfUnknownKind row.kind row.id))
  | some schema => do
    if schema.fields.length ≠ row.fields.length then
      .error (.table
        (Reason.rowFieldCount row.id row.kind row.fields.length schema.fields.length))
    else
      (schema.fields.zip row.fields).forM (fun (spec, value) =>
        (a.checkValue spec.type value).mapError
          (fun reason => .table (Reason.rowField row.id spec.name reason)))
      row.attributes.forM (checkAttribute a row schema)

/-- An attribute that is listed twice keeps its last value. -/
def fill (a : Arena) (row : NodeRow) : Arena :=
  a.update row.id (fun n =>
    { n with
      fields := row.fields
      attributes := row.attributes.foldl (putBy Prod.fst) [] })

/-- Rebuilds the arena: first all nodes, then their fields, so that rows may refer to each other
in any order. -/
def toArena (t : NodeTable) (registry : Registry) : Except Fault Arena := do
  let a ← t.rows.foldlM allocate { registry := registry }
  t.rows.forM (checkRow a)
  let a := t.rows.foldl fill a
  match a.checkValuesAcyclic with
  | .ok () => .ok a
  | .error e => .error (.table e.message)

/-- The arena, and the supply moved past its ids. -/
def import? (t : NodeTable) (registry : Registry) (ids : IdSupply .node) :
    Except Fault (Arena × IdSupply .node) :=
  (t.toArena registry).map
    (fun a => (a, t.rows.foldl (fun ids row => ids.advancePast row.id) ids))

end NodeTable

end TypedSsa

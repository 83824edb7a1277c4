import TypedSsa.Keyed
import TypedSsa.Tree.Schema
import TypedSsa.Tree.Value

/-!
Nodes by id. Nodes refer to each other by id, so identity nodes may form cycles.
-/

namespace TypedSsa

structure Node where
  id : NodeId
  kind : KindId
  mode : Comparison
  fields : List FieldValue := []
  attributes : List (String × FieldValue) := []
deriving Repr

namespace Node

def attribute? (n : Node) (name : String) : Option FieldValue :=
  (n.attributes.find? (·.1 == name)).map (·.2)

/-- The nodes referred to from the fields, in declared order. -/
def children (n : Node) : List NodeId :=
  n.fields.flatMap FieldValue.references

end Node

/-- The nodes stand in the order of their ids. -/
structure Arena where
  registry : Registry := {}
  nodes : Array Node := #[]
deriving Repr, Inhabited

namespace Arena

/-- Where a node stands if no id from the first one on is left out. -/
def place (a : Arena) (id : NodeId) : Nat :=
  id.raw - ((a.nodes[0]?).map (·.id.raw)).getD 0

def find? (a : Arena) (id : NodeId) : Option Node :=
  findNear? Node.id (a.place id) a.nodes id

def contains (a : Arena) (id : NodeId) : Bool :=
  (a.find? id).isSome

/-- The name of an unknown kind. -/
def unknown : String := "<unknown>"

def node (a : Arena) (id : NodeId) : Except Fault Node :=
  match a.find? id with
  | some n => .ok n
  | none => .error (.schema unknown (Reason.noNode id))

def kindName? (a : Arena) (id : NodeId) : Option String :=
  (a.find? id).bind (fun n => (a.registry.schema? n.kind).map (·.name))

def schemaOf (a : Arena) (n : Node) : Except Fault KindSchema :=
  match a.registry.schema? n.kind with
  | some s => .ok s
  | none => .error (.schema unknown Reason.unregisteredKind)

/-- Puts a node at its place in the order of ids, over one of the same id. -/
def insertNode (n : Node) : List Node → List Node
  | [] => [n]
  | m :: rest =>
    if m.id.raw < n.id.raw then m :: insertNode n rest
    else if m.id.raw = n.id.raw then n :: rest
    else n :: m :: rest

/-- A node whose id is above all others goes to the end. -/
def insert (a : Arena) (n : Node) : Arena :=
  if a.nodes.back?.all (·.id.raw < n.id.raw) then { a with nodes := a.nodes.push n }
  else { a with nodes := (insertNode n a.nodes.toList).toArray }

/-- Changes the node of one id. -/
def update (a : Arena) (id : NodeId) (change : Node → Node) : Arena :=
  { a with nodes := modifyNear Node.id (a.place id) a.nodes id change }

/-- Whether a value fits a field, and if not, why. -/
def checkValue (a : Arena) : FieldType → FieldValue → Except String Unit
  | .optional _, .absent => .ok ()
  | .optional inner, value => a.checkValue inner value
  | .node kind, .node target =>
    match a.kindName? target with
    | none => .error (Reason.missingReference target)
    | some found =>
      match kind with
      | some expected =>
        if expected = found then .ok () else .error (Reason.otherKind expected found)
      | none => .ok ()
  | .list inner, .list items => items.forM (a.checkValue inner)
  | .int, .int _ | .float, .float _ | .str, .str _ | .bool, .bool _ | .type, .type _ => .ok ()
  | expected, found => .error (Reason.otherShape expected.text found.shape)

def checkFields (a : Arena) (kind : String) (specs : List FieldSpec) (values : List FieldValue) :
    Except Fault Unit :=
  (specs.zip values).forM (fun (spec, value) =>
    (a.checkValue spec.type value).mapError
      (fun reason => .schema kind (Reason.inField spec.name reason)))

/-- What a new node of a kind would be, without its id. -/
def prepare (a : Arena) (kind : String) (fields : List FieldValue) :
    Except Fault (KindId × Comparison) :=
  match a.registry.kindId? kind, a.registry.named? kind with
  | some id, some schema =>
    if fields.length ≠ schema.fields.length then
      .error (.schema kind (Reason.fieldCount schema.fields.length fields.length))
    else (a.checkFields kind schema.fields fields).map (fun _ => (id, schema.mode))
  | _, _ => .error (.schema kind Reason.unknownKind)

/-- Adds a node with an id from the supply. A refused node takes no id. -/
def create (a : Arena) (ids : IdSupply .node) (kind : String) (fields : List FieldValue) :
    Except Fault (NodeId × Arena) × IdSupply .node :=
  match a.prepare kind fields with
  | .error e => (.error e, ids)
  | .ok (kindId, mode) =>
    match ids.next with
    | (some id, ids) => (.ok (id, a.insert { id, kind := kindId, mode, fields }), ids)
    | (none, ids) => (.error .idsExhausted, ids)

/-- Replaces a declared field of an identity node. -/
def setField (a : Arena) (id : NodeId) (name : String) (value : FieldValue) :
    Except Fault Arena := do
  let n ← a.node id
  let schema ← a.schemaOf n
  if n.mode = .value then .error (.schema schema.name Reason.immutable)
  else
    match schema.fieldIndex? name, schema.field? name with
    | some index, some spec =>
      match a.checkValue spec.type value with
      | .error reason => .error (.schema schema.name (Reason.inField name reason))
      | .ok () => .ok (a.update id (fun n => { n with fields := n.fields.set index value }))
    | _, _ => .error (.schema schema.name (Reason.noField name))

/-- Attaches a hidden attribute that the node's kind declares. -/
def setAttribute (a : Arena) (id : NodeId) (name : String) (value : FieldValue) :
    Except Fault Arena := do
  let n ← a.node id
  let schema ← a.schemaOf n
  match schema.hidden? name with
  | none => .error (.schema schema.name (Reason.noAttribute name))
  | some spec =>
    match a.checkValue spec.type value with
    | .error reason => .error (.schema schema.name (Reason.inAttribute name reason))
    | .ok () =>
      .ok (a.update id (fun n =>
        { n with attributes := putBy Prod.fst n.attributes (name, value) }))

/-- A declared field by its name. -/
def field (a : Arena) (id : NodeId) (name : String) : Except Fault FieldValue := do
  let n ← a.node id
  let schema ← a.schemaOf n
  match (schema.fieldIndex? name).bind (n.fields[·]?) with
  | some value => .ok value
  | none => .error (.schema schema.name (Reason.noField name))

def isValueNode (a : Arena) (id : NodeId) : Bool :=
  match a.find? id with
  | some n => n.mode == .value
  | none => false

/-- The value nodes among the children of a node. -/
def valueChildren (a : Arena) (id : NodeId) : List NodeId :=
  match a.find? id with
  | some n => n.children.filter a.isValueNode
  | none => []

end Arena

end TypedSsa

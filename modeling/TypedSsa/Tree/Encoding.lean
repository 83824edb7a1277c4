import TypedSsa.Json.Decoding
import TypedSsa.Json.Printer
import TypedSsa.Json.Reader
import TypedSsa.Text.Binary64.Rounding
import TypedSsa.Tree.Table

/-!
Kinds, values and tables as JSON.
-/

namespace TypedSsa

def Ty.toJson (ty : Ty) : Json :=
  .str ty.text

def Ty.ofJson? (j : Json) : Option Ty :=
  j.str?.bind (fun s => (Ty.ofText s).toOption)

def Ident.toJson (id : Ident s) : Json :=
  .ofNat id.raw

def Ident.ofJson? (j : Json) : Option (Ident s) :=
  (j.nat? 32).map (⟨·⟩)

namespace FieldType

def toJson : FieldType → Json
  | node kind => .tagged "Node" (.ofOption .str kind)
  | list item => .tagged "List" item.toJson
  | optional item => .tagged "Optional" item.toJson
  | int => .str "Int"
  | float => .str "Float"
  | str => .str "Str"
  | bool => .str "Bool"
  | type => .str "Type"

def ofBare? : String → Option FieldType
  | "Int" => some int
  | "Float" => some float
  | "Str" => some str
  | "Bool" => some bool
  | "Type" => some type
  | _ => none

def ofJson? : Json → Option FieldType
  | .str name => ofBare? name
  | .obj [("Node", kind)] => (kind.optionOf? Json.str?).map node
  | .obj [("List", item)] => (ofJson? item).map list
  | .obj [("Optional", item)] => (ofJson? item).map optional
  | .obj [(name, .null)] => ofBare? name
  | _ => none

end FieldType

namespace FieldValue

mutual

def toJson : FieldValue → Json
  | node id => .tagged "Node" id.toJson
  | list items => .tagged "List" (.arr (toJsons items))
  | int n => .tagged "Int" (.int n)
  | float x => .tagged "Float" (.real x)
  | str s => .tagged "Str" (.str s)
  | bool b => .tagged "Bool" (.bool b)
  | type ty => .tagged "Type" ty.toJson
  | absent => .str "Absent"

def toJsons : List FieldValue → List Json
  | [] => []
  | v :: vs => toJson v :: toJsons vs

end

def float? : Json → Option Binary64
  | .real x => some x
  | .int n => some (.ofInt n)
  | _ => none

def word? : Json → Option Int
  | .int n => if -0x8000000000000000 ≤ n && n < 0x8000000000000000 then some n else none
  | _ => none

mutual

/-- A value in which no more than `depth` brackets are open at once. -/
def ofJson? : Nat → Json → Option FieldValue
  | _, .str "Absent" => some absent
  | depth + 1, .obj [(name, content)] =>
    match name, content, depth with
    | "Absent", .null, _ => some absent
    | "Node", j, _ => (Ident.ofJson? j).map node
    | "List", .arr items, depth + 1 => (ofJsons? depth items).map list
    | "Int", j, _ => (word? j).map int
    | "Float", j, _ => (float? j).map float
    | "Str", j, _ => j.str?.map str
    | "Bool", j, _ => j.bool?.map bool
    | "Type", j, _ => (Ty.ofJson? j).map type
    | _, _, _ => none
  | _, _ => none

def ofJsons? (depth : Nat) : List Json → Option (List FieldValue)
  | [] => some []
  | j :: js => do
    let v ← ofJson? depth j
    let vs ← ofJsons? depth js
    some (v :: vs)

end

end FieldValue

namespace NodeRow

def attributeJson (entry : String × FieldValue) : Json :=
  .arr [.str entry.1, entry.2.toJson]

def attributeOfJson? (depth : Nat) : Json → Option (String × FieldValue)
  | .arr [.str name, value] => (FieldValue.ofJson? depth value).map ((name, ·))
  | _ => none

/-- A row without attributes does not list them. -/
def toJson (row : NodeRow) : Json :=
  .obj ([("kind", .str row.kind), ("id", row.id.toJson),
      ("fields", .ofList FieldValue.toJson row.fields)] ++
    if row.attributes.isEmpty then []
    else [("attrs", .ofList attributeJson row.attributes)])

/-- A row within `depth` brackets: two are around a field and three around an attribute. -/
def ofJson? (depth : Nat) (j : Json) : Option NodeRow := do
  let j ← j.record? ["kind", "id", "fields", "attrs"] 3
  let kind ← (j.get "kind").str?
  let id ← Ident.ofJson? (j.get "id")
  let fields ← (j.get "fields").listOf? (FieldValue.ofJson? (depth - 2))
  let attributes ← j.memberOr? "attrs" [] (Json.listOf? (attributeOfJson? (depth - 3)))
  some ⟨kind, id, fields, attributes⟩

end NodeRow

namespace NodeTable

def toJson (t : NodeTable) : Json :=
  .obj [("rows", .ofList NodeRow.toJson t.rows)]

/-- A table within `depth` brackets, of which what is not part of it may take more. -/
def ofJson? (depth : Nat) (j : Json) : Option NodeTable := do
  let j ← j.record? ["rows"] 1
  ((j.get "rows").listOf? (NodeRow.ofJson? (depth - 2))).map (⟨·⟩)

/-- The table as indented text. -/
def text (t : NodeTable) : String :=
  t.toJson.pretty

/-- Reads a table's text. What is not part of the table may nest as deeply as it likes. -/
def ofText? (text : String) : Option NodeTable :=
  (Json.readWithin? text.length text).bind (ofJson? Json.depthLimit)

end NodeTable

end TypedSsa

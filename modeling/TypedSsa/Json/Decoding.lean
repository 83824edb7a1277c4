import TypedSsa.Json.Basic

/-!
How values are read from JSON: cases by their names, records by their fields. A record is an object,
whose other members do not count, or the list of its fields in their order.
-/

namespace TypedSsa.Json

/-- A case of a sum: its name alone, or its name with what it carries. -/
def case? : Json → Option (String × Option Json)
  | str name => some (name, none)
  | obj [(name, content)] => some (name, some content)
  | _ => none

/-- A case that carries nothing. -/
def bareCase? (j : Json) : Option String :=
  match j.case? with
  | some (name, none) => some name
  | some (name, some null) => some name
  | _ => none

/-- The value that goes by a name, of those listed. -/
def named? (cases : List (String × α)) (j : Json) : Option α :=
  j.bareCase?.bind (fun name => (cases.find? (·.1 == name)).map (·.2))

def tagged (name : String) (content : Json) : Json :=
  obj [(name, content)]

def listOf? (read : Json → Option α) (j : Json) : Option (List α) :=
  j.items?.bind (·.mapM read)

/-- Null or missing, or else a value. -/
def optionOf? (read : Json → Option α) : Json → Option (Option α)
  | null => some none
  | j => (read j).map some

/-- A missing member takes the default. -/
def memberOr? (j : Json) (key : String) (default : α) (read : Json → Option α) : Option α :=
  match j.member? key with
  | none => some default
  | some value => read value

/-- The fields of a record by their names. A list of them has at least the required ones, which come
first; those after them have defaults. -/
def record? (fields : List String) (required : Nat) : Json → Option Json
  | obj members => some (obj members)
  | arr items =>
    if required ≤ items.length && items.length ≤ fields.length then some (obj (fields.zip items))
    else none
  | _ => none

/-- How the fields of a case are written: named only, or else listed in order, too. -/
inductive CaseStyle where
  | named
  | listed
deriving DecidableEq, Repr

/-- The fields of a case, none of which has a default. -/
def fields? (style : CaseStyle) (names : List String) : Json → Option Json
  | arr items => if style = .listed then record? names names.length (arr items) else none
  | j => record? names names.length j

end TypedSsa.Json

/-!
What a field of a node may hold.
-/

namespace TypedSsa

inductive FieldType where
  | node (kind : Option String)
  | list (item : FieldType)
  | optional (item : FieldType)
  | int
  | float
  | str
  | bool
  | type
deriving DecidableEq, Repr, Inhabited

def FieldType.text : FieldType → String
  | node none => "node"
  | node (some kind) => "node<" ++ kind ++ ">"
  | list item => "list<" ++ item.text ++ ">"
  | optional item => "optional<" ++ item.text ++ ">"
  | int => "int"
  | float => "float"
  | str => "str"
  | bool => "bool"
  | type => "type"

end TypedSsa

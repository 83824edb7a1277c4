import TypedSsa.Ident
import TypedSsa.Ty.Basic
import TypedSsa.Text.Binary64.Basic

/-!
What the fields and attributes of a node hold.
-/

namespace TypedSsa

inductive FieldValue where
  | node (id : NodeId)
  | list (items : List FieldValue)
  | int (value : Int)
  | float (value : Binary64)
  | str (value : String)
  | bool (value : Bool)
  | type (value : Ty)
  | absent
deriving Repr, Inhabited

namespace FieldValue

def shape : FieldValue → String
  | node _ => "node"
  | list _ => "list"
  | int _ => "int"
  | float _ => "float"
  | str _ => "str"
  | bool _ => "bool"
  | type _ => "type"
  | absent => "absent"

def node? : FieldValue → Option NodeId
  | node id => some id
  | _ => none

def str? : FieldValue → Option String
  | str s => some s
  | _ => none

def bool? : FieldValue → Option Bool
  | bool b => some b
  | _ => none

def type? : FieldValue → Option Ty
  | type ty => some ty
  | _ => none

mutual

/-- The nodes referred to, in order, also from inside lists. -/
def references : FieldValue → List NodeId
  | node id => [id]
  | list items => referencesOf items
  | _ => []

def referencesOf : List FieldValue → List NodeId
  | [] => []
  | v :: vs => references v ++ referencesOf vs

end

mutual

/-- Equality up to a relation on the nodes referred to. -/
def agree (same : NodeId → NodeId → Bool) : FieldValue → FieldValue → Bool
  | node a, node b => same a b
  | list xs, list ys => agreeAll same xs ys
  | int a, int b => a == b
  | float a, float b => a.same b
  | str a, str b => a == b
  | bool a, bool b => a == b
  | type a, type b => a == b
  | absent, absent => true
  | _, _ => false

def agreeAll (same : NodeId → NodeId → Bool) : List FieldValue → List FieldValue → Bool
  | [], [] => true
  | x :: xs, y :: ys => agree same x y && agreeAll same xs ys
  | _, _ => false

end

instance : BEq FieldValue := ⟨agree (· == ·)⟩

end FieldValue

end TypedSsa

import TypedSsa.Text.Binary64.Basic

/-!
JSON values. The members of an object keep the order in which they were written.
-/

namespace TypedSsa

inductive Json where
  | null
  | bool (value : Bool)
  | int (value : Int)
  | real (value : Binary64)
  | str (value : String)
  | arr (items : List Json)
  | obj (members : List (String × Json))
deriving Inhabited

namespace Json

def member? (key : String) : Json → Option Json
  | obj members => (members.find? (·.1 == key)).map (·.2)
  | _ => none

/-- A member, null when it is missing. -/
def get (j : Json) (key : String) : Json :=
  (j.member? key).getD null

def items? : Json → Option (List Json)
  | arr items => some items
  | _ => none

def str? : Json → Option String
  | str s => some s
  | _ => none

def bool? : Json → Option Bool
  | bool b => some b
  | _ => none

def int? : Json → Option Int
  | int n => some n
  | _ => none

/-- A whole number below `2 ^ bits`. -/
def nat? (bits : Nat) : Json → Option Nat
  | int n => if 0 ≤ n && n.toNat < Nat.pow 2 bits then some n.toNat else none
  | _ => none

def isNull : Json → Bool
  | null => true
  | _ => false

def ofOption (encode : α → Json) : Option α → Json
  | none => null
  | some x => encode x

def ofList (encode : α → Json) (xs : List α) : Json :=
  arr (xs.map encode)

def ofNat (n : Nat) : Json :=
  int n

end Json

end TypedSsa

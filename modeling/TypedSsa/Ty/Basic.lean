import TypedSsa.Text.Blank

/-!
Value types, and the names by which they are written and read.
-/

namespace TypedSsa

/-- Types are scalars, the dynamic type above them all, and named types nothing is known of. -/
inductive Ty where
  | unit
  | bool
  | int (bits : Nat) (signed : Bool)
  | float (bits : Nat)
  | str
  | dynamic
  | named (name : String)
deriving DecidableEq, Repr, Inhabited, Hashable

namespace Ty

def int64 : Ty := .int 64 true
def float64 : Ty := .float 64

def isNumeric : Ty → Bool
  | bool | int _ _ | float _ => true
  | _ => false

def isInteger : Ty → Bool
  | int _ _ => true
  | _ => false

def isFloat : Ty → Bool
  | float _ => true
  | _ => false

def text : Ty → String
  | unit => "none"
  | bool => "bool"
  | int bits true => "int" ++ toString bits
  | int bits false => "uint" ++ toString bits
  | float bits => "float" ++ toString bits
  | str => "str"
  | dynamic => "dynamic"
  | named name => "opaque:" ++ name

/-- Why a text names no type. -/
inductive NameError where
  | nameless
  | badWidth (text : String)
  | unsupportedWidth (text : String)
  | unknown (text : String)
deriving DecidableEq, Repr

def NameError.message : NameError → String
  | .nameless => "opaque type needs a name"
  | .badWidth text => "invalid bit width in `" ++ text ++ "`"
  | .unsupportedWidth text => "unsupported bit width in `" ++ text ++ "`"
  | .unknown text => "unknown type name `" ++ text ++ "`"

/-- What follows `start` in `cs`, if `cs` begins with it. -/
def after? (start : List Char) (cs : List Char) : Option (List Char) :=
  if start.isPrefixOf cs then some (cs.drop start.length) else none

def decimal (digits : List Char) : Nat :=
  digits.foldl (fun n c => n * 10 + (c.toNat - 48)) 0

/-- A width is an octet: digits after an optional plus sign, leading zeros allowed. -/
def width? (cs : List Char) : Option Nat :=
  let digits := match cs with
    | '+' :: rest => rest
    | _ => cs
  if digits.isEmpty || !digits.all Char.isDigit then none
  else if decimal digits < 256 then some (decimal digits)
  else none

def sized (text : String) (widths : List Nat) (make : Nat → Ty) (digits : List Char) :
    Except NameError Ty :=
  match width? digits with
  | some bits => if widths.contains bits then .ok (make bits) else .error (.unsupportedWidth text)
  | none => .error (.badWidth text)

/-- Reads a type's name; blanks around it do not matter. -/
def ofText (text : String) : Except NameError Ty :=
  let cs := Text.trim text.toList
  let trimmed := String.ofList cs
  if trimmed = "none" then .ok unit
  else if trimmed = "bool" then .ok bool
  else if trimmed = "str" then .ok str
  else if trimmed = "dynamic" then .ok dynamic
  else
    match after? "opaque:".toList cs with
    | some [] => .error .nameless
    | some name => .ok (named (String.ofList name))
    | none =>
      match after? "uint".toList cs, after? "int".toList cs, after? "float".toList cs with
      | some digits, _, _ => sized trimmed [8, 16, 32, 64] (int · false) digits
      | _, some digits, _ => sized trimmed [8, 16, 32, 64] (int · true) digits
      | _, _, some digits => sized trimmed [32, 64] float digits
      | _, _, _ => .error (.unknown trimmed)

end Ty

end TypedSsa

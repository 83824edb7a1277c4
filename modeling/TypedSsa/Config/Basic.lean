import TypedSsa.Ty.Lattice

/-!
The settings of a compilation.
-/

namespace TypedSsa

/-- What becomes of a variable read where it is never bound. -/
inductive UnboundPolicy where
  | error
  | poison
deriving DecidableEq, Repr, Inhabited

def UnboundPolicy.text : UnboundPolicy → String
  | .error => "error"
  | .poison => "poison"

def UnboundPolicy.ofText : String → Option UnboundPolicy
  | "error" => some .error
  | "poison" => some .poison
  | _ => none

structure Config where
  maxRounds : Nat := 64
  unificationFallback : Option Ty := none
  recursionFallback : Option Ty := none
  unbound : UnboundPolicy := .error
  parallel : Bool := true
  joins : List JoinRule := []
deriving DecidableEq, Repr, Inhabited

/-- At least one round, and no type that joins with itself to another. -/
def Config.check (c : Config) : Except Fault Unit :=
  if c.maxRounds = 0 then .error (.config Reason.noRounds)
  else
    match c.joins.find? (fun rule => rule.left == rule.right && rule.result != rule.left) with
    | some rule => .error (.config (Reason.selfJoin rule.left))
    | none => .ok ()

/-- The lattice that a configuration asks for; of two joins of one pair the later wins. -/
def Lattice.ofConfig (c : Config) : Lattice :=
  { rules := c.joins.reverse, fallback := c.unificationFallback }

end TypedSsa

import TypedSsa.Fault.Basic

/-!
Joins of types: the numeric rules, a table of further joins, and a fallback for the rest.
-/

namespace TypedSsa

/-- A join given by hand; the order of its two sides does not matter. -/
structure JoinRule where
  left : Ty
  right : Ty
  result : Ty
deriving DecidableEq, Repr

def JoinRule.joins (rule : JoinRule) (a b : Ty) : Bool :=
  (rule.left == a && rule.right == b) || (rule.left == b && rule.right == a)

/-- The newest rule stands first. -/
structure Lattice where
  rules : List JoinRule := []
  fallback : Option Ty := none
deriving Repr, Inhabited

/-- A join, or the fallback together with the failure that it made up for. -/
inductive JoinOutcome where
  | joined (ty : Ty)
  | fallback (ty : Ty) (cause : Fault)
deriving DecidableEq, Repr

def JoinOutcome.ty : JoinOutcome → Ty
  | joined ty => ty
  | fallback ty _ => ty

/-- Integers of either sign meet in a signed integer wide enough for both, if there is one. -/
def mixedJoin (signedBits unsignedBits : Nat) : Ty :=
  if unsignedBits < signedBits then .int signedBits true
  else if unsignedBits < 64 then .int (unsignedBits * 2) true
  else .float64

/-- A float that holds the range of an integer of the given width. -/
def floatOver (intBits floatBits : Nat) : Ty :=
  .float (max floatBits (if 32 ≤ intBits then 64 else 32))

def numericJoin? : Ty → Ty → Option Ty
  | .bool, .int bits signed => some (.int bits signed)
  | .bool, .float bits => some (.float bits)
  | .int bits signed, .bool => some (.int bits signed)
  | .float bits, .bool => some (.float bits)
  | .int a true, .int b true => some (.int (max a b) true)
  | .int a false, .int b false => some (.int (max a b) false)
  | .int a true, .int b false => some (mixedJoin a b)
  | .int a false, .int b true => some (mixedJoin b a)
  | .int a _, .float b => some (floatOver a b)
  | .float a, .int b _ => some (floatOver b a)
  | .float a, .float b => some (.float (max a b))
  | _, _ => none

namespace Lattice

def numeric : Lattice := {}

/-- A later rule for the same pair wins. -/
def withJoin (l : Lattice) (rule : JoinRule) : Lattice :=
  { l with rules := rule :: l.rules }

def withFallback (l : Lattice) (ty : Ty) : Lattice :=
  { l with fallback := some ty }

def tabled? (l : Lattice) (a b : Ty) : Option Ty :=
  (l.rules.find? (·.joins a b)).map (·.result)

def join (l : Lattice) (a b : Ty) : Except Fault Ty :=
  if a = b then .ok a
  else
    match l.tabled? a b with
    | some ty => .ok ty
    | none =>
      if a = .dynamic ∨ b = .dynamic then .ok .dynamic
      else
        match numericJoin? a b with
        | some ty => .ok ty
        | none => .error (.unification a b)

def joinOrFallback (l : Lattice) (a b : Ty) : Except Fault JoinOutcome :=
  match l.join a b, l.fallback with
  | .ok ty, _ => .ok (.joined ty)
  | .error e, some ty => .ok (.fallback ty e)
  | .error e, none => .error e

/-- One more type joins the outcome so far; a fallback absorbs it. -/
def extend (l : Lattice) : JoinOutcome → Ty → Except Fault JoinOutcome
  | .joined current, ty => l.joinOrFallback current ty
  | .fallback current e, _ => .ok (.fallback current e)

/-- The join of a list from left to right; an empty list has none. -/
def joinAll (l : Lattice) : List Ty → Except Fault (Option JoinOutcome)
  | [] => .ok none
  | ty :: tys => (tys.foldlM l.extend (.joined ty)).map some

end Lattice

end TypedSsa

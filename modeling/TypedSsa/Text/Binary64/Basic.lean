/-!
Double-precision numbers by their bits.
-/

namespace TypedSsa

structure Binary64 where
  bits : UInt64
deriving DecidableEq, Repr, Inhabited

namespace Binary64

def isNegative (x : Binary64) : Bool :=
  x.bits >>> 63 == 1

def exponentField (x : Binary64) : Nat :=
  ((x.bits >>> 52) &&& 0x7ff).toNat

def fraction (x : Binary64) : Nat :=
  (x.bits &&& 0xfffffffffffff).toNat

def isNaN (x : Binary64) : Bool :=
  x.exponentField == 0x7ff && x.fraction != 0

def isFinite (x : Binary64) : Bool :=
  x.exponentField != 0x7ff

def isZero (x : Binary64) : Bool :=
  x.exponentField == 0 && x.fraction == 0

/-- Numeric equality: the two zeros are equal, and nothing equals a NaN. -/
def same (x y : Binary64) : Bool :=
  !x.isNaN && !y.isNaN && (x == y || (x.isZero && y.isZero))

/-- The magnitude of a finite double is `significand * 2 ^ scale`. -/
def significand (x : Binary64) : Nat :=
  if x.exponentField == 0 then x.fraction else x.fraction + 0x10000000000000

def scale (x : Binary64) : Int :=
  if x.exponentField == 0 then -1074 else x.exponentField - 1075

/-- `base ^ e`, and 1 where `e` is negative. -/
def power (base : Nat) (e : Int) : Nat :=
  base.pow e.toNat

end Binary64

end TypedSsa

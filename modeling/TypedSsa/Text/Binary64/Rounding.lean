import TypedSsa.Text.Binary64.Basic

/-!
Rounding to the nearest double, and to the even one of two that are as near.
-/

namespace TypedSsa.Binary64

/-- The quotient rounded to a whole number, a half to the even neighbour. -/
def roundDiv (num den : Nat) : Nat :=
  let q := num / den
  let twice := 2 * (num % den)
  if twice < den || (twice == den && q % 2 == 0) then q else q + 1

/-- The quotient in units of `2 ^ e`, rounded. -/
def inUnits (num den : Nat) (e : Int) : Nat :=
  roundDiv (num * power 2 (-e)) (den * power 2 e)

/-- The exponent of the last place of a double near the quotient: the significand then lies between
`2 ^ 52` and `2 ^ 53`, except among the smallest numbers. -/
def lastPlace (num den : Nat) : Int :=
  let e : Int := (num.log2 : Int) - den.log2 - 52
  let low := num * power 2 (-e) / (den * power 2 e) < 0x10000000000000
  max (if low then e - 1 else e) (-1074)

/-- The double nearest to a quotient that is not negative. What rounding carries over its significand
goes into the exponent, and all beyond the greatest double is infinite. -/
def ofRatio (num den : Nat) : Binary64 :=
  if num = 0 then ⟨0⟩
  else
    let e := lastPlace num den
    let bits := (e + 1074).toNat * 0x10000000000000 + inUnits num den e
    ⟨(min bits 0x7ff0000000000000).toUInt64⟩

def negate (x : Binary64) : Binary64 :=
  ⟨x.bits ^^^ 0x8000000000000000⟩

def withSign (negative : Bool) (magnitude : Binary64) : Binary64 :=
  if negative then magnitude.negate else magnitude

def ofNat (n : Nat) : Binary64 :=
  ofRatio n 1

def ofInt (n : Int) : Binary64 :=
  withSign (n < 0) (ofNat n.natAbs)

/-- The power of ten nearest to `10 ^ n`. -/
def tenTo (n : Nat) : Binary64 :=
  ofNat (Nat.pow 10 n)

/-- Numerator and denominator of a finite magnitude. -/
def num (x : Binary64) : Nat :=
  x.significand * power 2 x.scale

def den (x : Binary64) : Nat :=
  power 2 (-x.scale)

/-- The product of two magnitudes, rounded once. -/
def mul (x y : Binary64) : Binary64 :=
  ofRatio (x.num * y.num) (x.den * y.den)

/-- The quotient of two magnitudes, rounded once. -/
def div (x y : Binary64) : Binary64 :=
  ofRatio (x.num * y.den) (x.den * y.num)

/-- Whether `digits * 10 ^ exponent` lies beyond the greatest double. Its first digit decides, unless
that is in the place of the greatest double's own. -/
def overflows (digits : Nat) (exponent : Int) : Bool :=
  let places := ((Nat.toDigits 10 digits).length : Int) + exponent
  digits != 0 && (309 < places ||
    (places == 309 && !(ofRatio (digits * power 10 exponent) (power 10 (-exponent))).isFinite))

end TypedSsa.Binary64

import TypedSsa.Text.Binary64.Basic

/-!
The shortest decimal that reads back as a double, and the texts made of it.
-/

namespace TypedSsa.Binary64

/-- A decimal `digits * 10 ^ exponent`. -/
structure Decimal where
  digits : Nat
  exponent : Int
deriving DecidableEq, Repr

/-- `a * 2 ^ p ≤ b * 10 ^ q`, in whole numbers. -/
def leScaled (a : Nat) (p : Int) (b : Nat) (q : Int) : Bool :=
  a * power 2 p * power 10 (-q) ≤ b * power 10 q * power 2 (-p)

def geScaled (a : Nat) (p : Int) (b : Nat) (q : Int) : Bool :=
  b * power 10 q * power 2 (-p) ≤ a * power 2 p * power 10 (-q)

/-- Which of two decimals stands for a number halfway between them. -/
inductive Tie where
  | up
  | toEven
deriving DecidableEq, Repr

def Tie.lower : Tie → Nat → Bool
  | up, _ => false
  | toEven, below => below % 2 == 0

/-- The multiple of `10 ^ q` nearest to `x` among those that read back as `x`. In quarters of the
last place the interval of such numbers runs from `4m - 2` (`4m - 1` under a power of two) to
`4m + 2`, with its ends when `m` is even. -/
def nearestOnGrid (tie : Tie) (x : Binary64) (q : Int) : Option Decimal :=
  let m := x.significand
  let p := x.scale - 2
  let low := if x.fraction == 0 && x.exponentField > 1 then 4 * m - 1 else 4 * m - 2
  let high := 4 * m + 2
  let even := m % 2 == 0
  let below := (4 * m * power 2 p * power 10 (-q)) / (power 10 q * power 2 (-p))
  let above := below + 1
  let fitsLow := below != 0 &&
    (if even then leScaled low p below q else !geScaled low p below q)
  let fitsHigh := if even then geScaled high p above q else !leScaled high p above q
  -- the nearer neighbour: twice the value against the sum of both
  let preferLow := geScaled (4 * m * 2) p (below + above) q == false ||
    (leScaled (4 * m * 2) p (below + above) q && tie.lower below)
  if fitsLow && (preferLow || !fitsHigh) then some ⟨below, q⟩
  else if fitsHigh then some ⟨above, q⟩
  else none

def searchGrid (tie : Tie) (x : Binary64) : Nat → Int → Decimal
  | 0, _ => ⟨0, 0⟩
  | steps + 1, q =>
    match x.nearestOnGrid tie q with
    | some d => d
    | none => searchGrid tie x steps (q - 1)

/-- The decimal with the fewest digits that reads back as the magnitude of `x`. -/
def shortest (tie : Tie) (x : Binary64) : Decimal :=
  if x.isZero then ⟨0, 0⟩ else searchGrid tie x 700 309

def sign (x : Binary64) : String :=
  if x.isNegative then "-" else ""

/-- Digits with a point put `places` from their right end. -/
def pointed (digits : String) (places : Nat) : String :=
  let cs := digits.toList
  let cs := List.replicate (places + 1 - cs.length) '0' ++ cs
  String.ofList (cs.take (cs.length - places) ++ '.' :: cs.drop (cs.length - places))

/-- Positional text, never with an exponent and without a point when the value is whole. A tie goes
up. -/
def plainText (x : Binary64) : String :=
  if x.isNaN then "NaN"
  else if !x.isFinite then x.sign ++ "inf"
  else
    let d := x.shortest .up
    let digits := toString d.digits
    if 0 ≤ d.exponent then
      x.sign ++ digits ++ String.ofList (List.replicate d.exponent.toNat '0')
    else x.sign ++ pointed digits (-d.exponent).toNat

/-- Text of a JSON number: positional from `1e-5` below `1e16`, always with a point there, and
with a signed exponent elsewhere. A tie goes to the even digit. -/
def jsonText (x : Binary64) : String :=
  if !x.isFinite then "null"
  else if x.isZero then x.sign ++ "0.0"
  else
    let d := x.shortest .toEven
    let digits := toString d.digits
    let magnitude := (digits.length : Int) + d.exponent
    if 0 ≤ d.exponent && magnitude ≤ 16 then
      x.sign ++ digits ++ String.ofList (List.replicate d.exponent.toNat '0') ++ ".0"
    else if d.exponent < 0 && -5 < magnitude && magnitude ≤ 16 then
      x.sign ++ pointed digits (-d.exponent).toNat
    else
      let head := if digits.length == 1 then digits else pointed digits (digits.length - 1)
      x.sign ++ head ++ (if 0 < magnitude then "e+" else "e") ++ toString (magnitude - 1)

end TypedSsa.Binary64

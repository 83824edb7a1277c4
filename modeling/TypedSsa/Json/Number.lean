import TypedSsa.Json.Basic
import TypedSsa.Text.Binary64.Rounding

/-!
Reading JSON numbers. The digits are gathered into a word of 64 bits; those that no longer fit only
move the point. A number with a point or a power of ten is the double nearest to the word, multiplied
or divided by the double nearest to the power. It is rounded more than once, so it need not be the
double nearest to the text.
-/

namespace TypedSsa.Json

def digitValue (c : Char) : Nat :=
  c.toNat - 48

/-- Appends digits to a word as long as it can hold them; the digits left over. -/
def gather (word : Nat) : List Char → Nat × List Char
  | [] => (word, [])
  | c :: cs =>
    let next := word * 10 + digitValue c
    if next < 0x10000000000000000 then gather next cs else (word, c :: cs)

def digitsValue (cs : List Char) : Nat :=
  cs.foldl (fun n c => n * 10 + digitValue c) 0

/-- `word * 10 ^ exponent`, unless it is too great. An exponent below the least power of ten is
worked off in several steps. -/
def scaled? : Nat → Binary64 → Int → Option Binary64
  | 0, x, _ => some x
  | fuel + 1, x, exponent =>
    if exponent.natAbs ≤ 308 then
      let r := if 0 ≤ exponent then x.mul (.tenTo exponent.toNat) else x.div (.tenTo exponent.natAbs)
      if r.isFinite then some r else none
    else if x.isZero then some x
    else if 0 < exponent then none
    else scaled? fuel (x.div (.tenTo 308)) (exponent + 308)

/-- After three steps even the greatest word has become zero. -/
def real? (negative : Bool) (word : Nat) (exponent : Int) : Option Json :=
  (scaled? 4 (.ofNat word) exponent).map (fun x => real (x.withSign negative))

/-- A number without point and power; negative zero, and what no word holds, are real. -/
def whole (negative : Bool) (word : Nat) : Json :=
  if !negative then int word
  else if word == 0 || 0x8000000000000000 < word then
    real ((Binary64.ofNat word).withSign true)
  else int (-word)

/-- The power of ten after its mark. -/
def exponent? (cs : List Char) : Option (Int × List Char) :=
  let (negative, cs) := match cs with
    | '-' :: r => (true, r)
    | '+' :: r => (false, r)
    | r => (false, r)
  let digits := cs.takeWhile Char.isDigit
  if digits.isEmpty then none
  else
    let n : Int := digitsValue digits
    some (if negative then -n else n, cs.dropWhile Char.isDigit)

/-- The digits after a point, if there is one. -/
def places? (cs : List Char) : Option (Option (List Char) × List Char) :=
  match cs with
  | '.' :: r =>
    let ds := r.takeWhile Char.isDigit
    if ds.isEmpty then none else some (some ds, r.dropWhile Char.isDigit)
  | r => some (none, r)

def power? (cs : List Char) : Option (Option Int × List Char) :=
  match cs with
  | 'e' :: r | 'E' :: r => (exponent? r).map (fun (e, r) => (some e, r))
  | r => some (none, r)

/-- A number has no leading zero. -/
def number? (cs : List Char) : Option (Json × List Char) := do
  let (negative, cs) := match cs with
    | '-' :: r => (true, r)
    | r => (false, r)
  let digits := cs.takeWhile Char.isDigit
  if digits.isEmpty || (digits.length > 1 && digits.head? == some '0') then none
  else
    let (places, rest) ← places? (cs.dropWhile Char.isDigit)
    let (power, rest) ← power? rest
    let (word, dropped) := gather 0 digits
    match places, power, dropped with
    | none, none, [] => some (whole negative word, rest)
    | places, power, dropped =>
      let ds := places.getD []
      let (word, unread) := gather word ds
      let exponent := power.getD 0 + dropped.length - (ds.length - unread.length : Nat)
      (real? negative word exponent).map (·, rest)

end TypedSsa.Json

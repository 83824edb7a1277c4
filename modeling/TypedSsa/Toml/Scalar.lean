import TypedSsa.Text.Binary64.Rounding
import TypedSsa.Toml.Basic

/-!
Numbers, truth values and dates of TOML: whether a token is one, and the value it has.
-/

namespace TypedSsa.Toml

def digit? (base : Nat) (c : Char) : Option Nat :=
  let n := c.toNat
  let value :=
    if 48 ≤ n && n ≤ 57 then n - 48
    else if 97 ≤ n && n ≤ 102 then n - 87
    else if 65 ≤ n && n ≤ 70 then n - 55
    else 99
  if value < base then some value else none

/-- Digits with single underscores between them. -/
def digits? (base : Nat) : List Char → Option Nat
  | [] => none
  | c :: cs => (digit? base c).bind (go cs)
where
  go : List Char → Nat → Option Nat
    | [], acc => some acc
    | '_' :: c :: cs, acc => (digit? base c).bind (fun d => go cs (acc * base + d))
    | c :: cs, acc => (digit? base c).bind (fun d => go cs (acc * base + d))

def unsigned (cs : List Char) : List Char :=
  match cs with
  | '+' :: r => r
  | '-' :: r => r
  | r => r

/-- A decimal number has no leading zero. -/
def whole? (cs : List Char) : Option Nat :=
  match cs with
  | '0' :: _ :: _ => none
  | cs => digits? 10 cs

def fitsWord (n : Int) : Bool :=
  -0x8000000000000000 ≤ n && n < 0x8000000000000000

def int? (cs : List Char) : Option Int :=
  let n? : Option Int := match cs with
    | '0' :: 'x' :: r => (digits? 16 r).map Int.ofNat
    | '0' :: 'o' :: r => (digits? 8 r).map Int.ofNat
    | '0' :: 'b' :: r => (digits? 2 r).map Int.ofNat
    | '-' :: r => (whole? r).map (fun n => -(n : Int))
    | r => (whole? (unsigned r)).map Int.ofNat
  n?.filter fitsWord

def isExponentMark (c : Char) : Bool :=
  c == 'e' || c == 'E'

/-- The digits of a number, and the power of ten that they are counted in. -/
def decimal? (body : List Char) : Option (Nat × Int) := do
  let mantissa := body.takeWhile (!isExponentMark ·)
  let power := (body.dropWhile (!isExponentMark ·)).drop 1
  let places := (mantissa.dropWhile (· != '.')).drop 1
  let hasPower := body.any isExponentMark
  let point := mantissa.any (· == '.')
  if !point && !hasPower then none
  else
    let n ← whole? (mantissa.takeWhile (· != '.'))
    let part ← if point then digits? 10 places else some 0
    let exponent ← if hasPower then digits? 10 (unsigned power) else some 0
    let count := places.countP Char.isDigit
    some (n * power10 count + part,
      (if power.head? == some '-' then -(exponent : Int) else exponent) - count)
where
  power10 (n : Nat) : Nat := Nat.pow 10 n

/-- A float that is too great is refused; one that is too small is negative infinity. -/
def isFloat (cs : List Char) : Bool :=
  let body := unsigned cs
  if body == "inf".toList || body == "nan".toList then true
  else
    match decimal? body with
    | some (digits, exponent) => cs.head? == some '-' || !Binary64.overflows digits exponent
    | none => false

/-- A number of exactly as many digits as given, between two bounds. -/
def field (count low high : Nat) (cs : List Char) : Option (Nat × List Char) :=
  let ds := cs.take count
  if ds.length == count && ds.all Char.isDigit then
    let n := ds.foldl (fun n c => n * 10 + (c.toNat - 48)) 0
    if low ≤ n && n ≤ high then some (n, cs.drop count) else none
  else none

def daysIn (year month : Nat) : Nat :=
  if month == 2 then
    if year % 4 == 0 && (year % 100 != 0 || year % 400 == 0) then 29 else 28
  else if month == 4 || month == 6 || month == 9 || month == 11 then 30
  else 31

def day? (cs : List Char) : Option (List Char) := do
  let (year, cs) ← field 4 0 9999 cs
  let '-' :: cs := cs | none
  let (month, cs) ← field 2 1 12 cs
  let '-' :: cs := cs | none
  let (_, cs) ← field 2 1 (daysIn year month) cs
  some cs

def time? (cs : List Char) : Option (List Char) := do
  let (_, cs) ← field 2 0 23 cs
  let ':' :: cs := cs | none
  let (_, cs) ← field 2 0 59 cs
  let ':' :: cs := cs | none
  let (_, cs) ← field 2 0 60 cs
  match cs with
  | '.' :: c :: r => if c.isDigit then some (r.dropWhile Char.isDigit) else none
  | '.' :: [] => none
  | cs => some cs

def isOffset (cs : List Char) : Bool :=
  match cs with
  | [] => true
  | ['Z'] | ['z'] => true
  | c :: r =>
    (c == '+' || c == '-') &&
      (match field 2 0 23 r with
      | some (_, ':' :: r) =>
        (match field 2 0 59 r with
        | some (_, []) => true
        | _ => false)
      | _ => false)

def isDate (cs : List Char) : Bool :=
  match day? cs with
  | some [] => true
  | some (c :: r) =>
    (c == 'T' || c == 't' || c == ' ') && ((time? r).map isOffset).getD false
  | none => time? cs == some []

def isTokenChar (c : Char) : Bool :=
  c.isAlphanum || c == '_' || c == '+' || c == '-' || c == '.' || c == ':'

/-- The characters of a bare value; a date takes the time after one blank with it. -/
def token (cs : List Char) : List Char × List Char :=
  let word := cs.takeWhile isTokenChar
  let rest := cs.dropWhile isTokenChar
  match day? word, rest with
  | some [], ' ' :: c :: r =>
    if c.isDigit then
      (word ++ ' ' :: (c :: r).takeWhile isTokenChar, (c :: r).dropWhile isTokenChar)
    else (word, rest)
  | _, _ => (word, rest)

def scalar? (word : List Char) : Option Toml :=
  if word == "true".toList then some (bool true)
  else if word == "false".toList then some (bool false)
  else
    match int? word with
    | some n => some (int n)
    | none => if isFloat word then some float else if isDate word then some date else none

end TypedSsa.Toml

import TypedSsa.Json.Number
import TypedSsa.Keyed

/-!
Reading JSON text. A reader takes the characters left and answers with what follows its value.
-/

namespace TypedSsa.Json

def isJsonBlank (c : Char) : Bool :=
  c == ' ' || c == '\n' || c == '\t' || c == '\r'

def skipBlank (cs : List Char) : List Char :=
  cs.dropWhile isJsonBlank

def hexValue? (c : Char) : Option Nat :=
  let n := c.toNat
  if 48 ≤ n && n ≤ 57 then some (n - 48)
  else if 97 ≤ n && n ≤ 102 then some (n - 87)
  else if 65 ≤ n && n ≤ 70 then some (n - 55)
  else none

def hexUnit? (a b c d : Char) : Option Nat :=
  [a, b, c, d].foldlM (fun n c => (hexValue? c).map (n * 16 + ·)) 0

def isHighSurrogate (unit : Nat) : Bool :=
  0xd800 ≤ unit && unit < 0xdc00

def isLowSurrogate (unit : Nat) : Bool :=
  0xdc00 ≤ unit && unit < 0xe000

/-- The character of two UTF-16 units. -/
def ofSurrogates (high low : Nat) : Char :=
  Char.ofNat (0x10000 + (high - 0xd800) * 0x400 + (low - 0xdc00))

def simpleEscape? : Char → Option Char
  | '"' => some '"'
  | '\\' => some '\\'
  | '/' => some '/'
  | 'b' => some (Char.ofNat 8)
  | 'f' => some (Char.ofNat 12)
  | 'n' => some '\n'
  | 'r' => some '\r'
  | 't' => some '\t'
  | _ => none

/-- The rest of a string after its opening quote; `acc` holds what was read, last first. A high
surrogate takes the low one that must follow it. -/
def stringTail? (acc : List Char) : List Char → Option (String × List Char)
  | [] => none
  | '"' :: rest => some (String.ofList acc.reverse, rest)
  | '\\' :: 'u' :: a :: b :: c :: d :: '\\' :: 'u' :: e :: f :: g :: h :: rest => do
    let unit ← hexUnit? a b c d
    if isHighSurrogate unit then
      let low ← hexUnit? e f g h
      if isLowSurrogate low then stringTail? (ofSurrogates unit low :: acc) rest else none
    else if isLowSurrogate unit then none
    else stringTail? (Char.ofNat unit :: acc) ('\\' :: 'u' :: e :: f :: g :: h :: rest)
  | '\\' :: 'u' :: a :: b :: c :: d :: rest => do
    let unit ← hexUnit? a b c d
    if isHighSurrogate unit || isLowSurrogate unit then none
    else stringTail? (Char.ofNat unit :: acc) rest
  | '\\' :: e :: rest => do
    let c ← simpleEscape? e
    stringTail? (c :: acc) rest
  | c :: rest => if c == '\\' || c.toNat < 32 then none else stringTail? (c :: acc) rest

mutual

/-- A value in which no more than `depth` brackets are open at once. -/
def value? (depth : Nat) : Nat → List Char → Option (Json × List Char)
  | 0, _ => none
  | fuel + 1, cs =>
    match skipBlank cs, depth with
    | 'n' :: 'u' :: 'l' :: 'l' :: rest, _ => some (null, rest)
    | 't' :: 'r' :: 'u' :: 'e' :: rest, _ => some (bool true, rest)
    | 'f' :: 'a' :: 'l' :: 's' :: 'e' :: rest, _ => some (bool false, rest)
    | '"' :: rest, _ => (stringTail? [] rest).map (fun (s, r) => (str s, r))
    | '[' :: rest, depth + 1 =>
      match skipBlank rest with
      | ']' :: rest => some (arr [], rest)
      | rest => (elements? depth fuel [] rest).map (fun (xs, r) => (arr xs, r))
    | '\x7b' :: rest, depth + 1 =>
      match skipBlank rest with
      | '\x7d' :: rest => some (obj [], rest)
      | rest => (members? depth fuel [] rest).map (fun (ms, r) => (obj ms, r))
    | rest, _ => number? rest

def elements? (depth : Nat) : Nat → List Json → List Char → Option (List Json × List Char)
  | 0, _, _ => none
  | fuel + 1, acc, cs => do
    let (item, rest) ← value? depth fuel cs
    match skipBlank rest with
    | ',' :: rest => elements? depth fuel (item :: acc) rest
    | ']' :: rest => some ((item :: acc).reverse, rest)
    | _ => none

def members? (depth : Nat) : Nat → List (String × Json) → List Char →
    Option (List (String × Json) × List Char)
  | 0, _, _ => none
  | fuel + 1, acc, cs =>
    match skipBlank cs with
    | '"' :: rest => do
      let (key, rest) ← stringTail? [] rest
      match skipBlank rest with
      | ':' :: rest =>
        let (value, rest) ← value? depth fuel rest
        match skipBlank rest with
        | ',' :: rest => members? depth fuel (putBy Prod.fst acc (key, value)) rest
        | '\x7d' :: rest => some (putBy Prod.fst acc (key, value), rest)
        | _ => none
      | _ => none
    | _ => none

end

/-- One value and nothing after it, of a limited depth. A repeated key keeps its last value. -/
def readWithin? (depth : Nat) (text : String) : Option Json :=
  let cs := text.toList
  match value? depth (cs.length + 1) cs with
  | some (j, rest) => if (skipBlank rest).isEmpty then some j else none
  | none => none

/-- At most 127 brackets may be open at once. -/
def depthLimit : Nat :=
  127

def read? (text : String) : Option Json :=
  readWithin? depthLimit text

end TypedSsa.Json

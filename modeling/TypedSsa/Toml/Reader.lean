import TypedSsa.Toml.Scalar

/-!
Reading TOML text.
-/

namespace TypedSsa.Toml

def isSpace (c : Char) : Bool :=
  c == ' ' || c == '\t'

def skipSpace (cs : List Char) : List Char :=
  cs.dropWhile isSpace

/-- Control characters other than the tab stand in no comment and no string. -/
def isPlain (c : Char) : Bool :=
  c == '\t' || (32 ≤ c.toNat && c.toNat != 127)

def newline? : List Char → Option (List Char)
  | '\n' :: r => some r
  | '\r' :: '\n' :: r => some r
  | _ => none

def skipComment (cs : List Char) : List Char :=
  match cs with
  | '#' :: r => r.dropWhile isPlain
  | cs => cs

/-- Blanks, comments and line ends, as they may stand between the items of an array. -/
def skipLines : Nat → List Char → List Char
  | 0, cs => cs
  | fuel + 1, cs =>
    let rest := skipComment (skipSpace cs)
    match newline? rest with
    | some r => skipLines fuel r
    | none => rest

/-- Blanks and line ends alone. -/
def skipBreaks : Nat → List Char → List Char
  | 0, cs => cs
  | fuel + 1, cs =>
    match newline? (skipSpace cs) with
    | some r => skipBreaks fuel r
    | none => skipSpace cs

/-- The end of a line, or of the text. -/
def lineEnd? (cs : List Char) : Option (List Char) :=
  match skipComment (skipSpace cs) with
  | [] => some []
  | rest => newline? rest

def hex? (count : Nat) (cs : List Char) : Option (Char × List Char) := do
  let ds := cs.take count
  if ds.length != count then none
  else
    let n ← ds.foldlM (fun n c => (digit? 16 c).map (n * 16 + ·)) 0
    if n < 0x110000 && !(0xd800 ≤ n && n < 0xe000) then some (Char.ofNat n, cs.drop count)
    else none

def escape? : List Char → Option (Char × List Char)
  | 'b' :: r => some (Char.ofNat 8, r)
  | 't' :: r => some ('\t', r)
  | 'n' :: r => some ('\n', r)
  | 'f' :: r => some (Char.ofNat 12, r)
  | 'r' :: r => some ('\r', r)
  | '"' :: r => some ('"', r)
  | '\\' :: r => some ('\\', r)
  | 'u' :: r => hex? 4 r
  | 'U' :: r => hex? 8 r
  | _ => none

/-- The rest of a string on one line after its opening quote, whose characters come last first. -/
def line? (quote : Char) : Nat → List Char → List Char → Option (String × List Char)
  | 0, _, _ => none
  | _ + 1, _, [] => none
  | fuel + 1, acc, c :: r =>
    if c == quote then some (String.ofList acc.reverse, r)
    else if c == '\\' && quote == '"' then
      (escape? r).bind (fun (e, r) => line? quote fuel (e :: acc) r)
    else if isPlain c then line? quote fuel (c :: acc) r
    else none

/-- The rest of a string over several lines. Up to two quotes may stand before the closing three,
and a backslash at the end of a line takes the blanks that follow with it. -/
def lines? (quote : Char) : Nat → List Char → List Char → Option (String × List Char)
  | 0, _, _ => none
  | _ + 1, _, [] => none
  | fuel + 1, acc, c :: r =>
    if c == quote then
      let run := (c :: r).takeWhile (· == quote)
      if run.length < 3 then lines? quote fuel (c :: acc) r
      else if run.length ≤ 5 then
        some (String.ofList (List.replicate (run.length - 3) quote ++ acc).reverse,
          (c :: r).drop run.length)
      else none
    else if c == '\\' && quote == '"' then
      match newline? (skipSpace r) with
      | some rest => lines? quote fuel acc (skipBreaks rest.length rest)
      | none => (escape? r).bind (fun (e, r) => lines? quote fuel (e :: acc) r)
    else if isPlain c || c == '\n' then lines? quote fuel (c :: acc) r
    else if c == '\r' then
      match r with
      | '\n' :: r => lines? quote fuel ('\n' :: acc) r
      | _ => none
    else none

def text? (quote : Char) (cs : List Char) : Option (String × List Char) :=
  match cs with
  | a :: b :: r =>
    if a == quote && b == quote then
      lines? quote (r.length + 1) [] ((newline? r).getD r)
    else line? quote (cs.length + 1) [] cs
  | _ => line? quote (cs.length + 1) [] cs

def isKeyChar (c : Char) : Bool :=
  c.isAlphanum || c == '_' || c == '-'

def simpleKey? (cs : List Char) : Option (String × List Char) :=
  match cs with
  | '"' :: r => line? '"' (r.length + 1) [] r
  | '\'' :: r => line? '\'' (r.length + 1) [] r
  | cs =>
    let key := cs.takeWhile isKeyChar
    if key.isEmpty then none else some (String.ofList key, cs.dropWhile isKeyChar)

/-- Values nest no deeper than this, and a key has no more parts. -/
def depthLimit : Nat :=
  79

/-- The parts of a dotted key, no more than `count`, as its path and last part. -/
def parts? : Nat → List Char → Option ((List String × String) × List Char)
  | 0, _ => none
  | count + 1, cs => do
    let (part, rest) ← simpleKey? (skipSpace cs)
    match skipSpace rest with
    | '.' :: rest => (parts? count rest).map (fun ((path, last), r) => ((part :: path, last), r))
    | rest => some (([], part), rest)

def key? (cs : List Char) : Option ((List String × String) × List Char) :=
  parts? depthLimit cs

mutual

/-- A value in which no more than `depth` brackets are open at once. -/
def value? (depth : Nat) : Nat → List Char → Option (Toml × List Char)
  | 0, _ => none
  | fuel + 1, cs =>
    match cs, depth with
    | '"' :: r, _ => (text? '"' r).map (fun (s, r) => (str s, r))
    | '\'' :: r, _ => (text? '\'' r).map (fun (s, r) => (str s, r))
    | '[' :: r, depth + 1 => (items? depth fuel [] r).map (fun (xs, r) => (arr xs, r))
    | '\x7b' :: r, depth + 1 =>
      match skipSpace r with
      | '\x7d' :: r => some (table .inline [], r)
      | r => (pairs? depth fuel [] r).map (fun (ms, r) => (table .inline ms, r))
    | cs, _ =>
      let (word, rest) := token cs
      (scalar? word).map (fun v => (v, rest))

def items? (depth : Nat) : Nat → List Toml → List Char → Option (List Toml × List Char)
  | 0, _, _ => none
  | fuel + 1, acc, cs =>
    match skipLines cs.length cs with
    | ']' :: r => some (acc.reverse, r)
    | cs => do
      let (item, rest) ← value? depth fuel cs
      match skipLines rest.length rest with
      | ',' :: r => items? depth fuel (item :: acc) r
      | ']' :: r => some ((item :: acc).reverse, r)
      | _ => none

def pairs? (depth : Nat) : Nat → Members → List Char → Option (Members × List Char)
  | 0, _, _ => none
  | fuel + 1, acc, cs => do
    let ((path, key), rest) ← key? cs
    let '=' :: rest := rest | none
    let (value, rest) ← value? depth fuel (skipSpace rest)
    let acc ← addPair path key value .inline acc
    match skipSpace rest with
    | ',' :: r => pairs? depth fuel acc r
    | '\x7d' :: r => some (acc, r)
    | _ => none

end

/-- Where the pairs after a header go. -/
structure Document where
  root : Members := []
  path : List String := []

def Document.addPair (d : Document) (path : List String) (key : String) (value : Toml) :
    Option Document :=
  (atPath .implied (Toml.addPair path key value) d.path .header d.root).map
    (fun root => { d with root := root })

/-- One line, or the lines that one value takes. -/
def line (d : Document) (cs : List Char) : Option (Document × List Char) :=
  match skipSpace cs with
  | '[' :: '[' :: r => do
    let ((path, key), rest) ← key? r
    let ']' :: ']' :: rest := rest | none
    let root ← openItem path key d.root
    let rest ← lineEnd? rest
    some (⟨root, path ++ [key]⟩, rest)
  | '[' :: r => do
    let ((path, key), rest) ← key? r
    let ']' :: rest := rest | none
    let root ← openTable path key d.root
    let rest ← lineEnd? rest
    some (⟨root, path ++ [key]⟩, rest)
  | cs =>
    match lineEnd? cs with
    | some rest => some (d, rest)
    | none => do
      let ((path, key), rest) ← key? cs
      let '=' :: rest := rest | none
      let (value, rest) ← value? depthLimit (2 * rest.length + 1) (skipSpace rest)
      let d ← d.addPair path key value
      let rest ← lineEnd? rest
      some (d, rest)

def linesOf : Nat → Document → List Char → Option Members
  | _, d, [] => some d.root
  | 0, _, _ => none
  | fuel + 1, d, cs => (line d cs).bind (fun (d, rest) => linesOf fuel d rest)

/-- A byte order mark at the very start is no part of the text. -/
def skipMark : List Char → List Char
  | '\ufeff' :: cs => cs
  | cs => cs

/-- The members of a document's root table. -/
def read? (text : String) : Option Members :=
  let cs := skipMark text.toList
  linesOf (cs.length + 1) {} cs

end TypedSsa.Toml

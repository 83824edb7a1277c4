import TypedSsa.Json.Basic
import TypedSsa.Text.Binary64.Shortest

/-!
JSON text, on one line or indented by two spaces.
-/

namespace TypedSsa.Json

def hexDigit (n : Nat) : Char :=
  if n < 10 then Char.ofNat (48 + n) else Char.ofNat (87 + n)

/-- Control characters, the quote and the backslash are written as escapes and all else as is. -/
def escapeChar (c : Char) : String :=
  if c == '"' then "\\\""
  else if c == '\\' then "\\\\"
  else if c == '\n' then "\\n"
  else if c == '\r' then "\\r"
  else if c == '\t' then "\\t"
  else if c.toNat == 8 then "\\b"
  else if c.toNat == 12 then "\\f"
  else if c.toNat < 32 then
    String.ofList ['\\', 'u', '0', '0', hexDigit (c.toNat / 16), hexDigit (c.toNat % 16)]
  else c.toString

def quote (s : String) : String :=
  "\"" ++ String.join (s.toList.map escapeChar) ++ "\""

mutual

def compact : Json → String
  | null => "null"
  | bool b => if b then "true" else "false"
  | int n => toString n
  | real x => x.jsonText
  | str s => quote s
  | arr items => "[" ++ ",".intercalate (compactItems items) ++ "]"
  | obj members => "\x7b" ++ ",".intercalate (compactMembers members) ++ "\x7d"

def compactItems : List Json → List String
  | [] => []
  | j :: js => compact j :: compactItems js

def compactMembers : List (String × Json) → List String
  | [] => []
  | (k, j) :: ms => (quote k ++ ":" ++ compact j) :: compactMembers ms

end

/-- Lines of a bracketed group, one item to a line; an empty group stays on one line. -/
def block (openWith closeWith : String) (indent : Nat) (items : List String) : String :=
  if items.isEmpty then openWith ++ closeWith
  else
    let inner := "\n" ++ String.ofList (List.replicate (indent + 2) ' ')
    openWith ++ inner ++ ("," ++ inner).intercalate items ++
      "\n" ++ String.ofList (List.replicate indent ' ') ++ closeWith

mutual

def prettyAt (indent : Nat) : Json → String
  | arr items => block "[" "]" indent (prettyItems (indent + 2) items)
  | obj members => block "\x7b" "\x7d" indent (prettyMembers (indent + 2) members)
  | null => "null"
  | bool b => if b then "true" else "false"
  | int n => toString n
  | real x => x.jsonText
  | str s => quote s

def prettyItems (indent : Nat) : List Json → List String
  | [] => []
  | j :: js => prettyAt indent j :: prettyItems indent js

def prettyMembers (indent : Nat) : List (String × Json) → List String
  | [] => []
  | (k, j) :: ms => (quote k ++ ": " ++ prettyAt indent j) :: prettyMembers indent ms

end

def pretty (j : Json) : String :=
  prettyAt 0 j

end TypedSsa.Json

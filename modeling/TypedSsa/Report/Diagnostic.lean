import TypedSsa.Json.Decoding

/-!
Diagnostics: messages that point at places of a program, and their text on a terminal.
-/

namespace TypedSsa

inductive Severity where
  | error
  | warning
  | info
  | hint
deriving DecidableEq, Repr

def Severity.text : Severity → String
  | .error => "error"
  | .warning => "warning"
  | .info => "info"
  | .hint => "hint"

def Severity.title : Severity → String
  | .error => "Error"
  | .warning => "Warning"
  | .info => "Info"
  | .hint => "Hint"

def Severity.ofJson? : Json → Option Severity :=
  Json.named? ([error, warning, info, hint].map (fun s => (s.title, s)))

/-- A function, narrowed to a block, a node or a use. -/
structure Location where
  function : Option String := none
  block : Option Nat := none
  node : Option Nat := none
  use : Option Nat := none
deriving DecidableEq, Repr, Inhabited

namespace Location

def isUnknown (l : Location) : Bool :=
  l.function.isNone && l.block.isNone && l.node.isNone && l.use.isNone

def text (l : Location) : String :=
  let parts :=
    (l.function.map (fun f => s!"fn `{f}`")).toList ++
    (l.block.map (fun b => s!"bb{b}")).toList ++
    (l.node.map (fun n => s!"node n{n}")).toList ++
    (l.use.map (fun u => s!"use u{u}")).toList
  if parts.isEmpty then "<unknown>" else ", ".intercalate parts

def toJson (l : Location) : Json :=
  .obj [("function", .ofOption .str l.function), ("block", .ofOption .ofNat l.block),
    ("node", .ofOption .ofNat l.node), ("use_id", .ofOption .ofNat l.use)]

end Location

structure Label where
  primary : Bool
  location : Location
  message : String
deriving DecidableEq, Repr

def Label.toJson (l : Label) : Json :=
  .obj [("location", l.location.toJson), ("message", .str l.message),
    ("style", .str (if l.primary then "Primary" else "Secondary"))]

structure Diagnostic where
  severity : Severity
  code : Option String := none
  message : String
  location : Location
  labels : List Label := []
  notes : List String := []
  help : List String := []
deriving DecidableEq, Repr

namespace Diagnostic

def isError (d : Diagnostic) : Bool :=
  d.severity == .error

def isWarning (d : Diagnostic) : Bool :=
  d.severity == .warning

def concerns (d : Diagnostic) (function : String) : Bool :=
  d.location.function == some function

def toJson (d : Diagnostic) : Json :=
  .obj [("severity", .str d.severity.title), ("code", .ofOption .str d.code),
    ("message", .str d.message), ("location", d.location.toJson),
    ("labels", .ofList Label.toJson d.labels), ("notes", .ofList .str d.notes),
    ("help", .ofList .str d.help)]

/-- Terminal colours, by their escape sequences; plain text has none. -/
inductive Colour where
  | red | yellow | green | blue | cyan | brightCyan | white

def Colour.number : Colour → String
  | .red => "31"
  | .yellow => "33"
  | .green => "32"
  | .blue => "34"
  | .cyan => "36"
  | .brightCyan => "96"
  | .white => "1;97"

def paint (coloured : Bool) (colour : Colour) (text : String) : String :=
  if coloured then "\x1b[" ++ colour.number ++ "m" ++ text ++ "\x1b[0m" else text

def severityColour : Severity → Colour
  | .error => .red
  | .warning => .yellow
  | .info => .cyan
  | .hint => .green

def arrow (coloured : Bool) (location : Location) (message : String) : String :=
  "  " ++ paint coloured .brightCyan "-->" ++ " " ++ location.text ++ message ++ "\n"

def labelText (coloured : Bool) (l : Label) : String :=
  arrow coloured l.location (": " ++ (if l.primary then "" else "also ") ++ l.message)

/-- A head line, then the places, the help and the notes. -/
def text (coloured : Bool) (d : Diagnostic) : String :=
  let head := d.severity.text ++ ((d.code.map (fun c => s!"[{c}]")).getD "")
  paint coloured (severityColour d.severity) head ++ ": " ++
    paint coloured .white d.message ++ "\n" ++
    (if d.location.isUnknown then "" else arrow coloured d.location "") ++
    String.join (d.labels.map (labelText coloured)) ++
    String.join (d.help.map (fun h =>
      "     " ++ paint coloured .green "help" ++ ": " ++ paint coloured .yellow h ++ "\n")) ++
    String.join (d.notes.map (fun n => paint coloured .blue "note" ++ ": " ++ n ++ "\n"))

/-- Diagnostics one after the other, with an empty line between two. -/
def textAll (coloured : Bool) (ds : List Diagnostic) : String :=
  "\n".intercalate (ds.map (text coloured))

end Diagnostic

end TypedSsa

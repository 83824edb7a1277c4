import TypedSsa.CallGraph.Encoding
import TypedSsa.Program.Report
import TypedSsa.Program.Table
import TypedSsa.Ssa.Encoding
import TypedSsa.Typing.Encoding

/-!
Compiled programs, and the reports on them, as JSON.
-/

namespace TypedSsa

namespace TypeOutcome

def toJson : TypeOutcome → Json
  | resolved ty => .tagged "Resolved" ty.toJson
  | unresolved reason => .tagged "Unresolved" (.str reason)
  | unbound => .str "Unbound"

def ofJson? (j : Json) : Option TypeOutcome :=
  match j.case? with
  | some ("Resolved", some c) => (Ty.ofJson? c).map resolved
  | some ("Unresolved", some c) => c.str?.map unresolved
  | some ("Unbound", none) | some ("Unbound", some .null) => some unbound
  | _ => none

end TypeOutcome

namespace FunctionTable

def typeRow (row : DefId × TypeOutcome) : Json :=
  .arr [row.1.toJson, row.2.toJson]

def typeRowOf? : Json → Option (DefId × TypeOutcome)
  | .arr [id, outcome] => do some (← Ident.ofJson? id, ← TypeOutcome.ofJson? outcome)
  | _ => none

/-- A function that requires nothing does not say so. -/
def toJson (t : FunctionTable) : Json :=
  .obj ([("name", .str t.name), ("node", t.node.toJson), ("entry_block", t.entry.toJson),
      ("blocks", .ofList Block.toJson t.blocks), ("loops", .ofList LoopInfo.toJson t.loops),
      ("params", .ofList Ident.toJson t.params), ("defs", .ofList Def.toJson t.defs),
      ("uses", .ofList Use.toJson t.uses), ("events", .ofList blockEventsJson t.events),
      ("types", .ofList typeRow t.types), ("return_type", t.result.toJson)] ++
    if t.requirements.isEmpty then []
    else [("requirements", .ofList Requirement.toJson t.requirements)])

def names : List String :=
  ["name", "node", "entry_block", "blocks", "loops", "params", "defs", "uses", "events", "types",
    "return_type", "requirements"]

def ofJson? (style : Json.CaseStyle) (j : Json) : Option FunctionTable := do
  let j ← j.record? names 11
  some {
    name := ← (j.get "name").str?
    node := ← Ident.ofJson? (j.get "node")
    entry := ← Ident.ofJson? (j.get "entry_block")
    blocks := ← (j.get "blocks").listOf? (Block.ofJson? style)
    loops := ← (j.get "loops").listOf? LoopInfo.ofJson?
    params := ← (j.get "params").listOf? Ident.ofJson?
    defs := ← (j.get "defs").listOf? (Def.ofJson? style)
    uses := ← (j.get "uses").listOf? (Use.ofJson? style)
    events := ← (j.get "events").listOf? blockEventsOfJson?
    types := ← (j.get "types").listOf? typeRowOf?
    result := ← TypeOutcome.ofJson? (j.get "return_type")
    requirements := ← j.memberOr? "requirements" [] (Json.listOf? Requirement.ofJson?) }

end FunctionTable

namespace ProgramTable

def toJson (t : ProgramTable) : Json :=
  .obj [("nodes", t.nodes.toJson), ("functions", .ofList FunctionTable.toJson t.functions)]

/-- A table whose nodes are within `depth` brackets. -/
def ofJson? (style : Json.CaseStyle) (depth : Nat) (j : Json) : Option ProgramTable := do
  let j ← j.record? ["nodes", "functions"] 2
  some ⟨← NodeTable.ofJson? (depth - 1) (j.get "nodes"),
    ← (j.get "functions").listOf? (FunctionTable.ofJson? style)⟩

def text (t : ProgramTable) : String :=
  t.toJson.pretty

/-- Reads a table's text. What is not part of the table may nest as deeply as it likes. -/
def ofText? (text : String) : Option ProgramTable :=
  (Json.readWithin? text.length text).bind (ofJson? .listed Json.depthLimit)

end ProgramTable

namespace TypedFunction

def unresolvedJson (entry : DefId × String) : Json :=
  .arr [entry.1.toJson, .str entry.2]

def useTypeJson (f : TypedFunction) (u : Use) : Json :=
  .arr [u.id.toJson, .ofOption Ty.toJson (f.typeOfUse? u.id)]

def typedDefJson (entry : Def × TypeOutcome) : Json :=
  .arr [entry.1.id.toJson, .str entry.1.name, .str entry.2.text]

/-- All that can be asked about a function. -/
def members (f : TypedFunction) : List (String × Json) :=
  [("table", f.toTable.toJson), ("unresolved", .ofList unresolvedJson f.unresolved),
    ("use_types", .ofList f.useTypeJson f.form.uses.toList),
    ("typed", .ofList typedDefJson f.typedDefs),
    ("preorder", .ofList Ident.toJson f.preorder)]

end TypedFunction

namespace ProgramReport

def statsJson (s : ProgramStats) : Json :=
  .obj [("functions", .ofNat s.functions), ("failed", .ofNat s.failed),
    ("blocks", .ofNat s.blocks), ("defs", .ofNat s.defs), ("phis", .ofNat s.phis),
    ("promotions", .ofNat s.promotions), ("type_nodes", .ofNat s.typeNodes),
    ("resolver", s.resolver.toJson)]

def functionJson (full : Bool) (entry : String × FunctionReport) : Json :=
  let r := entry.2
  .obj ([("key", .str entry.1), ("name", .str r.name), ("node", r.node.toJson),
      ("errors", .ofList Fault.toJson r.errors), ("warnings", .ofList Fault.toJson r.warnings),
      ("lints", .ofList .str r.lints), ("has_errors", .bool r.hasErrors),
      ("ir", .ofOption (fun f => .str f.text) r.ir)] ++
    if full then (r.ir.map TypedFunction.members).getD [] else [])

/-- A report; a full one has all that can be asked about its functions. -/
def toJson (full : Bool) (r : ProgramReport) : Json :=
  .obj [("functions", .ofList (functionJson full) r.functions),
    ("call_graph", r.callGraph.toJson (r.functions.map (·.1))), ("stats", statsJson r.stats),
    ("counts", .arr [.ofNat r.errors.length, .ofNat r.warnings.length]),
    ("has_errors", .bool r.hasErrors),
    ("typed", .ofList (fun f => .str f.name) r.typedFunctions),
    ("diagnostics", .str (Diagnostic.textAll false r.diagnostics))]

end ProgramReport

end TypedSsa

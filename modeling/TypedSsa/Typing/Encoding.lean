import TypedSsa.Fault.Encoding
import TypedSsa.Typing.Program
import TypedSsa.Typing.Resolution

/-!
Type graphs and their components as JSON.
-/

namespace TypedSsa

namespace TypeRule

def toJson : TypeRule → Json
  | constant ty => .tagged "Constant" ty.toJson
  | copy source => .tagged "Copy" source.toJson
  | join inputs => .tagged "Join" (.ofList Ident.toJson inputs)
  | apply rule args =>
    .tagged "Apply" (.obj [("rule", .str rule), ("args", .ofList Ident.toJson args)])
  | undefined => .str "Undefined"

def ofJson? (j : Json) : Option TypeRule :=
  match j.case? with
  | some ("Undefined", none) | some ("Undefined", some .null) => some undefined
  | some ("Constant", some c) => (Ty.ofJson? c).map constant
  | some ("Copy", some c) => (Ident.ofJson? c).map copy
  | some ("Join", some c) => (c.listOf? Ident.ofJson?).map join
  | some ("Apply", some c) => do
    let c ← c.fields? .named ["rule", "args"]
    let rule ← (c.get "rule").str?
    let args ← (c.get "args").listOf? Ident.ofJson?
    some (apply rule args)
  | _ => none

end TypeRule

def TypeOrigin.toJson : TypeOrigin → Json
  | definition id => .tagged "Def" id.toJson
  | expr id => .tagged "Expr" id.toJson
  | result => .str "Return"
  | synthetic => .str "Synthetic"

def CallSite.toJson (c : CallSite) : Json :=
  .obj [("callee", .str c.callee), ("block", c.block.toJson), ("node", c.node.toJson),
    ("apply", c.apply.toJson), ("args", .ofList Ident.toJson c.args)]

def Component.toJson (c : Component) : Json :=
  .obj [("id", c.id.toJson), ("members", .ofList Ident.toJson c.members), ("cyclic", .bool c.cyclic),
    ("dependencies", .ofList Ident.toJson c.dependencies), ("level", .ofNat c.level)]

def ResolverStats.toJson (s : ResolverStats) : Json :=
  .obj [("evaluations", .ofNat s.evaluations), ("rounds", .ofNat s.rounds),
    ("sccs", .ofNat s.components), ("cyclic_sccs", .ofNat s.cyclic)]

/-- The components, their waves, and where every node is; no component holds the node after the
last. -/
def Condensation.toJson (c : Condensation) : Json :=
  .obj [("components", .ofList Component.toJson c.components.toList),
    ("waves", .ofList (.ofList Ident.toJson) c.waves), ("cyclic", .ofNat c.cyclicCount),
    ("len", .ofNat c.size), ("empty", .bool c.components.isEmpty),
    ("of", .arr ((List.range (c.owners.size + 1)).map (fun i =>
      .ofOption Ident.toJson (c.componentOf? ⟨i⟩))))]

namespace Resolution

def entryJson (e : TypeNodeId × Fault) : Json :=
  .arr [e.1.toJson, e.2.toJson]

def failureJson (f : RecursionFailure) : Json :=
  .obj [("scc", f.component.toJson), ("members", .ofList Ident.toJson f.members),
    ("error", f.error.toJson), ("fallback", .ofOption Ty.toJson f.fallback)]

/-- What is known of a node without a type. -/
def untypedJson (r : Resolution) (id : TypeNodeId) : Json :=
  .arr [id.toJson, .ofOption Ident.toJson ((r.failureFor? id).map (·.component)),
    .ofOption (fun e => .str e.code) (r.errorFor? id)]

def toJson (r : Resolution) : Json :=
  .obj [("types", .ofList (.ofOption Ty.toJson) r.types.toList),
    ("failures", .ofList failureJson r.failures), ("errors", .ofList entryJson r.errors),
    ("warnings", .ofList entryJson r.warnings), ("stats", r.stats.toJson),
    ("unresolved", .ofNat r.unresolvedCount),
    ("why", .arr ((((List.range r.types.size).map (⟨·⟩)).filter
      (fun id => (r.typeOf? id).isNone)).map r.untypedJson)),
    ("condensation", r.condensation.toJson)]

end Resolution

namespace FunctionTypes

def defJson (e : DefId × TypeNodeId) : Json :=
  .arr [e.1.toJson, e.2.toJson]

/-- A function by itself. -/
def toJson (t : FunctionTypes) : Json :=
  .obj [("function", .str t.function), ("shown", .str t.graph.text),
    ("calls", .ofList CallSite.toJson t.calls),
    ("origins", .ofList (fun n => n.origin.toJson) t.graph.nodes.toList),
    ("defs", .ofList defJson t.defs.toList), ("params", .ofList Ident.toJson t.params),
    ("return", t.result.toJson)]

end FunctionTypes

namespace ProgramTypes

/-- A function as a part of the program. -/
def functionJson (p : ProgramTypes) (t : FunctionTypes) : Json :=
  .obj [("function", .str t.function), ("params", .ofList Ident.toJson t.params),
    ("return", t.result.toJson), ("calls", .ofList CallSite.toJson t.calls),
    ("callees", .ofList .str (p.calleesOf t))]

def errorJson (e : String × Fault) : Json :=
  .arr [.str e.1, e.2.toJson]

end ProgramTypes

end TypedSsa

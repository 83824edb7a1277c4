import TypedSsa.CallGraph
import TypedSsa.Json.Basic

/-!
Call graphs as JSON.
-/

namespace TypedSsa

def FunctionGroup.toJson (g : FunctionGroup) : Json :=
  .obj [("functions", .ofList .str g.functions), ("recursive", .bool g.recursive)]

namespace CallGraph

def functionJson (g : CallGraph) (name : String) : Json :=
  .obj [("name", .str name), ("callees", .ofList .str (g.callees name)),
    ("callers", .ofList .str (g.callers name)), ("members", .ofList .str (g.members name)),
    ("recursive", .bool (g.isRecursive name)),
    ("reachable", .ofList .str (g.reachableFrom name))]

/-- A graph, with what there is to say about some functions. -/
def toJson (g : CallGraph) (asked : List String) : Json :=
  .obj [("shown", .str g.text), ("len", .ofNat g.size), ("empty", .bool g.calls.isEmpty),
    ("components", .ofList FunctionGroup.toJson g.groups),
    ("recursive", .ofList FunctionGroup.toJson g.recursiveGroups),
    ("functions", .ofList g.functionJson asked)]

end CallGraph

end TypedSsa

import TypedSsa.Fault.Basic
import TypedSsa.Tree.Encoding

/-!
Faults as JSON.
-/

namespace TypedSsa.Fault

def title : Fault → String
  | schema _ _ => "SchemaViolation"
  | malformedGraph _ _ _ => "MalformedCfg"
  | unification _ _ => "UnificationError"
  | unknownFunction _ => "UnknownFunction"
  | unresolvedRecursion _ _ => "UnresolvedRecursiveType"
  | unbound _ _ _ _ => "UnboundVariable"
  | illegal _ _ _ => "IllegalConstruct"
  | config _ => "Config"
  | table _ => "Import"
  | idsExhausted => "Panic"

/-- What a fault is about. -/
def subject : Fault → Json
  | schema kind _ => .obj [("kind", .str kind)]
  | malformedGraph function block _ =>
    .obj [("function", .str function), ("block", .ofOption Ident.toJson block)]
  | unification left right => .obj [("left", left.toJson), ("right", right.toJson)]
  | unknownFunction name => .obj [("name", .str name)]
  | unresolvedRecursion members rounds =>
    .obj [("members", .ofList Ident.toJson members), ("rounds", .ofNat rounds)]
  | unbound function name block use =>
    .obj [("function", .str function), ("variable", .str name), ("block", block.toJson),
      ("use", use.toJson)]
  | illegal function node _ => .obj [("function", .str function), ("node", node.toJson)]
  | config _ | table _ | idsExhausted => .obj []

/-- What is wrong with an unreadable document is no stable text. -/
def hasStableMessage : Fault → Bool
  | config reason => (reason.splitOn Reason.unparsed).length ≤ 1
  | _ => true

/-- Running out of ids is recorded by its title alone. -/
def toJson : Fault → Json
  | idsExhausted => .obj [("error", .str idsExhausted.title)]
  | e => .obj ([("error", .str e.title), ("code", .str e.code),
      ("recoverable", .bool e.isRecoverable), ("at", e.subject)] ++
    if e.hasStableMessage then [("message", .str e.message)] else [])

end TypedSsa.Fault

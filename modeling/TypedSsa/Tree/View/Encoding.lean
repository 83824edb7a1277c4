import TypedSsa.Tree.Encoding
import TypedSsa.Tree.View

/-!
Functions, statements and expressions as JSON.
-/

namespace TypedSsa

namespace Statement

def toJson : Statement → Json
  | assign target name value declared =>
    .tagged "Assign" (.obj [("target", target.toJson), ("name", .str name),
      ("value", value.toJson), ("declared", .ofOption Ty.toJson declared)])
  | expr value => .tagged "Expr" value.toJson
  | ifElse test body orelse =>
    .tagged "If" (.obj [("test", test.toJson), ("body", .ofList Ident.toJson body),
      ("orelse", .ofList Ident.toJson orelse)])
  | whileLoop test body =>
    .tagged "While" (.obj [("test", test.toJson), ("body", .ofList Ident.toJson body)])
  | forLoop l =>
    .tagged "For" (.obj [("target", l.target.toJson), ("name", .str l.name),
      ("start", l.start.toJson), ("stop", l.stop.toJson),
      ("step", .ofOption Ident.toJson l.step), ("body", .ofList Ident.toJson l.body),
      ("parallel", .bool l.parallel)])
  | tryCatch body handlers =>
    .tagged "Try" (.obj [("body", .ofList Ident.toJson body),
      ("handlers", .ofList Ident.toJson handlers)])
  | breakStmt => .str "Break"
  | continueStmt => .str "Continue"
  | returnStmt value => .tagged "Return" (.ofOption Ident.toJson value)
  | raise value => .tagged "Raise" (.ofOption Ident.toJson value)

end Statement

def Expression.toJson : Expression → Json
  | name n => .tagged "Name" (.str n)
  | const ty => .tagged "Const" ty.toJson
  | call callee args => .tagged "Call" (.arr [.str callee, .ofList Ident.toJson args])
  | binary op left right => .tagged "BinOp" (.arr [.str op, left.toJson, right.toJson])
  | cast value ty => .tagged "Cast" (.arr [value.toJson, ty.toJson])
  | other kind => .tagged "Other" (.str kind)

def ParamView.toJson (p : ParamView) : Json :=
  .arr [p.node.toJson, .str p.name, .ofOption Ty.toJson p.declared]

def FunctionView.toJson (f : FunctionView) : Json :=
  .obj [("node", f.node.toJson), ("name", .str f.name), ("body", .ofList Ident.toJson f.body),
    ("return", .ofOption Ty.toJson f.returnType),
    ("signature", .ofOption (.ofList Ty.toJson) f.signature),
    ("params", .ofList ParamView.toJson f.params)]

/-- A node with what its kind says of it. -/
def Node.toJson (a : Arena) (n : Node) : Json :=
  .obj [("id", n.id.toJson), ("kind", .ofOption .str (a.kindName? n.id)),
    ("kind_id", n.kind.toJson), ("mode", .str n.mode.text),
    ("fields", .ofList FieldValue.toJson n.fields),
    ("attrs", .ofList NodeRow.attributeJson n.attributes),
    ("children", .ofList Ident.toJson n.children)]

end TypedSsa

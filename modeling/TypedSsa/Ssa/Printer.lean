import TypedSsa.Ssa.Form

/-!
Forms as text: a line for each definition.
-/

namespace TypedSsa

def optionText (show_ : α → String) : Option α → String
  | some x => "Some(" ++ show_ x ++ ")"
  | none => "None"

/-- A case with named fields. -/
def caseText (name : String) (fields : List (String × String)) : String :=
  name ++ " \x7b " ++ ", ".intercalate (fields.map (fun (key, text) => key ++ ": " ++ text)) ++
    " \x7d"

def DefKind.text : DefKind → String
  | param index node => caseText "Param" [("index", toString index), ("node", node.longText)]
  | assign stmt value => caseText "Assign" [("stmt", stmt.longText), ("value", value.longText)]
  | loopInit construct start =>
    caseText "LoopInit" [("construct", construct.longText), ("start", start.longText)]
  | loopStep construct step previous =>
    caseText "LoopStep" [("construct", construct.longText),
      ("step", optionText Ident.longText step), ("previous", previous.longText)]
  | phi incoming =>
    caseText "Phi" [("incoming", "[" ++ ", ".intercalate (incoming.map Ident.longText) ++ "]")]
  | promotion source target =>
    caseText "Promotion" [("source", source.longText), ("phi", target.longText)]
  | undefined => "Undefined"

def BindState.text : BindState → String
  | always => "always-bound"
  | maybe => "maybe-unbound"
  | never => "never-bound"

def Event.text : Event → String
  | define id => "Def(" ++ id.longText ++ ")"
  | use id => "Use(" ++ id.longText ++ ")"

namespace SsaForm

def defText (d : Def) : String :=
  "  " ++ d.id.text ++ " = " ++ d.name ++ " @" ++ d.block.text ++ " " ++ d.kind.text ++
    ((d.declared.map (fun ty => " : " ++ ty.text)).getD "") ++ "\n"

def text (f : SsaForm) : String :=
  "ssa " ++ f.function ++ "\n" ++ String.join (f.defs.toList.map defText)

end SsaForm

end TypedSsa

import TypedSsa.Ssa.Binding

/-!
Functions in static single assignment form with the type of every definition: what compiling makes.
-/

namespace TypedSsa

/-- What is known of the type of a definition. -/
inductive TypeOutcome where
  | resolved (ty : Ty)
  | unresolved (reason : String)
  /-- An undefined value has no type. -/
  | unbound
deriving DecidableEq, Repr

namespace TypeOutcome

def ty? : TypeOutcome → Option Ty
  | resolved ty => some ty
  | _ => none

def text : TypeOutcome → String
  | resolved ty => ty.text
  | unresolved reason => "<unresolved: " ++ reason ++ ">"
  | unbound => "<unbound>"

end TypeOutcome

/-- The graph comes with its dominator tree. -/
structure TypedFunction where
  graph : FlowGraph
  form : SsaForm
  types : List (DefId × TypeOutcome)
  result : TypeOutcome
  /-- The reads that may take an undefined value. -/
  requirements : List Requirement
deriving Repr

namespace TypedFunction

def ofParts (graph : FlowGraph) (form : SsaForm) (types : List (DefId × TypeOutcome))
    (result : TypeOutcome) (requirements : List Requirement) : Except Fault TypedFunction :=
  if graph.dominance.isNone then
    .error (.malformedGraph graph.function none Reason.dominanceNotComputed)
  else .ok ⟨graph, form, types, result, requirements⟩

variable (f : TypedFunction)

def name : String :=
  f.form.function

def node : NodeId :=
  f.form.node

def definitionOf? (use : UseId) : Option Def :=
  f.form.definitionOf? use

def typeOf? (id : DefId) : Option TypeOutcome :=
  (f.types.find? (·.1 == id)).map (·.2)

/-- The type of the definition that a read takes its value from. -/
def typeOfUse? (use : UseId) : Option Ty := do
  let d ← f.definitionOf? use
  (← f.typeOf? d.id).ty?

def incoming? (phi : DefId) : Option (List UseId) :=
  f.form.incoming? phi

def preorder : List BlockId :=
  (f.graph.dominance.map (·.preorder)).getD []

/-- The definitions without a type, and why. -/
def unresolved : List (DefId × String) :=
  f.types.filterMap (fun (id, outcome) =>
    match outcome with
    | .unresolved reason => some (id, reason)
    | _ => none)

/-- The definitions of variables, with their types. -/
def typedDefs : List (Def × TypeOutcome) :=
  (f.form.defs.toList.filter (·.kind != .undefined)).filterMap (fun d => (f.typeOf? d.id).map ((d, ·)))

def eventText : Event → Option String
  | .define id => (f.form.definition? id).map (fun d =>
      "    " ++ d.id.text ++ " " ++ d.name ++ " : " ++
        ((f.typeOf? id).map (·.text)).getD "?" ++ "\n")
  | .use id => (f.form.use? id).map (fun u =>
      "    " ++ u.id.text ++ " " ++ u.name ++ " <- " ++ u.definition.text ++ "\n")

def blockText (block : BlockId) : String :=
  "  " ++ block.text ++ ":\n" ++ String.join ((f.form.eventsIn block).filterMap f.eventText)

def text : String :=
  "fn " ++ f.name ++ " -> " ++ f.result.text ++ "\n" ++ String.join (f.preorder.map f.blockText)

end TypedFunction

end TypedSsa

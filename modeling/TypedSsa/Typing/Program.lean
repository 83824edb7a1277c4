import TypedSsa.Typing.Local

/-!
The type graph of a whole program. Linking puts the functions' graphs one after the other, turns a
call of one of them into a copy of its result, and feeds the arguments into its parameters.
-/

namespace TypedSsa

/-- The functions' nodes are those of the whole graph. -/
structure ProgramTypes where
  graph : TypeGraph := {}
  functions : List FunctionTypes := []
  /-- What went wrong in linking, with the calling function. -/
  errors : List (String × Fault) := []
deriving DecidableEq, Repr

namespace ProgramTypes

def function? (p : ProgramTypes) (name : String) : Option FunctionTypes :=
  p.functions.find? (·.function == name)

def shiftCall (offset : Nat) (c : CallSite) : CallSite :=
  { c with apply := ⟨c.apply.raw + offset⟩, args := c.args.map (⟨·.raw + offset⟩) }

/-- A function whose nodes moved up; its graph is part of the program's. -/
def shifted (offset : Nat) (t : FunctionTypes) : FunctionTypes :=
  { t with
    graph := {}
    defs := t.defs.map (fun (d, n) => (d, ⟨n.raw + offset⟩))
    params := t.params.map (⟨·.raw + offset⟩)
    result := ⟨t.result.raw + offset⟩
    calls := t.calls.map (shiftCall offset) }

/-- Of two functions with one name the later counts. -/
def add (p : ProgramTypes) (t : FunctionTypes) : ProgramTypes :=
  { p with
    graph := p.graph.append t.graph t.function
    functions := putBy FunctionTypes.function p.functions (shifted p.graph.size t) }

/-- A call of a function of the program. Without as many arguments as parameters, none is bound. -/
structure Link where
  caller : String
  call : CallSite
  callee : FunctionTypes

def Link.fits (l : Link) : Bool :=
  l.callee.params.length == l.call.args.length

def Link.bindings (l : Link) : List (TypeNodeId × TypeNodeId) :=
  if l.fits then l.callee.params.zip l.call.args else []

def Link.fault (l : Link) : String × Fault :=
  (l.caller, .schema Kind.call
    (Reason.callArity l.callee.function l.callee.params.length l.call.args.length))

def links (p : ProgramTypes) : List Link :=
  p.functions.flatMap (fun caller => caller.calls.filterMap (fun call =>
    (p.function? call.callee).map (⟨caller.function, call, ·⟩)))

def addInput (arg : TypeNodeId) : TypeRule → TypeRule
  | .join inputs => .join (if inputs.contains arg then inputs else inputs ++ [arg])
  | rule => rule

/-- An argument counts where a parameter has no type of its own. -/
def bindArgument (g : TypeGraph) (binding : TypeNodeId × TypeNodeId) : TypeGraph :=
  g.change binding.1 (fun n => { n with rule := addInput binding.2 n.rule })

def connect (g : TypeGraph) (l : Link) : TypeGraph :=
  l.bindings.foldl bindArgument (g.setRule l.call.apply (.copy l.callee.result))

/-- A parameter that nothing gives a type is of any type. -/
def openParam (g : TypeGraph) (param : TypeNodeId) : TypeGraph :=
  g.change param (fun n => if n.rule = .join [] then { n with rule := .constant .dynamic } else n)

def link (functions : List FunctionTypes) : ProgramTypes :=
  let p := functions.foldl add {}
  let connected := p.links.foldl connect p.graph
  { p with
    graph := (p.functions.flatMap (·.params)).foldl openParam connected
    errors := (p.links.filter (!·.fits)).map Link.fault }

/-- The functions of the program that a function calls, each once. -/
def calleesOf (p : ProgramTypes) (t : FunctionTypes) : List String :=
  distinct ((t.calls.map (·.callee)).filter (fun c => (p.function? c).isSome))

end ProgramTypes

end TypedSsa

import TypedSsa.Program.TypedFunction
import TypedSsa.Flow.Check
import TypedSsa.Ssa.Printer
import TypedSsa.Ssa.Verify
import TypedSsa.Tree.Table

/-!
Compiled programs as flat rows keyed by ids, and back.
-/

namespace TypedSsa

structure FunctionTable where
  name : String
  node : NodeId
  entry : BlockId
  blocks : List Block
  loops : List LoopInfo
  params : List DefId
  defs : List Def
  uses : List Use
  events : List (BlockId × List Event)
  types : List (DefId × TypeOutcome)
  result : TypeOutcome
  requirements : List Requirement := []
deriving DecidableEq, Repr

namespace SsaForm

def checkUse (f : SsaForm) (u : Use) : Except Fault Unit :=
  if (f.definition? u.definition).isSome then .ok ()
  else .error (.table (Reason.useRowDangling u.id f.function u.definition))

/-- The values that a definition is made of are read. -/
def checkOperands (f : SsaForm) (d : Def) : Except Fault Unit :=
  match d.kind.operands.find? (fun u => (f.use? u).isNone) with
  | some u => .error (.table (Reason.defRowDangling d.id f.function u))
  | none => .ok ()

def checkParam (f : SsaForm) (id : DefId) : Except Fault Unit :=
  if (f.definition? id).isSome then .ok () else .error (.table (Reason.parameterMissing id))

def knows (f : SsaForm) : Event → Bool
  | .define id => (f.definition? id).isSome
  | .use id => (f.use? id).isSome

def checkEvents (f : SsaForm) (entry : BlockId × List Event) : Except Fault Unit :=
  match entry.2.find? (fun e => !f.knows e) with
  | some e => .error (.table (Reason.eventUnknown entry.1 f.function e.text))
  | none => .ok ()

/-- Puts a form together again. Of two rows with one id the later counts. -/
def ofTable (t : FunctionTable) : Except Fault SsaForm := do
  let defs := collectBy Def.id t.defs
  let uses := collectBy Use.id t.uses
  let f : SsaForm := {
    function := t.name
    node := t.node
    params := t.params
    defs := defs.toArray
    uses := uses.toArray
    events := .ofList (t.events.map (fun (b, es) => (b, es.toArray)))
    nextDef := (defs.map (·.id.raw + 1)).foldl max 0
    nextUse := (uses.map (·.id.raw + 1)).foldl max 0 }
  t.uses.forM f.checkUse
  defs.forM f.checkOperands
  t.params.forM f.checkParam
  t.events.forM f.checkEvents
  .ok f

end SsaForm

namespace TypedFunction

def toTable (f : TypedFunction) : FunctionTable :=
  { name := f.name
    node := f.node
    entry := f.graph.entry
    blocks := f.graph.blocks
    loops := f.graph.loops
    params := f.form.params
    defs := f.form.defs.toList
    uses := f.form.uses.toList
    events := f.form.blockEvents
    types := f.types
    result := f.result
    requirements := f.requirements }

def checkType (f : SsaForm) (row : DefId × TypeOutcome) : Except Fault Unit :=
  if (f.definition? row.1).isSome then .ok ()
  else .error (.table (Reason.typeRowDangling row.1 f.function))

def ofTable (t : FunctionTable) : Except Fault TypedFunction := do
  let g ← FlowGraph.ofParts t.name t.entry t.blocks t.loops
  let (_, g) ← g.ensureDominance
  let f ← SsaForm.ofTable t
  f.verify g
  t.types.forM (checkType f)
  ofParts g f (t.types.foldl (putBy Prod.fst) []) t.result t.requirements

end TypedFunction

/-- A whole program: its nodes and its functions. -/
structure ProgramTable where
  nodes : NodeTable
  functions : List FunctionTable
deriving Repr, BEq

namespace ProgramTable

def ofProgram (a : Arena) (functions : List TypedFunction) : Except Fault ProgramTable :=
  (NodeTable.ofArena a).map (⟨·, functions.map TypedFunction.toTable⟩)

def functionIn (a : Arena) (t : FunctionTable) : Except Fault TypedFunction :=
  if a.contains t.node then TypedFunction.ofTable t
  else .error (.table (Reason.functionNodeMissing t.name t.node))

/-- The arena and the functions again, and the supply moved past the ids of the nodes. -/
def import? (t : ProgramTable) (registry : Registry) (ids : IdSupply .node) :
    Except Fault (Arena × List TypedFunction × IdSupply .node) := do
  let (a, ids) ← t.nodes.import? registry ids
  let functions ← t.functions.mapM (functionIn a)
  .ok (a, functions, ids)

end ProgramTable

end TypedSsa

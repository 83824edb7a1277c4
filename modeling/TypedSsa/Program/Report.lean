import TypedSsa.CallGraph
import TypedSsa.Context
import TypedSsa.Program.Unit
import TypedSsa.Typing.Program
import TypedSsa.Typing.Resolution

/-!
Compiling all functions of a program. One that fails does not keep the others from being compiled:
what goes wrong is reported with the function it concerns.
-/

namespace TypedSsa

structure ProgramStats where
  functions : Nat := 0
  /-- Functions that did not get as far as types. -/
  failed : Nat := 0
  blocks : Nat := 0
  defs : Nat := 0
  phis : Nat := 0
  promotions : Nat := 0
  typeNodes : Nat := 0
  resolver : ResolverStats := {}
deriving DecidableEq, Repr

/-- Functions go by their names, and one whose name is taken by its name and its node. -/
abbrev Reports := List (String × FunctionReport)

namespace Reports

def has (reports : Reports) (key : String) : Bool :=
  reports.any (·.1 == key)

/-- A report takes the place of one with its key. -/
def put (reports : Reports) (key : String) (r : FunctionReport) : Reports :=
  putBy Prod.fst reports (key, r)

end Reports

structure ProgramReport where
  functions : Reports := []
  callGraph : CallGraph := {}
  stats : ProgramStats := {}
deriving Repr

namespace ProgramReport

def errors (r : ProgramReport) : List Fault :=
  r.functions.flatMap (·.2.errors)

def warnings (r : ProgramReport) : List Fault :=
  r.functions.flatMap (·.2.warnings)

def hasErrors (r : ProgramReport) : Bool :=
  r.functions.any (·.2.hasErrors)

def diagnostics (r : ProgramReport) : List Diagnostic :=
  r.functions.flatMap (·.2.diagnostics)

def typedFunctions (r : ProgramReport) : List TypedFunction :=
  r.functions.filterMap (·.2.ir)

end ProgramReport

/-- The functions that are ready to be linked, and the reports on the others. -/
structure Collected where
  reports : Reports := []
  units : List FunctionUnit := []
  failed : Nat := 0

namespace Collected

def keyOf (name : String) (node : NodeId) : String :=
  name ++ "@" ++ node.text

def addFailed (c : Collected) (r : FunctionReport) : Collected :=
  let key := if c.reports.has r.name then keyOf r.name r.node else r.name
  { c with reports := c.reports.put key r, failed := c.failed + 1 }

/-- Of functions with one name only the first is linked. -/
def addUnit (c : Collected) (u : FunctionUnit) : Collected :=
  if c.reports.has u.name || c.units.any (·.name == u.name) then
    let e := Fault.schema Kind.function (Reason.definedTwice u.name)
    { c with
      reports := c.reports.put (keyOf u.name u.report.node) (.failed u.name u.report.node e)
      failed := c.failed + 1 }
  else { c with units := c.units ++ [u] }

def add (c : Collected) : Except FunctionReport FunctionUnit → Collected
  | .ok u => c.addUnit u
  | .error r => c.addFailed r

end Collected

/-- A fault that arose in linking or resolving, with a function that it concerns. -/
structure Finding where
  function : String
  severe : Bool
  fault : Fault
deriving DecidableEq, Repr

namespace Finding

def ofNode (p : ProgramTypes) (severe : Bool) (entry : TypeNodeId × Fault) : Option Finding :=
  ((p.graph.node? entry.1).bind (·.function)).map (⟨·, severe, entry.2⟩)

/-- A cycle that does not settle concerns every function with a node on it, and the functions that
these call in a circle. -/
def ofFailure (p : ProgramTypes) (calls : CallGraph) (f : RecursionFailure) : List Finding :=
  let owners := f.members.filterMap (fun m => (p.graph.node? m).bind (·.function))
  (distinct (owners.flatMap (fun name => calls.members name ++ [name]))).map
    (⟨·, f.fallback.isNone, f.error⟩)

def all (p : ProgramTypes) (calls : CallGraph) (r : Resolution) : List Finding :=
  p.errors.map (fun (caller, e) => ⟨caller, true, e⟩) ++
    r.errors.filterMap (ofNode p true) ++ r.warnings.filterMap (ofNode p false) ++
    r.failures.flatMap (ofFailure p calls)

def note (report : FunctionReport) (f : Finding) : FunctionReport :=
  if f.function ≠ report.name then report
  else if f.severe then report.addError f.fault
  else report.addWarning f.fault

end Finding

namespace Resolution

/-- The type of a node, or the reason why it has none. -/
def outcome (r : Resolution) (id : TypeNodeId) : TypeOutcome :=
  match r.typeOf? id, r.errorFor? id, r.failureFor? id with
  | some ty, _, _ => .resolved ty
  | none, some e, _ => .unresolved e.message
  | none, none, some f => .unresolved f.error.message
  | none, none, none => .unresolved Reason.dependsOnUntyped

def outcomeOf (r : Resolution) (t : FunctionTypes) (d : Def) : TypeOutcome :=
  match d.kind, t.defNode? d.id with
  | .undefined, _ => .unbound
  | _, some node => r.outcome node
  | _, none => .unresolved Reason.withoutTypeNode

/-- The signature of a function all of whose parameters have a type, with the type of its
result. -/
def signature? (r : Resolution) (t : FunctionTypes) : Option (Signature × Ty) := do
  let result ← (r.outcome t.result).ty?
  let params ← t.params.mapM r.typeOf?
  some (⟨.program, t.function, params⟩, result)

end Resolution

/-- What a compilation goes by. -/
structure Compiler where
  config : Config
  rules : RuleSet
  validators : List Validator := Validator.all

namespace Compiler

/-- The last report on a function that got as far as types. -/
def finished (p : ProgramTypes) (r : Resolution) (findings : List Finding) (u : FunctionUnit) :
    FunctionReport :=
  let report := findings.foldl Finding.note u.report
  match p.function? u.name with
  | none => report
  | some t =>
    let types := u.form.defs.toList.map (fun d => (d.id, r.outcomeOf t d))
    match TypedFunction.ofParts u.graph u.form types (r.outcome t.result) u.requirements with
    | .ok ir => { report with ir := some ir }
    | .error e => report.addError e

def finish (p : ProgramTypes) (r : Resolution) (findings : List Finding) (reports : Reports)
    (u : FunctionUnit) : Reports :=
  reports.put u.name (finished p r findings u)

def statsOf (functions : List NodeId) (c : Collected) (p : ProgramTypes) (r : Resolution) :
    ProgramStats :=
  let defs := c.units.flatMap (·.form.defs.toList)
  { functions := functions.length
    failed := c.failed
    blocks := (c.units.flatMap (·.graph.blocks)).length
    defs := defs.length
    phis := (c.units.flatMap (·.form.phis)).length
    promotions := defs.countP (·.kind.isPromotion)
    typeNodes := p.graph.size
    resolver := r.stats }

/-- Stores the signatures that the types of a program give its functions. -/
def recordSignatures (p : ProgramTypes) (r : Resolution) (memo : Memo) : Memo :=
  let signatures := p.functions.filterMap r.signature?
  let cache := signatures.foldl (fun cache (s, ty) => (cache.record s ty).2) memo.cache
  { memo with cache }

def compile (c : Compiler) (a : Arena) (functions : List NodeId) : StateM Memo ProgramReport := do
  let collected :=
    (functions.map (FunctionUnit.build c.config c.validators a)).foldl Collected.add {}
  let program := ProgramTypes.link (collected.units.map (·.types))
  let calls := CallGraph.ofEdges (program.functions.map (fun t => (t.function, program.calleesOf t)))
  let resolution ← (Resolver.ofConfig c.config c.rules).resolve program.graph
  modify (recordSignatures program resolution)
  let findings := Finding.all program calls resolution
  return {
    functions := collected.units.foldl (finish program resolution findings) collected.reports
    callGraph := calls
    stats := statsOf functions collected program resolution }

/-- Compiles, and fails with the first error that is reported. -/
def compileStrict (c : Compiler) (a : Arena) (functions : List NodeId) :
    StateM Memo (Except Fault ProgramReport) := do
  let report ← c.compile a functions
  return match report.errors with
    | [] => .ok report
    | e :: _ => .error e

end Compiler

end TypedSsa

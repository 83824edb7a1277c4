import TypedSsa.Fault.Diagnosis
import TypedSsa.Flow.Lowering
import TypedSsa.Program.TypedFunction
import TypedSsa.Program.Validator
import TypedSsa.Ssa.Construction
import TypedSsa.Ssa.Promotion
import TypedSsa.Typing.Local

/-!
What can be made of a function by itself, before the other functions are known, and the report on
it.
-/

namespace TypedSsa

structure FunctionReport where
  name : String
  node : NodeId
  /-- Missing when the function did not get as far as types. -/
  ir : Option TypedFunction := none
  errors : List Fault := []
  /-- Faults that a fallback made up for. -/
  warnings : List Fault := []
  lints : List String := []
deriving Repr

namespace FunctionReport

def failed (name : String) (node : NodeId) (e : Fault) : FunctionReport :=
  { name, node, errors := [e] }

def hasErrors (r : FunctionReport) : Bool :=
  !r.errors.isEmpty

/-- A fault is reported once. -/
def addError (r : FunctionReport) (e : Fault) : FunctionReport :=
  if r.errors.contains e then r else { r with errors := r.errors ++ [e] }

def addWarning (r : FunctionReport) (e : Fault) : FunctionReport :=
  if r.warnings.contains e then r else { r with warnings := r.warnings ++ [e] }

def lintCode : String := "W0101"

def ofLint (function lint : String) : Diagnostic :=
  { severity := .warning, code := lintCode, message := lint, location := { function := function } }

def diagnostics (r : FunctionReport) : List Diagnostic :=
  r.errors.map (fun e => e.toDiagnostic r.name .error) ++
    r.warnings.map (fun e => e.toDiagnostic r.name .warning) ++
    r.lints.map (ofLint r.name)

end FunctionReport

/-- A function that is ready to be linked. -/
structure FunctionUnit where
  report : FunctionReport
  graph : FlowGraph
  form : SsaForm
  types : FunctionTypes
  requirements : List Requirement
deriving Repr

namespace FunctionUnit

def name (u : FunctionUnit) : String :=
  u.report.name

def lower (config : Config) (a : Arena) (view : FunctionView) (lints : List String) :
    Except Fault FunctionUnit := do
  let g ← FlowGraph.ofFunction a view.node
  let (f, g) ← SsaForm.ofGraph a g view.node
  let (f, promotions) := f.promote (.ofConfig config)
  let (f, bindings) := f.bind g config.unbound
  let report : FunctionReport := { name := view.name, node := view.node, lints }
  let report := (promotions.errors ++ bindings.errors).foldl FunctionReport.addError report
  let report := (promotions.warnings ++ bindings.warnings).foldl FunctionReport.addWarning report
  let types ← FunctionTypes.ofForm a g f
  .ok { report, graph := g, form := f, types, requirements := bindings.requirements }

/-- A function that cannot be lowered has a report all the same. -/
def build (config : Config) (validators : List Validator) (a : Arena) (function : NodeId) :
    Except FunctionReport FunctionUnit :=
  match a.function function with
  | .error e => .error (.failed function.text function e)
  | .ok view =>
    match Validator.run validators view with
    | .error e => .error (.failed view.name function e)
    | .ok lints =>
      (lower config a view lints).mapError
        (fun e => { FunctionReport.failed view.name function e with lints })

end FunctionUnit

end TypedSsa

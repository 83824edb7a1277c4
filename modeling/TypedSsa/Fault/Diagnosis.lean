import TypedSsa.Fault.Basic
import TypedSsa.Report.Diagnostic

/-!
Faults as diagnostics of the function they arose in.
-/

namespace TypedSsa.Fault

def location (function : String) : Fault → Location
  | malformedGraph _ (some block) _ => { function, block := block.raw }
  | unbound _ _ block use => { function, block := block.raw, use := use.raw }
  | illegal _ node _ => { function, node := node.raw }
  | _ => { function := function }

def help : Fault → List String
  | unification _ _ => ["configure a [[join]] entry or a unification-fallback type"]
  | unresolvedRecursion _ _ =>
    ["annotate one of the recursive definitions or set recursion-fallback"]
  | unbound _ _ _ _ =>
    ["assign the variable on every path, or use unbound-policy = \"poison\""]
  | _ => []

def toDiagnostic (e : Fault) (function : String) (severity : Severity) : Diagnostic :=
  { severity
    code := some (if severity = .warning then e.warningCode else e.code)
    message := e.message
    location := e.location function
    help := e.help }

end TypedSsa.Fault

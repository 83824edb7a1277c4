import TypedSsa.Fault.Reason

/-!
Everything that can go wrong, its stable code and its message.
-/

namespace TypedSsa

inductive Fault where
  | schema (kind reason : String)
  | malformedGraph (function : String) (block : Option BlockId) (reason : String)
  | unification (left right : Ty)
  | unknownFunction (name : String)
  | unresolvedRecursion (members : List TypeNodeId) (rounds : Nat)
  | unbound (function name : String) (block : BlockId) (use : UseId)
  | illegal (function : String) (node : NodeId) (reason : String)
  | config (reason : String)
  | table (reason : String)
  | idsExhausted
deriving DecidableEq, Repr, Inhabited

namespace Fault

/-- Whether a configured fallback type may stand in for the failed result. -/
def isRecoverable : Fault → Bool
  | unification _ _ | unknownFunction _ | unresolvedRecursion _ _ => true
  | _ => false

def digits : Fault → String
  | schema _ _ => "0100"
  | table _ => "0101"
  | malformedGraph _ _ _ => "0200"
  | unification _ _ => "0300"
  | unknownFunction _ => "0301"
  | unresolvedRecursion _ _ => "0400"
  | unbound _ _ _ _ => "0500"
  | illegal _ _ _ => "0600"
  | config _ => "0700"
  | idsExhausted => "0800"

def code (e : Fault) : String :=
  "E" ++ e.digits

/-- The code of a fault that a fallback made up for. -/
def warningCode (e : Fault) : String :=
  "W" ++ e.digits

def message : Fault → String
  | schema kind reason => s!"schema violation in `{kind}`: {reason}"
  | malformedGraph function _ reason => s!"malformed CFG in `{function}`: {reason}"
  | unification left right => s!"cannot unify `{left.text}` with `{right.text}`"
  | unknownFunction name => s!"no type rule for `{name}`"
  | unresolvedRecursion members rounds =>
    s!"recursive type did not converge after {rounds} round(s) " ++
      s!"({members.length} node(s) involved)"
  | unbound function name _ _ =>
    s!"variable `{name}` is never bound before use in `{function}`"
  | illegal function _ reason => s!"illegal construct in `{function}`: {reason}"
  | config reason => s!"invalid configuration: {reason}"
  | table reason => s!"malformed IR table: {reason}"
  | idsExhausted => "no ids left"

end Fault

end TypedSsa

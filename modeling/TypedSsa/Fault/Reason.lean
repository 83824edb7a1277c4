import TypedSsa.Ident
import TypedSsa.Ty.Basic

/-!
The wording of the reasons that faults carry.
-/

namespace TypedSsa.Reason

/-! Kinds, fields and nodes. -/

def unknownKind : String := "unknown node kind"

def unregisteredKind : String := "node has unregistered kind"

def kindTaken : String := "kind is already registered"

def fieldRepeated (name : String) : String :=
  s!"field `{name}` declared twice"

def fieldCount (expected got : Nat) : String :=
  s!"expected {expected} field(s), got {got}"

def inField (name reason : String) : String :=
  s!"field `{name}`: {reason}"

def inAttribute (name reason : String) : String :=
  s!"attribute `{name}`: {reason}"

def noField (name : String) : String :=
  s!"no field `{name}`"

def noAttribute (name : String) : String :=
  s!"no hidden attribute `{name}`"

def immutable : String := "value nodes are immutable after creation"

def noNode (id : NodeId) : String :=
  s!"no node with id {id.text}"

def valueCycle (id : NodeId) : String :=
  s!"value node {id.text} lies on a cycle of value nodes"

def missingReference (id : NodeId) : String :=
  s!"reference to missing node {id.text}"

def otherKind (expected found : String) : String :=
  s!"expected node of kind `{expected}`, found `{found}`"

def otherShape (expected found : String) : String :=
  s!"expected {expected}, found {found}"

def notHolding (name what : String) : String :=
  s!"field `{name}` is not a {what}"

def notAFunction : String := "expected a Function node"

def notAStatement : String := "not a statement kind"

def noDispatch : String := "cannot dispatch on an unknown kind"

def notACountedLoop : String := "loop statement is not a `For`"

def nestedInItself : String := "node is nested in itself"

/-! Rules, calls and signatures. -/

def noOperands : String := "operator applied to no operands"

def arity (expected got : Nat) : String :=
  s!"expected {expected} argument(s), got {got}"

def noArgument : String := "expected an argument"

def callArity (callee : String) (expected got : Nat) : String :=
  s!"`{callee}` expects {expected} argument(s), got {got}"

def signatureCount (expected : Nat) (function : String) : String :=
  s!"expected {expected} argument types in function {function}"

def signatureType (index : Nat) (param function : String) (declared signature : Ty) : String :=
  s!"parameter {index} (`{param}`) of function {function} is declared `{declared.text}` " ++
    s!"but the signature says `{signature.text}`"

def noSignature (function : String) (untyped : List String) : String :=
  let names := ", ".intercalate untyped
  s!"function {function} has no signature; parameter(s) {names} are typed from call sites " ++
    "or assumed dynamic"

def definedTwice (function : String) : String :=
  s!"function `{function}` is defined more than once"

/-! Block graphs. -/

def noBlock (id : BlockId) : String :=
  s!"no block {id.text}"

def noEntry : String := "missing entry block"

def noTerminator (id : BlockId) : String :=
  s!"block {id.text} has no terminator"

def edgeToNowhere (source target : BlockId) : String :=
  s!"edge from {source.text} to missing block {target.text}"

def edgesDisagree : String := "successor edges disagree with the terminator"

def predecessorMissing (source target : BlockId) : String :=
  s!"{source.text} missing from predecessors of {target.text}"

def predecessorWithoutEdge (source : BlockId) : String :=
  s!"{source.text} listed as predecessor without an edge"

def dominanceWithoutEntry : String := "cannot compute dominance without an entry block"

def withoutDominator : String := "reachable block without an immediate dominator"

def breakOutsideLoop : String := "`break` outside of a loop"

def continueOutsideLoop : String := "`continue` outside of a loop"

def breakOutOfParallel : String := "`break` out of a parallel loop"

def returnInParallel : String := "`return` inside a parallel loop"

/-! Definitions and uses. -/

def noReachingDefinition (name : String) : String :=
  s!"no reaching definition for `{name}`"

def stepWithoutRead : String := "loop step without a read of its target"

def unfilledSlot (phi : DefId) (name : String) : String :=
  s!"phi {phi.text} for `{name}` has an unfilled slot"

def dominanceNotComputed : String := "dominance not computed"

def phiArity (phi : DefId) (values predecessors : Nat) : String :=
  s!"phi {phi.text} has {values} incoming value(s) for {predecessors} predecessor(s)"

def phiOrder (phi : DefId) : String :=
  s!"phi {phi.text} slot out of predecessor order"

def useOfMissing (id : UseId) (definition : DefId) : String :=
  s!"use {id.text} points at missing def {definition.text}"

def useOfUnreachable (id : UseId) (definition : DefId) : String :=
  s!"use {id.text} reads unreachable def {definition.text}"

def notDominating (definition : DefId) (block : BlockId) (id : UseId) : String :=
  s!"def {definition.text} in {block.text} does not dominate use {id.text}"

def noTypeNode (definition : DefId) : String :=
  s!"no type node for {definition.text}"

def missingUse (id : UseId) : String :=
  s!"missing use {id.text}"

def readWithoutUse (name : String) : String :=
  s!"read of `{name}` has no SSA use"

/-! Tables. -/

def rowOfUnregistered (id : NodeId) : String :=
  s!"node {id.text} has unregistered kind"

def rowOfUnknownKind (kind : String) (id : NodeId) : String :=
  s!"unknown kind `{kind}` for {id.text}"

def rowInvalid : String := "row with invalid id"

def rowRepeated (id : NodeId) : String :=
  s!"duplicate node id {id.text}"

def rowFieldCount (id : NodeId) (kind : String) (got declared : Nat) : String :=
  s!"{id.text} `{kind}` has {got} field(s), schema declares {declared}"

def rowField (id : NodeId) (name reason : String) : String :=
  s!"{id.text} field `{name}`: {reason}"

def rowAttribute (id : NodeId) (name reason : String) : String :=
  s!"{id.text} attribute `{name}`: {reason}"

def rowUndeclared (id : NodeId) (name : String) : String :=
  s!"{id.text} has undeclared attribute `{name}`"

def useRowDangling (id : UseId) (function : String) (definition : DefId) : String :=
  s!"use {id.text} of `{function}` points at missing def {definition.text}"

def defRowDangling (id : DefId) (function : String) (read : UseId) : String :=
  s!"def {id.text} of `{function}` refers to missing use {read.text}"

def parameterMissing (id : DefId) : String :=
  s!"missing parameter def {id.text}"

def eventUnknown (block : BlockId) (function event : String) : String :=
  s!"block {block.text} of `{function}` records unknown event {event}"

def typeRowDangling (id : DefId) (function : String) : String :=
  s!"type row for missing def {id.text} in `{function}`"

def functionNodeMissing (function : String) (id : NodeId) : String :=
  s!"function `{function}` refers to missing node {id.text}"

/-! Configuration. -/

def noRounds : String := "max-fixpoint-rounds must be at least 1"

def selfJoin (ty : Ty) : String :=
  s!"join of `{ty.text}` with itself must be `{ty.text}`"

def unparsed : String := "failed to parse configuration"

def unreadable (why : String) : String :=
  s!"{unparsed}: {why}"

/-! Types of definitions. -/

def withoutTypeNode : String := "no type node"

def dependsOnUntyped : String := "depends on a value with no type"

end TypedSsa.Reason

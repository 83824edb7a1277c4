import TypedSsa.Fault.Basic
import TypedSsa.Tree.FieldType

/-!
Kinds of nodes: their fields in order, the attributes that may be attached later, and how nodes
of a kind compare. A registry only grows, so a kind keeps its id.
-/

namespace TypedSsa

/-- Identity nodes equal only themselves and may change. Value nodes are fixed, and equal when
their kinds and fields are. -/
inductive Comparison where
  | identity
  | value
deriving DecidableEq, Repr, Inhabited

def Comparison.text : Comparison → String
  | .identity => "Identity"
  | .value => "Value"

structure FieldSpec where
  name : String
  type : FieldType
deriving DecidableEq, Repr

structure KindSchema where
  name : String
  mode : Comparison
  fields : List FieldSpec
  hidden : List FieldSpec := []
deriving DecidableEq, Repr

def KindSchema.field? (s : KindSchema) (name : String) : Option FieldSpec :=
  s.fields.find? (·.name == name)

def KindSchema.fieldIndex? (s : KindSchema) (name : String) : Option Nat :=
  s.fields.findIdx? (·.name == name)

def KindSchema.hidden? (s : KindSchema) (name : String) : Option FieldSpec :=
  s.hidden.find? (·.name == name)

structure Registry where
  kinds : List KindSchema := []
deriving DecidableEq, Repr, Inhabited

namespace Registry

def kindId? (r : Registry) (name : String) : Option KindId :=
  (r.kinds.findIdx? (·.name == name)).map (⟨·⟩)

def schema? (r : Registry) (kind : KindId) : Option KindSchema :=
  r.kinds[kind.raw]?

def named? (r : Registry) (name : String) : Option KindSchema :=
  r.kinds.find? (·.name == name)

/-- The first name that stands twice in a list. -/
def repeated? : List String → List String → Option String
  | [], _ => none
  | name :: rest, seen => if seen.contains name then some name else repeated? rest (name :: seen)

/-- Adds a kind; its name must be new, and so must each name among its fields and attributes. -/
def register (r : Registry) (s : KindSchema) : Except Fault (KindId × Registry) :=
  if (r.named? s.name).isSome then .error (.schema s.name Reason.kindTaken)
  else
    match repeated? ((s.fields ++ s.hidden).map (·.name)) [] with
    | some name => .error (.schema s.name (Reason.fieldRepeated name))
    | none => .ok (⟨r.kinds.length⟩, ⟨r.kinds ++ [s]⟩)

/-- Adds kinds one by one and stops at the first that is refused, keeping those before it. -/
def registerAll (r : Registry) : List KindSchema → Except Fault Unit × Registry
  | [] => (.ok (), r)
  | s :: rest =>
    match r.register s with
    | .ok (_, r) => registerAll r rest
    | .error e => (.error e, r)

end Registry

end TypedSsa

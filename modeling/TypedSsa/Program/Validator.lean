import TypedSsa.Fault.Basic
import TypedSsa.Tree.View

/-!
Checks of a function's declared types before its body is looked at. A check refuses the function or
gives advice; advice stops nothing.
-/

namespace TypedSsa

inductive Validator where
  /-- A declared signature lists a type for each parameter. -/
  | argumentCount
  /-- Advises against parameters without a type. -/
  | missingSignature
  /-- The signature and the types of the parameters agree. -/
  | signatureType
deriving DecidableEq, Repr

namespace Validator

def name : Validator → String
  | argumentCount => "argcount"
  | missingSignature => "missing-signature"
  | signatureType => "signature-type"

def all : List Validator :=
  [argumentCount, missingSignature, signatureType]

def ofName? (text : String) : Option Validator :=
  all.find? (·.name == text)

def refuse (reason : String) : Except Fault (List String) :=
  .error (.schema Kind.function reason)

def untyped (view : FunctionView) : List String :=
  (view.params.filter (·.declared.isNone)).map (·.name)

/-- The first parameter whose type is not the one in the signature. -/
def mismatch? (view : FunctionView) (signature : List Ty) : Option String :=
  (view.params.zip signature).zipIdx.findSome? (fun ((p, ty), i) =>
    match p.declared with
    | some declared =>
      if declared = ty then none
      else some (Reason.signatureType i p.name view.name declared ty)
    | none => none)

def check (view : FunctionView) : Validator → Except Fault (List String)
  | argumentCount =>
    match view.signature with
    | some signature =>
      if signature.length = view.params.length then .ok []
      else refuse (Reason.signatureCount view.params.length view.name)
    | none => .ok []
  | missingSignature =>
    if view.signature.isSome || (untyped view).isEmpty then .ok []
    else .ok [Reason.noSignature view.name (untyped view)]
  | signatureType =>
    match view.signature with
    | some signature =>
      match mismatch? view signature with
      | some reason => refuse reason
      | none => .ok []
    | none => .ok []

/-- The advice of all checks, up to the first refusal. -/
def run (validators : List Validator) (view : FunctionView) : Except Fault (List String) :=
  (validators.mapM (check view)).map List.flatten

end Validator

end TypedSsa

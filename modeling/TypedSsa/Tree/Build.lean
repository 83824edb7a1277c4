import TypedSsa.Text.Binary64.Shortest
import TypedSsa.Tree.Kinds

/-!
Building functions node by node, each with the next id.
-/

namespace TypedSsa

/-- A growing arena with the supply of its ids. -/
structure Grove where
  arena : Arena
  ids : IdSupply .node := {}

/-- A failed step keeps what the steps before it did. -/
abbrev TreeM := ExceptT Fault (StateM Grove)

namespace TreeM

def create (kind : String) (fields : List FieldValue) : TreeM NodeId := fun g =>
  match g.arena.create g.ids kind fields with
  | (.ok (id, arena), ids) => (.ok id, ⟨arena, ids⟩)
  | (.error e, ids) => (.error e, { g with ids })

def change (step : Arena → Except Fault Arena) : TreeM Unit := fun g =>
  match step g.arena with
  | .ok arena => (.ok (), { g with arena })
  | .error e => (.error e, g)

def setAttribute (id : NodeId) (name : String) (value : FieldValue) : TreeM Unit :=
  change (·.setAttribute id name value)

def setField (id : NodeId) (name : String) (value : FieldValue) : TreeM Unit :=
  change (·.setField id name value)

def nodes (ids : List NodeId) : FieldValue :=
  .list (ids.map .node)

def optional : Option NodeId → FieldValue
  | some id => .node id
  | none => .absent

def name (text : String) : TreeM NodeId :=
  create Kind.name [.str text]

def const (ty : Ty) (text : String) : TreeM NodeId :=
  create Kind.const [.type ty, .str text]

def int (value : Int) : TreeM NodeId :=
  const .int64 (toString value)

def float (value : Binary64) : TreeM NodeId :=
  const .float64 value.plainText

def binary (op : String) (left right : NodeId) : TreeM NodeId :=
  create Kind.binary [.str op, .node left, .node right]

def call (callee : String) (args : List NodeId) : TreeM NodeId :=
  create Kind.call [.str callee, nodes args]

def cast (value : NodeId) (ty : Ty) : TreeM NodeId :=
  create Kind.cast [.node value, .type ty]

def assign (target : String) (value : NodeId) (declared : Option Ty := none) :
    TreeM NodeId := do
  let target ← name target
  let id ← create Kind.assign [.node target, .node value]
  if let some ty := declared then setAttribute id Kind.declaredType (.type ty)
  return id

def exprStmt (value : NodeId) : TreeM NodeId :=
  create Kind.exprStmt [.node value]

def ifElse (test : NodeId) (body orelse : List NodeId) : TreeM NodeId :=
  create Kind.ifElse [.node test, nodes body, nodes orelse]

def whileLoop (test : NodeId) (body : List NodeId) : TreeM NodeId :=
  create Kind.whileLoop [.node test, nodes body]

def forLoop (target : String) (start stop : NodeId) (step : Option NodeId)
    (body : List NodeId) (parallel : Bool := false) : TreeM NodeId := do
  let target ← name target
  let id ← create Kind.forLoop [.node target, .node start, .node stop, optional step, nodes body]
  if parallel then setAttribute id Kind.parallel (.bool true)
  return id

def handler (body : List NodeId) : TreeM NodeId :=
  create Kind.handler [nodes body]

def tryCatch (body handlers : List NodeId) : TreeM NodeId :=
  create Kind.tryCatch [nodes body, nodes handlers]

def breakStmt : TreeM NodeId :=
  create Kind.breakStmt []

def continueStmt : TreeM NodeId :=
  create Kind.continueStmt []

def returnStmt (value : Option NodeId) : TreeM NodeId :=
  create Kind.returnStmt [optional value]

def raise (value : Option NodeId) : TreeM NodeId :=
  create Kind.raise [optional value]

def param (text : String) (declared : Option Ty := none) : TreeM NodeId := do
  let id ← create Kind.param [.str text]
  if let some ty := declared then setAttribute id Kind.declaredType (.type ty)
  return id

def function (text : String) (params body : List NodeId) : TreeM NodeId :=
  create Kind.function [.str text, nodes params, nodes body]

def declareSignature (function : NodeId) (types : List Ty) : TreeM Unit :=
  setAttribute function Kind.signature (.list (types.map .type))

def declareReturn (function : NodeId) (ty : Ty) : TreeM Unit :=
  setAttribute function Kind.returnType (.type ty)

end TreeM

end TypedSsa

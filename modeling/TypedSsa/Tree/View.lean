import TypedSsa.Tree.Kinds

/-!
Nodes of the builtin kinds read as functions, statements and expressions.
-/

namespace TypedSsa

structure ParamView where
  node : NodeId
  name : String
  declared : Option Ty
deriving DecidableEq, Repr

structure FunctionView where
  node : NodeId
  name : String
  params : List ParamView
  body : List NodeId
  returnType : Option Ty
  signature : Option (List Ty)
deriving DecidableEq, Repr

/-- A loop that counts its target up from `start` while it is below `stop`. -/
structure CountedLoop where
  target : NodeId
  name : String
  start : NodeId
  stop : NodeId
  step : Option NodeId
  body : List NodeId
  parallel : Bool
deriving DecidableEq, Repr

inductive Statement where
  | assign (target : NodeId) (name : String) (value : NodeId) (declared : Option Ty)
  | expr (value : NodeId)
  | ifElse (test : NodeId) (body orelse : List NodeId)
  | whileLoop (test : NodeId) (body : List NodeId)
  | forLoop (loop : CountedLoop)
  | tryCatch (body handlers : List NodeId)
  | breakStmt
  | continueStmt
  | returnStmt (value : Option NodeId)
  | raise (value : Option NodeId)
deriving DecidableEq, Repr

inductive Expression where
  | name (name : String)
  | const (ty : Ty)
  | call (callee : String) (args : List NodeId)
  | binary (op : String) (left right : NodeId)
  | cast (value : NodeId) (ty : Ty)
  | other (kind : String)
deriving DecidableEq, Repr

namespace Arena

/-- A field whose value has to be of one shape. -/
def fieldAs (a : Arena) (id : NodeId) (name what : String) (read : FieldValue → Option α) :
    Except Fault α := do
  let value ← a.field id name
  match read value with
  | some x => .ok x
  | none => .error (.schema ((a.kindName? id).getD unknown) (Reason.notHolding name what))

def strField (a : Arena) (id : NodeId) (name : String) : Except Fault String :=
  a.fieldAs id name "string" FieldValue.str?

def nodeField (a : Arena) (id : NodeId) (name : String) : Except Fault NodeId :=
  a.fieldAs id name "node" FieldValue.node?

def typeField (a : Arena) (id : NodeId) (name : String) : Except Fault Ty :=
  a.fieldAs id name "type" FieldValue.type?

def nodeField? (a : Arena) (id : NodeId) (name : String) : Except Fault (Option NodeId) :=
  (a.field id name).map FieldValue.node?

def listField (a : Arena) (id : NodeId) (name : String) : Except Fault (List NodeId) :=
  (a.field id name).map FieldValue.references

def attribute? (a : Arena) (id : NodeId) (name : String) : Option FieldValue :=
  (a.find? id).bind (·.attribute? name)

def typeAttribute? (a : Arena) (id : NodeId) (name : String) : Option Ty :=
  (a.attribute? id name).bind FieldValue.type?

/-- The declared type of a parameter or an assignment. -/
def declaredType? (a : Arena) (id : NodeId) : Option Ty :=
  a.typeAttribute? id Kind.declaredType

def kindName (a : Arena) (id : NodeId) : Except Fault String :=
  match a.kindName? id with
  | some kind => .ok kind
  | none => .error (.schema unknown (Reason.noNode id))

def param (a : Arena) (id : NodeId) : Except Fault ParamView := do
  let name ← a.strField id "name"
  .ok ⟨id, name, a.declaredType? id⟩

def signature? (a : Arena) (id : NodeId) : Option (List Ty) :=
  (a.attribute? id Kind.signature).map fun
    | .list items => items.filterMap FieldValue.type?
    | _ => []

def function (a : Arena) (id : NodeId) : Except Fault FunctionView := do
  let kind ← a.kindName id
  if kind ≠ Kind.function then .error (.schema kind Reason.notAFunction)
  else
    let params ← a.listField id "params"
    let params ← params.mapM a.param
    let name ← a.strField id "name"
    let body ← a.listField id "body"
    .ok ⟨id, name, params, body, a.typeAttribute? id Kind.returnType, a.signature? id⟩

def countedLoop (a : Arena) (id : NodeId) : Except Fault CountedLoop := do
  let target ← a.nodeField id "target"
  let name ← a.strField target "id"
  let start ← a.nodeField id "start"
  let stop ← a.nodeField id "stop"
  let step ← a.nodeField? id "step"
  let body ← a.listField id "body"
  let parallel := ((a.attribute? id Kind.parallel).bind FieldValue.bool?).getD false
  .ok ⟨target, name, start, stop, step, body, parallel⟩

def statement (a : Arena) (id : NodeId) : Except Fault Statement := do
  let kind ← a.kindName id
  if kind = Kind.assign then
    let target ← a.nodeField id "target"
    let name ← a.strField target "id"
    let value ← a.nodeField id "value"
    .ok (.assign target name value (a.declaredType? id))
  else if kind = Kind.exprStmt then .expr <$> a.nodeField id "value"
  else if kind = Kind.ifElse then
    let test ← a.nodeField id "test"
    let body ← a.listField id "body"
    let orelse ← a.listField id "orelse"
    .ok (.ifElse test body orelse)
  else if kind = Kind.whileLoop then
    let test ← a.nodeField id "test"
    let body ← a.listField id "body"
    .ok (.whileLoop test body)
  else if kind = Kind.forLoop then .forLoop <$> a.countedLoop id
  else if kind = Kind.tryCatch then
    let body ← a.listField id "body"
    let handlers ← a.listField id "handlers"
    .ok (.tryCatch body handlers)
  else if kind = Kind.breakStmt then .ok .breakStmt
  else if kind = Kind.continueStmt then .ok .continueStmt
  else if kind = Kind.returnStmt then .returnStmt <$> a.nodeField? id "value"
  else if kind = Kind.raise then .raise <$> a.nodeField? id "value"
  else .error (.schema kind Reason.notAStatement)

/-- A registered kind without a meaning of its own is an expression of unknown value. -/
def expression (a : Arena) (id : NodeId) : Except Fault Expression := do
  let kind ← a.kindName id
  if kind = Kind.name then .name <$> a.strField id "id"
  else if kind = Kind.const then .const <$> a.typeField id "ty"
  else if kind = Kind.call then
    let callee ← a.strField id "func"
    let args ← a.listField id "args"
    .ok (.call callee args)
  else if kind = Kind.binary then
    let op ← a.strField id "op"
    let left ← a.nodeField id "left"
    let right ← a.nodeField id "right"
    .ok (.binary op left right)
  else if kind = Kind.cast then
    let value ← a.nodeField id "value"
    let ty ← a.typeField id "ty"
    .ok (.cast value ty)
  else .ok (.other kind)

def handlerBody (a : Arena) (id : NodeId) : Except Fault (List NodeId) :=
  a.listField id "body"

/-- The type of a literal. -/
def literalType? (a : Arena) (id : NodeId) : Option Ty :=
  match a.expression id with
  | .ok (.const ty) => some ty
  | _ => none

/-- The functions of an arena, by id. -/
def functions (a : Arena) : List NodeId :=
  (a.nodes.toList.filter (fun n => a.kindName? n.id == some Kind.function)).map (·.id)

end Arena

end TypedSsa

import TypedSsa.Flow.Effects

/-!
Functions in static single assignment form: every definition has an id of its own, and every read
refers to the one definition whose value it takes.
-/

namespace TypedSsa

/-- Where the value of a definition comes from. -/
inductive DefKind where
  | param (index : Nat) (node : NodeId)
  | assign (stmt value : NodeId)
  | loopInit (construct start : NodeId)
  | loopStep (construct : NodeId) (step : Option NodeId) (previous : UseId)
  /-- A read for each predecessor, in the order of the predecessors. -/
  | phi (incoming : List UseId)
  /-- Turns a value into the type of a phi on the edge to it. -/
  | promotion (source : UseId) (phi : DefId)
  /-- The value of a variable that nothing has assigned. -/
  | undefined
deriving DecidableEq, Repr

namespace DefKind

def incoming? : DefKind → Option (List UseId)
  | phi incoming => some incoming
  | _ => none

def isPhi (k : DefKind) : Bool :=
  k.incoming?.isSome

def isPromotion : DefKind → Bool
  | promotion _ _ => true
  | _ => false

/-- The reads that a definition takes its value from. -/
def operands : DefKind → List UseId
  | phi incoming => incoming
  | loopStep _ _ previous => [previous]
  | promotion source _ => [source]
  | _ => []

end DefKind

structure Def where
  id : DefId
  name : String
  block : BlockId
  kind : DefKind
  /-- The type known beforehand, from an annotation, a literal or a promotion. -/
  declared : Option Ty := none
  /-- Whether the undefined value may be read. -/
  poisoned : Bool := false
deriving DecidableEq, Repr

def Def.isPhi (d : Def) : Bool :=
  d.kind.isPhi

/-- Whether a variable has been assigned when it is read. -/
inductive BindState where
  | always
  | maybe
  | never
deriving DecidableEq, Repr

/-- The block of a phi's operand is the predecessor that the value comes from. -/
structure Use where
  id : UseId
  name : String
  block : BlockId
  site : UseSite
  definition : DefId
  binding : Option BindState := none
deriving DecidableEq, Repr

/-- A definition or a read, at its place in a block. -/
inductive Event where
  | define (id : DefId)
  | use (id : UseId)
deriving DecidableEq, Repr

/-- Definitions and uses stand in the order in which they were made. The next ones get ids that
none has. -/
structure SsaForm where
  function : String
  node : NodeId
  params : List DefId := []
  defs : Array Def := #[]
  uses : Array Use := #[]
  events : Std.HashMap BlockId (Array Event) := {}
  nextDef : Nat := 0
  nextUse : Nat := 0
deriving Repr

namespace SsaForm

def definition? (f : SsaForm) (id : DefId) : Option Def :=
  findNear? Def.id id.raw f.defs id

def use? (f : SsaForm) (id : UseId) : Option Use :=
  findNear? Use.id id.raw f.uses id

/-- The definition that a read takes its value from. -/
def definitionOf? (f : SsaForm) (id : UseId) : Option Def :=
  (f.use? id).bind (fun u => f.definition? u.definition)

def eventsIn (f : SsaForm) (block : BlockId) : List Event :=
  (f.events.getD block #[]).toList

def phis (f : SsaForm) : List Def :=
  f.defs.toList.filter (·.isPhi)

def phisIn (f : SsaForm) (block : BlockId) : List Def :=
  f.phis.filter (·.block == block)

def incoming? (f : SsaForm) (phi : DefId) : Option (List UseId) :=
  (f.definition? phi).bind (·.kind.incoming?)

/-- The undefined value of a variable. -/
def undefined? (f : SsaForm) (name : String) : Option Def :=
  f.defs.find? (fun d => d.kind == .undefined && d.name == name)

/-- The events of every block that has any, by block. -/
def blockEvents (f : SsaForm) : List (BlockId × List Event) :=
  (f.events.toList.map (fun (b, es) => (b, es.toList))).mergeSort (fun x y => x.1.raw ≤ y.1.raw)

def addDef (f : SsaForm) (name : String) (block : BlockId) (kind : DefKind)
    (declared : Option Ty := none) : DefId × SsaForm :=
  let id : DefId := ⟨f.nextDef⟩
  (id, { f with
    defs := f.defs.push { id := id, name, block, kind, declared }
    nextDef := f.nextDef + 1 })

def addUse (f : SsaForm) (name : String) (block : BlockId) (site : UseSite)
    (definition : DefId) : UseId × SsaForm :=
  let id : UseId := ⟨f.nextUse⟩
  (id, { f with
    uses := f.uses.push { id := id, name, block, site, definition }
    nextUse := f.nextUse + 1 })

/-- Appends an event to those of a block. -/
def record (f : SsaForm) (block : BlockId) (event : Event) : SsaForm :=
  { f with events := f.events.alter block (fun es => some ((es.getD #[]).push event)) }

/-- Whether an event is the definition of a phi. -/
def isPhiEvent (f : SsaForm) : Event → Bool
  | .define id => (f.definition? id).any (·.isPhi)
  | .use _ => false

/-- Puts the definition of a phi ahead of all events of a block that are not of phis. -/
def recordPhi (f : SsaForm) (block : BlockId) (id : DefId) : SsaForm :=
  { f with events := f.events.alter block (fun es =>
      let es := (es.getD #[]).toList
      some (es.takeWhile f.isPhiEvent ++ .define id :: es.dropWhile f.isPhiEvent).toArray) }

/-- Adds a definition and records it. -/
def define (f : SsaForm) (name : String) (block : BlockId) (kind : DefKind)
    (declared : Option Ty := none) : DefId × SsaForm :=
  let (id, f) := f.addDef name block kind declared
  (id, f.record block (.define id))

/-- Adds a phi and records it. -/
def definePhi (f : SsaForm) (name : String) (block : BlockId) (incoming : List UseId) : SsaForm :=
  let (id, f) := f.addDef name block (.phi incoming)
  f.recordPhi block id

def updateDef (f : SsaForm) (id : DefId) (change : Def → Def) : SsaForm :=
  { f with defs := modifyNear Def.id id.raw f.defs id change }

def updateUse (f : SsaForm) (id : UseId) (change : Use → Use) : SsaForm :=
  { f with uses := modifyNear Use.id id.raw f.uses id change }

def putIncoming (slot : Nat) (use : UseId) : DefKind → DefKind
  | .phi incoming => .phi (incoming.set slot use)
  | kind => kind

/-- Puts a read into one slot of a phi. -/
def setIncoming (f : SsaForm) (phi : DefId) (slot : Nat) (use : UseId) : SsaForm :=
  f.updateDef phi (fun d => { d with kind := putIncoming slot use d.kind })

structure Stats where
  defs : Nat
  uses : Nat
  phis : Nat
  promotions : Nat
  undefined : Nat
deriving DecidableEq, Repr

def stats (f : SsaForm) : Stats :=
  { defs := f.defs.size
    uses := f.uses.size
    phis := f.phis.length
    promotions := f.defs.countP (·.kind.isPromotion)
    undefined := f.defs.countP (·.kind == .undefined) }

end SsaForm

end TypedSsa

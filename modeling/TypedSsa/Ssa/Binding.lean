import TypedSsa.Config.Basic
import TypedSsa.Ssa.Form

/-!
Whether the variables that are read have been assigned: on every way to the read, on some or on
none. A way that leaves a block by an exception carries the values from the start of the block.
-/

namespace TypedSsa

/-- On which ways to a place a variable is assigned: on some, and is there one where it is not. -/
structure Assigned where
  bound : Bool := false
  unbound : Bool := false
deriving DecidableEq, Repr

def Assigned.classify (a : Assigned) : BindState :=
  if a.unbound then (if a.bound then .maybe else .never) else .always

/-- What a definition makes of its variable; phis and promotions pass on what there was. -/
def DefKind.assigns? : DefKind → Option Assigned
  | phi _ | promotion _ _ => none
  | undefined => some { unbound := true }
  | _ => some { bound := true }

/-- A read that may take an undefined value. -/
structure Requirement where
  name : String
  use : UseId
  block : BlockId
  undefined : Option DefId
  state : BindState
deriving DecidableEq, Repr

structure BindingReport where
  requirements : List Requirement := []
  errors : List Fault := []
  warnings : List Fault := []
  always : Nat := 0
  maybe : Nat := 0
  never : Nat := 0
deriving DecidableEq, Repr

def BindingReport.stateOf? (r : BindingReport) (use : UseId) : Option BindState :=
  (r.requirements.find? (·.use == use)).map (·.state)

/-- Reads that stand in the program, unlike operands of phis and promotions. -/
def UseSite.isDirect : UseSite → Bool
  | name _ | loopTest _ | loopStep _ => true
  | _ => false

namespace SsaForm

/-- Takes an event into what is known of each variable. -/
def noteEvent (f : SsaForm) (known : Std.HashMap String Assigned) :
    Event → Std.HashMap String Assigned
  | .define id =>
    match f.definition? id with
    | some d => ((d.kind.assigns?).map (known.insert d.name)).getD known
    | none => known
  | .use _ => known

/-- What the last of some events that assigns a variable makes of it, for every variable. -/
def lastAssigned (f : SsaForm) (events : List Event) : Std.HashMap String Assigned :=
  events.foldl f.noteEvent {}

/-- A graph's reachable blocks, the ways out of each, and the form on it. `settled` holds for each
block what it makes of the variables, and `starts` for each variable the blocks at whose start it is
assigned on some way, and those at whose start it is not on some way. -/
structure Analysis where
  form : SsaForm
  order : List BlockId
  ways : Std.HashMap BlockId (List Way)
  settled : Std.HashMap BlockId (Std.HashMap String Assigned)
  starts : Std.HashMap String (Std.HashSet BlockId × Std.HashSet BlockId) := {}

namespace Analysis

variable (x : Analysis) (name : String)

/-- What a block makes of a variable. -/
def settledBy? (block : BlockId) : Option Assigned :=
  (x.settled.getD block {})[name]?

/-- What a way carries, if the block that it leaves settles that. -/
def carried? (w : Way) : Option Assigned :=
  if w.raised then none else x.settledBy? name w.source

/-- The blocks to whose start some way carries what `p` accepts, through blocks that pass it on. -/
def comesTo (p : Assigned → Bool) : Std.HashSet BlockId :=
  let targets (q : Option Assigned → Bool) (b : BlockId) : List BlockId :=
    ((x.ways.getD b []).filter (fun w => q (x.carried? name w))).map (·.target)
  let roots := x.order.flatMap (targets (·.any p))
  .ofList (Digraph.searchFrom x.order (targets (·.isNone)) roots).seen

def ofForm (g : FlowGraph) (f : SsaForm) : Analysis :=
  let order := g.reversePostorder
  let x : Analysis := {
    form := f
    order
    ways := groupBy Way.source g.ways
    settled := .ofList (order.map (fun b => (b, f.lastAssigned (f.eventsIn b)))) }
  let names := (firstsBy Use.name f.uses.toList).map (·.name)
  { x with starts := .ofList (names.map (fun name =>
      (name, x.comesTo name (·.bound), x.comesTo name (·.unbound)))) }

/-- What is assigned at the start of a block. -/
def atStart (block : BlockId) : Assigned :=
  let (bound, unbound) := x.starts.getD name ({}, {})
  { bound := bound.contains block, unbound := unbound.contains block }

/-- What is assigned on the way between two blocks. -/
def onEdge (source target : BlockId) : Assigned :=
  match (x.ways.getD source []).find? (·.target == target) with
  | some w => (x.carried? name w).getD (x.atStart name source)
  | none => {}

/-- The states of the reads so far, the last one first, and what is known of each variable. -/
structure Reading where
  known : Std.HashMap String Assigned := {}
  states : List (UseId × BindState) := []

def read (block : BlockId) (r : Reading) (event : Event) : Reading :=
  match event with
  | .use id =>
    match x.form.use? id with
    | some u =>
      let state := ((r.known[u.name]?).getD (x.atStart u.name block)).classify
      { r with states := (id, state) :: r.states }
    | none => r
  | .define _ => { r with known := x.form.noteEvent r.known event }

/-- The state of the reads among a block's events. -/
def readStates (block : BlockId) : List (UseId × BindState) :=
  ((x.form.eventsIn block).foldl (x.read block) {}).states.reverse

/-- The edge that an operand of a phi or of a promotion is read on. -/
def edgeOf? (u : Use) : Option (BlockId × BlockId) :=
  match u.site with
  | .phiIncoming phi predecessor =>
    (x.form.definition? phi).map (fun d => (predecessor, d.block))
  | .promotion id => do
    let d ← x.form.definition? id
    match d.kind with
    | .promotion _ phi => (x.form.definition? phi).map (fun p => (d.block, p.block))
    | _ => none
  | _ => none

def edgeStates : List (UseId × BindState) :=
  x.form.uses.toList.filterMap (fun u => (x.edgeOf? u).map (fun (source, target) =>
    (u.id, (x.onEdge u.name source target).classify)))

def states : List (UseId × BindState) :=
  x.order.flatMap x.readStates ++ x.edgeStates

end Analysis

def requirement (f : SsaForm) (u : Use) (state : BindState) : Requirement :=
  { name := u.name, use := u.id, block := u.block, undefined := (f.undefined? u.name).map (·.id)
    state }

/-- Takes one direct read into the report. -/
def reportRead (f : SsaForm) (policy : UnboundPolicy) (r : BindingReport)
    (entry : UseId × BindState) : BindingReport :=
  match f.use? entry.1 with
  | none => r
  | some u =>
    if !u.site.isDirect then r
    else
      let required := r.requirements ++ [f.requirement u entry.2]
      match entry.2 with
      | .always => { r with always := r.always + 1 }
      | .maybe => { r with maybe := r.maybe + 1, requirements := required }
      | .never =>
        let e := Fault.unbound f.function u.name u.block u.id
        let r := { r with never := r.never + 1 }
        match policy with
        | .error => { r with errors := r.errors ++ [e] }
        | .poison => { r with warnings := r.warnings ++ [e], requirements := required }

/-- Notes on each read its state, and on each undefined value whether it may be read. -/
def mark (f : SsaForm) (states : List (UseId × BindState)) (r : BindingReport) : SsaForm :=
  let known : Std.HashMap UseId BindState := .ofList states
  let read : Std.HashSet DefId := .ofList (r.requirements.filterMap (·.undefined))
  { f with
    uses := f.uses.map (fun u => { u with binding := (known[u.id]?).or u.binding })
    defs := f.defs.map (fun d => { d with poisoned := d.poisoned || read.contains d.id }) }

/-- Classifies every read of a form. -/
def bind (f : SsaForm) (g : FlowGraph) (policy : UnboundPolicy) : SsaForm × BindingReport :=
  let states := (Analysis.ofForm g f).states
  let report := states.foldl (f.reportRead policy) {}
  (f.mark states report, report)

end SsaForm

end TypedSsa

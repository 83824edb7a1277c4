import TypedSsa.Fault.Encoding
import TypedSsa.Flow.Encoding
import TypedSsa.Ssa.Binding
import TypedSsa.Ssa.Printer

/-!
Definitions, reads and events as JSON.
-/

namespace TypedSsa

namespace DefKind

def toJson : DefKind → Json
  | param index node =>
    .tagged "Param" (.obj [("index", .ofNat index), ("node", node.toJson)])
  | assign stmt value =>
    .tagged "Assign" (.obj [("stmt", stmt.toJson), ("value", value.toJson)])
  | loopInit construct start =>
    .tagged "LoopInit" (.obj [("construct", construct.toJson), ("start", start.toJson)])
  | loopStep construct step previous =>
    .tagged "LoopStep" (.obj [("construct", construct.toJson),
      ("step", .ofOption Ident.toJson step), ("previous", previous.toJson)])
  | phi incoming => .tagged "Phi" (.obj [("incoming", .ofList Ident.toJson incoming)])
  | promotion source target =>
    .tagged "Promotion" (.obj [("source", source.toJson), ("phi", target.toJson)])
  | undefined => .str "Undefined"

def ofJson? (style : Json.CaseStyle) (j : Json) : Option DefKind :=
  match j.case? with
  | some ("Undefined", none) | some ("Undefined", some .null) => some undefined
  | some ("Param", some c) => do
    let c ← c.fields? style ["index", "node"]
    some (param (← (c.get "index").nat? 64) (← Ident.ofJson? (c.get "node")))
  | some ("Assign", some c) => do
    let c ← c.fields? style ["stmt", "value"]
    some (assign (← Ident.ofJson? (c.get "stmt")) (← Ident.ofJson? (c.get "value")))
  | some ("LoopInit", some c) => do
    let c ← c.fields? style ["construct", "start"]
    some (loopInit (← Ident.ofJson? (c.get "construct")) (← Ident.ofJson? (c.get "start")))
  | some ("LoopStep", some c) => do
    let c ← c.fields? style ["construct", "step", "previous"]
    some (loopStep (← Ident.ofJson? (c.get "construct")) (← (c.get "step").optionOf? Ident.ofJson?)
      (← Ident.ofJson? (c.get "previous")))
  | some ("Phi", some c) => do
    let c ← c.fields? style ["incoming"]
    ((c.get "incoming").listOf? Ident.ofJson?).map phi
  | some ("Promotion", some c) => do
    let c ← c.fields? style ["source", "phi"]
    some (promotion (← Ident.ofJson? (c.get "source")) (← Ident.ofJson? (c.get "phi")))
  | _ => none

end DefKind

namespace Def

def toJson (d : Def) : Json :=
  .obj [("id", d.id.toJson), ("variable", .str d.name), ("block", d.block.toJson),
    ("kind", d.kind.toJson), ("declared_type", .ofOption Ty.toJson d.declared),
    ("needs_poison", .bool d.poisoned)]

def ofJson? (style : Json.CaseStyle) (j : Json) : Option Def := do
  let j ← j.record? ["id", "variable", "block", "kind", "declared_type", "needs_poison"] 5
  some {
    id := ← Ident.ofJson? (j.get "id")
    name := ← (j.get "variable").str?
    block := ← Ident.ofJson? (j.get "block")
    kind := ← DefKind.ofJson? style (j.get "kind")
    declared := ← (j.get "declared_type").optionOf? Ty.ofJson?
    poisoned := ← j.memberOr? "needs_poison" false Json.bool? }

end Def

namespace BindState

def title : BindState → String
  | always => "AlwaysBound"
  | maybe => "MaybeUnbound"
  | never => "NeverBound"

def toJson (s : BindState) : Json :=
  .str s.title

def ofJson? : Json → Option BindState :=
  Json.named? ([always, maybe, never].map (fun s => (s.title, s)))

end BindState

namespace Use

def toJson (u : Use) : Json :=
  .obj [("id", u.id.toJson), ("variable", .str u.name), ("block", u.block.toJson),
    ("site", u.site.toJson), ("def", u.definition.toJson),
    ("bind_state", .ofOption BindState.toJson u.binding)]

def ofJson? (style : Json.CaseStyle) (j : Json) : Option Use := do
  let j ← j.record? ["id", "variable", "block", "site", "def", "bind_state"] 5
  some {
    id := ← Ident.ofJson? (j.get "id")
    name := ← (j.get "variable").str?
    block := ← Ident.ofJson? (j.get "block")
    site := ← UseSite.ofJson? style (j.get "site")
    definition := ← Ident.ofJson? (j.get "def")
    binding := ← (j.get "bind_state").optionOf? BindState.ofJson? }

end Use

namespace Event

def toJson : Event → Json
  | define id => .tagged "Def" id.toJson
  | use id => .tagged "Use" id.toJson

def ofJson? (j : Json) : Option Event :=
  match j.case? with
  | some ("Def", some c) => (Ident.ofJson? c).map define
  | some ("Use", some c) => (Ident.ofJson? c).map use
  | _ => none

end Event

/-- The events of one block. -/
def blockEventsJson (entry : BlockId × List Event) : Json :=
  .arr [entry.1.toJson, .ofList Event.toJson entry.2]

def blockEventsOfJson? : Json → Option (BlockId × List Event)
  | .arr [block, events] => do
    some (← Ident.ofJson? block, ← events.listOf? Event.ofJson?)
  | _ => none

namespace Requirement

def toJson (r : Requirement) : Json :=
  .obj [("variable", .str r.name), ("use_id", r.use.toJson), ("block", r.block.toJson),
    ("undefined_def", .ofOption Ident.toJson r.undefined), ("state", r.state.toJson)]

def ofJson? (j : Json) : Option Requirement := do
  let j ← j.record? ["variable", "use_id", "block", "undefined_def", "state"] 5
  some {
    name := ← (j.get "variable").str?
    use := ← Ident.ofJson? (j.get "use_id")
    block := ← Ident.ofJson? (j.get "block")
    undefined := ← (j.get "undefined_def").optionOf? Ident.ofJson?
    state := ← BindState.ofJson? (j.get "state") }

end Requirement

namespace SsaForm

def Stats.toJson (s : Stats) : Json :=
  .obj [("defs", .ofNat s.defs), ("uses", .ofNat s.uses), ("phis", .ofNat s.phis),
    ("promotions", .ofNat s.promotions), ("undefined", .ofNat s.undefined)]

def toJson (f : SsaForm) : Json :=
  .obj [("shown", .str f.text), ("params", .ofList Ident.toJson f.params),
    ("events", .ofList blockEventsJson f.blockEvents), ("uses", .ofList Use.toJson f.uses.toList),
    ("stats", f.stats.toJson)]

def useStateJson (r : BindingReport) (u : Use) : Json :=
  .arr [u.id.toJson, .str u.name, .ofOption (fun s => .str s.text) u.binding,
    .ofOption BindState.toJson (r.stateOf? u.id)]

/-- What is known of the reads of a form. -/
def bindingJson (f : SsaForm) (r : BindingReport) : Json :=
  .obj [("requirements", .ofList Requirement.toJson r.requirements),
    ("errors", .ofList Fault.toJson r.errors), ("warnings", .ofList Fault.toJson r.warnings),
    ("states", .ofList (useStateJson r) f.uses.toList),
    ("poison", .ofList (fun d => d.id.toJson) (f.defs.toList.filter (·.poisoned))),
    ("counts", .arr [.ofNat r.always, .ofNat r.maybe, .ofNat r.never])]

end SsaForm

end TypedSsa

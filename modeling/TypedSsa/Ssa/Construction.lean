import TypedSsa.Flow.Liveness
import TypedSsa.Ssa.Verify

/-!
From a block graph to static single assignment form. Phis stand where different values of a live
variable meet; then the blocks are renamed in dominator-tree order, each from the values at the
end of the block above it.
-/

namespace TypedSsa

/-- The value of each variable at one place, the newest first. -/
abbrev Env := List (String × DefId)

def Env.get? (env : Env) (name : String) : Option DefId :=
  (env.find? (·.1 == name)).map (·.2)

namespace SsaForm

/-! Parameters, undefined values and phis. -/

def addParam (s : SsaForm × Env) (entry : BlockId) (p : ParamView × Nat) : SsaForm × Env :=
  let (f, env) := s
  let (id, f) := f.define p.1.name entry (.param p.2 p.1.node) p.1.declared
  ({ f with params := f.params ++ [id] }, (p.1.name, id) :: env)

def addUndefined (s : SsaForm × Env) (entry : BlockId) (name : String) : SsaForm × Env :=
  let (f, env) := s
  let (id, f) := f.define name entry .undefined
  (f, (name, id) :: env)

/-- The parameters, and an undefined value for every other variable that the body may read first. -/
def start (view : FunctionView) (entry : BlockId) (live : Liveness) (names : List String) :
    SsaForm × Env :=
  let withParams := view.params.zipIdx.foldl (fun s p => addParam s entry p)
    ({ function := view.name, node := view.node }, [])
  let rest := names.filter (fun name =>
    !(view.params.map (·.name)).contains name && (live.blocks name).contains entry)
  rest.foldl (fun s name => addUndefined s entry name) withParams

/-- The blocks that control may come to by an exception. -/
def handlers (g : FlowGraph) : Std.HashSet BlockId :=
  .ofList ((g.ways.filter (·.raised)).map (·.target))

/-- Where a variable needs a phi, in reverse postorder. A handler gets one for each live variable,
because the value on an exception edge is the one from the start of the raising block. -/
def phiBlocks (g : FlowGraph) (t : DominatorTree) (handlers : Std.HashSet BlockId)
    (effects : EffectMap) (live : Liveness) (name : String) : List BlockId :=
  let places := t.order.toList.filter (live.blocks name).contains
  let caught := places.filter handlers.contains
  let joins : Std.HashSet BlockId := .ofList (t.iteratedFrontier
    (effects.blocksWhere (writes · name) ++ g.entry :: caught))
  places.filter (fun b => b != g.entry && (joins.contains b || handlers.contains b))

def addPhi (x : BlockIndex) (f : SsaForm) (name : String) (block : BlockId) : SsaForm :=
  match x.predecessors block with
  | [] => f
  | ps => f.definePhi name block (ps.map (fun _ => .invalid))

def addPhis (g : FlowGraph) (x : BlockIndex) (t : DominatorTree) (effects : EffectMap)
    (live : Liveness) (names : List String) (f : SsaForm) : SsaForm :=
  let handlers := handlers g
  names.foldl (fun f name =>
    (phiBlocks g t handlers effects live name).foldl (fun f b => addPhi x f name b) f) f

/-! Renaming. -/

def reaching (f : SsaForm) (env : Env) (block : BlockId) (name : String) : Except Fault DefId :=
  match env.get? name with
  | some id => .ok id
  | none => .error (.malformedGraph f.function block (Reason.noReachingDefinition name))

def fillSlot (env : Env) (block : BlockId) (slot : Nat) (f : SsaForm) (phi : Def) :
    Except Fault SsaForm := do
  let id ← f.reaching env block phi.name
  let (use, f) := f.addUse phi.name block (.phiIncoming phi.id block) id
  .ok (f.setIncoming phi.id slot use)

/-- What renaming goes by: the blocks, their effects and phis, and the values at the entry. -/
structure Setting where
  arena : Arena
  blocks : BlockIndex
  tree : DominatorTree
  effects : EffectMap
  phis : Std.HashMap BlockId (List Def)
  first : Env

def fillSlotsOf (s : Setting) (env : Env) (block : BlockId) (f : SsaForm) (target : BlockId) :
    Except Fault SsaForm :=
  match (s.blocks.predecessors target).idxOf? block with
  | some slot => (s.phis.getD target []).foldlM (fillSlot env block slot) f
  | none => .ok f

/-- Fills a block's slots in the phis of its successors, either of those reached by an exception or
of the others. -/
def fillSlots (s : Setting) (exceptional : Bool) (env : Env) (block : BlockId) (f : SsaForm) :
    Except Fault SsaForm :=
  ((s.blocks.targets block).filter (fun t =>
    s.blocks.raisesInto block t == exceptional)).foldlM (fillSlotsOf s env block) f

/-- How far a block is renamed. -/
structure Point where
  form : SsaForm
  env : Env
  /-- The read of the loop step at hand. -/
  stepRead : Option UseId := none

def kindOf (a : Arena) (p : Point) (block : BlockId) :
    WriteOrigin → Except Fault (DefKind × Option Ty)
  | .assign stmt value =>
    .ok (.assign stmt value, (a.declaredType? stmt).or (a.literalType? value))
  | .loopInit construct start => .ok (.loopInit construct start, a.literalType? start)
  | .loopStep construct step =>
    match p.stepRead with
    | some previous => .ok (.loopStep construct step previous, none)
    | none => .error (.malformedGraph p.form.function block Reason.stepWithoutRead)

def isStepSite : UseSite → Bool
  | .loopStep _ => true
  | _ => false

def rename (a : Arena) (block : BlockId) (p : Point) : Effect → Except Fault Point
  | .read name site => do
    let id ← p.form.reaching p.env block name
    let (use, form) := p.form.addUse name block site id
    .ok { p with
      form := form.record block (.use use)
      stepRead := if isStepSite site then some use else p.stepRead }
  | .write name origin => do
    let (kind, declared) ← kindOf a p block origin
    let (id, form) := p.form.define name block kind declared
    .ok { p with form, env := (name, id) :: p.env }

/-- The values at the end of every block renamed so far. -/
structure Renaming where
  form : SsaForm
  ends : List (BlockId × Env) := []

def Renaming.envAfter (r : Renaming) (block : BlockId) : Env :=
  ((r.ends.find? (·.1 == block)).map (·.2)).getD []

def renameBlock (s : Setting) (r : Renaming) (block : BlockId) : Except Fault Renaming := do
  let above := ((s.tree.immediateDominator? block).map r.envAfter).getD s.first
  let env := (s.phis.getD block []).foldl (fun env phi => (phi.name, phi.id) :: env) above
  let form ← fillSlots s true env block r.form
  let p ← (s.effects.of block).foldlM (rename s.arena block) { form := form, env := env }
  let form ← fillSlots s false p.env block p.form
  .ok { form, ends := (block, p.env) :: r.ends }

def checkFilled (f : SsaForm) : Except Fault Unit :=
  match f.phis.find? (fun d => d.kind.operands.any (!·.isValid)) with
  | some d => .error (.malformedGraph f.function d.block (Reason.unfilledSlot d.id d.name))
  | none => .ok ()

/-- Parameters first, then the others in the order in which the dominator tree comes to them. -/
def namesOf (view : FunctionView) (t : DominatorTree) (effects : EffectMap) : List String :=
  distinct (view.params.map (·.name) ++
    t.preorder.flatMap (fun b => (effects.of b).map (·.name)))

/-- The checked form of a function, and its graph with the dominator tree. -/
def ofGraph (a : Arena) (g : FlowGraph) (function : NodeId) :
    Except Fault (SsaForm × FlowGraph) := do
  let view ← a.function function
  let (t, g) ← g.ensureDominance
  let effects ← g.effects a
  let names := namesOf view t effects
  let live := Liveness.ofGraph g effects
  let x := g.index
  let (f, first) := start view g.entry live names
  let f := addPhis g x t effects live names f
  let setting : Setting := {
    arena := a
    blocks := x
    tree := t
    effects
    phis := groupBy Def.block f.phis
    first }
  let r ← t.preorder.foldlM (renameBlock setting) { form := f }
  r.form.checkFilled
  r.form.verify g
  .ok (r.form, g)

end SsaForm

end TypedSsa

import TypedSsa.Flow.Effects

/-!
Liveness: a variable is live at the start of a block when some way on from there reads it before
it is written. On a way that leaves a block by an exception, the block writes nothing.
-/

namespace TypedSsa

/-- Whether the first effect on a variable reads it. -/
def readsFirst (effects : List Effect) (name : String) : Bool :=
  ((effects.find? (·.name == name)).map (·.isRead)).getD false

def writes (effects : List Effect) (name : String) : Bool :=
  effects.any (fun e => e.name == name && !e.isRead)

/-- The blocks whose effects are of some sort. -/
def EffectMap.blocksWhere (effects : EffectMap) (p : List Effect → Bool) : List BlockId :=
  (effects.filter (fun (_, es) => p es)).map (·.1)

/-- The variables with any effect. -/
def EffectMap.names (effects : EffectMap) : List String :=
  distinct (effects.flatMap (fun (_, es) => es.map (·.name)))

/-- For each variable the blocks at whose start it is live. -/
abbrev Liveness := List (String × Std.HashSet BlockId)

namespace Liveness

/-- Where a way comes from if a value may pass over it unchanged. -/
def passes? (writers : Std.HashSet BlockId) (w : Way) : Option BlockId :=
  if w.raised || !writers.contains w.source then some w.source else none

/-- The blocks that read a variable first, and those from which its value may come to such a
block. -/
def blocksOf (blocks : List BlockId) (into : Std.HashMap BlockId (List Way)) (effects : EffectMap)
    (name : String) : Std.HashSet BlockId :=
  let writers : Std.HashSet BlockId := .ofList (effects.blocksWhere (writes · name))
  let before (b : BlockId) : List BlockId := (into.getD b []).filterMap (passes? writers)
  .ofList (Digraph.searchFrom blocks before (effects.blocksWhere (readsFirst · name))).seen

def ofGraph (g : FlowGraph) (effects : EffectMap) : Liveness :=
  let into := groupBy Way.target g.ways
  effects.names.map (fun name => (name, blocksOf g.blockIds into effects name))

def blocks (l : Liveness) (name : String) : Std.HashSet BlockId :=
  ((l.find? (·.1 == name)).map (·.2)).getD {}

/-- The variables that are live at the start of a block. -/
def names (l : Liveness) (block : BlockId) : List String :=
  (l.filter (fun (_, live) => live.contains block)).map (·.1)

end Liveness

end TypedSsa

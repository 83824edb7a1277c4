import TypedSsa.Config.Basic
import TypedSsa.Typing.Rules

/-!
What one compilation shares: its settings, the supply of node ids, and the remembered results.
-/

namespace TypedSsa

structure Context where
  config : Config
  nodeIds : IdSupply .node := {}
  memo : Memo := {}

namespace Context

def ofConfig (config : Config) : Except Fault Context :=
  config.check.map (fun _ => { config := config })

def lattice (c : Context) : Lattice :=
  .ofConfig c.config

end Context

end TypedSsa

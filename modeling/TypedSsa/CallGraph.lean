import TypedSsa.Digraph.Breadth
import TypedSsa.Digraph.Components
import TypedSsa.Keyed

/-!
Which functions of a program call which, and the groups of functions that call each other.
-/

namespace TypedSsa

/-- Functions that call each other. One alone is recursive when it calls itself. -/
structure FunctionGroup where
  functions : List String
  recursive : Bool
deriving DecidableEq, Repr

structure CallGraph where
  calls : List (String × List String) := []
  groups : List FunctionGroup := []
deriving DecidableEq, Repr, Inhabited

namespace CallGraph

/-- The call relation on the listed functions; calls of other names are left out. A caller that is
listed again keeps its place and takes the new callees. -/
def relation (edges : List (String × List String)) : List (String × List String) :=
  let calls := edges.foldl (putBy Prod.fst) []
  calls.map (fun (caller, callees) =>
    (caller, callees.filter (fun c => calls.any (·.1 == c))))

def calleesIn (calls : List (String × List String)) (function : String) : List String :=
  ((calls.find? (·.1 == function)).map (·.2)).getD []

def groupOf (calls : List (String × List String)) (members : List Nat) : FunctionGroup :=
  let functions := members.filterMap (fun i => (calls[i]?).map (·.1))
  ⟨functions, 1 < members.length || functions.any (fun f => (calleesIn calls f).contains f)⟩

def ofEdges (edges : List (String × List String)) : CallGraph :=
  let calls := relation edges
  let names := calls.map (·.1)
  let targets := (calls.map (fun (_, callees) => callees.filterMap (names.idxOf? ·))).toArray
  ⟨calls, (Digraph.components calls.length (targets.getD · [])).map (groupOf calls)⟩

def size (g : CallGraph) : Nat :=
  g.calls.length

def callees (g : CallGraph) (function : String) : List String :=
  calleesIn g.calls function

def callers (g : CallGraph) (function : String) : List String :=
  (g.calls.filter (·.2.contains function)).map (·.1)

def group? (g : CallGraph) (function : String) : Option FunctionGroup :=
  g.groups.find? (·.functions.contains function)

def members (g : CallGraph) (function : String) : List String :=
  ((g.group? function).map (·.functions)).getD []

def isRecursive (g : CallGraph) (function : String) : Bool :=
  ((g.group? function).map (·.recursive)).getD false

def recursiveGroups (g : CallGraph) : List FunctionGroup :=
  g.groups.filter (·.recursive)

/-- The functions that calls lead to, breadth first. -/
def reachableFrom (g : CallGraph) (function : String) : List String :=
  let index := indexBy Prod.fst g.calls
  Digraph.breadthFirst (g.calls.map (·.1)) (fun f => ((index[f]?).map (·.2)).getD []) function

def text (g : CallGraph) : String :=
  String.join (g.calls.map (fun (caller, callees) =>
    caller ++ " -> [" ++ ", ".intercalate callees ++ "]\n"))

end CallGraph

end TypedSsa

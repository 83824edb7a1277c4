import TypedSsa.Config.Basic
import TypedSsa.Typing.Condensation
import TypedSsa.Typing.Rules

/-!
Types of all nodes of a dependency graph. Components are resolved dependencies first: one without
a cycle by evaluating it once, one with a cycle in rounds until a round changes nothing.
-/

namespace TypedSsa

abbrev Types := Array (Option Ty)

def Types.get (types : Types) (id : TypeNodeId) : Option Ty :=
  (types[id.raw]?).join

def Types.put (types : Types) (id : TypeNodeId) (ty : Option Ty) : Types :=
  types.setIfInBounds id.raw ty

/-- The outcome for one node: at most one of an error and a warning. -/
structure Evaluation where
  ty : Option Ty := none
  error : Option Fault := none
  warning : Option Fault := none
deriving DecidableEq, Repr, Inhabited

structure RecursionFailure where
  component : ComponentId
  members : List TypeNodeId
  error : Fault
  fallback : Option Ty
deriving DecidableEq, Repr

structure ResolverStats where
  evaluations : Nat := 0
  rounds : Nat := 0
  components : Nat := 0
  cyclic : Nat := 0
deriving DecidableEq, Repr, Inhabited

structure Resolution where
  types : Types := #[]
  condensation : Condensation := {}
  failures : List RecursionFailure := []
  errors : List (TypeNodeId × Fault) := []
  warnings : List (TypeNodeId × Fault) := []
  stats : ResolverStats := {}
deriving DecidableEq, Repr, Inhabited

namespace Resolution

def typeOf? (r : Resolution) (id : TypeNodeId) : Option Ty :=
  r.types.get id

def failureFor? (r : Resolution) (id : TypeNodeId) : Option RecursionFailure :=
  r.failures.find? (·.members.contains id)

def errorFor? (r : Resolution) (id : TypeNodeId) : Option Fault :=
  (r.errors.find? (·.1 == id)).map (·.2)

def unresolvedCount (r : Resolution) : Nat :=
  r.types.countP (·.isNone)

end Resolution

/-- What resolving needs to know beside the graph. -/
structure Resolver where
  lattice : Lattice
  rules : RuleSet
  maxRounds : Nat
  recursionFallback : Option Ty

namespace Resolver

def ofConfig (config : Config) (rules : RuleSet) : Resolver :=
  { lattice := .ofConfig config
    rules
    maxRounds := max config.maxRounds 1
    recursionFallback := config.recursionFallback }

def evaluateJoin (r : Resolver) (known : List Ty) : Evaluation :=
  match r.lattice.joinAll known with
  | .ok none => {}
  | .ok (some (.joined ty)) => { ty := ty }
  | .ok (some (.fallback ty cause)) => { ty, warning := cause }
  | .error e => { error := e }

/-- A fallback stands in for a result that failed in a recoverable way. -/
def evaluateApplied (r : Resolver) : Except Fault Ty → Evaluation
  | .ok ty => { ty := ty }
  | .error e =>
    match r.lattice.fallback with
    | some ty => if e.isRecoverable then { ty, warning := e } else { error := e }
    | none => { error := e }

/-- A node's type from the types of its inputs. A join passes over inputs without a type; an
application with such an argument has none itself. -/
def evaluate (r : Resolver) (lookup : TypeNodeId → Option Ty) (rule : TypeRule) :
    StateM Memo Evaluation :=
  match rule with
  | .constant ty => pure { ty := ty }
  | .copy source => pure { ty := lookup source }
  | .undefined => pure {}
  | .join inputs => pure (r.evaluateJoin (inputs.filterMap lookup))
  | .apply name args =>
    match args.mapM lookup with
    | none => pure {}
    | some args => do
      let result ← modifyGet (r.rules.applyMemo r.lattice name args)
      return r.evaluateApplied result

def ruleOf (g : TypeGraph) (id : TypeNodeId) : TypeRule :=
  (g.rule? id).getD .undefined

/-- One pass over the members of a cycle, each reading what those before it were given. -/
structure Round where
  types : Types
  changed : Bool := false
  results : Array (TypeNodeId × Evaluation) := #[]

def step (r : Resolver) (g : TypeGraph) (round : Round) (id : TypeNodeId) :
    StateM Memo Round := do
  let result ← r.evaluate round.types.get (ruleOf g id)
  let changed := round.changed || round.types.get id != result.ty
  return {
    types := round.types.put id result.ty
    changed
    results := round.results.push (id, result) }

def runRound (r : Resolver) (g : TypeGraph) (members : List TypeNodeId) (types : Types) :
    StateM Memo Round :=
  members.foldlM (r.step g) { types := types }

/-- How the rounds on a cycle ended: the last round if nothing changed in it. -/
structure Settling where
  rounds : Nat
  settled : Option Round

def settle (r : Resolver) (g : TypeGraph) (members : List TypeNodeId) :
    Nat → Nat → Types → StateM Memo Settling
  | 0, done, _ => return ⟨done, none⟩
  | left + 1, done, types => do
    let round ← r.runRound g members types
    if round.changed then settle r g members left (done + 1) round.types
    else return ⟨done + 1, some round⟩

def record (resolution : Resolution) (entry : TypeNodeId × Evaluation) : Resolution :=
  let (id, result) := entry
  { resolution with
    types := resolution.types.put id result.ty
    errors := resolution.errors ++ (result.error.map ((id, ·))).toList
    warnings := resolution.warnings ++ (result.warning.map ((id, ·))).toList }

def count (resolution : Resolution) (evaluations rounds : Nat) : Resolution :=
  { resolution with stats :=
    { resolution.stats with
      evaluations := resolution.stats.evaluations + evaluations
      rounds := resolution.stats.rounds + rounds } }

def resolveAcyclic (r : Resolver) (g : TypeGraph) (resolution : Resolution) (id : TypeNodeId) :
    StateM Memo Resolution := do
  let result ← r.evaluate resolution.types.get (ruleOf g id)
  return count (record resolution (id, result)) 1 0

def fail (r : Resolver) (resolution : Resolution) (c : Component) : Resolution :=
  { resolution with
    types := c.members.foldl (fun types id => types.put id r.recursionFallback) resolution.types
    failures := resolution.failures ++
      [⟨c.id, c.members, .unresolvedRecursion c.members r.maxRounds, r.recursionFallback⟩] }

def resolveCyclic (r : Resolver) (g : TypeGraph) (resolution : Resolution) (c : Component) :
    StateM Memo Resolution := do
  let outcome ← r.settle g c.members r.maxRounds 0 resolution.types
  let resolution := count resolution (outcome.rounds * c.members.length) outcome.rounds
  match outcome.settled with
  | some round => return round.results.foldl record resolution
  | none => return r.fail resolution c

def resolveComponent (r : Resolver) (g : TypeGraph) (resolution : Resolution) (c : Component) :
    StateM Memo Resolution :=
  if c.cyclic then r.resolveCyclic g resolution c
  else c.members.foldlM (r.resolveAcyclic g) resolution

/-- Resolves a graph wave by wave. -/
def resolve (r : Resolver) (g : TypeGraph) : StateM Memo Resolution := do
  let condensation := g.condense
  let start : Resolution := {
    types := Array.replicate g.size none
    condensation
    stats := { components := condensation.size, cyclic := condensation.cyclicCount } }
  (condensation.waves.flatten.filterMap condensation.component?).foldlM
    (r.resolveComponent g) start

end Resolver

end TypedSsa

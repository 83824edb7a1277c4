import TypedSsa.Signature
import TypedSsa.Ty.Lattice

/-!
Result types of operators and functions, by name.
-/

namespace TypedSsa

/-- The result type for known argument types. A rule that is not cacheable runs every time. -/
structure Rule where
  apply : Lattice → List Ty → Except Fault Ty
  cacheable : Bool := true

namespace Rule

def operands (name : String) (lattice : Lattice) (args : List Ty) : Except Fault Ty := do
  match ← lattice.joinAll args with
  | some outcome => .ok outcome.ty
  | none => .error (.schema name Reason.noOperands)

/-- Operands join; truth values count as integers except under the logical operators. -/
def arithmetic (op : String) : Rule where
  apply lattice args := do
    let logical := op == "and" || op == "or"
    let ty ← operands op lattice args
    if ty = .bool ∧ !logical then .ok .int64
    else if ty = .str ∧ op = "+" then .ok .str
    else if ty.isNumeric || ty = .dynamic || logical then .ok ty
    else .error (.unification ty .int64)

/-- Division has a float result. -/
def division : Rule where
  apply lattice args := do
    match ← operands "/" lattice args with
    | .bool | .int _ _ => .ok .float64
    | .float bits => .ok (.float bits)
    | .dynamic => .ok .dynamic
    | ty => .error (.unification ty .float64)

def predicate : Rule where
  apply _ _ := .ok .bool

def fixed (name : String) (arity : Option Nat) (result : Ty) : Rule where
  apply _ args :=
    match arity with
    | some n =>
      if args.length = n then .ok result
      else .error (.schema name (Reason.arity n args.length))
    | none => .ok result

/-- The result has the type of the first argument. -/
def sameAsFirst (name : String) : Rule where
  apply _ args :=
    match args with
    | ty :: _ => .ok ty
    | [] => .error (.schema name Reason.noArgument)

end Rule

/-- The id stands for the set's contents: each registration takes a new one. -/
structure RuleSet where
  id : Nat
  rules : List (String × Rule) := []

/-- Hands out ids of rule sets. -/
abbrev RuleSetM := StateM Nat

namespace RuleSet

def freshId : RuleSetM Nat :=
  modifyGet (fun n => (n, n + 1))

def empty : RuleSetM RuleSet :=
  return { id := ← freshId }

def find? (s : RuleSet) (name : String) : Option Rule :=
  (s.rules.find? (·.1 == name)).map (·.2)

/-- A rule replaces the one of the same name. -/
def register (s : RuleSet) (name : String) (rule : Rule) : RuleSetM RuleSet :=
  return { id := ← freshId, rules := (name, rule) :: s.rules.filter (·.1 != name) }

def builtinRules : List (String × Rule) :=
  (["+", "-", "*", "//", "%", "**", "and", "or"].map (fun op => (op, Rule.arithmetic op))) ++
  [("/", Rule.division)] ++
  (["<", "<=", ">", ">=", "==", "!=", "not", "is", "in"].map (fun op => (op, Rule.predicate))) ++
  [ ("len", Rule.fixed "len" (some 1) .int64),
    ("int", Rule.fixed "int" (some 1) .int64),
    ("float", Rule.fixed "float" (some 1) .float64),
    ("bool", Rule.fixed "bool" (some 1) .bool),
    ("str", Rule.fixed "str" (some 1) .str),
    ("print", Rule.fixed "print" none .unit),
    ("abs", Rule.sameAsFirst "abs") ]

def builtin : RuleSetM RuleSet := do
  builtinRules.foldlM (fun s (name, rule) => s.register name rule) (← empty)

def apply (s : RuleSet) (lattice : Lattice) (name : String) (args : List Ty) : Except Fault Ty :=
  match s.find? name with
  | some rule => rule.apply lattice args
  | none => .error (.unknownFunction name)

end RuleSet

/-- Results remembered so far, and which rule of which set ran, the last one first. -/
structure Memo where
  cache : SignatureCache := {}
  ran : List (Nat × String) := []
deriving Inhabited

/-- Applies a rule, or takes its remembered result. -/
def RuleSet.applyMemo (s : RuleSet) (lattice : Lattice) (name : String) (args : List Ty)
    (memo : Memo) : Except Fault Ty × Memo :=
  match s.find? name with
  | none => (.error (.unknownFunction name), memo)
  | some rule =>
    if rule.cacheable then
      let signature : Signature := ⟨.rules s.id, name, args⟩
      let known := memo.cache.get? signature
      let (result, cache) := memo.cache.getOrCompute signature (fun _ => rule.apply lattice args)
      (result, { cache, ran := if known.isSome then memo.ran else (s.id, name) :: memo.ran })
    else (rule.apply lattice args, { memo with ran := (s.id, name) :: memo.ran })

end TypedSsa

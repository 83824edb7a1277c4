import TypedSsa.Config.Basic
import TypedSsa.Toml.Reader

/-!
Configurations written in TOML.
-/

namespace TypedSsa.Config

def isSetting (key : String) : Bool :=
  ["max-fixpoint-rounds", "unification-fallback", "recursion-fallback", "unbound-policy",
    "parallel", "join"].contains key

/-- Reads a setting that may be left out. -/
def setting (members : Toml.Members) (key : String) (default : α) (read : Toml → Option α) :
    Option α :=
  match Toml.find? members key with
  | none => some default
  | some value => read value

def readTy : Toml → Option Ty
  | .str s => (Ty.ofText s).toOption
  | _ => none

def readRounds : Toml → Option Nat
  | .int n => if 0 ≤ n then some n.toNat else none
  | _ => none

/-- A policy is its name, alone or as the one key of a table with nothing behind it. -/
def readPolicy : Toml → Option UnboundPolicy
  | .str s => UnboundPolicy.ofText s
  | .table _ [(name, .table _ [])] => UnboundPolicy.ofText name
  | .table _ [(name, .arr [])] => UnboundPolicy.ofText name
  | _ => none

def readFlag : Toml → Option Bool
  | .bool b => some b
  | _ => none

def joinOfMembers (members : Toml.Members) : Option JoinRule := do
  let left ← (Toml.find? members "left").bind readTy
  let right ← (Toml.find? members "right").bind readTy
  let result ← (Toml.find? members "result").bind readTy
  some ⟨left, right, result⟩

/-- A join is a table of three types, or the list of them. -/
def readJoin : Toml → Option JoinRule
  | .table _ members => joinOfMembers members
  | .arr (left :: right :: result :: _) => do
    some ⟨← readTy left, ← readTy right, ← readTy result⟩
  | _ => none

def readJoins : Toml → Option (List JoinRule)
  | .tables items => items.mapM joinOfMembers
  | .arr items => items.mapM readJoin
  | _ => none

def ofMembers (members : Toml.Members) : Option Config := do
  if !members.all (fun m => isSetting m.1) then none
  else
    let maxRounds ← setting members "max-fixpoint-rounds" 64 readRounds
    let unification ← setting members "unification-fallback" none (fun v => (readTy v).map some)
    let recursion ← setting members "recursion-fallback" none (fun v => (readTy v).map some)
    let policy ← setting members "unbound-policy" .error readPolicy
    let parallel ← setting members "parallel" true readFlag
    let joins ← setting members "join" [] readJoins
    some ⟨maxRounds, unification, recursion, policy, parallel, joins⟩

/-- Reads a configuration; settings it does not name keep their defaults. -/
def ofText (text : String) : Except Fault Config :=
  match (Toml.read? text).bind ofMembers with
  | none => .error (.config (Reason.unreadable "not a configuration"))
  | some c => (check c).map (fun _ => c)

end TypedSsa.Config

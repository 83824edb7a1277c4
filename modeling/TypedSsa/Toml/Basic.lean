/-!
TOML documents as trees, and how headers and dotted keys grow them.
-/

namespace TypedSsa

/-- How a table came to be, which decides what may still be added to it. -/
inductive Toml.Origin where
  | header
  | implied
  | dotted
  | inline
deriving DecidableEq, Repr

/-- Floats and dates are read and checked but carry no value. -/
inductive Toml where
  | str (value : String)
  | int (value : Int)
  | bool (value : Bool)
  | float
  | date
  | arr (items : List Toml)
  | table (origin : Toml.Origin) (members : List (String × Toml))
  | tables (items : List (List (String × Toml)))
deriving Inhabited

namespace Toml

abbrev Members := List (String × Toml)

def find? (members : Members) (key : String) : Option Toml :=
  (members.find? (·.1 == key)).map (·.2)

def put (members : Members) (key : String) (value : Toml) : Members :=
  members.filter (·.1 != key) ++ [(key, value)]

/-- Changes the table at a path, making the tables that are missing on the way. A path through an
array of tables leads to its last one. Dotted keys do not enter what a header or braces closed. -/
def atPath (made : Origin) (change : Origin → Members → Option Members) :
    List String → Origin → Members → Option Members
  | [], origin, members => change origin members
  | key :: path, _, members =>
    match find? members key with
    | none => (atPath made change path made []).map (fun sub => put members key (table made sub))
    | some (table origin sub) =>
      if origin = .inline || (made = .dotted && origin = .header) then none
      else
        (atPath made change path origin sub).map (fun sub => put members key (table origin sub))
    | some (tables items) =>
      match items.getLast? with
      | some last =>
        (atPath made change path .header last).map
          (fun sub => put members key (tables (items.dropLast ++ [sub])))
      | none => none
    | some _ => none

/-- Adds `path.key = value`; the key must be new. -/
def addPair (path : List String) (key : String) (value : Toml) (origin : Origin)
    (members : Members) : Option Members :=
  atPath .dotted (fun reached found =>
    if !path.isEmpty && reached ≠ .dotted then none
    else if (find? found key).isSome then none
    else some (put found key value)) path origin members

/-- Opens `[path.key]`, which must be new or only implied so far. -/
def openTable (path : List String) (key : String) (root : Members) : Option Members :=
  atPath .implied (fun _ found =>
    match find? found key with
    | none => some (put found key (table .header []))
    | some (table .implied sub) => some (put found key (table .header sub))
    | some _ => none) path .header root

/-- Opens the next table of `[[path.key]]`. -/
def openItem (path : List String) (key : String) (root : Members) : Option Members :=
  atPath .implied (fun _ found =>
    match find? found key with
    | none => some (put found key (tables [[]]))
    | some (tables items) => some (put found key (tables (items ++ [[]])))
    | some _ => none) path .header root

end Toml

end TypedSsa

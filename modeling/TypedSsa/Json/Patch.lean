import TypedSsa.Json.Basic
import TypedSsa.Keyed

/-!
Changing a JSON value at a path of keys and positions.
-/

namespace TypedSsa.Json

/-- The last step: a member is set, an item is replaced. In an array `+` appends and `-` drops the
last item. -/
def putAt (v step new : Json) : Option Json :=
  match v, step with
  | obj members, str key => some (obj (putBy Prod.fst members (key, new)))
  | arr items, str "+" => some (arr (items ++ [new]))
  | arr items, str "-" => some (arr items.dropLast)
  | arr items, i => do
    let i ← i.nat? 64
    if i < items.length then some (arr (items.set i new)) else none
  | _, _ => none

/-- Changes what is there one step further. -/
def changeAt (v step : Json) (change : Json → Option Json) : Option Json :=
  match v, step with
  | obj members, str key => do
    let sub ← change (← v.member? key)
    some (obj (putBy Prod.fst members (key, sub)))
  | arr items, i => do
    let i ← i.nat? 64
    some (arr (items.set i (← change (← items[i]?))))
  | _, _ => none

/-- Puts a value at the end of a path, all but the last step of which must be there already. -/
def patch? (new : Json) : List Json → Json → Option Json
  | [], _ => none
  | [step], v => putAt v step new
  | step :: path, v => changeAt v step (patch? new path)

end TypedSsa.Json

/-!
Identifiers of the things a compilation names, and the supply that hands them out.
-/

namespace TypedSsa

/-- What an identifier names; identifiers of different sorts do not mix. -/
inductive Named where
  | node | kind | block | definition | use | typeNode | component
deriving DecidableEq, Repr

def Named.letters : Named → String
  | .node => "n"
  | .kind => "k"
  | .block => "bb"
  | .definition => "d"
  | .use => "u"
  | .typeNode => "t"
  | .component => "scc"

/-- The sort spelled out. -/
def Named.title : Named → String
  | .node => "NodeId"
  | .kind => "KindId"
  | .block => "BlockId"
  | .definition => "DefId"
  | .use => "UseId"
  | .typeNode => "TypeNodeId"
  | .component => "SccId"

structure Ident (s : Named) where
  raw : Nat
deriving DecidableEq, Repr, Hashable

abbrev NodeId := Ident .node
abbrev KindId := Ident .kind
abbrev BlockId := Ident .block
abbrev DefId := Ident .definition
abbrev UseId := Ident .use
abbrev TypeNodeId := Ident .typeNode
abbrev ComponentId := Ident .component

namespace Ident

theorem raw_inj : ∀ x y : Ident s, x.raw = y.raw → x = y
  | ⟨_⟩, ⟨_⟩, h => congrArg mk h

/-- The largest 32-bit number stands for no id at all. -/
def invalidRaw : Nat := 4294967295

def invalid : Ident s := ⟨invalidRaw⟩

instance : Inhabited (Ident s) := ⟨invalid⟩

def isValid (id : Ident s) : Bool :=
  id.raw != invalidRaw

def text (id : Ident s) : String :=
  if id.isValid then s.letters ++ toString id.raw else s.letters ++ "<invalid>"

/-- The id with its sort spelled out. -/
def longText (id : Ident s) : String :=
  s.title ++ "(" ++ toString id.raw ++ ")"

end Ident

/-- Hands out ids in rising order. The counter is a 32-bit word. -/
structure IdSupply (s : Named) where
  counter : Nat := 0
  counter_le : counter ≤ Ident.invalidRaw := by decide

namespace IdSupply

def startingAt (start : Nat) : IdSupply s :=
  ⟨start % (Ident.invalidRaw + 1), Nat.le_of_lt_succ (Nat.mod_lt _ (Nat.succ_pos _))⟩

/-- The next id. With every valid id handed out there is none, and the counter wraps to zero. -/
def next (supply : IdSupply s) : Option (Ident s) × IdSupply s :=
  if h : supply.counter = Ident.invalidRaw then (none, ⟨0, Nat.zero_le _⟩)
  else (some ⟨supply.counter⟩,
    ⟨supply.counter + 1, Nat.succ_le_of_lt (Nat.lt_of_le_of_ne supply.counter_le h)⟩)

def peek (supply : IdSupply s) : Ident s :=
  ⟨supply.counter⟩

/-- No later id can be `id` or one below it. An invalid id changes nothing. -/
def advancePast (supply : IdSupply s) (id : Ident s) : IdSupply s :=
  if id.isValid then
    ⟨max supply.counter (min (id.raw + 1) Ident.invalidRaw),
      Nat.max_le.mpr ⟨supply.counter_le, Nat.min_le_right _ _⟩⟩
  else supply

end IdSupply

end TypedSsa

import TypedSsa.Keyed
import TypedSsa.Ty.Basic

/-!
Result types remembered by signature. A signature that was recorded or computed has a slot of its
own, which stays empty as long as every computation for it fails. Main statements: `get?_record`, a
stored type is what is found, and `getOrComputeM_of_some` and `getOrComputeM_of_none`, a computation
is run just where nothing is stored.
-/

namespace TypedSsa

/-- Names of a program's own functions and names of a rule set's rules are kept apart. -/
inductive SignatureScope where
  | program
  | rules (set : Nat)
deriving DecidableEq, Repr

/-- A callee with the types of its arguments. -/
structure Signature where
  scope : SignatureScope
  callee : String
  args : List Ty
deriving DecidableEq, Repr

structure SignatureCache where
  slots : List (Signature × Option Ty) := []
  slots_nodup : (slots.map (·.1)).Nodup := by exact List.nodup_nil
  hits : Nat := 0
  misses : Nat := 0
deriving Repr

namespace SignatureCache

instance : Inhabited SignatureCache := ⟨{}⟩

def get? (c : SignatureCache) (s : Signature) : Option Ty :=
  (c.slots.find? (·.1 == s)).bind (·.2)

/-- The number of slots that hold a type. -/
def size (c : SignatureCache) : Nat :=
  (c.slots.filter (·.2.isSome)).length

/-- Puts into the slot of a signature. -/
def put (c : SignatureCache) (s : Signature) (ty? : Option Ty) : SignatureCache :=
  { c with
    slots := putBy (·.1) c.slots (s, ty?)
    slots_nodup := nodup_putBy (s, ty?) c.slots_nodup }

/-- Makes an empty slot where there is none. -/
def ensure (c : SignatureCache) (s : Signature) : SignatureCache :=
  if c.slots.any (·.1 == s) then c else c.put s none

/-- Stores a type and answers with the one it replaces. -/
def record (c : SignatureCache) (s : Signature) (ty : Ty) : Option Ty × SignatureCache :=
  let c := c.ensure s
  (c.get? s, c.put s (some ty))

/-- Counts a computation, and stores what it came to unless that is a failure. -/
def learn (c : SignatureCache) (s : Signature) (result : Except ε Ty) : SignatureCache :=
  let c := { c with misses := c.misses + 1 }
  match result with
  | .ok ty => c.put s (some ty)
  | .error _ => c

/-- The stored type, or else the computed one. -/
def getOrComputeM {m : Type → Type} [Monad m] (c : SignatureCache) (s : Signature)
    (compute : Unit → m (Except ε Ty)) : m (Except ε Ty × SignatureCache) := do
  let c := c.ensure s
  match c.get? s with
  | some ty => return (.ok ty, { c with hits := c.hits + 1 })
  | none =>
    let result ← compute ()
    return (result, c.learn s result)

/-- The same for a computation that does nothing but compute. -/
def getOrCompute (c : SignatureCache) (s : Signature) (compute : Unit → Except ε Ty) :
    Except ε Ty × SignatureCache :=
  Id.run (c.getOrComputeM s fun u => pure (compute u))

/-! What a call of a cache comes to. -/

variable {c : SignatureCache} {s s' : Signature} {ty? : Option Ty} {ty : Ty}

theorem get?_put : (c.put s ty?).get? s' = if s = s' then ty? else c.get? s' := by
  by_cases h : s = s'
  · rw [if_pos h, ← h, get?, put, find?_putBy_self (·.1) c.slots (s, ty?)]
    rfl
  · rw [if_neg h, get?, put, find?_putBy_of_ne (·.1) c.slots (s, ty?) (Ne.symm h), get?]

theorem get?_of_no_slot (h : ¬c.slots.any (·.1 == s) = true) : c.get? s = none := by
  have absent : c.slots.find? (·.1 == s) = none := by
    rw [List.find?_eq_none]
    exact fun slot hslot hsame => h (List.any_eq_true.mpr ⟨slot, hslot, hsame⟩)
  rw [get?, absent]
  rfl

/-- An empty slot is not told from none. -/
@[simp] theorem get?_ensure : (c.ensure s).get? s' = c.get? s' := by
  unfold ensure
  split
  · rfl
  · rename_i h
    rw [get?_put]
    split
    · rename_i hsame
      rw [← hsame, get?_of_no_slot h]
    · rfl

@[simp] theorem hits_ensure : (c.ensure s).hits = c.hits := by
  unfold ensure
  split <;> rfl

@[simp] theorem misses_ensure : (c.ensure s).misses = c.misses := by
  unfold ensure
  split <;> rfl

theorem ensure_of_some (h : c.get? s = some ty) : c.ensure s = c := by
  rw [ensure, if_pos]
  apply Classical.byContradiction
  intro hslot
  rw [get?_of_no_slot hslot] at h
  cases h

theorem get?_record (c : SignatureCache) (s s' : Signature) (ty : Ty) :
    (c.record s ty).2.get? s' = if s = s' then some ty else c.get? s' := by
  rw [record, get?_put, get?_ensure]

@[simp] theorem get?_learn_ok :
    (c.learn s (.ok ty : Except ε Ty)).get? s' = if s = s' then some ty else c.get? s' :=
  get?_put

@[simp] theorem get?_learn_error {e : ε} : (c.learn s (.error e)).get? s' = c.get? s' :=
  rfl

@[simp] theorem hits_learn {result : Except ε Ty} : (c.learn s result).hits = c.hits := by
  cases result <;> rfl

@[simp] theorem misses_learn {result : Except ε Ty} :
    (c.learn s result).misses = c.misses + 1 := by
  cases result <;> rfl

theorem getOrComputeM_of_some {m : Type → Type} [Monad m] {compute : Unit → m (Except ε Ty)}
    (h : c.get? s = some ty) :
    c.getOrComputeM s compute = pure (.ok ty, { c with hits := c.hits + 1 }) := by
  rw [getOrComputeM, ensure_of_some h, h]

/-- Where nothing is stored a computation is run, whatever it does besides. -/
theorem getOrComputeM_of_none {m : Type → Type} [Monad m] {compute : Unit → m (Except ε Ty)}
    (h : c.get? s = none) :
    c.getOrComputeM s compute =
      (do let result ← compute (); return (result, (c.ensure s).learn s result)) := by
  rw [getOrComputeM, get?_ensure, h]

theorem getOrCompute_of_some {compute : Unit → Except ε Ty} (h : c.get? s = some ty) :
    c.getOrCompute s compute = (.ok ty, { c with hits := c.hits + 1 }) := by
  rw [getOrCompute, getOrComputeM_of_some h]
  rfl

theorem getOrCompute_of_none {compute : Unit → Except ε Ty} (h : c.get? s = none) :
    c.getOrCompute s compute = (compute (), (c.ensure s).learn s (compute ())) := by
  rw [getOrCompute, getOrComputeM_of_none h]
  rfl

end SignatureCache

end TypedSsa

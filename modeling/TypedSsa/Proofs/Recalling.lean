import Mathlib.Data.Set.Card
import TypedSsa.Proofs.Keys
import TypedSsa.Signature

/-!
A cache of results as a map that is filled once. Main statement: `SignatureCache.run_recalls`. Of
any calls, whatever their computations come to, each is answered from the types stored last, a
computation is run just where none is stored, and the counts are those of the calls.
-/

namespace TypedSsa

variable {ε : Type}

/-- A call of a cache. What a computation comes to is known from outside. -/
inductive CacheCall (ε : Type) where
  | get (s : Signature)
  | record (s : Signature) (ty : Ty)
  | compute (s : Signature) (outcome : Except ε Ty)

/-- What a call is answered, for a computation also how often it was run. -/
inductive CacheAnswer (ε : Type) where
  | found (ty? : Option Ty)
  | replaced (ty? : Option Ty)
  | computed (result : Except ε Ty) (runs : Nat)

namespace CacheCall

/-- Computations count their runs. -/
def run (c : SignatureCache) : CacheCall ε → CacheAnswer ε × SignatureCache
  | .get s => (.found (c.get? s), c)
  | .record s ty => (.replaced (c.record s ty).1, (c.record s ty).2)
  | .compute s outcome =>
    let compute : Unit → StateM Nat (Except ε Ty) := fun _ => do
      modify (· + 1)
      return outcome
    let ((result, c), runs) := (c.getOrComputeM s compute).run 0
    (.computed result runs, c)

/-- What is to be answered where these types are stored. -/
def due (known : Signature → Option Ty) : CacheCall ε → CacheAnswer ε
  | .get s => .found (known s)
  | .record s _ => .replaced (known s)
  | .compute s outcome =>
    match known s with
    | some ty => .computed (.ok ty) 0
    | none => .computed outcome 1

def isCompute : CacheCall ε → Bool
  | .compute _ _ => true
  | _ => false

end CacheCall

def CacheAnswer.runs : CacheAnswer ε → Nat
  | .computed _ runs => runs
  | _ => 0

/-- Calls with their answers, the first one first. -/
abbrev CacheHistory (ε : Type) := List (CacheCall ε × CacheAnswer ε)

/-- The type that a call stored for a signature, if it did. A computation stores what it comes to if
it is run and does not fail. -/
def storedBy? (s : Signature) : CacheCall ε × CacheAnswer ε → Option Ty
  | (.record s' ty, _) => if s' = s then some ty else none
  | (.compute s' _, .computed (.ok ty) runs) => if s' = s ∧ 0 < runs then some ty else none
  | _ => none

/-- The type stored last for a signature. -/
def lastStored? (history : CacheHistory ε) (s : Signature) : Option Ty :=
  (history.filterMap (storedBy? s)).getLast?

theorem lastStored?_concat (history : CacheHistory ε) (s : Signature)
    (entry : CacheCall ε × CacheAnswer ε) :
    lastStored? (history ++ [entry]) s = (storedBy? s entry).or (lastStored? history s) := by
  rw [lastStored?, List.filterMap_append, List.getLast?_append]
  cases h : storedBy? s entry with
  | none =>
    rw [List.filterMap_cons_none h]
    rfl
  | some ty =>
    rw [List.filterMap_cons_some h]
    rfl

namespace CacheCall

variable {c : SignatureCache} {s : Signature} {ty : Ty} {outcome : Except ε Ty}

theorem run_compute_of_some (h : c.get? s = some ty) :
    run c (.compute s outcome) = (.computed (.ok ty) 0, { c with hits := c.hits + 1 }) := by
  rw [run, SignatureCache.getOrComputeM_of_some h]
  rfl

theorem run_compute_of_none (h : c.get? s = none) :
    run c (.compute s outcome) = (.computed outcome 1, (c.ensure s).learn s outcome) := by
  rw [run, SignatureCache.getOrComputeM_of_none h]
  rfl

/-- What one call is answered, what it stores and what it counts. -/
structure Does (c : SignatureCache) (call : CacheCall ε) (answer : CacheAnswer ε)
    (c' : SignatureCache) : Prop where
  due : answer = call.due c.get?
  get : ∀ s, c'.get? s = (storedBy? s (call, answer)).or (c.get? s)
  calls : c'.hits + c'.misses = c.hits + c.misses + if call.isCompute then 1 else 0
  misses : c'.misses = c.misses + answer.runs

theorem run_does (c : SignatureCache) (call : CacheCall ε) :
    Does c call (call.run c).1 (call.run c).2 := by
  cases call with
  | get s => exact ⟨rfl, fun _ => rfl, rfl, rfl⟩
  | record s ty =>
    refine ⟨congrArg CacheAnswer.replaced SignatureCache.get?_ensure, fun s' => ?_, ?_, ?_⟩
    · rw [run, SignatureCache.get?_record, storedBy?]
      split <;> rfl
    · simp [run, SignatureCache.record, SignatureCache.put, isCompute]
    · simp [run, SignatureCache.record, SignatureCache.put, CacheAnswer.runs]
  | compute s outcome =>
    cases hget : c.get? s with
    | some ty =>
      rw [run_compute_of_some hget]
      refine ⟨?_, fun s' => ?_, ?_, rfl⟩
      · rw [due, hget]
      · simp [storedBy?, SignatureCache.get?]
      · simp only [isCompute, if_true]
        omega
    | none =>
      rw [run_compute_of_none hget]
      refine ⟨?_, fun s' => ?_, ?_, ?_⟩
      · rw [due, hget]
      · cases outcome with
        | error e => simp [storedBy?]
        | ok ty =>
          rw [SignatureCache.get?_learn_ok, SignatureCache.get?_ensure, storedBy?]
          simp only [Nat.zero_lt_one, and_true]
          split <;> rfl
      · simp [isCompute]
        omega
      · simp [CacheAnswer.runs]

end CacheCall

namespace SignatureCache

variable {c : SignatureCache}

/-- Calls one after the other. -/
def run (c : SignatureCache) : List (CacheCall ε) → CacheHistory ε × SignatureCache
  | [] => ([], c)
  | call :: calls =>
    let (answer, c) := call.run c
    let (history, c) := c.run calls
    ((call, answer) :: history, c)

/-- The size counts the signatures with a stored type, not those with a slot. -/
theorem encard_stored (c : SignatureCache) : {s | c.get? s ≠ none}.encard = c.size := by
  let filled := (c.slots.filter (·.2.isSome)).map (·.1)
  have hnodup : filled.Nodup := (List.filter_sublist.map _).nodup c.slots_nodup
  have hmem : ∀ s, s ∈ filled ↔ c.get? s ≠ none := by
    intro s
    simp only [filled, List.mem_map, List.mem_filter, get?]
    constructor
    · rintro ⟨slot, ⟨hslot, hsome⟩, rfl⟩
      rw [find?_of_nodup c.slots_nodup hslot]
      simpa [Option.isSome_iff_ne_none] using hsome
    · intro hsome
      cases hfind : c.slots.find? (·.1 == s) with
      | none => simp [hfind] at hsome
      | some slot =>
        rw [hfind] at hsome
        exact ⟨slot, ⟨List.mem_of_find?_eq_some hfind, Option.isSome_iff_ne_none.mpr hsome⟩,
          by simpa using List.find?_some hfind⟩
  have hset : {s | c.get? s ≠ none} = filled.toFinset := by
    ext s
    rw [Set.mem_ofPred_eq, ← hmem]
    simp
  rw [hset, Set.encard_coe_eq_coe_finsetCard, List.toFinset_card_of_nodup hnodup, size]
  simp [filled]

/-- What a cache has after some calls. -/
structure Recalls (past : CacheHistory ε) (c : SignatureCache) : Prop where
  get : ∀ s, c.get? s = lastStored? past s
  due : ∀ before call answer after, past = before ++ (call, answer) :: after →
    answer = call.due (lastStored? before)
  calls : c.hits + c.misses = past.countP (·.1.isCompute)
  misses : c.misses = (past.map (·.2.runs)).sum

theorem recalls_new : Recalls ([] : CacheHistory ε) {} :=
  ⟨fun _ => rfl, fun _ _ _ _ h => absurd h (by simp), rfl, rfl⟩

/-- One more call. -/
theorem Recalls.call {past : CacheHistory ε} (h : Recalls past c) (call : CacheCall ε) :
    Recalls (past ++ [(call, (call.run c).1)]) (call.run c).2 := by
  have does := call.run_does c
  have hlast : c.get? = lastStored? past := funext h.get
  refine ⟨fun s => ?_, fun before called answer after hsplit => ?_, ?_, ?_⟩
  · rw [does.get, lastStored?_concat, h.get]
  · rcases List.eq_nil_or_concat' after with rfl | ⟨after, entry, rfl⟩
    · obtain ⟨rfl, hentry⟩ := List.append_inj' hsplit rfl
      obtain ⟨rfl, rfl⟩ := Prod.mk.inj (List.singleton_inj.mp hentry)
      rw [← hlast]
      exact does.due
    · rw [← List.cons_append, ← List.append_assoc] at hsplit
      exact h.due before called answer after (List.append_inj' hsplit rfl).1
  · rw [does.calls, h.calls, List.countP_append, List.countP_singleton]
  · rw [does.misses, h.misses, List.map_append, List.sum_append, List.map_singleton,
      List.sum_singleton]

theorem Recalls.run {past : CacheHistory ε} (h : Recalls past c) (calls : List (CacheCall ε)) :
    Recalls (past ++ (c.run calls).1) (c.run calls).2 := by
  induction calls generalizing past c with
  | nil =>
    rw [SignatureCache.run, List.append_nil]
    exact h
  | cons call calls ih =>
    have rest := ih (h.call call)
    rwa [List.append_assoc] at rest

theorem map_run (c : SignatureCache) (calls : List (CacheCall ε)) :
    (c.run calls).1.map (·.1) = calls := by
  induction calls generalizing c with
  | nil => rfl
  | cons call calls ih => exact congrArg (call :: ·) (ih _)

/-- Whatever calls are made of a new cache, each is answered as it is due: from what was stored last
for the very signature, and a computation is run, once, just where nothing is stored. What is found
afterwards is what was stored last, and the size is the number of signatures with a stored type. The
misses are the computations that were run, the hits the other calls for one. -/
theorem run_recalls (calls : List (CacheCall ε)) :
    let (history, c) := run {} calls
    history.map (·.1) = calls ∧
      (∀ before call answer after, history = before ++ (call, answer) :: after →
        answer = call.due (lastStored? before)) ∧
      (∀ s, c.get? s = lastStored? history s) ∧
      {s | lastStored? history s ≠ none}.encard = c.size ∧
      c.hits + c.misses = calls.countP CacheCall.isCompute ∧
      c.misses = (history.map (·.2.runs)).sum := by
  have h := recalls_new.run calls
  rw [List.nil_append] at h
  refine ⟨map_run _ _, h.due, h.get, ?_, ?_, h.misses⟩
  · simp only [← h.get]
    exact encard_stored _
  · rw [h.calls]
    conv_rhs => rw [← map_run {} calls, List.countP_map]
    rfl

end SignatureCache

end TypedSsa

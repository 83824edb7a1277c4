import TypedSsa.Ident

/-!
Ids from one supply. Main statement: `run_unrepeated_iff`. Ids rise from call to call, so that none
is handed out again and none is at or below one that the supply was advanced past, until a call
finds the supply exhausted. The supply then starts over at zero, and only ids from before such a
call and from after it can clash.
-/

namespace TypedSsa

/-- A call on a supply. -/
inductive SupplyCall (s : Named) where
  | next
  | advancePast (id : Ident s)

/-- What comes of a call. -/
inductive SupplyEvent (s : Named) where
  | issued (id : Ident s)
  | exhausted
  | passed (id : Ident s)
deriving DecidableEq

namespace SupplyEvent

/-- A later id differs from an earlier one, and is above a valid one that was passed. -/
def Clear : SupplyEvent s → SupplyEvent s → Prop
  | issued a, issued b => a ≠ b
  | passed a, issued b => a.raw < Ident.invalidRaw → a.raw < b.raw
  | _, _ => True

theorem clear_of_not_issued {e e' : SupplyEvent s} (h : ∀ id, e' ≠ issued id) : e.Clear e' := by
  cases e' with
  | issued id => exact absurd rfl (h id)
  | exhausted | passed => cases e <;> trivial

/-- All ids handed out are valid, and each is clear of all that was before. -/
structure Unrepeated (events : List (SupplyEvent s)) : Prop where
  valid : ∀ id, issued id ∈ events → id.raw < Ident.invalidRaw
  clear : events.Pairwise Clear

end SupplyEvent

namespace IdSupply

open SupplyEvent

variable {s : Named}

def call (supply : IdSupply s) : SupplyCall s → SupplyEvent s × IdSupply s
  | .next =>
    match supply.next with
    | (some id, supply) => (issued id, supply)
    | (none, supply) => (exhausted, supply)
  | .advancePast id => (passed id, supply.advancePast id)

/-- What comes of one call after the other. -/
def run (supply : IdSupply s) : List (SupplyCall s) → List (SupplyEvent s)
  | [] => []
  | c :: calls => (supply.call c).1 :: (supply.call c).2.run calls

theorem next_cases (supply : IdSupply s) :
    (supply.counter < Ident.invalidRaw ∧ (supply.call .next).1 = issued ⟨supply.counter⟩ ∧
      (supply.call .next).2.counter = supply.counter + 1) ∨
    (supply.call .next).1 = exhausted ∧ (supply.call .next).2 = startingAt 0 := by
  by_cases h : supply.counter = Ident.invalidRaw
  · exact .inr (by simp [call, next, h, startingAt])
  · have hle := supply.counter_le
    exact .inl ⟨by omega, by simp [call, next, h]⟩

theorem counter_advancePast (supply : IdSupply s) {id : Ident s}
    (h : id.raw < Ident.invalidRaw) : id.raw < (supply.advancePast id).counter := by
  have hvalid : id.isValid = true := bne_iff_ne.mpr (by omega)
  simp only [advancePast, hvalid, if_true]
  omega

theorem counter_le_advancePast (supply : IdSupply s) (id : Ident s) :
    supply.counter ≤ (supply.advancePast id).counter := by
  unfold advancePast
  split
  · exact Nat.le_max_left _ _
  · exact Nat.le_refl _

/-- The counter goes back only where the supply is exhausted. -/
theorem counter_le_call (supply : IdSupply s) {c : SupplyCall s}
    (h : (supply.call c).1 ≠ exhausted) : supply.counter ≤ (supply.call c).2.counter := by
  cases c with
  | next =>
    rcases supply.next_cases with ⟨-, -, hcounter⟩ | ⟨hout, -⟩
    · omega
    · exact absurd hout h
  | advancePast id => exact supply.counter_le_advancePast id

/-- Any id from the counter on is clear of what a call gives. -/
theorem clear_of_counter_le (supply : IdSupply s) {c : SupplyCall s} {id : Ident s}
    (hout : (supply.call c).1 ≠ exhausted) (h : (supply.call c).2.counter ≤ id.raw) :
    (supply.call c).1.Clear (issued id) := by
  cases c with
  | next =>
    rcases supply.next_cases with ⟨-, hissued, hcounter⟩ | ⟨hexhausted, -⟩
    · rw [hissued]
      rintro rfl
      rw [hcounter] at h
      exact Nat.not_succ_le_self _ h
    · exact absurd hexhausted hout
  | advancePast a => exact fun hvalid => Nat.lt_of_lt_of_le (supply.counter_advancePast hvalid) h

/-- Until the supply is exhausted all ids are from the counter on. -/
theorem counter_le_issued (calls : List (SupplyCall s)) (supply : IdSupply s)
    {before after : List (SupplyEvent s)} {id : Ident s}
    (hrun : supply.run calls = before ++ issued id :: after) (hout : exhausted ∉ before) :
    supply.counter ≤ id.raw := by
  induction calls generalizing supply before with
  | nil => cases before <;> cases hrun
  | cons c calls ih =>
    rw [run] at hrun
    cases before with
    | nil =>
      obtain ⟨hissued, -⟩ := List.cons.inj hrun
      cases c with
      | next =>
        rcases supply.next_cases with ⟨-, hid, -⟩ | ⟨hexhausted, -⟩
        · cases hid.symm.trans hissued
          exact Nat.le_refl _
        · cases hexhausted.symm.trans hissued
      | advancePast a => cases hissued
    | cons e before =>
      obtain ⟨rfl, hrest⟩ := List.cons.inj hrun
      rw [List.mem_cons, not_or] at hout
      exact Nat.le_trans (supply.counter_le_call (Ne.symm hout.1)) (ih _ hrest hout.2)

theorem issued_valid (calls : List (SupplyCall s)) (supply : IdSupply s) {id : Ident s}
    (h : issued id ∈ supply.run calls) : id.raw < Ident.invalidRaw := by
  induction calls generalizing supply with
  | nil => cases h
  | cons c calls ih =>
    rcases List.mem_cons.mp h with hid | h
    · cases c with
      | next =>
        rcases supply.next_cases with ⟨hlt, hissued, -⟩ | ⟨hexhausted, -⟩
        · cases hid.trans hissued
          exact hlt
        · cases hid.trans hexhausted
      | advancePast a => cases hid
    · exact ih _ h

/-- An exhausted supply starts over. -/
theorem run_exhausted (calls : List (SupplyCall s)) (supply : IdSupply s)
    {before after : List (SupplyEvent s)} (hrun : supply.run calls = before ++ exhausted :: after) :
    ∃ later, after = (startingAt 0).run later := by
  induction calls generalizing supply before with
  | nil => cases before <;> cases hrun
  | cons c calls ih =>
    rw [run] at hrun
    cases before with
    | nil =>
      obtain ⟨hexhausted, rfl⟩ := List.cons.inj hrun
      cases c with
      | next =>
        rcases supply.next_cases with ⟨-, hissued, -⟩ | ⟨-, hstart⟩
        · cases hissued.symm.trans hexhausted
        · exact ⟨calls, by rw [hstart]⟩
      | advancePast a => cases hexhausted
    | cons e before => exact ih _ (List.cons.inj hrun).2

/-- Ids that no exhausted call stands between are clear of each other. -/
theorem run_clear (calls : List (SupplyCall s)) (supply : IdSupply s)
    (hacross : ∀ before after, supply.run calls = before ++ exhausted :: after →
      ∀ e ∈ before, ∀ e' ∈ after, e.Clear e') : (supply.run calls).Pairwise Clear := by
  induction calls generalizing supply with
  | nil => exact .nil
  | cons c calls ih =>
    refine List.pairwise_cons.mpr ⟨fun e' he' => ?_, ih _ fun before after hrun e he =>
      hacross ((supply.call c).1 :: before) after (by rw [run, hrun]; rfl) e
        (List.mem_cons_of_mem _ he)⟩
    cases hnext : (supply.call c).1 with
    | exhausted => trivial
    | issued | passed =>
      rw [← hnext]
      cases e' with
      | exhausted | passed => exact clear_of_not_issued nofun
      | issued id =>
        obtain ⟨before, after, hrun⟩ := List.append_of_mem he'
        by_cases hout : exhausted ∈ before
        · -- another call has found the supply exhausted in between
          obtain ⟨first, last, rfl⟩ := List.append_of_mem hout
          exact hacross ((supply.call c).1 :: first) (last ++ issued id :: after)
            (by rw [run, hrun]; simp) _ List.mem_cons_self _ (by simp)
        · exact supply.clear_of_counter_le (by rw [hnext]; nofun)
            (counter_le_issued calls _ hrun hout)

/-- Every id is valid, new, and above the valid ids that were passed before, just when this is so of
those from before and from after a call that found the supply exhausted, for it then starts over. -/
theorem run_unrepeated_iff (supply : IdSupply s) (calls : List (SupplyCall s)) :
    (Unrepeated (supply.run calls) ↔
      ∀ before after, supply.run calls = before ++ exhausted :: after →
        ∀ e ∈ before, ∀ e' ∈ after, e.Clear e') ∧
    ∀ before after, supply.run calls = before ++ exhausted :: after →
      ∃ later, after = (startingAt 0).run later := by
  refine ⟨⟨fun h before after hrun e he e' he' => ?_, fun hacross =>
    ⟨fun id hid => issued_valid calls supply hid, run_clear calls supply hacross⟩⟩,
    fun before after => run_exhausted calls supply⟩
  have hclear := h.clear
  rw [hrun] at hclear
  exact (List.pairwise_append.mp hclear).2.2 e he e' (List.mem_cons_of_mem _ he')

/-- After the last valid id comes none, and then zero, which has been handed out before. -/
example : (startingAt (s := .node) 0).run
    [.next, .advancePast ⟨4294967294⟩, .next, .next] =
      [issued ⟨0⟩, passed ⟨4294967294⟩, exhausted, issued ⟨0⟩] := by decide

end IdSupply

end TypedSsa

import Mathlib.Data.List.Nodup
import TypedSsa.Keyed

/-!
Lists whose items have different keys. To put such items one after another, or to collect them by
key, changes nothing.
-/

namespace TypedSsa

variable {α κ : Type} [BEq κ] {key : α → κ} {xs : List α}

theorem mem_putBy {x y : α} (h : y ∈ putBy key xs x) : y = x ∨ y ∈ xs := by
  unfold putBy at h
  split at h
  · obtain ⟨z, hz, rfl⟩ := List.mem_map.mp h
    split
    · exact .inl rfl
    · exact .inr hz
  · exact (List.mem_append.mp h).symm.imp_left List.mem_singleton.mp

theorem mem_foldl_putBy {y : α} (h : y ∈ xs.foldl (putBy key) []) : y ∈ xs := by
  suffices ∀ (xs zs : List α), y ∈ xs.foldl (putBy key) zs → y ∈ zs ∨ y ∈ xs from
    (this xs [] h).resolve_left List.not_mem_nil
  intro xs
  induction xs with
  | nil => exact fun zs h => .inl h
  | cons x xs ih =>
    intro zs h
    rcases ih _ h with h | h
    · exact (mem_putBy h).elim (fun h => .inr (h ▸ List.mem_cons_self)) .inl
    · exact .inr (List.mem_cons_of_mem x h)

variable [LawfulBEq κ]

theorem nodup_foldl_putBy (key : α → κ) (xs : List α) :
    ((xs.foldl (putBy key) []).map key).Nodup := by
  suffices ∀ ys : List α, (ys.map key).Nodup → ((xs.foldl (putBy key) ys).map key).Nodup from
    this [] List.nodup_nil
  induction xs with
  | nil => exact fun _ h => h
  | cons x xs ih => exact fun ys h => ih _ (nodup_putBy x h)

theorem foldl_putBy_append : ∀ {xs ys : List α}, ((ys ++ xs).map key).Nodup →
    xs.foldl (putBy key) ys = ys ++ xs
  | [], ys, _ => (List.append_nil ys).symm
  | x :: xs, ys, h => by
    have hnew : ys.any (key · == key x) = false := by
      rw [List.map_append, List.map_cons, List.nodup_middle, List.nodup_cons] at h
      rw [← Bool.not_eq_true, any_key_iff]
      exact fun hmem => h.1 (List.mem_append_left _ hmem)
    rw [List.append_cons] at h
    rw [List.foldl_cons, putBy_of_absent key ys x hnew, foldl_putBy_append h, ← List.append_cons]

/-- An item whose key no other has is found after all have been put. -/
theorem mem_foldl_putBy_of_count {x : α} (hx : x ∈ xs) (hcount : (xs.map key).count (key x) ≤ 1) :
    x ∈ xs.foldl (putBy key) [] := by
  have kept : ∀ (xs zs : List α), key x ∉ xs.map key → x ∈ zs → x ∈ xs.foldl (putBy key) zs := by
    intro xs
    induction xs with
    | nil => exact fun _ _ h => h
    | cons y xs ih =>
      intro zs hkey hzs
      rw [List.map_cons, List.mem_cons, not_or] at hkey
      refine ih _ hkey.2 ?_
      unfold putBy
      split
      · refine List.mem_map.mpr ⟨x, hzs, if_neg ?_⟩
        exact fun hsame => hkey.1 (eq_of_beq hsame)
      · exact List.mem_append_left _ hzs
  suffices ∀ (xs zs : List α), x ∈ xs → (xs.map key).count (key x) ≤ 1 →
      x ∈ xs.foldl (putBy key) zs from this xs [] hx hcount
  intro xs
  induction xs with
  | nil => exact nofun
  | cons y xs ih =>
    intro zs hx hcount
    by_cases hrest : x ∈ xs
    · refine ih _ hrest (Nat.le_trans ?_ hcount)
      rw [List.map_cons]
      exact List.count_le_count_cons
    · obtain rfl := (List.mem_cons.mp hx).resolve_right hrest
      rw [List.map_cons, List.count_cons_self] at hcount
      refine kept xs _ (List.count_eq_zero.mp (by omega)) ?_
      exact List.mem_of_find?_eq_some (find?_putBy_self key zs x)

/-- To put items with different keys one after another is to list them. -/
theorem foldl_putBy_eq_self (h : (xs.map key).Nodup) : xs.foldl (putBy key) [] = xs :=
  foldl_putBy_append (show (([] ++ xs).map key).Nodup from h)

theorem find?_of_nodup (h : (xs.map key).Nodup) {x : α} (hx : x ∈ xs) :
    xs.find? (key · == key x) = some x := by
  cases hfind : xs.find? (key · == key x) with
  | none => exact absurd (beq_self_eq_true (key x)) (List.find?_eq_none.mp hfind x hx)
  | some y =>
    have hfound := List.find?_some hfind
    rw [beq_iff_eq] at hfound
    rw [List.inj_on_of_nodup_map h (List.mem_of_find?_eq_some hfind) hx hfound]

/-- What is found near a place has the key. -/
theorem findNear?_map {α κ : Type} [BEq κ] {key : α → κ} {f : α → α} (hf : ∀ x, key (f x) = key x)
    (place : Nat) (xs : Array α) (k : κ) :
    findNear? key place (xs.map f) k = (findNear? key place xs k).map f := by
  have hfind : (xs.map f).find? (key · == k) = (xs.find? (key · == k)).map f := by
    rw [Array.find?_map]
    refine congrArg (Option.map f) (congrArg (Array.find? · xs) (funext fun x => ?_))
    rw [Function.comp_apply, hf]
  rw [findNear?, findNear?, Array.getElem?_map, hfind]
  cases xs[place]? with
  | none => rfl
  | some x =>
    rw [Option.map_some]
    dsimp only
    rw [hf]
    split
    · rfl
    · rfl

theorem mem_of_findNear? {α κ : Type} [BEq κ] [LawfulBEq κ] {key : α → κ} {place : Nat}
    {xs : Array α} {k : κ} {x : α} (h : findNear? key place xs k = some x) :
    x ∈ xs ∧ key x = k := by
  have hsearch : xs.find? (key · == k) = some x → x ∈ xs ∧ key x = k := by
    intro h
    have hkey := Array.find?_some h
    exact ⟨Array.mem_of_find?_eq_some h, eq_of_beq hkey⟩
  unfold findNear? at h
  split at h
  · rename_i y hy
    split at h
    · rename_i hkey
      cases h
      exact ⟨Array.mem_of_getElem? hy, eq_of_beq hkey⟩
    · exact hsearch h
  · exact hsearch h

/-! Collecting by key. -/

section Collecting

variable [Hashable κ]

theorem mem_map_firstsBy {k : κ} : k ∈ (firstsBy key xs).map key ↔ k ∈ xs.map key := by
  suffices ∀ (seen : Std.HashSet κ) (firsts : List α), (∀ k, k ∈ seen ↔ k ∈ firsts.map key) →
      (k ∈ (xs.foldl (fun s x => if key x ∈ s.1 then s else (s.1.insert (key x), x :: s.2))
        (seen, firsts)).2.map key ↔ k ∈ firsts.map key ∨ k ∈ xs.map key) by
    refine Iff.trans ?_ ((this ∅ [] (by simp)).trans (by simp))
    rw [List.mem_map, List.mem_map]
    exact exists_congr fun x => and_congr_left fun _ => List.mem_reverse
  induction xs with
  | nil => simp
  | cons y ys ih =>
    intro seen firsts hseen
    rw [List.foldl_cons, List.map_cons, List.mem_cons]
    by_cases hy : key y ∈ seen
    · have hmem := (hseen (key y)).mp hy
      simp only [if_pos hy]
      rw [ih seen firsts hseen]
      constructor
      · exact fun h => h.imp_right .inr
      · rintro (h | rfl | h)
        · exact .inl h
        · exact .inl hmem
        · exact .inr h
    · simp only [if_neg hy]
      rw [ih, List.map_cons, List.mem_cons, or_assoc, or_left_comm]
      intro k
      rw [Std.HashSet.mem_insert, hseen, List.map_cons, List.mem_cons, beq_iff_eq, eq_comm]

theorem mem_firstsBy (hkey : ∀ x y, key x = key y → x = y) {x : α} :
    x ∈ firstsBy key xs ↔ x ∈ xs := by
  rw [← List.mem_map_of_injective (f := key) hkey, mem_map_firstsBy,
    List.mem_map_of_injective hkey]

theorem firstsBy_eq_self (h : (xs.map key).Nodup) : firstsBy key xs = xs := by
  suffices ∀ (seen : Std.HashSet κ) (firsts : List α), (∀ x ∈ xs, key x ∉ seen) →
      (xs.foldl (fun s x => if key x ∈ s.1 then s else (s.1.insert (key x), x :: s.2))
        (seen, firsts)).2 = xs.reverse ++ firsts by
    have hfirsts := this ∅ [] (fun _ _ => Std.HashSet.not_mem_empty)
    exact (congrArg List.reverse hfirsts).trans (by rw [List.append_nil, List.reverse_reverse])
  induction xs with
  | nil => exact fun _ _ _ => rfl
  | cons x xs ih =>
    intro seen firsts hseen
    rw [List.map_cons, List.nodup_cons] at h
    have hx : key x ∉ seen := hseen x List.mem_cons_self
    simp only [List.foldl_cons, if_neg hx]
    rw [ih h.2, List.reverse_cons, List.append_assoc, List.singleton_append]
    intro y hy hmem
    rw [Std.HashSet.mem_insert, beq_iff_eq] at hmem
    rcases hmem with hsame | hmem
    · exact h.1 (hsame ▸ List.mem_map_of_mem hy)
    · exact hseen y (List.mem_cons_of_mem x hy) hmem

theorem getD_foldl_insert [LawfulHashable κ] (h : (xs.map key).Nodup) {x : α} (hx : x ∈ xs) :
    (xs.foldl (fun m x => m.insert (key x) x) (∅ : Std.HashMap κ α)).getD (key x) x = x := by
  suffices ∀ m : Std.HashMap κ α, x ∈ xs ∨ key x ∉ xs.map key ∧ m.getD (key x) x = x →
      (xs.foldl (fun m x => m.insert (key x) x) m).getD (key x) x = x from this ∅ (.inl hx)
  clear hx
  induction xs with
  | nil => exact fun m hx => (hx.resolve_left List.not_mem_nil).2
  | cons y ys ih =>
    intro m hx
    rw [List.map_cons, List.nodup_cons] at h
    rw [List.foldl_cons]
    refine ih h.2 _ ?_
    rw [List.mem_cons, List.map_cons, List.mem_cons, not_or] at hx
    rcases hx with (rfl | hx) | ⟨⟨hne, hnew⟩, hlast⟩
    · exact .inr ⟨h.1, by rw [Std.HashMap.getD_insert_self]⟩
    · exact .inl hx
    · refine .inr ⟨hnew, ?_⟩
      rw [Std.HashMap.getD_insert, if_neg (fun hsame => hne (eq_of_beq hsame).symm), hlast]

theorem collectBy_eq_self [LawfulHashable κ] (h : (xs.map key).Nodup) : collectBy key xs = xs := by
  rw [collectBy, firstsBy_eq_self h]
  exact (List.map_congr_left (fun x hx => getD_foldl_insert h hx)).trans (List.map_id xs)

end Collecting

end TypedSsa

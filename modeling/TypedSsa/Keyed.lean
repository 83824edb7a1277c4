import Std.Data.HashMap
import Std.Data.HashSet

/-!
Lists and arrays whose items are known by a key. Main statements: what is put is found, putting
changes nothing under other keys and keeps the keys apart, and a guess of the place and an index
find what a search finds.
-/

namespace TypedSsa

variable {α κ : Type} [BEq κ]

/-- Puts an item in the place of one with its key, or at the end. -/
def putBy (key : α → κ) (xs : List α) (x : α) : List α :=
  if xs.any (key · == key x) then xs.map (fun y => if key y == key x then x else y)
  else xs ++ [x]

/-- The first occurrence of each item. -/
def distinct (xs : List κ) : List κ :=
  xs.foldl (fun seen x => if seen.contains x then seen else seen ++ [x]) []

theorem find?_putBy_self [LawfulBEq κ] (key : α → κ) (xs : List α) (x : α) :
    (putBy key xs x).find? (key · == key x) = some x := by
  unfold putBy
  split
  · rename_i found
    obtain ⟨y, mem, same⟩ := List.any_eq_true.mp found
    induction xs with
    | nil => cases mem
    | cons z zs ih =>
      by_cases h : (key z == key x) = true
      · simp [h]
      · have mem' : y ∈ zs := by
          rcases List.mem_cons.mp mem with rfl | m
          · exact absurd same h
          · exact m
        have ih' := ih (List.any_eq_true.mpr ⟨y, mem', same⟩) mem'
        simpa [h] using ih'
  · rename_i new
    have none : xs.find? (key · == key x) = none := by
      rw [List.find?_eq_none]
      intro y mem same
      exact new (List.any_eq_true.mpr ⟨y, mem, same⟩)
    simp [List.find?_append, none]

theorem find?_putBy_of_ne [LawfulBEq κ] (key : α → κ) (xs : List α) (x : α) {k : κ}
    (ne : k ≠ key x) : (putBy key xs x).find? (key · == k) = xs.find? (key · == k) := by
  have off : (key x == k) = false := by simpa using fun h => ne h.symm
  unfold putBy
  split
  · rename_i found
    clear found
    induction xs with
    | nil => rfl
    | cons z zs ih =>
      by_cases h : (key z == key x) = true
      · have hz : (key z == k) = false := by
          rw [eq_of_beq h]
          exact off
        simpa [h, off, hz, List.find?_cons] using ih
      · by_cases hk : (key z == k) = true
        · simp [h, hk]
        · simpa [h, hk, List.find?_cons] using ih
  · simp [List.find?_append, off]

theorem putBy_of_absent (key : α → κ) (xs : List α) (x : α)
    (absent : xs.any (key · == key x) = false) : putBy key xs x = xs ++ [x] := by
  simp [putBy, absent]

theorem putBy_length (key : α → κ) (xs : List α) (x : α) :
    (putBy key xs x).length = xs.length + if xs.any (key · == key x) then 0 else 1 := by
  unfold putBy
  split <;> simp

theorem any_putBy [LawfulBEq κ] (key : α → κ) (xs : List α) (x : α) (k : κ) :
    (putBy key xs x).any (key · == k) = (xs.any (key · == k) || key x == k) := by
  unfold putBy
  split
  · rename_i found
    have same (y : α) : (key (if key y == key x then x else y) == k) = (key y == k) := by
      split
      · rename_i h
        rw [eq_of_beq h]
      · rfl
    simp only [List.any_map, Function.comp_def, same]
    cases hk : key x == k
    · simp
    · rw [← eq_of_beq hk, found]
      rfl
  · simp

theorem any_key_iff [LawfulBEq κ] {key : α → κ} {xs : List α} {k : κ} :
    xs.any (key · == k) = true ↔ k ∈ xs.map key := by
  rw [List.any_eq_true, List.mem_map]
  exact exists_congr (fun x => and_congr_right (fun _ => beq_iff_eq))

theorem map_putBy [LawfulBEq κ] (key : α → κ) (xs : List α) (x : α) : (putBy key xs x).map key =
    if xs.any (key · == key x) then xs.map key else xs.map key ++ [key x] := by
  unfold putBy
  split
  · rw [List.map_map]
    refine List.map_congr_left (fun y _ => ?_)
    rw [Function.comp_apply]
    split
    · rename_i h
      exact (eq_of_beq h).symm
    · rfl
  · rw [List.map_append, List.map_singleton]

/-- Putting keeps the keys apart. -/
theorem nodup_putBy [LawfulBEq κ] {key : α → κ} {xs : List α} (x : α)
    (h : (xs.map key).Nodup) : ((putBy key xs x).map key).Nodup := by
  rw [map_putBy]
  split
  · exact h
  · rename_i hnew
    refine List.nodup_append.mpr ⟨h, by simp, fun k hk k' hk' => ?_⟩
    rw [List.mem_singleton.mp hk']
    rintro rfl
    exact hnew (any_key_iff.mpr hk)

/-! Arrays whose items mostly stand at the place that their key tells. -/

/-- The first item of a key, for which one place is tried before a search. -/
def findNear? (key : α → κ) (place : Nat) (xs : Array α) (k : κ) : Option α :=
  match xs[place]? with
  | some x => if key x == k then some x else xs.find? (key · == k)
  | none => xs.find? (key · == k)

theorem findNear?_eq_find? [LawfulBEq κ] (key : α → κ) (place : Nat) (xs : Array α) (k : κ)
    (unique : ∀ x ∈ xs, ∀ y ∈ xs, key x = key y → x = y) :
    findNear? key place xs k = xs.find? (key · == k) := by
  unfold findNear?
  split
  · rename_i x at_place
    split
    · rename_i same
      have mem : x ∈ xs := Array.mem_of_getElem? at_place
      cases found : xs.find? (key · == k) with
      | none => exact absurd same (Array.find?_eq_none.mp found x mem)
      | some y =>
        have here := Array.find?_some found
        rw [unique x mem y (Array.mem_of_find?_eq_some found)
          ((eq_of_beq same).trans (eq_of_beq here).symm)]
    · rfl
  · rfl

/-- Changes the items of a key, of which there is no more than one. -/
def modifyNear (key : α → κ) (place : Nat) (xs : Array α) (k : κ) (change : α → α) : Array α :=
  if ((xs[place]?).map (key · == k)).getD false then xs.modify place change
  else xs.map (fun x => if key x == k then change x else x)

theorem modifyNear_eq_map (key : α → κ) (place : Nat) (xs : Array α) (k : κ) (change : α → α)
    (unique : ∀ i j, ∀ (hi : i < xs.size) (hj : j < xs.size),
      key xs[i] == k → key xs[j] == k → i = j) :
    modifyNear key place xs k change = xs.map (fun x => if key x == k then change x else x) := by
  unfold modifyNear
  split
  · rename_i same
    apply Array.ext
    · simp
    · intro i hi _
      have hi : i < xs.size := by simpa using hi
      have hp : place < xs.size := by
        by_cases h : place < xs.size
        · exact h
        · simp [h] at same
      have same : (key xs[place] == k) = true := by simpa [hp] using same
      rw [Array.getElem_modify, Array.getElem_map]
      by_cases h : place = i
      · subst h
        simp [same]
      · have other : (key xs[i] == k) = false := by
          cases he : key xs[i] == k
          · rfl
          · exact absurd (unique place i hp hi same he) h
        simp [h, other]
  · rfl

/-! Indexes, for many lookups in one list. -/

variable [Hashable κ]

/-- Of two items with one key the first is found. -/
def indexBy (key : α → κ) (xs : List α) : Std.HashMap κ α :=
  xs.foldr (fun x m => m.insert (key x) x) {}

/-- The items of each key, in their order. -/
def groupBy (key : α → κ) (xs : List α) : Std.HashMap κ (List α) :=
  xs.foldr (fun x m => m.insert (key x) (x :: m.getD (key x) [])) {}

/-- The first item of each key. -/
def firstsBy (key : α → κ) (xs : List α) : List α :=
  (xs.foldl (fun (seen, firsts) x =>
    if key x ∈ seen then (seen, firsts) else (seen.insert (key x), x :: firsts))
    ((∅ : Std.HashSet κ), [])).2.reverse

/-- The last item of each key, in the place of the first. -/
def collectBy (key : α → κ) (xs : List α) : List α :=
  let latest : Std.HashMap κ α := xs.foldl (fun m x => m.insert (key x) x) {}
  (firstsBy key xs).map (fun x => latest.getD (key x) x)

variable [EquivBEq κ] [LawfulHashable κ]

theorem getElem?_indexBy (key : α → κ) (xs : List α) (k : κ) :
    (indexBy key xs)[k]? = xs.find? (key · == k) := by
  induction xs with
  | nil => simp [indexBy]
  | cons x xs ih =>
    have step : (indexBy key (x :: xs))[k]? =
        if key x == k then some x else (indexBy key xs)[k]? :=
      Std.HashMap.getElem?_insert
    rw [step, ih, List.find?_cons]
    by_cases h : (key x == k) = true <;> simp [h]

theorem getD_groupBy (key : α → κ) (xs : List α) (k : κ) :
    (groupBy key xs).getD k [] = xs.filter (key · == k) := by
  induction xs with
  | nil => simp [groupBy]
  | cons x xs ih =>
    have step : (groupBy key (x :: xs)).getD k [] =
        if key x == k then x :: (groupBy key xs).getD (key x) []
        else (groupBy key xs).getD k [] :=
      Std.HashMap.getD_insert
    rw [step]
    by_cases h : (key x == k) = true
    · rw [if_pos h, Std.HashMap.getD_congr h, ih, List.filter_cons, if_pos h]
    · rw [if_neg h, ih, List.filter_cons, if_neg h]

end TypedSsa

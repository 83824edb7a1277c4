import TypedSsa.Proofs.Alternating
import TypedSsa.Proofs.Naming

/-!
The join of a list and the order of its types. Main statement: `Lattice.joinAll_ordered_iff`. The
numeric rules are read from pairs of types and do not make a lattice: a type can be above two others
and not above their join. This is all that can make the order matter.
-/

namespace TypedSsa

namespace Ty

/-- The numeric types that have names. -/
def numerics : List Ty :=
  [.bool, .int 8 true, .int 16 true, .int 32 true, .int 64 true, .int 8 false, .int 16 false,
    .int 32 false, .int 64 false, .float 32, .float 64]

/-- Not a number of a width that no name has. -/
def Sized (ty : Ty) : Prop :=
  ty.isNumeric = true → ty ∈ numerics

/-- Every type that is read is sized. -/
theorem ofText_sized {text : String} {ty : Ty} (h : ofText text = .ok ty) : ty.Sized := by
  have hlegible := legible_of_ofText h
  intro hnumeric
  cases ty with
  | bool => decide
  | int bits signed =>
    have each : ∀ bits ∈ [8, 16, 32, 64], ∀ signed, int bits signed ∈ numerics := by decide
    exact each bits hlegible signed
  | float bits =>
    have each : ∀ bits ∈ [32, 64], float bits ∈ numerics := by decide
    exact each bits hlegible
  | unit | str | dynamic | named => cases hnumeric

end Ty

namespace Lattice

variable {l : Lattice} {T : Ty → Prop} {xs ys : List Ty} {a b c t v x : Ty}

/-! Joins from left to right. -/

theorem foldlM_extend (h : l.fallback = none) (xs : List Ty) (x : Ty) :
    xs.foldlM l.extend (.joined x) = (xs.foldlM l.join x).map .joined := by
  induction xs generalizing x with
  | nil => rfl
  | cons y xs ih =>
    rw [List.foldlM_cons, List.foldlM_cons, extend, joinOrFallback, h]
    cases l.join x y with
    | error e => rfl
    | ok ty => exact ih ty

theorem joinAll_cons (h : l.fallback = none) (x : Ty) (xs : List Ty) :
    l.joinAll (x :: xs) = (xs.foldlM l.join x).map (fun ty => some (.joined ty)) := by
  rw [joinAll, foldlM_extend h]
  cases xs.foldlM l.join x <;> rfl

theorem joinAll_cons_cons (h : l.fallback = none) (hc : l.join a b = .ok c) (xs : List Ty) :
    l.joinAll (a :: b :: xs) = l.joinAll (c :: xs) := by
  rw [joinAll_cons h, joinAll_cons h, List.foldlM_cons, hc]
  rfl

/-- A type that is above all others is what they join to if it comes first. -/
theorem joinAll_top (h : l.fallback = none) (htop : ∀ x ∈ xs, l.join t x = .ok t) :
    l.joinAll (t :: xs) = .ok (some (.joined t)) := by
  induction xs with
  | nil => rfl
  | cons x xs ih =>
    rw [joinAll_cons_cons h (htop x (by simp))]
    exact ih (fun y hy => htop y (by simp [hy]))

theorem joinAll_ok (h : l.fallback = none) (hne : xs ≠ []) {result : Option JoinOutcome}
    (hresult : l.joinAll xs = .ok result) : ∃ v, result = some (.joined v) := by
  obtain ⟨x, xs, rfl⟩ := List.exists_cons_of_ne_nil hne
  rw [joinAll_cons h] at hresult
  cases hfold : xs.foldlM l.join x <;> rw [hfold] at hresult <;> cases hresult
  exact ⟨_, rfl⟩

theorem joinAll_total (h : l.fallback = none)
    (total : ∀ a b, T a → T b → ∃ c, T c ∧ l.join a b = .ok c) (hxs : ∀ x ∈ xs, T x)
    (hne : xs ≠ []) : ∃ v, l.joinAll xs = .ok (some (.joined v)) := by
  obtain ⟨a, xs, rfl⟩ := List.exists_cons_of_ne_nil hne
  induction xs generalizing a with
  | nil => exact ⟨a, rfl⟩
  | cons b xs ih =>
    obtain ⟨c, hc, hjoin⟩ := total a b (hxs a (by simp)) (hxs b (by simp))
    rw [joinAll_cons_cons h hjoin]
    exact ih c (List.forall_mem_cons.mpr ⟨hc, fun x hx => hxs x (by simp [hx])⟩) (by simp)

/-- What holds of a type holds of the join of a list with it, if no further join takes it away. -/
theorem joinAll_upward (h : l.fallback = none)
    (closed : ∀ a b c, T a → T b → l.join a b = .ok c → T c) (hxs : ∀ x ∈ xs, T x)
    (hv : l.joinAll xs = .ok (some (.joined v))) :
    T v ∧ ∀ Q : Ty → Prop, (∀ a b c, T a → T b → l.join a b = .ok c → Q a ∨ Q b → Q c) →
      ∀ x ∈ xs, Q x → Q v := by
  cases xs with
  | nil => cases hv
  | cons a xs =>
    induction xs generalizing a with
    | nil =>
      cases hv
      simp [hxs]
    | cons b xs ih =>
      cases hjoin : l.join a b with
      | error e =>
        rw [joinAll_cons h, List.foldlM_cons, hjoin] at hv
        cases hv
      | ok c =>
        have ha := hxs a (by simp)
        have hb := hxs b (by simp)
        rw [joinAll_cons_cons h hjoin] at hv
        obtain ⟨hTv, hup⟩ := ih c (List.forall_mem_cons.mpr
          ⟨closed a b c ha hb hjoin, fun x hx => hxs x (by simp [hx])⟩) hv
        refine ⟨hTv, fun Q hQ => ?_⟩
        have hfirst : Q a ∨ Q b → Q v := fun hab => hup Q hQ c (by simp) (hQ a b c ha hb hjoin hab)
        rw [List.forall_mem_cons, List.forall_mem_cons]
        exact ⟨fun hQa => hfirst (.inl hQa), fun hQb => hfirst (.inr hQb),
          fun x hx => hup Q hQ x (by simp [hx])⟩

/-- The same type, or no join for either. -/
def Agrees (a b : Except Fault (Option JoinOutcome)) : Prop :=
  a = b ∨ ∃ x y x' y', a = .error (.unification x y) ∧ b = .error (.unification x' y')

/-- One of the types is above all, and not above what two of them join to. -/
def Overshot (l : Lattice) (xs : List Ty) : Prop :=
  ∃ t ∈ xs, (∀ x ∈ xs, l.Below x t) ∧
    ∃ a ∈ xs, ∃ b ∈ xs, ∀ c, l.join a b = .ok c → ¬l.Below c t

theorem not_overshot (h : ¬l.Overshot xs) (ht : t ∈ xs) (hbelow : ∀ x ∈ xs, l.Below x t)
    (ha : a ∈ xs) (hb : b ∈ xs) : ∃ c, l.join a b = .ok c ∧ l.Below c t := by
  by_contra hnone
  exact h ⟨t, ht, hbelow, a, ha, b, hb, fun c hc hct => hnone ⟨c, hc, hct⟩⟩

theorem Overshot.perm (hperm : ys.Perm xs) (h : l.Overshot ys) : l.Overshot xs := by
  obtain ⟨t, ht, hbelow, a, ha, b, hb, hover⟩ := h
  exact ⟨t, hperm.mem_iff.mp ht, fun x hx => hbelow x (hperm.mem_iff.mpr hx), a,
    hperm.mem_iff.mp ha, b, hperm.mem_iff.mp hb, hover⟩

/-- Types that join well do so in any order. -/
theorem Coherent.joinAll_perm {S : Ty → Prop} (h : l.Coherent S) (hxs : ∀ x ∈ xs, S x)
    (hperm : ys.Perm xs) : l.joinAll ys = l.joinAll xs := by
  by_cases hne : xs = []
  · subst hne
    rw [hperm.eq_nil]
  · have hys : ∀ y ∈ ys, S y := fun y hy => hxs y (hperm.mem_iff.mp hy)
    obtain ⟨v, hv, hSv, hupper, hleast⟩ := h.joinAll hxs hne
    obtain ⟨w, hw, hSw, hupper', hleast'⟩ := h.joinAll hys (fun he => hne (he ▸ hperm).symm.eq_nil)
    have hvw : l.Below v w := hleast w hSw (fun x hx => hupper' x (hperm.mem_iff.mpr hx))
    have hwv : l.Below w v := hleast' v hSv (fun y hy => hupper y (hperm.mem_iff.mp hy))
    rw [hv, hw, h.below_antisymm hSv hSw hvw hwv]

/-! The numeric rules. -/

theorem numericJoin?_comm (a b : Ty) : numericJoin? a b = numericJoin? b a := by
  rcases a with _ | _ | ⟨a, _ | _⟩ | a | _ | _ | _ <;>
    rcases b with _ | _ | ⟨b, _ | _⟩ | b | _ | _ | _ <;> simp [numericJoin?, Nat.max_comm]

theorem mixedJoin_numeric (a b : Nat) : (mixedJoin a b).isNumeric = true := by
  rw [mixedJoin]
  split
  · rfl
  · split <;> rfl

theorem numericJoin?_numeric (h : numericJoin? a b = some c) :
    a.isNumeric = true ∧ b.isNumeric = true ∧ c.isNumeric = true := by
  rcases a with _ | _ | ⟨a, _ | _⟩ | a | _ | _ | _ <;>
    rcases b with _ | _ | ⟨b, _ | _⟩ | b | _ | _ | _ <;> simp [numericJoin?] at h <;> subst h <;>
    exact ⟨rfl, rfl, by first | rfl | exact mixedJoin_numeric _ _⟩

theorem numeric_join (hne : a ≠ b) : numeric.join a b =
    if a = .dynamic ∨ b = .dynamic then .ok .dynamic
    else
      match numericJoin? a b with
      | some ty => .ok ty
      | none => .error (.unification a b) :=
  if_neg hne

theorem numeric_comm (h : numeric.join a b = .ok c) : numeric.join b a = .ok c := by
  by_cases hab : a = b
  · exact hab ▸ h
  · rw [numeric_join hab] at h
    rw [numeric_join (Ne.symm hab), numericJoin?_comm]
    by_cases hdynamic : a = .dynamic ∨ b = .dynamic
    · rw [if_pos hdynamic] at h
      rw [if_pos hdynamic.symm, h]
    · rw [if_neg hdynamic] at h
      rw [if_neg (fun h => hdynamic h.symm)]
      cases hjoin : numericJoin? a b <;> rw [hjoin] at h
      · cases h
      · exact h

/-- Types join that are equal, or one of which is dynamic, or both of which are numeric. -/
theorem numeric_cases (h : numeric.join a b = .ok c) :
    (a = b ∧ c = a) ∨ ((a = .dynamic ∨ b = .dynamic) ∧ c = .dynamic) ∨
      (a.isNumeric = true ∧ b.isNumeric = true ∧ c.isNumeric = true) := by
  by_cases hab : a = b
  · rw [join, if_pos hab] at h
    exact .inl ⟨hab, (Except.ok.inj h).symm⟩
  · rw [numeric_join hab] at h
    split at h
    · exact .inr (.inl ⟨‹_›, (Except.ok.inj h).symm⟩)
    · cases hjoin : numericJoin? a b <;> rw [hjoin] at h
      · cases h
      · obtain rfl := Except.ok.inj h
        exact .inr (.inr (numericJoin?_numeric hjoin))

theorem below_dynamic (a : Ty) : numeric.Below a .dynamic := by
  by_cases ha : a = .dynamic
  · rw [ha]
    exact numeric.below_refl _
  · rw [Below, numeric_join ha, if_pos (.inr rfl)]

theorem eq_dynamic_of_join (h : numeric.join a b = .ok c) (hab : a = .dynamic ∨ b = .dynamic) :
    c = .dynamic := by
  rcases numeric_cases h with ⟨rfl, rfl⟩ | ⟨-, hc⟩ | ⟨ha, hb, -⟩
  · exact hab.elim id id
  · exact hc
  · rcases hab with rfl | rfl
    · cases ha
    · cases hb

/-! The numeric types that have names. -/

open Ty (numerics)

theorem numerics_total : ∀ a ∈ numerics, ∀ b ∈ numerics, ∃ c ∈ numerics,
    numeric.join a b = .ok c := by
  decide +kernel

theorem numerics_upper : ∀ a ∈ numerics, ∀ b ∈ numerics, ∀ t ∈ numerics,
    (numeric.join a b >>= (numeric.join · t)) = .ok t → numeric.Below a t := by
  decide +kernel

theorem numerics_float : ∀ a ∈ numerics, ∀ b ∈ numerics, ∀ c ∈ numerics,
    numeric.join a b = .ok c → a.isFloat = true ∨ b.isFloat = true → c.isFloat = true := by
  decide +kernel

/-- Without the narrow float the numeric rules make a lattice. -/
theorem coherent_numerics : numeric.Coherent (· ∈ numerics.erase (.float 32)) where
  total := by
    have total : ∀ a ∈ numerics.erase (.float 32), ∀ b ∈ numerics.erase (.float 32),
        ∃ c ∈ numerics.erase (.float 32), numeric.join a b = .ok c := by
      decide +kernel
    exact fun a b ha hb => total a ha b hb
  comm := by
    have comm : ∀ a ∈ numerics.erase (.float 32), ∀ b ∈ numerics.erase (.float 32),
        numeric.join a b = numeric.join b a := by
      decide +kernel
    exact fun a b ha hb => comm a ha b hb
  assoc := by
    have assoc : ∀ a ∈ numerics.erase (.float 32), ∀ b ∈ numerics.erase (.float 32),
        ∀ c ∈ numerics.erase (.float 32),
        (numeric.join a b >>= (numeric.join · c)) = (numeric.join b c >>= numeric.join a) := by
      decide +kernel
    intro a b c ab bc ha hb hc hab hbc
    have h := assoc a ha b hb c hc
    rwa [hab, hbc] at h

theorem join_sized (ha : a.Sized) (hb : b.Sized) (h : numeric.join a b = .ok c) : c.Sized := by
  intro hc
  rcases numeric_cases h with ⟨-, rfl⟩ | ⟨-, rfl⟩ | ⟨ha', hb', -⟩
  · exact ha hc
  · cases hc
  · obtain ⟨c', hc', hjoin⟩ := numerics_total a (ha ha') b (hb hb')
    exact Except.ok.inj (hjoin.symm.trans h) ▸ hc'

/-- What is above a join is above what was joined. -/
theorem below_of_join (ha : a.Sized) (hb : b.Sized) (ht : t.Sized) (h : numeric.join a b = .ok c)
    (hct : numeric.Below c t) : numeric.Below a t := by
  rcases numeric_cases h with ⟨-, rfl⟩ | ⟨-, rfl⟩ | ⟨ha', hb', hc'⟩
  · exact hct
  · rw [eq_dynamic_of_join hct (.inl rfl)]
    exact below_dynamic a
  · have hupper : t.isNumeric = true → numeric.Below a t := by
      intro ht'
      refine numerics_upper a (ha ha') b (hb hb') t (ht ht') ?_
      rw [h]
      exact hct
    rcases numeric_cases hct with ⟨rfl, -⟩ | ⟨-, rfl⟩ | ⟨-, ht', -⟩
    · exact hupper hc'
    · exact below_dynamic a
    · exact hupper ht'

/-! The join of a list, by what is in it. -/

theorem joinAll_dynamic (hover : ¬numeric.Overshot xs) (hxs : ∀ x ∈ xs, x.Sized)
    (hdynamic : .dynamic ∈ xs) : numeric.joinAll xs = .ok (some (.joined .dynamic)) := by
  have main : ∀ S : Ty → Prop, (∀ x ∈ xs, x = .dynamic ∨ S x) →
      (∀ a b, S a → S b → ∃ c, S c ∧ numeric.join a b = .ok c) →
      numeric.joinAll xs = .ok (some (.joined .dynamic)) := by
    intro S hS total
    have total' : ∀ a b, a = .dynamic ∨ S a → b = .dynamic ∨ S b →
        ∃ c, (c = .dynamic ∨ S c) ∧ numeric.join a b = .ok c := by
      rintro a b (rfl | ha) (rfl | hb)
      · exact ⟨_, .inl rfl, below_dynamic _⟩
      · exact ⟨_, .inl rfl, numeric_comm (below_dynamic b)⟩
      · exact ⟨_, .inl rfl, below_dynamic a⟩
      · obtain ⟨c, hc, hjoin⟩ := total a b ha hb
        exact ⟨c, .inr hc, hjoin⟩
    obtain ⟨v, hv⟩ := joinAll_total rfl total' hS (List.ne_nil_of_mem hdynamic)
    have closed : ∀ a b c, a = .dynamic ∨ S a → b = .dynamic ∨ S b → numeric.join a b = .ok c →
        c = .dynamic ∨ S c := by
      intro a b c ha hb hjoin
      obtain ⟨c', hc', hjoin'⟩ := total' a b ha hb
      exact Except.ok.inj (hjoin'.symm.trans hjoin) ▸ hc'
    have hup := (joinAll_upward rfl closed hS hv).2 (· = .dynamic)
      (fun a b c _ _ hjoin hab => eq_dynamic_of_join hjoin hab) _ hdynamic rfl
    rw [hv, hup]
  by_cases hall : ∀ x ∈ xs, x = .dynamic ∨ x.isNumeric = true
  · refine main (· ∈ numerics) (fun x hx => (hall x hx).imp_right (hxs x hx)) ?_
    exact fun a b ha hb => numerics_total a ha b hb
  · push Not at hall
    obtain ⟨y, hy, hne, hnot⟩ := hall
    refine main (· = y) (fun x hx => ?_) ?_
    · obtain ⟨c, hc, -⟩ := not_overshot hover hdynamic (fun x _ => below_dynamic x) hx hy
      rcases numeric_cases hc with ⟨hxy, -⟩ | ⟨hd, -⟩ | ⟨-, hnumeric, -⟩
      · exact .inr hxy
      · exact .inl (hd.resolve_right hne)
      · exact absurd hnumeric hnot
    · rintro a b rfl rfl
      exact ⟨_, rfl, numeric.below_refl _⟩

/-- A type that is no number joins no other but the dynamic one. -/
theorem joinAll_unlike (hdynamic : .dynamic ∉ xs) (ha : a ∈ xs) (hnot : a.isNumeric ≠ true)
    (hb : b ∈ xs) (hne : b ≠ a) : ∃ x y, numeric.joinAll xs = .error (.unification x y) := by
  cases hjoin : numeric.joinAll xs with
  | error e =>
    obtain ⟨x, y, rfl⟩ := joinAll_error hjoin
    exact ⟨x, y, rfl⟩
  | ok result =>
    obtain ⟨v, rfl⟩ := joinAll_ok rfl (List.ne_nil_of_mem ha) hjoin
    have closed : ∀ a b c, a ≠ .dynamic → b ≠ .dynamic → numeric.join a b = .ok c →
        c ≠ .dynamic := by
      intro a b c ha hb hjoin
      rcases numeric_cases hjoin with ⟨-, rfl⟩ | ⟨hab, -⟩ | ⟨-, -, hc⟩
      · exact ha
      · exact absurd hab (not_or.mpr ⟨ha, hb⟩)
      · rintro rfl
        cases hc
    have hlike : ∀ x ∈ xs, v = x ∨ v.isNumeric = true ∧ x.isNumeric = true := by
      intro x hx
      have hup := joinAll_upward rfl closed (fun y hy he => hdynamic (he ▸ hy)) hjoin
      refine hup.2 (fun y => y = x ∨ y.isNumeric = true ∧ x.isNumeric = true) ?_ x hx (.inl rfl)
      intro a b c ha hb hjoin hab
      rcases numeric_cases hjoin with ⟨rfl, rfl⟩ | ⟨hd, -⟩ | ⟨ha', hb', hc⟩
      · exact hab.elim id id
      · exact absurd hd (not_or.mpr ⟨ha, hb⟩)
      · refine .inr ⟨hc, ?_⟩
        rcases hab with (rfl | h) | (rfl | h)
        · exact ha'
        · exact h.2
        · exact hb'
        · exact h.2
    obtain rfl : v = a := (hlike a ha).resolve_right (fun h => hnot h.2)
    exact absurd ((hlike b hb).resolve_right (fun h => hnot h.1)).symm hne

theorem joinAll_float {few : List Ty}
    (total : ∀ a ∈ few, ∀ b ∈ few, ∃ c ∈ few, numeric.join a b = .ok c) (hfew : few ⊆ numerics)
    (hxs : ∀ x ∈ xs, x ∈ few) (hf : ∃ f ∈ xs, f.isFloat = true) :
    ∃ v ∈ few, numeric.joinAll xs = .ok (some (.joined v)) ∧ v.isFloat = true ∧
      ∀ x ∈ xs, ¬numeric.Below x (.float 32) → ¬numeric.Below v (.float 32) := by
  obtain ⟨f, hf, hfloat⟩ := hf
  have closed : ∀ a b c, a ∈ few → b ∈ few → numeric.join a b = .ok c → c ∈ few := by
    intro a b c ha hb hjoin
    obtain ⟨c', hc', hjoin'⟩ := total a ha b hb
    exact Except.ok.inj (hjoin'.symm.trans hjoin) ▸ hc'
  obtain ⟨v, hv⟩ := joinAll_total rfl (fun a b ha hb => total a ha b hb) hxs
    (List.ne_nil_of_mem hf)
  obtain ⟨hmem, hup⟩ := joinAll_upward rfl closed hxs hv
  refine ⟨v, hmem, hv, hup (·.isFloat = true) ?_ f hf hfloat,
    hup (fun y => ¬numeric.Below y (.float 32)) ?_⟩
  · exact fun a b c ha hb hjoin =>
      numerics_float a (hfew ha) b (hfew hb) c (hfew (closed a b c ha hb hjoin)) hjoin
  · have sized : ∀ {y}, y ∈ few → y.Sized := fun hy _ => hfew hy
    have hwide : Ty.Sized (.float 32) := fun _ => by decide
    rintro a b c ha hb hjoin (hab | hab) hc
    · exact hab (below_of_join (sized ha) (sized hb) hwide hjoin hc)
    · exact hab (below_of_join (sized hb) (sized ha) hwide (numeric_comm hjoin) hc)

/-- A float and a number that the narrow float is not above. -/
theorem joinAll_wide (hxs : ∀ x ∈ xs, x ∈ numerics) (hf : ∃ f ∈ xs, f.isFloat = true)
    (hw : ∃ x ∈ xs, ¬numeric.Below x (.float 32)) :
    numeric.joinAll xs = .ok (some (.joined .float64)) := by
  obtain ⟨x, hx, hwide⟩ := hw
  obtain ⟨v, hmem, hv, hfloat, hup⟩ :=
    joinAll_float numerics_total (List.Subset.refl _) hxs hf
  have hall : ∀ v ∈ numerics, v.isFloat = true → ¬numeric.Below v (.float 32) → v = .float64 := by
    decide
  rw [hv, hall v hmem hfloat (hup x hx hwide)]

/-- The narrow float above all, and above what any two join to. -/
theorem joinAll_narrow (hover : ¬numeric.Overshot xs) (hxs : ∀ x ∈ xs, x ∈ numerics)
    (hf : .float 32 ∈ xs) (hbelow : ∀ x ∈ xs, numeric.Below x (.float 32)) :
    numeric.joinAll xs = .ok (some (.joined (.float 32))) := by
  have main : ∀ few : List Ty, (∀ a ∈ few, ∀ b ∈ few, ∃ c ∈ few, numeric.join a b = .ok c) →
      few ⊆ numerics → (∀ v ∈ few, v.isFloat = true → v = .float 32) → (∀ x ∈ xs, x ∈ few) →
      numeric.joinAll xs = .ok (some (.joined (.float 32))) := by
    intro few total hfew hfloats hxs
    obtain ⟨v, hmem, hv, hfloat, -⟩ := joinAll_float total hfew hxs ⟨_, hf, rfl⟩
    rw [hv, hfloats v hmem hfloat]
  -- an unsigned integer of half the float's width leaves no room for one with a sign
  by_cases hhalf : .int 16 false ∈ xs
  · refine main [.bool, .int 8 false, .int 16 false, .float 32] (by decide) (by decide) (by decide)
      (fun x hx => ?_)
    have hall : ∀ x ∈ numerics,
        (numeric.join (.int 16 false) x >>= (numeric.join · (.float 32))) = .ok (.float 32) →
        x ∈ [.bool, .int 8 false, .int 16 false, .float 32] := by
      decide
    obtain ⟨c, hc, hcf⟩ := not_overshot hover hf hbelow hhalf hx
    refine hall x (hxs x hx) ?_
    rw [hc]
    exact hcf
  · refine main [.bool, .int 8 true, .int 16 true, .int 8 false, .float 32] (by decide) (by decide)
      (by decide) (fun x hx => ?_)
    have hall : ∀ x ∈ numerics, numeric.Below x (.float 32) → x ≠ .int 16 false →
        x ∈ [.bool, .int 8 true, .int 16 true, .int 8 false, .float 32] := by
      decide
    exact hall x (hxs x hx) (hbelow x hx) (fun he => hhalf (he ▸ hx))

/-- With the highest first it is the join, and with two first that pass it over it is not. -/
theorem not_overshot_of_agrees (h : ∀ x ∈ xs, x.Sized)
    (hagree : ∀ ys, ys.Perm xs → Agrees (numeric.joinAll xs) (numeric.joinAll ys)) :
    ¬numeric.Overshot xs := by
  rintro ⟨t, ht, hbelow, a, ha, b, hb, hover⟩
  have hab : b ≠ a := by
    rintro rfl
    exact hover b (numeric.below_refl b) (hbelow b hb)
  have htop : numeric.joinAll (t :: xs.erase t) = .ok (some (.joined t)) :=
    joinAll_top rfl (fun x hx => numeric_comm (hbelow x (List.mem_of_mem_erase hx)))
  have hxs : numeric.joinAll xs = .ok (some (.joined t)) := by
    rcases hagree _ (List.perm_cons_erase ht).symm with hsame | ⟨_, _, _, _, -, he⟩
    · rw [hsame, htop]
    · rw [htop] at he
      cases he
  have hpair : (a :: b :: (xs.erase a).erase b).Perm xs :=
    ((List.perm_cons_erase ((List.mem_erase_of_ne hab).mpr hb)).symm.cons a).trans
      (List.perm_cons_erase ha).symm
  have hys : numeric.joinAll (a :: b :: (xs.erase a).erase b) = .ok (some (.joined t)) := by
    rcases hagree _ hpair with hsame | ⟨_, _, _, _, he, -⟩
    · rw [← hsame, hxs]
    · rw [hxs] at he
      cases he
  cases hjoin : numeric.join a b with
  | error e =>
    rw [joinAll_cons rfl, List.foldlM_cons, hjoin] at hys
    cases hys
  | ok c =>
    rw [joinAll_cons_cons rfl hjoin] at hys
    have hsized : ∀ x ∈ c :: (xs.erase a).erase b, x.Sized :=
      List.forall_mem_cons.mpr ⟨join_sized (h a ha) (h b hb) hjoin, fun x hx =>
        h x (List.mem_of_mem_erase (List.mem_of_mem_erase hx))⟩
    have hup := (joinAll_upward rfl (fun _ _ _ => join_sized) hsized hys).2
      (fun y => ¬numeric.Below y t) ?_ c (by simp) (hover c hjoin)
    · exact hup (numeric.below_refl t)
    · rintro a b c ha hb hjoin (hnot | hnot) hct
      · exact hnot (below_of_join ha hb (h t ht) hjoin hct)
      · exact hnot (below_of_join hb ha (h t ht) (numeric_comm hjoin) hct)

theorem joinAll_perm_numerics (hover : ¬numeric.Overshot xs) (hxs : ∀ x ∈ xs, x ∈ numerics)
    (hperm : ys.Perm xs) : numeric.joinAll xs = numeric.joinAll ys := by
  have hys : ∀ y ∈ ys, y ∈ numerics := fun y hy => hxs y (hperm.mem_iff.mp hy)
  by_cases hfloat : ∃ f ∈ xs, f.isFloat = true
  · obtain ⟨f, hf, hisFloat⟩ := hfloat
    by_cases hwide : ∃ x ∈ xs, ¬numeric.Below x (.float 32)
    · obtain ⟨x, hx, hwide⟩ := hwide
      rw [joinAll_wide hxs ⟨f, hf, hisFloat⟩ ⟨x, hx, hwide⟩,
        joinAll_wide hys ⟨f, hperm.mem_iff.mpr hf, hisFloat⟩ ⟨x, hperm.mem_iff.mpr hx, hwide⟩]
    · push Not at hwide
      have hnarrow : ∀ f ∈ numerics, f.isFloat = true → numeric.Below f (.float 32) →
          f = .float 32 := by
        decide
      obtain rfl := hnarrow f (hxs f hf) hisFloat (hwide f hf)
      rw [joinAll_narrow hover hxs hf hwide, joinAll_narrow (fun h => hover (h.perm hperm)) hys
        (hperm.mem_iff.mpr hf) (fun y hy => hwide y (hperm.mem_iff.mp hy))]
  · refine (coherent_numerics.joinAll_perm (fun x hx => ?_) hperm).symm
    refine (List.mem_erase_of_ne ?_).mpr (hxs x hx)
    rintro rfl
    exact hfloat ⟨_, hx, rfl⟩

/-- The order of some types does not matter to their join just if none of them that is above all is
passed over by the join of two. -/
theorem joinAll_ordered_iff (h : ∀ x ∈ xs, x.Sized) :
    (∀ ys, ys.Perm xs → Agrees (numeric.joinAll xs) (numeric.joinAll ys)) ↔
      ¬numeric.Overshot xs := by
  refine ⟨not_overshot_of_agrees h, fun hover ys hperm => ?_⟩
  by_cases hdynamic : .dynamic ∈ xs
  · left
    rw [joinAll_dynamic hover h hdynamic, joinAll_dynamic (fun h => hover (h.perm hperm))
      (fun y hy => h y (hperm.mem_iff.mp hy)) (hperm.mem_iff.mpr hdynamic)]
  by_cases hnumeric : ∀ x ∈ xs, x.isNumeric = true
  · exact .inl (joinAll_perm_numerics hover (fun x hx => h x hx (hnumeric x hx)) hperm)
  push Not at hnumeric
  obtain ⟨a, ha, hnot⟩ := hnumeric
  by_cases hsame : ∀ x ∈ xs, x = a
  · exact .inl ((numeric.coherent_single a).joinAll_perm hsame hperm).symm
  · push Not at hsame
    obtain ⟨b, hb, hne⟩ := hsame
    obtain ⟨x, y, hx⟩ := joinAll_unlike hdynamic ha hnot hb hne
    obtain ⟨x', y', hy⟩ := joinAll_unlike (fun hd => hdynamic (hperm.mem_iff.mp hd))
      (hperm.mem_iff.mpr ha) hnot (hperm.mem_iff.mpr hb) hne
    exact .inr ⟨x, y, x', y', hx, hy⟩

/-- Integers of both signs and a wide float, which their join does not pass over. -/
theorem joinAll_ordered_mixed : (∀ x ∈ [.int 8 true, .int 16 false, .float64], Ty.Sized x) ∧
    ∀ ys, ys.Perm [.int 8 true, .int 16 false, .float64] →
      Agrees (.ok (some (.joined .float64))) (numeric.joinAll ys) := by
  have hsized : ∀ x ∈ [.int 8 true, .int 16 false, .float64], Ty.Sized x := by
    simp [Ty.Sized, Ty.isNumeric, numerics, Ty.float64]
  refine ⟨hsized, (joinAll_ordered_iff hsized).mpr ?_⟩
  rintro ⟨t, ht, hbelow, a, ha, b, hb, hover⟩
  have hpairs : ∀ t ∈ [.int 8 true, .int 16 false, .float64],
      (∀ x ∈ [.int 8 true, .int 16 false, .float64], numeric.Below x t) →
      ∀ a ∈ [.int 8 true, .int 16 false, .float64], ∀ b ∈ [.int 8 true, .int 16 false, .float64],
      ∃ c ∈ numerics, numeric.join a b = .ok c ∧ numeric.Below c t := by
    decide
  obtain ⟨c, -, hc, hct⟩ := hpairs t ht hbelow a ha b hb
  exact hover c hc hct

/-- A narrow float above integers of both signs, which their join passes over. -/
example : numeric.joinAll [.float 32, .int 16 false, .int 8 true] =
      .ok (some (.joined (.float 32))) ∧
    numeric.joinAll [.int 8 true, .int 16 false, .float 32] = .ok (some (.joined .float64)) := by
  decide

end Lattice

end TypedSsa

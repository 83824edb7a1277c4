import TypedSsa.Proofs.Traversing
import TypedSsa.Tree.Equality

/-!
Structural equality of nodes. Main statement: `Arena.equals_structural`. Where value nodes form no
cycle it ends, and it is the equivalence under which value nodes are the same if their kinds are and
their fields are up to it.
-/

namespace TypedSsa

open Relation

/-! Numbers. -/

namespace Binary64

variable {x y z : Binary64}

theorem same_iff : x.same y = true ↔
    x.isNaN = false ∧ y.isNaN = false ∧ (x = y ∨ x.isZero = true ∧ y.isZero = true) := by
  simp [same, and_assoc]

theorem same_self : x.same x = true ↔ x.isNaN = false := by
  simp [same_iff]

theorem same_symm (h : x.same y = true) : y.same x = true := by
  rw [same_iff] at h ⊢
  exact ⟨h.2.1, h.1, h.2.2.imp Eq.symm And.symm⟩

theorem same_trans (h : x.same y = true) (h' : y.same z = true) : x.same z = true := by
  rw [same_iff] at h h' ⊢
  refine ⟨h.1, h'.2.1, ?_⟩
  rcases h.2.2 with rfl | hzero
  · exact h'.2.2
  · rcases h'.2.2 with rfl | hzero'
    · exact .inr hzero
    · exact .inr ⟨hzero.1, hzero'.2⟩

end Binary64

/-! Fields. -/

namespace FieldValue

mutual

/-- The numbers in a value, also from inside lists. -/
def floats : FieldValue → List Binary64
  | float x => [x]
  | list items => floatsOf items
  | _ => []

def floatsOf : List FieldValue → List Binary64
  | [] => []
  | v :: vs => floats v ++ floatsOf vs

end

/-- Values that agree position by position, and have related nodes where they refer to nodes. -/
inductive Alike (R : NodeId → NodeId → Prop) : FieldValue → FieldValue → Prop
  | node {x y : NodeId} : R x y → Alike R (.node x) (.node y)
  | list {xs ys : List FieldValue} : xs.length = ys.length →
    (∀ (i : Nat) (x y : FieldValue), xs[i]? = some x → ys[i]? = some y → Alike R x y) →
    Alike R (.list xs) (.list ys)
  | int (n : Int) : Alike R (.int n) (.int n)
  | float {x y : Binary64} : x.same y = true → Alike R (.float x) (.float y)
  | str (s : String) : Alike R (.str s) (.str s)
  | bool (b : Bool) : Alike R (.bool b) (.bool b)
  | type (ty : Ty) : Alike R (.type ty) (.type ty)
  | absent : Alike R .absent .absent

/-- Some references to one node, or none, are references to another instead. -/
inductive Replaced (old new : NodeId) : FieldValue → FieldValue → Prop
  | same (v : FieldValue) : Replaced old new v v
  | node : Replaced old new (.node old) (.node new)
  | list {xs ys : List FieldValue} : xs.length = ys.length →
    (∀ (i : Nat) (x y : FieldValue), xs[i]? = some x → ys[i]? = some y → Replaced old new x y) →
    Replaced old new (.list xs) (.list ys)

variable {R S T : NodeId → NodeId → Prop} {u v w : FieldValue} {us vs ws : List FieldValue}
variable {old new : NodeId}

theorem mem_floatsOf {x : Binary64} : x ∈ floatsOf vs ↔ ∃ v ∈ vs, x ∈ v.floats := by
  induction vs with
  | nil => simp [floatsOf]
  | cons v vs ih => simp [floatsOf, ih]

namespace Alike

theorem nil_iff : Alike R (.list []) (.list ws) ↔ ws = [] := by
  constructor
  · intro h
    cases h with
    | list hlength _ => exact List.length_eq_zero_iff.mp hlength.symm
  · rintro rfl
    exact .list rfl fun i x y hx => absurd hx (by simp)

theorem cons_iff : Alike R (.list (v :: vs)) (.list (w :: ws)) ↔
    Alike R v w ∧ Alike R (.list vs) (.list ws) := by
  constructor
  · intro h
    cases h with
    | list hlength h =>
      exact ⟨h 0 v w rfl rfl, .list (Nat.succ.inj hlength) fun i => h (i + 1)⟩
  · rintro ⟨hfirst, hrest⟩
    cases hrest with
    | list hlength h =>
      refine .list (congrArg Nat.succ hlength) fun i x y hx hy => ?_
      cases i with
      | zero => exact Option.some.inj hx ▸ Option.some.inj hy ▸ hfirst
      | succ i => exact h i x y hx hy

theorem mono (h : Alike R v w) (hR : ∀ i ∈ v.references, ∀ j, R i j → S i j) : Alike S v w := by
  induction h with
  | node h => exact .node (hR _ (List.mem_singleton_self _) _ h)
  | @list xs ys hlength _ ih =>
    refine .list hlength fun i x y hx hy => ih i x y hx hy fun r hr => hR r ?_
    exact Arena.mem_referencesOf.mpr ⟨x, List.mem_of_getElem? hx, hr⟩
  | float h => exact .float h
  | _ => constructor

theorem symm (h : Alike R v w) (hR : ∀ i ∈ v.references, ∀ j, R i j → S j i) : Alike S w v := by
  induction h with
  | node h => exact .node (hR _ (List.mem_singleton_self _) _ h)
  | @list xs ys hlength _ ih =>
    refine .list hlength.symm fun i y x hy hx => ih i x y hx hy fun r hr => hR r ?_
    exact Arena.mem_referencesOf.mpr ⟨x, List.mem_of_getElem? hx, hr⟩
  | float h => exact .float (Binary64.same_symm h)
  | _ => constructor

theorem trans (h : Alike R u v) (h' : Alike S v w)
    (hR : ∀ i ∈ u.references, ∀ j k, R i j → S j k → T i k) : Alike T u w := by
  induction h generalizing w with
  | node h =>
    cases h' with
    | node h' => exact .node (hR _ (List.mem_singleton_self _) _ _ h h')
  | @list xs ys hlength _ ih =>
    cases h' with
    | @list _ zs hlength' h' =>
      refine .list (hlength.trans hlength') fun i x z hx hz => ?_
      have hi : i < ys.length := hlength ▸ (List.getElem?_eq_some_iff.mp hx).1
      have hy := List.getElem?_eq_getElem hi
      refine ih i x _ hx hy (h' i _ z hy hz) fun r hr => hR r ?_
      exact Arena.mem_referencesOf.mpr ⟨x, List.mem_of_getElem? hx, hr⟩
  | float h =>
    cases h' with
    | float h' => exact .float (Binary64.same_trans h h')
  | _ =>
    cases h'
    constructor

end Alike

mutual

/-- Values are compared position by position. -/
theorem agree_iff (same : NodeId → NodeId → Bool) : ∀ v w : FieldValue,
    agree same v w = true ↔ Alike (fun i j => same i j = true) v w
  | .list vs, w => by
    cases w with
    | list ws => exact agreeAll_iff same vs ws
    | _ => exact iff_of_false nofun nofun
  | .node i, w => by
    cases w with
    | node j => exact ⟨fun h => .node h, fun | .node h => h⟩
    | _ => exact iff_of_false nofun nofun
  | .float x, w => by
    cases w with
    | float y => exact ⟨fun h => .float h, fun | .float h => h⟩
    | _ => exact iff_of_false nofun nofun
  | .int x, w => by
    cases w with
    | int y =>
      rw [agree, beq_iff_eq]
      exact ⟨fun h => h ▸ .int x, fun | .int _ => rfl⟩
    | _ => exact iff_of_false nofun nofun
  | .str x, w => by
    cases w with
    | str y =>
      rw [agree, beq_iff_eq]
      exact ⟨fun h => h ▸ .str x, fun | .str _ => rfl⟩
    | _ => exact iff_of_false nofun nofun
  | .bool x, w => by
    cases w with
    | bool y =>
      rw [agree, beq_iff_eq]
      exact ⟨fun h => h ▸ .bool x, fun | .bool _ => rfl⟩
    | _ => exact iff_of_false nofun nofun
  | .type x, w => by
    cases w with
    | type y =>
      rw [agree, beq_iff_eq]
      exact ⟨fun h => h ▸ .type x, fun | .type _ => rfl⟩
    | _ => exact iff_of_false nofun nofun
  | .absent, w => by
    cases w with
    | absent => exact iff_of_true rfl .absent
    | _ => exact iff_of_false nofun nofun

theorem agreeAll_iff (same : NodeId → NodeId → Bool) : ∀ vs ws : List FieldValue,
    agreeAll same vs ws = true ↔ Alike (fun i j => same i j = true) (.list vs) (.list ws)
  | [], ws => by
    rw [Alike.nil_iff]
    cases ws <;> simp [agreeAll]
  | v :: vs, [] => by
    refine iff_of_false nofun fun h => ?_
    cases h with
    | list hlength _ => cases hlength
  | v :: vs, w :: ws => by
    rw [Alike.cons_iff, ← agree_iff same v w, ← agreeAll_iff same vs ws, agreeAll, Bool.and_eq_true]

end

theorem alike_self (hR : ∀ i, R i i) : ∀ v : FieldValue,
    (∀ x ∈ v.floats, x.isNaN = false) → Alike R v v
  | .list vs, h => .list rfl fun i x y hx hy => by
    have hmem := List.mem_of_getElem? hx
    obtain rfl := Option.some.inj (hx.symm.trans hy)
    exact alike_self hR x fun z hz => h z (mem_floatsOf.mpr ⟨x, hmem, hz⟩)
  | .node i, _ => .node (hR i)
  | .float x, h => .float (Binary64.same_self.mpr (h x (List.mem_singleton_self x)))
  | .int n, _ => .int n
  | .str s, _ => .str s
  | .bool b, _ => .bool b
  | .type t, _ => .type t
  | .absent, _ => .absent
termination_by v => v
decreasing_by
  have := List.sizeOf_lt_of_mem hmem
  simp
  omega

theorem Replaced.alike (h : Replaced old new v w) (hR : ∀ i, R i i) (hnew : R old new)
    (hv : ∀ x ∈ v.floats, x.isNaN = false) : Alike R v w := by
  induction h with
  | same v => exact alike_self hR v hv
  | node => exact .node hnew
  | @list xs ys hlength _ ih =>
    refine .list hlength fun i x y hx hy => ih i x y hx hy fun z hz => hv z ?_
    exact mem_floatsOf.mpr ⟨x, List.mem_of_getElem? hx, hz⟩

end FieldValue

/-! Nodes. -/

/-- A node without its attributes. -/
def Node.stripped (n : Node) : Node :=
  { n with attributes := [] }

namespace Arena

open FieldValue

variable {a : Arena} {R S T : NodeId → NodeId → Prop} {x y z : NodeId} {fuel : Nat}

/-- Two value nodes of one kind whose fields agree up to a relation on nodes. -/
def Matches (a : Arena) (R : NodeId → NodeId → Prop) (x y : NodeId) : Prop :=
  ∃ m n, a.find? x = some m ∧ a.find? y = some n ∧ m.mode = .value ∧ n.mode = .value ∧
    m.kind = n.kind ∧ Alike R (.list m.fields) (.list n.fields)

/-- The nodes that may have to be compared to compare two. -/
def Compares (a : Arena) (below pair : NodeId × NodeId) : Prop :=
  a.Nests pair.1 below.1 ∧ a.Nests pair.2 below.2

theorem mem_children {n : Node} : x ∈ (FieldValue.list n.fields).references ↔ x ∈ n.children :=
  mem_referencesOf.trans List.mem_flatMap.symm

namespace Matches

theorem mono (h : a.Matches R x y) (hR : ∀ i, a.Nests x i → ∀ j, R i j → S i j) :
    a.Matches S x y := by
  obtain ⟨m, n, hm, hn, hvalue, hvalue', hkind, hfields⟩ := h
  refine ⟨m, n, hm, hn, hvalue, hvalue', hkind, hfields.mono fun i hi => hR i ?_⟩
  exact ⟨m, hm, hvalue, mem_children.mp hi⟩

theorem symm (h : a.Matches R x y) (hR : ∀ i, a.Nests x i → ∀ j, R i j → S j i) :
    a.Matches S y x := by
  obtain ⟨m, n, hm, hn, hvalue, hvalue', hkind, hfields⟩ := h
  refine ⟨n, m, hn, hm, hvalue', hvalue, hkind.symm, hfields.symm fun i hi => hR i ?_⟩
  exact ⟨m, hm, hvalue, mem_children.mp hi⟩

theorem trans (h : a.Matches R x y) (h' : a.Matches S y z)
    (hR : ∀ i, a.Nests x i → ∀ j k, R i j → S j k → T i k) : a.Matches T x z := by
  obtain ⟨m, n, hm, hn, hvalue, -, hkind, hfields⟩ := h
  obtain ⟨n', o, hn', ho, -, hvalue', hkind', hfields'⟩ := h'
  obtain rfl := Option.some.inj (hn.symm.trans hn')
  refine ⟨m, o, hm, ho, hvalue, hvalue', hkind.trans hkind', hfields.trans hfields' fun i hi => ?_⟩
  exact hR i ⟨m, hm, hvalue, mem_children.mp hi⟩

theorem value (h : a.Matches R x y) : ∃ m, a.find? x = some m ∧ m.mode = .value := by
  obtain ⟨m, -, hm, -, hvalue, -⟩ := h
  exact ⟨m, hm, hvalue⟩

end Matches

theorem equalsWithin_zero : a.equalsWithin 0 x y = true ↔ x = y :=
  beq_iff_eq

theorem equalsWithin_succ : a.equalsWithin (fuel + 1) x y = true ↔
    x = y ∨ a.Matches (fun i j => a.equalsWithin fuel i j = true) x y := by
  rw [equalsWithin, Bool.or_eq_true, beq_iff_eq]
  refine or_congr_right ?_
  unfold Matches
  cases a.find? x with
  | none => simp
  | some m =>
    cases a.find? y with
    | none => simp
    | some n => simp [← agreeAll_iff, and_assoc]

/-! How deep a comparison goes. -/

open Classical in
/-- The value nodes that a value node is made of, itself among them. -/
noncomputable def valuesBelow (a : Arena) (x : NodeId) : Finset NodeId :=
  (a.nodes.toList.map (·.id)).toFinset.filter
    (fun w => (∃ n, a.find? w = some n ∧ n.mode = .value) ∧ ReflTransGen a.Nests x w)

/-- Bounds the nesting of value nodes. -/
noncomputable def rank (a : Arena) (x : NodeId) : Nat :=
  (a.valuesBelow x).card

theorem mem_valuesBelow {w : NodeId} : w ∈ a.valuesBelow x ↔
    (∃ n, a.find? w = some n ∧ n.mode = .value) ∧ ReflTransGen a.Nests x w := by
  classical
  rw [valuesBelow, Finset.mem_filter, and_iff_right_iff_imp]
  rintro ⟨⟨n, hn, -⟩, -⟩
  exact mem_ids hn

theorem rank_le (a : Arena) (x : NodeId) : a.rank x ≤ a.nodes.size := by
  classical
  exact Nat.le_trans (Finset.card_le_card (Finset.filter_subset _ _)) a.card_ids_le

theorem rank_pos (h : ∃ n, a.find? x = some n ∧ n.mode = .value) : 0 < a.rank x :=
  Finset.card_pos.mpr ⟨x, mem_valuesBelow.mpr ⟨h, .refl⟩⟩

section
variable (hacyclic : ∀ id, ¬TransGen a.Refers id id)
include hacyclic

theorem rank_lt (h : a.Nests x y) : a.rank y < a.rank x := by
  refine Finset.card_lt_card ⟨fun w hw => ?_, fun hsub => ?_⟩
  · obtain ⟨hvalue, hreach⟩ := mem_valuesBelow.mp hw
    exact mem_valuesBelow.mpr ⟨hvalue, .head h hreach⟩
  · obtain ⟨n, hn, hvalue, -⟩ := id h
    have hx := hsub (mem_valuesBelow.mpr ⟨⟨n, hn, hvalue⟩, .refl⟩)
    exact nests_irrefl hacyclic x (.head' h (mem_valuesBelow.mp hx).2)

/-- A comparison looks no deeper than values are nested. -/
theorem equalsWithin_of_rank_le (h : a.rank x ≤ fuel) :
    a.equalsWithin (fuel + 1) x y = true ↔ a.equalsWithin fuel x y = true := by
  induction fuel generalizing x y with
  | zero =>
    rw [equalsWithin_succ, equalsWithin_zero, or_iff_left]
    exact fun hmatches => absurd (rank_pos hmatches.value) (Nat.not_lt.mpr h)
  | succ fuel ih =>
    have hbelow : ∀ i, a.Nests x i → a.rank i ≤ fuel := fun i hi =>
      Nat.le_of_lt_succ (Nat.lt_of_lt_of_le (rank_lt hacyclic hi) h)
    rw [equalsWithin_succ, equalsWithin_succ]
    refine or_congr_right ⟨fun h => ?_, fun h => ?_⟩
    · exact h.mono fun i hi _ => (ih (hbelow i hi)).mp
    · exact h.mono fun i hi _ => (ih (hbelow i hi)).mpr

theorem equalsWithin_eq (h : a.nodes.size ≤ fuel) : a.equalsWithin fuel x y = a.equals x y := by
  induction fuel, h using Nat.le_induction with
  | base => rfl
  | succ fuel hle ih =>
    have hrank := Nat.le_trans (a.rank_le x) hle
    exact (Bool.eq_iff_iff.mpr (equalsWithin_of_rank_le hacyclic hrank)).trans ih

/-- The equation that structural equality solves. -/
theorem equals_iff : a.equals x y = true ↔
    x = y ∨ a.Matches (fun i j => a.equals i j = true) x y := by
  rw [← equalsWithin_eq hacyclic (Nat.le_succ a.nodes.size), equalsWithin_succ]
  rfl

theorem nests_wellFounded : WellFounded (fun y x => a.Nests x y) :=
  Subrelation.wf (rank_lt hacyclic) (measure a.rank).wf

theorem compares_wellFounded : WellFounded a.Compares :=
  Subrelation.wf And.left (InvImage.wf Prod.fst (nests_wellFounded hacyclic))

theorem equals_symm (h : a.equals x y = true) : a.equals y x = true := by
  induction x using (nests_wellFounded hacyclic).induction generalizing y with
  | h x ih =>
    rw [equals_iff hacyclic] at h ⊢
    exact h.imp Eq.symm fun hmatches => hmatches.symm fun i hi _ hij => ih i hi hij

theorem equals_trans (h : a.equals x y = true) (h' : a.equals y z = true) :
    a.equals x z = true := by
  induction x using (nests_wellFounded hacyclic).induction generalizing y z with
  | h x ih =>
    rw [equals_iff hacyclic] at h
    rcases h with rfl | h
    · exact h'
    · rw [equals_iff hacyclic] at h'
      rcases h' with rfl | h'
      · exact (equals_iff hacyclic).mpr (.inr h)
      · exact (equals_iff hacyclic).mpr (.inr (h.trans h' fun i hi _ _ hij => ih i hi hij))

/-- No other relation solves the equation. -/
theorem equals_unique {same : NodeId → NodeId → Bool}
    (h : ∀ x y, same x y = true ↔ x = y ∨ a.Matches (fun i j => same i j = true) x y) :
    same = a.equals := by
  funext x
  induction x using (nests_wellFounded hacyclic).induction with
  | h x ih =>
    funext y
    rw [Bool.eq_iff_iff, h, equals_iff hacyclic]
    refine or_congr_right ⟨fun hm => ?_, fun hm => ?_⟩
    · exact hm.mono fun i hi j hij => ih i hi ▸ hij
    · exact hm.mono fun i hi j hij => (ih i hi).symm ▸ hij

end

theorem equals_self (a : Arena) (x : NodeId) : a.equals x x = true := by
  rw [equals]
  cases a.nodes.size with
  | zero => exact equalsWithin_zero.mpr rfl
  | succ n => exact equalsWithin_succ.mpr (.inl rfl)

/-! Attributes. -/

theorem find?_stripped (a : Arena) (r : Registry) (id : NodeId) :
    (Arena.mk r (a.nodes.map Node.stripped)).find? id = (a.find? id).map Node.stripped := by
  have hplace : (Arena.mk r (a.nodes.map Node.stripped)).place id = a.place id := by
    rw [place, place, Array.getElem?_map, Option.map_map]
    rfl
  have hid : ∀ n : Node, n.stripped.id = n.id := fun _ => rfl
  rw [find?, find?, hplace]
  exact findNear?_map hid _ _ _

theorem equalsWithin_stripped (a : Arena) (r : Registry) (fuel : Nat) :
    (Arena.mk r (a.nodes.map Node.stripped)).equalsWithin fuel = a.equalsWithin fuel := by
  induction fuel with
  | zero => rfl
  | succ fuel ih =>
    funext x y
    rw [equalsWithin, equalsWithin, find?_stripped, find?_stripped, ih]
    cases a.find? x with
    | none => rfl
    | some m => cases a.find? y <;> rfl

/-- Arenas whose nodes differ in attributes only compare them alike. -/
theorem equals_of_stripped {a' : Arena}
    (h : a'.nodes.map Node.stripped = a.nodes.map Node.stripped) : a'.equals = a.equals := by
  have hsize : a'.nodes.size = a.nodes.size := by
    simpa using congrArg Array.size h
  funext x y
  rw [equals, equals, hsize, ← equalsWithin_stripped a {}, ← equalsWithin_stripped a' {}, h]

/-- Structural equality is what its name says. -/
structure Structural (a : Arena) : Prop where
  /-- No comparison leads to others without end, -/
  ends : WellFounded a.Compares
  /-- so that to look deeper than there are nodes finds nothing more. -/
  settled : ∀ fuel, a.nodes.size ≤ fuel → ∀ x y, a.equalsWithin fuel x y = a.equals x y
  equivalence : Equivalence (fun x y => a.equals x y = true)
  distinct : ∀ x y, x ≠ y →
    (a.equals x y = true ↔ a.Matches (fun i j => a.equals i j = true) x y)
  unique : ∀ same : NodeId → NodeId → Bool,
    (∀ x y, same x y = true ↔ x = y ∨ a.Matches (fun i j => same i j = true) x y) →
      same = a.equals
  replaced : ∀ old new, a.equals old new = true → ∀ x y m n, a.find? x = some m →
    a.find? y = some n → m.mode = .value → n.mode = .value → m.kind = n.kind →
    Replaced old new (.list m.fields) (.list n.fields) → a.equals x y = true
  attributes : ∀ a' : Arena, a'.nodes.map Node.stripped = a.nodes.map Node.stripped →
    a'.equals = a.equals

theorem equals_structural (hacyclic : ∀ id, ¬TransGen a.Refers id id)
    (hnumbers : ∀ n ∈ a.nodes, ∀ v ∈ n.fields, ∀ x ∈ v.floats, x.isNaN = false) :
    a.Structural where
  ends := compares_wellFounded hacyclic
  settled _ h _ _ := equalsWithin_eq hacyclic h
  equivalence := ⟨a.equals_self, equals_symm hacyclic, equals_trans hacyclic⟩
  distinct _ _ hne := (equals_iff hacyclic).trans (or_iff_right hne)
  unique _ := equals_unique hacyclic
  replaced := by
    intro old new hnew x y m n hm hn hvalue hvalue' hkind hfields
    refine (equals_iff hacyclic).mpr (.inr ⟨m, n, hm, hn, hvalue, hvalue', hkind, ?_⟩)
    refine hfields.alike a.equals_self hnew fun z hz => ?_
    obtain ⟨v, hv, hz⟩ := mem_floatsOf.mp hz
    exact hnumbers m (mem_of_find? hm).1 v hv z hz
  attributes _ h := equals_of_stripped h

/-- Two sums of the same literals, each of which stands in a list with a zero. -/
def sums : Arena where
  nodes := #[
    { id := ⟨0⟩, kind := ⟨14⟩, mode := .value, fields := [.type .int64, .str "1"] },
    { id := ⟨1⟩, kind := ⟨14⟩, mode := .value, fields := [.type .int64, .str "1"] },
    { id := ⟨2⟩, kind := ⟨16⟩, mode := .value, fields := [.str "+", .node ⟨0⟩, .node ⟨1⟩] },
    { id := ⟨3⟩, kind := ⟨16⟩, mode := .value, fields := [.str "+", .node ⟨1⟩, .node ⟨0⟩] },
    { id := ⟨4⟩, kind := ⟨18⟩, mode := .value, fields := [.list [.float ⟨0⟩, .node ⟨2⟩]] },
    { id := ⟨5⟩, kind := ⟨18⟩, mode := .value,
      fields := [.list [.float ⟨0x8000000000000000⟩, .node ⟨3⟩]] }]

theorem equals_structural_sums : ((∀ id, ¬TransGen sums.Refers id id) ∧
    (∀ n ∈ sums.nodes, ∀ v ∈ n.fields, ∀ x ∈ v.floats, x.isNaN = false)) ∧
    sums.Structural ∧ sums.equals ⟨4⟩ ⟨5⟩ = true := by
  have hacyclic : ∀ id, ¬TransGen sums.Refers id id :=
    refers_irrefl_of_earlier (by decide)
  have hnumbers : ∀ n ∈ sums.nodes, ∀ v ∈ n.fields, ∀ x ∈ v.floats, x.isNaN = false := by
    decide
  exact ⟨⟨hacyclic, hnumbers⟩, equals_structural hacyclic hnumbers, by decide⟩

end Arena

end TypedSsa

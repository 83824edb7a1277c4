import Mathlib.Algebra.Order.BigOperators.Group.List
import Mathlib.Algebra.Order.Group.Nat
import TypedSsa.Proofs.Solving

/-!
Rounds on a cycle of copies and joins come to an end where types join well. Main statement:
`rounds_settle`. Where the join is total, commutative and associative, no node loses a type or gets
a lower one, so there are no more rounds that change something than steps that the nodes can rise.
-/

namespace TypedSsa

theorem countP_lt {α : Type} {p q : α → Bool} {xs : List α} (h : ∀ y ∈ xs, p y = true → q y = true)
    {x : α} (hx : x ∈ xs) (hq : q x = true) (hp : p x = false) : xs.countP p < xs.countP q := by
  obtain ⟨before, after, rfl⟩ := List.append_of_mem hx
  have hbefore := List.countP_mono_left fun y hy => h y (List.mem_append_left _ hy)
  have hafter := List.countP_mono_left fun y hy =>
    h y (List.mem_append_right before (List.mem_cons_of_mem x hy))
  rw [List.countP_append, List.countP_append, List.countP_cons_of_pos hq,
    List.countP_cons_of_neg (by simp [hp])]
  omega

namespace Lattice

variable {l : Lattice} {S : Ty → Prop} {a b c : Ty}

/-- The join with the higher of two types is the higher one. -/
def Below (l : Lattice) (a b : Ty) : Prop :=
  l.join a b = .ok b

instance (l : Lattice) (a b : Ty) : Decidable (l.Below a b) :=
  inferInstanceAs (Decidable (l.join a b = .ok b))

theorem below_refl (l : Lattice) (a : Ty) : l.Below a a :=
  if_pos rfl

/-- Types on which the join is total, commutative and associative. -/
structure Coherent (l : Lattice) (S : Ty → Prop) : Prop where
  total : ∀ a b, S a → S b → ∃ c, S c ∧ l.join a b = .ok c
  comm : ∀ a b, S a → S b → l.join a b = l.join b a
  assoc : ∀ a b c ab bc, S a → S b → S c → l.join a b = .ok ab → l.join b c = .ok bc →
    l.join ab c = l.join a bc

theorem coherent_single (l : Lattice) (ty : Ty) : l.Coherent (· = ty) where
  total := by
    rintro a b rfl rfl
    exact ⟨_, rfl, l.below_refl _⟩
  comm := by
    rintro a b rfl rfl
    rfl
  assoc := by
    rintro a b c ab bc rfl rfl rfl hab hbc
    obtain rfl := Except.ok.inj ((l.below_refl _).symm.trans hab)
    obtain rfl := Except.ok.inj ((l.below_refl _).symm.trans hbc)
    rfl

namespace Coherent

theorem below_trans (h : l.Coherent S) (ha : S a) (hb : S b) (hc : S c) (hab : l.Below a b)
    (hbc : l.Below b c) : l.Below a c :=
  (h.assoc a b c b c ha hb hc hab hbc).symm.trans hbc

theorem below_antisymm (h : l.Coherent S) (ha : S a) (hb : S b) (hab : l.Below a b)
    (hba : l.Below b a) : a = b :=
  Except.ok.inj (hba.symm.trans ((h.comm b a hb ha).trans hab))

theorem below_join_left (h : l.Coherent S) (ha : S a) (hb : S b) (hab : l.join a b = .ok c) :
    l.Below a c :=
  (h.assoc a a b a c ha ha hb (l.below_refl a) hab).symm.trans hab

theorem below_join_right (h : l.Coherent S) (ha : S a) (hb : S b) (hab : l.join a b = .ok c) :
    l.Below b c :=
  h.below_join_left hb ha ((h.comm b a hb ha).trans hab)

theorem join_below (h : l.Coherent S) {d : Ty} (ha : S a) (hb : S b) (hd : S d) (had : l.Below a d)
    (hbd : l.Below b d) (hab : l.join a b = .ok c) : l.Below c d :=
  (h.assoc a b d c d ha hb hd hab hbd).trans had

/-- The join of a list is its least upper bound. -/
theorem joinAll (h : l.Coherent S) {xs : List Ty} (hxs : ∀ x ∈ xs, S x) (hne : xs ≠ []) :
    ∃ v, l.joinAll xs = .ok (some (.joined v)) ∧ S v ∧ (∀ x ∈ xs, l.Below x v) ∧
      ∀ d, S d → (∀ x ∈ xs, l.Below x d) → l.Below v d := by
  obtain ⟨x, xs, rfl⟩ := List.exists_cons_of_ne_nil hne
  have hfold : ∀ (xs : List Ty) (u : Ty), S u → (∀ x ∈ xs, S x) →
      ∃ v, xs.foldlM l.extend (.joined u) = .ok (.joined v) ∧ S v ∧ l.Below u v ∧
        (∀ x ∈ xs, l.Below x v) ∧
        ∀ d, S d → l.Below u d → (∀ x ∈ xs, l.Below x d) → l.Below v d := by
    intro xs
    induction xs with
    | nil => exact fun u hu _ => ⟨u, rfl, hu, l.below_refl u, by simp, fun _ _ hud _ => hud⟩
    | cons x xs ih =>
      intro u hu hxs
      have hx := hxs x (by simp)
      obtain ⟨w, hw, hjoin⟩ := h.total u x hu hx
      obtain ⟨v, hv, hvS, hwv, hall, hleast⟩ := ih w hw (fun y hy => hxs y (by simp [hy]))
      have hextend : l.extend (.joined u) x = .ok (.joined w) := by
        rw [extend, joinOrFallback, hjoin]
      refine ⟨v, ?_, hvS, ?_, List.forall_mem_cons.mpr ⟨?_, hall⟩, fun d hd hud hxsd => ?_⟩
      · rw [List.foldlM_cons, hextend]
        exact hv
      · exact h.below_trans hu hw hvS (h.below_join_left hu hx hjoin) hwv
      · exact h.below_trans hx hw hvS (h.below_join_right hu hx hjoin) hwv
      · exact hleast d hd (h.join_below hu hx hd hud (hxsd x (by simp)) hjoin)
          (fun y hy => hxsd y (by simp [hy]))
  obtain ⟨v, hv, hvS, hxv, hall, hleast⟩ := hfold xs x (hxs x (by simp))
      (fun y hy => hxs y (by simp [hy]))
  refine ⟨v, ?_, hvS, List.forall_mem_cons.mpr ⟨hxv, hall⟩, fun d hd hxsd => ?_⟩
  · rw [Lattice.joinAll, hv]
    rfl
  · exact hleast d hd (hxsd x (by simp)) (fun y hy => hxsd y (by simp [hy]))

end Coherent

/-! Types that some types generate. -/

inductive Generated (l : Lattice) (G : List Ty) : Ty → Prop where
  | base {a : Ty} (ha : a ∈ G) : Generated l G a
  | join {a b c : Ty} (ha : Generated l G a) (hb : Generated l G b) (hc : l.join a b = .ok c) :
    Generated l G c

theorem Generated.within {G : List Ty} (h : l.Coherent S) (hG : ∀ x ∈ G, S x)
    (ha : l.Generated G a) :
    S a := by
  induction ha with
  | base ha => exact hG _ ha
  | @join a b c _ _ hc iha ihb =>
    obtain ⟨c', hc', hjoin⟩ := h.total a b iha ihb
    exact Except.ok.inj (hjoin.symm.trans hc) ▸ hc'

theorem Coherent.generated {G : List Ty} (h : l.Coherent S) (hG : ∀ x ∈ G, S x) :
    l.Coherent (l.Generated G) where
  total a b ha hb := by
    obtain ⟨c, -, hc⟩ := h.total a b (ha.within h hG) (hb.within h hG)
    exact ⟨c, .join ha hb hc, hc⟩
  comm a b ha hb := h.comm a b (ha.within h hG) (hb.within h hG)
  assoc a b c ab bc ha hb hc :=
    h.assoc a b c ab bc (ha.within h hG) (hb.within h hG) (hc.within h hG)

/-- How far up a type is: the number of generators below it. -/
def rank (l : Lattice) (G : List Ty) : Option Ty → Nat
  | none => 0
  | some a => G.countP (l.Below · a)

theorem rank_le (l : Lattice) (G : List Ty) (a : Option Ty) : l.rank G a ≤ G.length := by
  cases a with
  | none => exact Nat.zero_le _
  | some a => exact List.countP_le_length

/-- A missing type is below all others. -/
def BelowOption (l : Lattice) (a b : Option Ty) : Prop :=
  ∀ x, a = some x → ∃ y, b = some y ∧ l.Below x y

theorem belowOption_refl (l : Lattice) (a : Option Ty) : l.BelowOption a a :=
  fun x hx => ⟨x, hx, l.below_refl x⟩

namespace Coherent

variable {G : List Ty}

theorem belowOption_trans (h : l.Coherent S) {a b c : Option Ty} (ha : ∀ x, a = some x → S x)
    (hb : ∀ x, b = some x → S x) (hc : ∀ x, c = some x → S x) (hab : l.BelowOption a b)
    (hbc : l.BelowOption b c) : l.BelowOption a c := by
  intro x hx
  obtain ⟨y, hy, hxy⟩ := hab x hx
  obtain ⟨z, hz, hyz⟩ := hbc y hy
  exact ⟨z, hz, h.below_trans (ha x hx) (hb y hy) (hc z hz) hxy hyz⟩

theorem rank_mono (h : l.Coherent (l.Generated G)) {a b : Option Ty}
    (ha : ∀ x, a = some x → l.Generated G x) (hb : ∀ x, b = some x → l.Generated G x)
    (hab : l.BelowOption a b) : l.rank G a ≤ l.rank G b := by
  cases a with
  | none => exact Nat.zero_le _
  | some a =>
    obtain ⟨b, rfl, hbelow⟩ := hab a rfl
    refine List.countP_mono_left fun x hx hxa => ?_
    rw [decide_eq_true_iff] at hxa ⊢
    exact h.below_trans (.base hx) (ha a rfl) (hb b rfl) hxa hbelow

/-- A type that is above all generators of another is above it. -/
theorem below_of_base (h : l.Coherent (l.Generated G)) (ha : l.Generated G a) (hb : l.Generated G b)
    (hbase : ∀ x ∈ G, l.Below x a → l.Below x b) : l.Below a b := by
  induction ha with
  | base ha => exact hbase _ ha (l.below_refl _)
  | @join a c d ha hc hd iha ihc =>
    have hda : l.Below a d := h.below_join_left ha hc hd
    have hdc : l.Below c d := h.below_join_right ha hc hd
    have hd' : l.Generated G d := .join ha hc hd
    exact h.join_below ha hc hb
      (iha fun x hx hxa => hbase x hx (h.below_trans (.base hx) ha hd' hxa hda))
      (ihc fun x hx hxc => hbase x hx (h.below_trans (.base hx) hc hd' hxc hdc)) hd

theorem exists_base_below (h : l.Coherent (l.Generated G)) (ha : l.Generated G a) :
    ∃ x ∈ G, l.Below x a := by
  induction ha with
  | base ha => exact ⟨_, ha, l.below_refl _⟩
  | @join a c d ha hc hd iha _ =>
    obtain ⟨x, hx, hxa⟩ := iha
    exact ⟨x, hx, h.below_trans (.base hx) ha (.join ha hc hd) hxa (h.below_join_left ha hc hd)⟩

theorem rank_lt (h : l.Coherent (l.Generated G)) {a b : Option Ty}
    (ha : ∀ x, a = some x → l.Generated G x) (hb : ∀ x, b = some x → l.Generated G x)
    (hab : l.BelowOption a b) (hne : a ≠ b) : l.rank G a < l.rank G b := by
  cases b with
  | none =>
    cases a with
    | none => exact absurd rfl hne
    | some a =>
      obtain ⟨y, hy, -⟩ := hab a rfl
      cases hy
  | some b =>
    have hgb := hb b rfl
    cases a with
    | none =>
      obtain ⟨x, hx, hxb⟩ := h.exists_base_below hgb
      exact List.countP_pos_iff.mpr ⟨x, hx, decide_eq_true hxb⟩
    | some a =>
      have hga := ha a rfl
      obtain ⟨_, hb', hbelow⟩ := hab a rfl
      obtain rfl := Option.some.inj hb'
      -- some generator is below the one and not below the other, for else they would be equal
      obtain ⟨x, hx, hxb, hxa⟩ : ∃ x ∈ G, l.Below x b ∧ ¬l.Below x a := by
        by_contra hnone
        have hba := h.below_of_base hgb hga fun x hx hxb =>
          Classical.byContradiction fun hxa => hnone ⟨x, hx, hxb, hxa⟩
        exact hne (congrArg some (h.below_antisymm hga hgb hbelow hba))
      refine countP_lt (fun y hy hya => ?_) hx (decide_eq_true hxb) (by simpa using hxa)
      rw [decide_eq_true_iff] at hya ⊢
      exact h.below_trans (.base hy) hga hgb hya hbelow

end Coherent

end Lattice

/-- A rule that only hands on the types of other nodes. -/
inductive TypeRule.Flows : TypeRule → Prop where
  | copy (source : TypeNodeId) : Flows (.copy source)
  | join (inputs : List TypeNodeId) : Flows (.join inputs)

namespace Resolver.Plain

variable {r : Resolver} {g : TypeGraph} {G : List Ty} {members : List TypeNodeId}

/-- A node that depends on another hands types on, unless it applies a rule. -/
theorem flows_of_dependsOn (h : g.AppliesNone) {m d : TypeNodeId} (hd : g.DependsOn m d) :
    (ruleOf g m).Flows := by
  have hmem := hd.1
  rw [← dependencies_ruleOf] at hmem
  rw [ruleOf] at hmem ⊢
  cases hrule : g.rule? m with
  | none =>
    rw [hrule] at hmem
    cases hmem
  | some rule =>
    rw [hrule] at hmem
    cases rule with
    | constant ty => cases hmem
    | undefined => cases hmem
    | copy source => exact .copy source
    | join inputs => exact .join inputs
    | apply name args => exact absurd hrule (h m name args)

/-- A component on a cycle hands types on. -/
theorem flows_of_cyclic (h : g.AppliesNone) {c : Component} (hc : c ∈ g.condense.order)
    (hcyclic : c.cyclic = true) : ∀ m ∈ c.members, (ruleOf g m).Flows := by
  intro m hm
  have hcycle := g.condense_schedule.cycle_of_mem hc hcyclic hm
  obtain ⟨d, hd, -⟩ := Relation.TransGen.head'_iff.mp hcycle
  exact flows_of_dependsOn h hd

/-- The types that are found are generated. -/
def Known (r : Resolver) (G : List Ty) (ty : Option Ty) : Prop :=
  ∀ x, ty = some x → r.lattice.Generated G x

/-- What is looked up among generated types is generated, and rises with them. -/
theorem evaluate_rises (h : r.lattice.Coherent (r.lattice.Generated G)) {rule : TypeRule}
    (hrule : rule.Flows) {lookup lookup' : TypeNodeId → Option Ty}
    (hlookup : ∀ d ∈ rule.dependencies, Known r G (lookup d))
    (hlookup' : ∀ d ∈ rule.dependencies, Known r G (lookup' d))
    (hbelow : ∀ d ∈ rule.dependencies, r.lattice.BelowOption (lookup d) (lookup' d)) :
    Known r G (evaluate r lookup rule).ty ∧
      r.lattice.BelowOption (evaluate r lookup rule).ty (evaluate r lookup' rule).ty := by
  cases hrule with
  | copy source =>
    have hsource : source ∈ (TypeRule.copy source).dependencies := List.mem_singleton_self source
    exact ⟨hlookup source hsource, hbelow source hsource⟩
  | join inputs =>
    have hknown : ∀ lookup : TypeNodeId → Option Ty, (∀ d ∈ inputs, Known r G (lookup d)) →
        ∀ ty ∈ inputs.filterMap lookup, r.lattice.Generated G ty := by
      intro lookup hlookup ty hty
      obtain ⟨d, hd, hty⟩ := List.mem_filterMap.mp hty
      exact hlookup d hd ty hty
    by_cases hne : inputs.filterMap lookup = []
    · rw [evaluate, evaluateJoin, hne]
      exact ⟨by simp [Lattice.joinAll, Known], by simp [Lattice.joinAll, Lattice.BelowOption]⟩
    obtain ⟨v, hv, hgv, -, hleast⟩ := h.joinAll (hknown lookup hlookup) hne
    have hne' : inputs.filterMap lookup' ≠ [] := by
      obtain ⟨x, hx⟩ := List.exists_mem_of_ne_nil _ hne
      obtain ⟨d, hd, hx⟩ := List.mem_filterMap.mp hx
      obtain ⟨y, hy, -⟩ := hbelow d hd x hx
      exact List.ne_nil_of_mem (List.mem_filterMap.mpr ⟨d, hd, hy⟩)
    obtain ⟨v', hv', hgv', hupper, -⟩ := h.joinAll (hknown lookup' hlookup') hne'
    rw [evaluate, evaluate, evaluateJoin, evaluateJoin, hv, hv']
    refine ⟨fun ty hty => Option.some.inj hty ▸ hgv, fun x hx => ⟨v', rfl, ?_⟩⟩
    obtain rfl := Option.some.inj hx
    refine hleast v' hgv' fun x hx => ?_
    obtain ⟨d, hd, hx⟩ := List.mem_filterMap.mp hx
    obtain ⟨y, hy, hxy⟩ := hbelow d hd x hx
    have hgx := hlookup d hd x hx
    have hgy := hlookup' d hd y hy
    exact h.below_trans hgx hgy hgv' hxy (hupper y (List.mem_filterMap.mpr ⟨d, hd, hy⟩))

theorem known_dependencies {types : Types} {m : TypeNodeId} (hsize : types.size = g.size)
    (h : ∀ d, g.DependsOn m d → Known r G (types.get d)) :
    ∀ d ∈ (ruleOf g m).dependencies, Known r G (types.get d) := by
  intro d hd
  rw [dependencies_ruleOf] at hd
  by_cases hin : d.raw < g.size
  · exact h d ⟨hd, hin⟩
  · rw [Types.get_of_le (hsize ▸ Nat.le_of_not_lt hin)]
    exact fun x hx => nomatch hx

/-- Types on some nodes, and on what these depend on, that no rule lowers. -/
structure Rising (r : Resolver) (g : TypeGraph) (G : List Ty) (members : List TypeNodeId)
    (types : Types) : Prop where
  size : types.size = g.size
  inner : ∀ m ∈ members, Known r G (types.get m)
  outer : ∀ m ∈ members, ∀ d, g.DependsOn m d → Known r G (types.get d)
  rising : ∀ m ∈ members, r.lattice.BelowOption (types.get m) (outcome r g types m).ty

/-- How far the types of some nodes are up, all in all. -/
def height (l : Lattice) (G : List Ty) (members : List TypeNodeId) (types : Types) : Nat :=
  (members.map (fun m => l.rank G (types.get m))).sum

theorem height_le (l : Lattice) (G : List Ty) (members : List TypeNodeId) (types : Types) :
    height l G members types ≤ G.length * members.length := by
  have hle : ∀ n ∈ members.map (fun m => l.rank G (types.get m)), n ≤ G.length := by
    intro n hn
    obtain ⟨m, -, rfl⟩ := List.mem_map.mp hn
    exact l.rank_le G _
  have hsum := List.sum_le_card_nsmul _ G.length hle
  rw [List.length_map] at hsum
  exact Nat.le_trans hsum (Nat.le_of_eq (Nat.mul_comm members.length G.length))

namespace Rising

variable {types : Types} {id : TypeNodeId}

theorem looked (h : Rising r g G members types) {m : TypeNodeId} (hm : m ∈ members) :
    ∀ d ∈ (ruleOf g m).dependencies, Known r G (types.get d) :=
  known_dependencies h.size (h.outer m hm)

/-- Giving a node the type that its rule makes raises it, and keeps all rising. -/
theorem put (h : Rising r g G members types)
    (hcoherent : r.lattice.Coherent (r.lattice.Generated G))
    (hflows : ∀ m ∈ members, (ruleOf g m).Flows) (hid : id ∈ members) :
    Rising r g G members (types.put id (outcome r g types id).ty) ∧
      ∀ m ∈ members, r.lattice.BelowOption (types.get m)
        ((types.put id (outcome r g types id).ty).get m) := by
  have hoften : ∀ m ∈ members, Known r G (outcome r g types m).ty := fun m hm =>
    (evaluate_rises hcoherent (hflows m hm) (h.looked hm) (h.looked hm)
      fun d _ => r.lattice.belowOption_refl _).1
  have hget : ∀ m, (types.put id (outcome r g types id).ty).get m = types.get m ∨
      m = id ∧ (types.put id (outcome r g types id).ty).get m = (outcome r g types id).ty := by
    intro m
    rw [Types.get_put]
    split
    · rename_i hm
      exact .inr ⟨hm.1, rfl⟩
    · exact .inl rfl
  have hknown : ∀ m, Known r G (types.get m) →
      Known r G ((types.put id (outcome r g types id).ty).get m) := by
    intro m hm
    rcases hget m with heq | ⟨-, heq⟩
    · rwa [heq]
    · rw [heq]
      exact hoften id hid
  have hbelow : ∀ m, r.lattice.BelowOption (types.get m)
      ((types.put id (outcome r g types id).ty).get m) := by
    intro m
    rcases hget m with heq | ⟨rfl, heq⟩
    · rw [heq]
      exact r.lattice.belowOption_refl _
    · rw [heq]
      exact h.rising m hid
  generalize hput : types.put id (outcome r g types id).ty = types' at hget hknown hbelow ⊢
  have hsize : types'.size = g.size := by rw [← hput, Types.size_put, h.size]
  have hlooked : ∀ m ∈ members, ∀ d ∈ (ruleOf g m).dependencies, Known r G (types'.get d) :=
    fun m hm d hd => hknown d (h.looked hm d hd)
  refine ⟨⟨hsize, fun m hm => hknown m (h.inner m hm),
    fun m hm d hd => hknown d (h.outer m hm d hd), fun m hm => ?_⟩, fun m _ => hbelow m⟩
  have hrises := evaluate_rises hcoherent (hflows m hm) (h.looked hm) (hlooked m hm)
    fun d _ => hbelow d
  have hrises' := evaluate_rises hcoherent (hflows m hm) (hlooked m hm) (hlooked m hm)
    fun d _ => r.lattice.belowOption_refl _
  rcases hget m with heq | ⟨rfl, heq⟩
  · rw [heq]
    exact hcoherent.belowOption_trans (h.inner m hm) hrises.1 hrises'.1 (h.rising m hm) hrises.2
  · rw [heq]
    exact hrises.2

theorem height_mono {types' : Types} (h : Rising r g G members types)
    (h' : Rising r g G members types') (hcoherent : r.lattice.Coherent (r.lattice.Generated G))
    (hbelow : ∀ m ∈ members, r.lattice.BelowOption (types.get m) (types'.get m)) :
    height r.lattice G members types ≤ height r.lattice G members types' :=
  List.sum_le_sum fun m hm => hcoherent.rank_mono (h.inner m hm) (h'.inner m hm) (hbelow m hm)

theorem height_lt {types' : Types} (h : Rising r g G members types)
    (h' : Rising r g G members types') (hcoherent : r.lattice.Coherent (r.lattice.Generated G))
    (hbelow : ∀ m ∈ members, r.lattice.BelowOption (types.get m) (types'.get m))
    (hid : id ∈ members) (hne : types.get id ≠ types'.get id) :
    height r.lattice G members types < height r.lattice G members types' :=
  List.sum_lt_sum _ _
    (fun m hm => hcoherent.rank_mono (h.inner m hm) (h'.inner m hm) (hbelow m hm))
    ⟨id, hid, hcoherent.rank_lt (h.inner id hid) (h'.inner id hid) (hbelow id hid) hne⟩

/-- A round keeps all rising, and raises some node if it changes something. -/
theorem round (h : Rising r g G members types)
    (hcoherent : r.lattice.Coherent (r.lattice.Generated G))
    (hflows : ∀ m ∈ members, (ruleOf g m).Flows) (hin : ∀ m ∈ members, m.raw < g.size) :
    Rising r g G members (runRound r g members types).types ∧
      ((runRound r g members types).changed = true → height r.lattice G members types <
        height r.lattice G members (runRound r g members types).types) := by
  suffices ∀ (todo : List TypeNodeId) (now : Round), todo ⊆ members →
      Rising r g G members now.types →
      height r.lattice G members types ≤ height r.lattice G members now.types →
      (now.changed = true →
        height r.lattice G members types < height r.lattice G members now.types) →
      Rising r g G members (todo.foldl (step r g) now).types ∧
        ((todo.foldl (step r g) now).changed = true → height r.lattice G members types <
          height r.lattice G members (todo.foldl (step r g) now).types) from
    this members { types := types } (List.Subset.refl _) h (Nat.le_refl _) (by simp)
  intro todo
  induction todo with
  | nil => exact fun _ _ h _ hlt => ⟨h, hlt⟩
  | cons id todo ih =>
    intro now hsub hnow hle hlt
    have hid : id ∈ members := hsub (by simp)
    obtain ⟨hput, hbelow⟩ := hnow.put hcoherent hflows hid
    have hup := hnow.height_mono hput hcoherent hbelow
    refine ih (step r g now id) (fun m hm => hsub (List.mem_cons_of_mem id hm)) hput
      (hle.trans hup) (fun hchanged => ?_)
    by_cases hsame : now.types.get id = (outcome r g now.types id).ty
    · have hold : now.changed = true := by
        rw [step, Bool.or_eq_true] at hchanged
        exact hchanged.resolve_right (by simpa [outcome] using hsame)
      exact Nat.lt_of_lt_of_le (hlt hold) hup
    · have hchange :
          now.types.get id ≠ (now.types.put id (outcome r g now.types id).ty).get id := by
        rw [Types.get_put, if_pos ⟨rfl, hnow.size ▸ hin id hid⟩]
        exact hsame
      exact Nat.lt_of_le_of_lt hle (hnow.height_lt hput hcoherent hbelow hid hchange)

/-- There are no more rounds that change something than steps to rise. -/
theorem settle {left past : Nat} (h : Rising r g G members types)
    (hcoherent : r.lattice.Coherent (r.lattice.Generated G))
    (hflows : ∀ m ∈ members, (ruleOf g m).Flows) (hin : ∀ m ∈ members, m.raw < g.size)
    (hleft : G.length * members.length < left + height r.lattice G members types) :
    ∃ now, (settle r g members left past types).settled = some now ∧
      Rising r g G members now.types := by
  induction left generalizing past types with
  | zero =>
    have hle := height_le r.lattice G members types
    omega
  | succ left ih =>
    obtain ⟨hround, hlt⟩ := h.round hcoherent hflows hin
    rw [Plain.settle]
    cases hchanged : (runRound r g members types).changed with
    | false => exact ⟨_, rfl, hround⟩
    | true =>
      have hlt := hlt hchanged
      exact ih hround (by omega)

end Rising

/-- Rounds come to an end if what the nodes depend on has types that join well: there are enough if
there are more than steps from nothing to the top. -/
theorem rounds_settle {left : Nat} {types : Types} {S : Ty → Prop}
    (hcoherent : r.lattice.Coherent S)
    (hG : ∀ x ∈ G, S x) (hsize : types.size = g.size)
    (hflows : ∀ m ∈ members, (ruleOf g m).Flows) (hin : ∀ m ∈ members, m.raw < g.size)
    (houtside : ∀ m ∈ members, ∀ d, g.DependsOn m d → d ∉ members → ∀ ty, types.get d = some ty →
      ty ∈ G)
    (hleft : G.length * members.length < left) :
    ∃ types', SettlesTo r g members left (entering members types) types' ∧
      ∀ m ∈ members, Known r G (types'.get m) := by
  have hrising : Rising r g G members (entering members types) := by
    refine ⟨(entering_size _ _).trans hsize, fun m hm => ?_,
      fun m hm d hd => ?_, fun m hm => ?_⟩
    · rw [entering_get, if_pos hm]
      exact fun x hx => nomatch hx
    · rw [entering_get]
      split
      · exact fun x hx => nomatch hx
      · rename_i hout
        exact fun x hx => .base (houtside m hm d hd hout x hx)
    · rw [entering_get, if_pos hm]
      exact fun x hx => nomatch hx
  obtain ⟨now, hnow, hfinal⟩ := hrising.settle (hcoherent.generated hG) hflows hin
    (Nat.lt_of_lt_of_le hleft (Nat.le_add_right _ _))
  exact ⟨now.types, ⟨now, hnow, fun _ _ => rfl⟩, hfinal.inner⟩

end Resolver.Plain

end TypedSsa

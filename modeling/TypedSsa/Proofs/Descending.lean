import Mathlib.Data.Finset.Card
import TypedSsa.Proofs.Minding

/-!
When lowering comes to an end. Main statements: `lower_tooDeep_iff` and `lowerTo_tooDeep`. It does
unless it comes to a statement that is nested in itself, and then no depth is enough.
-/

namespace TypedSsa
open Relation

/-! Steps one after the other. -/

section
variable {α β : Type} {R : α → α → Prop} {x y : α} {m n : Nat}

/-- So many steps can be taken. -/
def Deep (R : α → α → Prop) : Nat → α → Prop
  | 0, _ => True
  | n + 1, x => ∃ y, R x y ∧ Deep R n y

theorem Deep.mono (hle : m ≤ n) (h : Deep R n x) : Deep R m x := by
  induction m generalizing n x with
  | zero => exact trivial
  | succ m ih =>
    cases n with
    | zero => exact absurd hle (Nat.not_succ_le_zero m)
    | succ n =>
      obtain ⟨y, hxy, hy⟩ := h
      exact ⟨y, hxy, ih (Nat.le_of_succ_le_succ hle) hy⟩

theorem deep_of_cycle (h : TransGen R x x) (n : Nat) : Deep R n x := by
  induction n generalizing x with
  | zero => exact trivial
  | succ n ih =>
    obtain ⟨y, hxy, hback⟩ := TransGen.head'_iff.mp h
    exact ⟨y, hxy, ih (.tail' hback hxy)⟩

/-- Steps lead to what they come back to. -/
def Endless (R : α → α → Prop) (x : α) : Prop :=
  ∃ y, ReflTransGen R x y ∧ TransGen R y y

theorem endless_iff : Endless R x ↔ ∃ y, R x y ∧ Endless R y := by
  constructor
  · intro ⟨z, hxz, hcycle⟩
    rcases hxz.cases_head with rfl | ⟨y, hxy, hyz⟩
    · obtain ⟨y, hxy, hback⟩ := TransGen.head'_iff.mp hcycle
      exact ⟨y, hxy, x, hback, hcycle⟩
    · exact ⟨y, hxy, z, hyz, hcycle⟩
  · intro ⟨y, hxy, z, hyz, hcycle⟩
    exact ⟨z, .head hxy hyz, hcycle⟩

/-- Without an end there is no last step. -/
theorem Endless.deep (h : Endless R x) (n : Nat) : Deep R n x := by
  obtain ⟨y, hxy, hcycle⟩ := h
  induction hxy using ReflTransGen.head_induction_on generalizing n with
  | refl => exact deep_of_cycle hcycle n
  | head hxz _ ih =>
    cases n with
    | zero => exact trivial
    | succ n => exact ⟨_, hxz, ih n⟩

theorem Deep.chain (h : Deep R n x) : ∃ f : Nat → α, f 0 = x ∧ ∀ i < n, R (f i) (f (i + 1)) := by
  induction n generalizing x with
  | zero => exact ⟨fun _ => x, rfl, nofun⟩
  | succ n ih =>
    obtain ⟨y, hxy, hy⟩ := h
    obtain ⟨f, rfl, hf⟩ := ih hy
    refine ⟨fun i => i.casesOn x f, rfl, fun i hi => ?_⟩
    cases i with
    | zero => exact hxy
    | succ i => exact hf i (Nat.lt_of_succ_lt_succ hi)

theorem reach_of_chain {f : Nat → α} (hf : ∀ i < n, R (f i) (f (i + 1))) {i j : Nat} (hij : i ≤ j)
    (hj : j ≤ n) : ReflTransGen R (f i) (f j) := by
  induction j, hij using Nat.le_induction with
  | base => exact .refl
  | succ j _ ih => exact (ih (by omega)).tail (hf j hj)

/-- Among as many steps as there are keys some key comes again. -/
theorem Deep.exists_again (key : α → β) {keys : Finset β} (h : Deep R keys.card x)
    (hx : key x ∈ keys) (hstep : ∀ u w, R u w → key w ∈ keys) :
    ∃ u w, ReflTransGen R x u ∧ TransGen R u w ∧ key u = key w := by
  obtain ⟨f, rfl, hf⟩ := h.chain
  have hkeys : ∀ i ∈ Finset.range (keys.card + 1), key (f i) ∈ keys := by
    intro i hi
    cases i with
    | zero => exact hx
    | succ i => exact hstep _ _ (hf i (Nat.lt_of_succ_lt_succ (Finset.mem_range.mp hi)))
  have hagain : ∀ i j, i < j → j < keys.card + 1 →
      ReflTransGen R (f 0) (f i) ∧ TransGen R (f i) (f j) := fun i j hij hj =>
    ⟨reach_of_chain hf (Nat.zero_le i) (by omega),
      .head' (hf i (by omega)) (reach_of_chain hf hij (by omega))⟩
  have hcard : keys.card < (Finset.range (keys.card + 1)).card := by
    rw [Finset.card_range]
    exact Nat.lt_succ_self _
  obtain ⟨i, hi, j, hj, hne, hsame⟩ := Finset.exists_ne_map_eq_of_card_lt_of_maps_to hcard hkeys
  rcases Nat.lt_or_gt_of_ne hne with hlt | hlt
  · obtain ⟨hreach, hcycle⟩ := hagain i j hlt (Finset.mem_range.mp hj)
    exact ⟨f i, f j, hreach, hcycle, hsame⟩
  · obtain ⟨hreach, hcycle⟩ := hagain j i hlt (Finset.mem_range.mp hi)
    exact ⟨f j, f i, hreach, hcycle, hsame.symm⟩

end

/-- Taking a list in order comes to an item past those before it. -/
inductive InTurn {α : Type} (passes : α → Prop) : List α → α → Prop
  | here {x : α} {xs : List α} : InTurn passes (x :: xs) x
  | later {x y : α} {xs : List α} : passes x → InTurn passes xs y → InTurn passes (x :: xs) y

theorem InTurn.mem {α : Type} {passes : α → Prop} {xs : List α} {x : α} (h : InTurn passes xs x) :
    x ∈ xs := by
  induction h with
  | here => exact List.mem_cons_self
  | later _ _ ih => exact List.mem_cons_of_mem _ ih

theorem InTurn.mono {α : Type} {passes passes' : α → Prop} {xs : List α} {x : α}
    (h : InTurn passes xs x) (hpasses : ∀ y, passes y → passes' y) : InTurn passes' xs x := by
  induction h with
  | here => exact .here
  | later hx _ ih => exact .later (hpasses _ hx) ih

/-! Statements inside of each other. -/

namespace Statement

def isLoop : Statement → Bool
  | whileLoop _ _ | forLoop _ => true
  | _ => false

/-- A statement that has to stand in a loop. -/
def leaves : Statement → Bool
  | breakStmt | continueStmt => true
  | _ => false

end Statement

namespace Arena

/-- Lowering comes to the end of a statement, inside of a loop or not. -/
inductive Passes (a : Arena) : Bool → NodeId → Prop
  | intro {looped : Bool} {id : NodeId} {s : Statement} : a.statement id = .ok s →
      (s.leaves = true → looped = true) →
      (∀ k ∈ a.inner s, Passes a (looped || s.isLoop) k) → Passes a looped id

/-- From a statement lowering comes to another that stands right inside of it. -/
def Enters (a : Arena) (x y : Bool × NodeId) : Prop :=
  ∃ s, a.statement x.2 = .ok s ∧ y.1 = (x.1 || s.isLoop) ∧ InTurn (a.Passes y.1) (a.inner s) y.2

/-- Lowering comes to a statement that is nested in itself. -/
def Descends (a : Arena) (body : List NodeId) : Prop :=
  ∃ id, InTurn (a.Passes false) body id ∧ Endless a.Enters (false, id)

variable {a : Arena} {s : Statement} {id handler : NodeId} {ids body handlers : List NodeId}
  {looped : Bool} {fuel n : Nat}

/-! What is known of the nodes. -/

theorem forM_append (f : NodeId → Except Halt PUnit) (ids ids' : List NodeId) :
    (ids ++ ids').forM f = (ids.forM f >>= fun _ => ids'.forM f) :=
  List.forM_append

theorem forM_handlers {f : NodeId → Except Halt PUnit}
    (hread : ∀ handler ∈ handlers, ∃ caught, a.handlerBody handler = .ok caught) :
    handlers.forM (fun handler => do
      let caught ← (a.handlerBody handler).mapError (fun _ => .unfit)
      caught.forM f) =
    (handlers.flatMap (fun handler => (a.handlerBody handler).toOption.getD [])).forM f := by
  induction handlers with
  | nil => rfl
  | cons handler handlers ih =>
    obtain ⟨caught, hcaught⟩ := hread handler List.mem_cons_self
    rw [List.flatMap_cons, hcaught, forM_append, ← ih (fun k hk => hread k (.tail _ hk))]
    change (Except.mapError _ (a.handlerBody handler) >>= _ >>= _) = _
    rw [hcaught]
    rfl

section
variable (h : a.Formed) (hbasic : a.Basic)
include h hbasic

theorem Formed.handlerBody_total (hs : a.statement id = .ok (.tryCatch body handlers))
    (hhandler : handler ∈ handlers) : ∃ caught, a.handlerBody handler = .ok caught := by
  obtain ⟨hk, -, hhandlers⟩ := readsStatement hs
  obtain ⟨v, hv, hcheck⟩ := h.field_of_builtin hbasic "handlers"
    (List.mem_of_getElem? (show Kind.builtin[7]? = some _ from rfl)) hk rfl
  obtain ⟨items, rfl, hitems⟩ := checkValue_list.mp hcheck
  obtain ⟨w, hw, hsame⟩ := except_map_ok.mp hhandlers
  obtain rfl := Except.ok.inj (hv.symm.trans hw)
  rw [← hsame] at hhandler
  obtain ⟨x, hx, hmem⟩ := mem_referencesOf.mp hhandler
  obtain ⟨k, kind, rfl, hkind, hname⟩ := checkValue_node.mp (hitems x hx)
  obtain rfl := List.mem_singleton.mp hmem
  exact h.listField_of_builtin hbasic "body"
    (List.mem_of_getElem? (show Kind.builtin[8]? = some _ from rfl)) (hname _ rfl ▸ hkind) rfl

theorem Formed.find?_of_inner (hs : a.statement id = .ok s) {k : NodeId} (hk : k ∈ a.inner s) :
    ∃ n, a.find? k = some n := by
  cases s with
  | ifElse | whileLoop | forLoop =>
    exact h.find?_of_leads (leads_of_statement hs (by simp_all [inner, Statement.parts]))
  | tryCatch body handlers =>
    rcases List.mem_append.mp hk with hk | hk
    · exact h.find?_of_leads (leads_of_statement hs (List.mem_append_left _ hk))
    · obtain ⟨handler, hhandler, hk⟩ := List.mem_flatMap.mp hk
      obtain ⟨caught, hcaught⟩ := h.handlerBody_total hbasic hs hhandler
      rw [hcaught] at hk
      exact h.find?_of_leads (leads_of_listField hcaught hk)
  | _ => cases hk

theorem Formed.halts_succ (hs : a.statement id = .ok s) : a.halts (fuel + 1) looped id =
    if s.leaves && !looped then .error .stray
    else (a.inner s).forM (a.halts fuel (looped || s.isLoop)) := by
  rw [Arena.halts_succ hs]
  cases s with
  | ifElse test body orelse =>
    have hlooped : (looped || (Statement.ifElse test body orelse).isLoop) = looped :=
      Bool.or_false looped
    rw [hlooped]
    exact (forM_append _ _ _).symm
  | whileLoop test body =>
    have hlooped : (looped || (Statement.whileLoop test body).isLoop) = true := Bool.or_true looped
    rw [hlooped]
    rfl
  | forLoop loop =>
    have hlooped : (looped || (Statement.forLoop loop).isLoop) = true := Bool.or_true looped
    rw [hlooped]
    rfl
  | tryCatch body handlers =>
    have hlooped : (looped || (Statement.tryCatch body handlers).isLoop) = looped :=
      Bool.or_false looped
    rw [hlooped]
    refine Eq.trans ?_ (forM_append _ _ _).symm
    rw [← forM_handlers (fun handler hhandler => h.handlerBody_total hbasic hs hhandler)]
    rfl
  | breakStmt | continueStmt => cases looped <;> rfl
  | assign | expr | returnStmt | raise => rfl

end

/-! A list, given what is known of each statement in it. -/

/-- What the outcome for a statement says, to some depth. -/
def Tells (outcome : Except Halt Unit) (passes deep : Prop) : Prop :=
  match outcome with
  | .ok () => passes ∧ ¬deep
  | .error .deep => deep
  | .error _ => ¬passes ∧ ¬deep

theorem tells_forM {outcomes : NodeId → Except Halt Unit} {passes deep : NodeId → Prop}
    (h : ∀ k ∈ ids, Tells (outcomes k) (passes k) (deep k)) :
    Tells (ids.forM outcomes) (∀ k ∈ ids, passes k) (∃ k, InTurn passes ids k ∧ deep k) := by
  induction ids with
  | nil => exact ⟨nofun, fun ⟨_, hnil, _⟩ => nomatch hnil⟩
  | cons k ids ih =>
    have hk := h k List.mem_cons_self
    have hids := ih (fun k hk => h k (List.mem_cons_of_mem _ hk))
    have hcons : (k :: ids).forM outcomes = (outcomes k >>= fun _ => ids.forM outcomes) := rfl
    rw [hcons]
    cases hout : outcomes k with
    | ok u =>
      rw [hout] at hk
      have hdeep : (∃ m, InTurn passes (k :: ids) m ∧ deep m) ↔
          ∃ m, InTurn passes ids m ∧ deep m := by
        constructor
        · intro ⟨m, hturn, hm⟩
          cases hturn with
          | here => exact absurd hm hk.2
          | later _ hturn => exact ⟨m, hturn, hm⟩
        · intro ⟨m, hturn, hm⟩
          exact ⟨m, .later hk.1 hturn, hm⟩
      have hpasses : (∀ m ∈ k :: ids, passes m) ↔ ∀ m ∈ ids, passes m := by
        rw [List.forall_mem_cons, and_iff_right hk.1]
      rw [hdeep, hpasses]
      exact hids
    | error halt =>
      rw [hout] at hk
      have hfirst : ¬passes k → ¬deep k → (¬∀ m ∈ k :: ids, passes m) ∧
          ¬∃ m, InTurn passes (k :: ids) m ∧ deep m := by
        intro hpasses hdeep
        refine ⟨fun hall => hpasses (hall k List.mem_cons_self), fun ⟨m, hturn, hm⟩ => ?_⟩
        cases hturn with
        | here => exact hdeep hm
        | later hk _ => exact hpasses hk
      cases halt with
      | deep => exact ⟨k, .here, hk⟩
      | unfit | stray => exact hfirst hk.1 hk.2

/-! Outcomes and descents. -/

section
variable (h : a.Formed) (hbasic : a.Basic)
include h hbasic

theorem Formed.halts_tells (n : Nat) (looped : Bool) (id : NodeId) :
    Tells (a.halts n looped id) (a.Passes looped id) (Deep a.Enters n (looped, id)) := by
  induction n generalizing looped id with
  | zero => exact trivial
  | succ n ih =>
    cases hs : a.statement id with
    | error e =>
      have hhalts : a.halts (n + 1) looped id = .error .unfit := by
        rw [halts, hs]
        rfl
      rw [hhalts]
      constructor
      · intro hpasses
        obtain ⟨hs', -, -⟩ := hpasses
        cases hs.symm.trans hs'
      · intro hdeep
        obtain ⟨y, ⟨s, hs', -⟩, -⟩ := hdeep
        cases hs.symm.trans hs'
    | ok s =>
      have hpasses : a.Passes looped id ↔ (s.leaves = true → looped = true) ∧
          ∀ k ∈ a.inner s, a.Passes (looped || s.isLoop) k := by
        constructor
        · intro hpasses
          obtain ⟨hs', hleaves, hinner⟩ := hpasses
          obtain rfl := Except.ok.inj (hs.symm.trans hs')
          exact ⟨hleaves, hinner⟩
        · intro hpasses
          exact .intro hs hpasses.1 hpasses.2
      have hdeep : Deep a.Enters (n + 1) (looped, id) ↔
          ∃ k, InTurn (a.Passes (looped || s.isLoop)) (a.inner s) k ∧
            Deep a.Enters n (looped || s.isLoop, k) := by
        constructor
        · intro hdeep
          obtain ⟨⟨b, k⟩, ⟨s', hs', hb, hturn⟩, hk⟩ := hdeep
          obtain rfl := Except.ok.inj (hs.symm.trans hs')
          subst hb
          exact ⟨k, hturn, hk⟩
        · intro hdeep
          obtain ⟨k, hturn, hk⟩ := hdeep
          exact ⟨(_, k), ⟨s, hs, rfl, hturn⟩, hk⟩
      rw [h.halts_succ hbasic hs, hpasses, hdeep]
      cases hstray : s.leaves && !looped with
      | true =>
        obtain ⟨hleaves, hlooped⟩ := Bool.and_eq_true_iff.mp hstray
        have hinner : a.inner s = [] := by
          cases s <;> first | rfl | cases hleaves
        constructor
        · intro hall
          rw [hall.1 hleaves] at hlooped
          cases hlooped
        · intro hdeep
          obtain ⟨k, hturn, -⟩ := hdeep
          rw [hinner] at hturn
          cases hturn
      | false =>
        have hleaves : s.leaves = true → looped = true := by
          intro hleaves
          rw [hleaves] at hstray
          simpa using hstray
        rw [and_iff_right hleaves]
        exact tells_forM (fun k _ => ih _ k)

theorem Formed.body_tells (n : Nat) (looped : Bool) (body : List NodeId) :
    Tells (body.forM (a.halts n looped)) (∀ id ∈ body, a.Passes looped id)
      (∃ id, InTurn (a.Passes looped) body id ∧ Deep a.Enters n (looped, id)) :=
  tells_forM (fun id _ => h.halts_tells hbasic n looped id)

omit h hbasic in
theorem Tells.deep_iff {outcome : Except Halt Unit} {passes deep : Prop}
    (htells : Tells outcome passes deep) : outcome = .error .deep ↔ deep := by
  constructor
  · intro houtcome
    rw [houtcome] at htells
    exact htells
  · intro hdeep
    match outcome, htells with
    | .ok (), htells => exact absurd hdeep htells.2
    | .error .deep, _ => rfl
    | .error .unfit, htells => exact absurd hdeep htells.2
    | .error .stray, htells => exact absurd hdeep htells.2

/-! Loops around. -/

omit h hbasic in
theorem Passes.inLoop (hpasses : a.Passes looped id) : a.Passes true id := by
  induction hpasses with
  | intro hs hleaves _ ih =>
    refine .intro hs (fun _ => rfl) (fun k hk => ?_)
    rw [Bool.true_or]
    exact ih k hk

omit h hbasic in
theorem Enters.inLoop {x y : Bool × NodeId} (hxy : a.Enters x y) :
    a.Enters (true, x.2) (true, y.2) := by
  obtain ⟨s, hs, -, hturn⟩ := hxy
  exact ⟨s, hs, (Bool.true_or _).symm, hturn.mono (fun _ hpasses => hpasses.inLoop)⟩

omit h hbasic in
theorem looped_of_enters {x y : Bool × NodeId} (hxy : TransGen a.Enters x y) (hx : x.1 = true) :
    y.1 = true := by
  induction hxy with
  | single hxy =>
    obtain ⟨s, -, hy, -⟩ := hxy
    rw [hy, hx, Bool.true_or]
  | tail _ hyz ih =>
    obtain ⟨s, -, hz, -⟩ := hyz
    rw [hz, ih, Bool.true_or]

omit h hbasic in
/-- What comes again as it was before, or with a loop around it, comes again and again. -/
theorem cycle_of_again {x y : Bool × NodeId} (hxy : TransGen a.Enters x y) (hsame : x.2 = y.2) :
    TransGen a.Enters y y := by
  by_cases hflag : x.1 = y.1
  · have hxy' : x = y := Prod.ext hflag hsame
    rwa [hxy'] at hxy
  · have hy : y.1 = true := by
      cases hx : x.1 with
      | true => exact looped_of_enters hxy hx
      | false => simpa [hx] using hflag
    have hlift : TransGen a.Enters (true, x.2) (true, y.2) :=
      TransGen.lift (fun z => (true, z.2)) (fun _ _ hstep => Enters.inLoop hstep) x y hxy
    have hend : y = (true, y.2) := Prod.ext hy rfl
    rw [hend]
    rwa [hsame] at hlift

/-- Statements that go deeper than there are nodes are nested in themselves. -/
theorem Formed.endless_of_deep {n : Node} (hn : a.find? id = some n)
    (hdeep : Deep a.Enters a.nodes.size (looped, id)) : Endless a.Enters (looped, id) := by
  have hstep : ∀ x y, a.Enters x y → y.2 ∈ (a.nodes.toList.map (·.id)).toFinset := by
    intro x y hxy
    obtain ⟨s, hs, -, hturn⟩ := hxy
    obtain ⟨m, hm⟩ := h.find?_of_inner hbasic hs hturn.mem
    exact mem_ids hm
  obtain ⟨x, y, hx, hxy, hsame⟩ :=
    (hdeep.mono a.card_ids_le).exists_again Prod.snd (mem_ids hn) hstep
  exact ⟨y, hx.trans hxy.to_reflTransGen, cycle_of_again hxy hsame⟩

/-- Lowering stops for how deep statements are nested if it comes to one that is nested in
itself. -/
theorem Formed.body_deep_iff (hbody : ∀ id ∈ body, ∃ n, a.find? id = some n) :
    body.forM (a.halts a.nodes.size false) = .error .deep ↔ a.Descends body := by
  rw [(h.body_tells hbasic _ false body).deep_iff]
  constructor
  · intro ⟨id, hturn, hdeep⟩
    obtain ⟨n, hn⟩ := hbody id hturn.mem
    exact ⟨id, hturn, h.endless_of_deep hbasic hn hdeep⟩
  · intro ⟨id, hturn, hendless⟩
    exact ⟨id, hturn, hendless.deep _⟩

/-- Then no depth is enough. -/
theorem Formed.deep_of_descends (hdescends : a.Descends body) (n : Nat) :
    body.forM (a.halts n false) = .error .deep := by
  rw [(h.body_tells hbasic n false body).deep_iff]
  obtain ⟨id, hturn, hendless⟩ := hdescends
  exact ⟨id, hturn, hendless.deep n⟩

end

end Arena

/-! Lowering. -/

/-- There is a fault that comes from how deep something is nested. -/
def TooDeep {α : Type} (result : Except Fault α) : Prop :=
  ∃ e, result = .error e ∧ Halt.deep.Causes e

theorem tooDeep_bind {α β : Type} {m : Except Fault α} {k : α → Except Fault β} :
    TooDeep (m >>= k) ↔ TooDeep m ∨ ∃ x, m = .ok x ∧ TooDeep (k x) := by
  simp only [TooDeep, except_bind_error]
  grind

theorem Halt.Causes.eq_deep {halt : Halt} {e : Fault} (h : halt.Causes e)
    (hdeep : Halt.deep.Causes e) : halt = .deep := by
  cases halt with
  | deep => rfl
  | unfit =>
    cases e with
    | schema => exact absurd hdeep h
    | _ => cases h
  | stray =>
    cases e with
    | illegal => cases hdeep
    | _ => cases h

theorem EndsAs.tooDeep_iff {α : Type} {outcome : Except Halt Unit} {result : Except Fault α}
    (h : EndsAs outcome result) : TooDeep result ↔ outcome = .error .deep := by
  constructor
  · intro ⟨e, he, hdeep⟩
    match outcome, h with
    | .ok (), h =>
      obtain ⟨x, hx⟩ := h
      cases hx.symm.trans he
    | .error halt, h =>
      obtain ⟨e', he', hcauses⟩ := h
      obtain rfl := Except.error.inj (he'.symm.trans he)
      rw [hcauses.eq_deep hdeep]
  · intro houtcome
    rw [houtcome] at h
    exact h

/-- The statements of a function's body, lowered to some depth. -/
def FlowGraph.lowerTo (a : Arena) (view : FunctionView) (depth : Nat) :
    Except Fault (PUnit × Lowering) :=
  (view.body.forM (LowerM.statement a depth {})).run
    ⟨FlowGraph.new view.name, (FlowGraph.new view.name).entry⟩

section
variable {a : Arena} {fn : NodeId} {view : FunctionView} (h : a.Formed) (hbasic : a.Basic)
include h hbasic

/-- Making the graph of a function goes too deep if it comes to a statement that is nested in
itself. -/
theorem lower_tooDeep_iff (hview : a.function fn = .ok view) :
    TooDeep (FlowGraph.lower a view) ↔ a.Descends view.body := by
  rw [(FlowGraph.lower_halts a view).tooDeep_iff]
  exact h.body_deep_iff hbasic (fun id hid => h.find?_of_leads (Arena.leads_of_function hview hid))

/-- However deep it goes, it does not come to an end then. -/
theorem lowerTo_tooDeep (hdescends : a.Descends view.body) (depth : Nat) :
    TooDeep (FlowGraph.lowerTo a view depth) := by
  have hmeets := FlowGraph.body_meets a depth view.body _ (FlowGraph.start_knows view.name)
  rw [h.deep_of_descends hbasic hdescends depth] at hmeets
  exact hmeets

end

end TypedSsa

import Mathlib.Algebra.GroupWithZero.Nat
import TypedSsa.Proofs.Condensing
import TypedSsa.Proofs.Remembering

/-!
Resolving a graph component by component. Main statements: `resolve_solved` and
`resolve_component`. What holds after some components stays: no later component changes a type that
an earlier one looked at. So the types that a component was resolved with are those at the end.
-/

namespace TypedSsa

namespace Types

theorem get_put (types : Types) (id m : TypeNodeId) (ty : Option Ty) :
    (types.put id ty).get m = if m = id ∧ m.raw < types.size then ty else types.get m := by
  rw [get, put, Array.getElem?_setIfInBounds, get]
  by_cases h : id.raw = m.raw
  · obtain rfl := Ident.raw_inj id m h
    by_cases hsize : id.raw < types.size
    · simp [hsize]
    · simp [hsize]
  · have hne : m ≠ id := fun he => h (he ▸ rfl)
    simp [h, hne]

theorem get_of_le {types : Types} {m : TypeNodeId} (h : types.size ≤ m.raw) :
    types.get m = none := by
  rw [get, Array.getElem?_eq_none h]
  rfl

@[simp] theorem size_put (types : Types) (id : TypeNodeId) (ty : Option Ty) :
    (types.put id ty).size = types.size :=
  Array.size_setIfInBounds

theorem ext {types types' : Types} (hsize : types.size = types'.size)
    (h : ∀ m, types.get m = types'.get m) : types = types' := by
  refine Array.ext hsize fun i hi hi' => ?_
  have hget := h ⟨i⟩
  rw [get, get, Array.getElem?_eq_getElem hi, Array.getElem?_eq_getElem hi'] at hget
  exact hget

end Types

namespace Resolution

theorem failureFor?_eq_none {res : Resolution} {m : TypeNodeId} :
    res.failureFor? m = none ↔ ∀ f ∈ res.failures, m ∉ f.members := by
  simp [failureFor?]

end Resolution

namespace Resolver

variable {r : Resolver} {g : TypeGraph}

namespace Plain

/-! A rule looks only at the nodes that it depends on. -/

theorem mapM_congr {α β : Type} {f f' : α → Option β} {xs : List α} (h : ∀ x ∈ xs, f x = f' x) :
    xs.mapM f = xs.mapM f' := by
  induction xs with
  | nil => rfl
  | cons x xs ih =>
    rw [List.mapM_cons, List.mapM_cons, h x (by simp), ih (fun y hy => h y (by simp [hy]))]

theorem evaluate_congr {lookup lookup' : TypeNodeId → Option Ty} {rule : TypeRule}
    (h : ∀ d ∈ rule.dependencies, lookup d = lookup' d) :
    evaluate r lookup rule = evaluate r lookup' rule := by
  cases rule with
  | constant ty => rfl
  | undefined => rfl
  | copy source => rw [evaluate, evaluate, h source (by simp [TypeRule.dependencies])]
  | join inputs =>
    have hinputs : ∀ d ∈ inputs, lookup d = lookup' d := h
    rw [evaluate, evaluate, List.filterMap_congr hinputs]
  | apply name args =>
    have hargs : ∀ d ∈ args, lookup d = lookup' d := h
    rw [evaluate, evaluate, mapM_congr hargs]

theorem dependencies_ruleOf (g : TypeGraph) (m : TypeNodeId) :
    (ruleOf g m).dependencies = g.dependencies m := by
  rw [ruleOf, TypeGraph.dependencies]
  cases g.rule? m <;> rfl

/-- What the types of all nodes say of one of them. -/
def outcome (r : Resolver) (g : TypeGraph) (types : Types) (m : TypeNodeId) : Evaluation :=
  evaluate r types.get (ruleOf g m)

theorem outcome_congr {types types' : Types} {m : TypeNodeId} (hsize : types.size = g.size)
    (hsize' : types'.size = g.size) (h : ∀ d, g.DependsOn m d → types.get d = types'.get d) :
    outcome r g types m = outcome r g types' m := by
  refine evaluate_congr fun d hd => ?_
  by_cases hdn : d.raw < g.size
  · exact h d ⟨dependencies_ruleOf g m ▸ hd, hdn⟩
  · rw [Types.get_of_le (by omega), Types.get_of_le (by omega)]

/-! Rounds. -/

theorem runRound_frame (r : Resolver) (g : TypeGraph) (members : List TypeNodeId) (types : Types) :
    (runRound r g members types).types.size = types.size ∧
      ∀ m ∉ members, (runRound r g members types).types.get m = types.get m := by
  suffices ∀ round : Round, (members.foldl (step r g) round).types.size = round.types.size ∧
      ∀ m ∉ members, (members.foldl (step r g) round).types.get m = round.types.get m from
    this { types := types }
  induction members with
  | nil => exact fun _ => ⟨rfl, fun _ _ => rfl⟩
  | cons id members ih =>
    intro round
    obtain ⟨hsize, hget⟩ := ih (step r g round id)
    refine ⟨by rw [List.foldl_cons, hsize, step, Types.size_put], fun m hm => ?_⟩
    rw [List.mem_cons, not_or] at hm
    rw [List.foldl_cons, hget m hm.2, step, Types.get_put, if_neg (fun h => hm.1 h.1)]

theorem foldl_step_changed (members : List TypeNodeId) {round : Round} (h : round.changed = true) :
    (members.foldl (step r g) round).changed = true := by
  induction members generalizing round with
  | nil => exact h
  | cons id members ih => exact ih (by rw [step, h, Bool.true_or])

/-- A round that changes nothing finds each member as its rule makes it. -/
theorem runRound_unchanged {members : List TypeNodeId} {types : Types}
    (h : (runRound r g members types).changed = false) :
    (runRound r g members types).types.get = types.get ∧
      (∀ m ∈ members, types.get m = (outcome r g types m).ty) ∧
      (runRound r g members types).results.toList =
        members.map (fun m => (m, outcome r g types m)) := by
  suffices ∀ round : Round, round.types.get = types.get →
      (members.foldl (step r g) round).changed = false →
      (members.foldl (step r g) round).types.get = types.get ∧
      (∀ m ∈ members, types.get m = (outcome r g types m).ty) ∧
      (members.foldl (step r g) round).results.toList = round.results.toList ++
        members.map (fun m => (m, outcome r g types m)) from
    this { types := types } rfl h
  clear h
  induction members with
  | nil => exact fun round hround _ => ⟨hround, by simp, by simp⟩
  | cons id members ih =>
    intro round hround h
    rw [List.foldl_cons] at h ⊢
    have hstep : (step r g round id).changed = false := by
      cases hc : (step r g round id).changed with
      | false => rfl
      | true => rw [foldl_step_changed members hc] at h; cases h
    have hsame : types.get id = (outcome r g types id).ty := by
      rw [step, Bool.or_eq_false_iff, hround] at hstep
      simpa [outcome] using hstep.2
    have hget : (step r g round id).types.get = types.get := by
      funext m
      rw [step, Types.get_put, hround]
      split
      · rename_i hm
        rw [hm.1, hsame, outcome]
      · rfl
    obtain ⟨htypes, hmembers, hresults⟩ := ih _ hget h
    refine ⟨htypes, List.forall_mem_cons.mpr ⟨hsame, hmembers⟩, ?_⟩
    rw [hresults, step, Array.toList_push, hround, List.map_cons, List.append_assoc]
    rfl

/-- Rounds that settle end with one that changes nothing. -/
theorem settle_settled {members : List TypeNodeId} {left past n : Nat} {types : Types}
    {round : Round}
    (h : settle r g members left past types = ⟨n, some round⟩) :
    ∃ last : Types, round = runRound r g members last ∧ round.changed = false ∧
      last.size = types.size ∧ ∀ m ∉ members, last.get m = types.get m := by
  induction left generalizing past types with
  | zero => cases h
  | succ left ih =>
    rw [settle] at h
    cases hchanged : (runRound r g members types).changed with
    | false =>
      simp only [hchanged, Bool.false_eq_true, if_false, Settling.mk.injEq, Option.some.injEq] at h
      exact ⟨types, h.2.symm, h.2 ▸ hchanged, rfl, fun _ _ => rfl⟩
    | true =>
      simp only [hchanged, if_true] at h
      obtain ⟨last, hround, hun, hsize, hget⟩ := ih h
      obtain ⟨hsize', hget'⟩ := runRound_frame r g members types
      exact ⟨last, hround, hun, hsize.trans hsize', fun m hm => (hget m hm).trans (hget' m hm)⟩

/-- Two tables of types agree on some nodes and on what these depend on. -/
structure Agree (g : TypeGraph) (members : List TypeNodeId) (types types' : Types) : Prop where
  size : types.size = g.size
  size' : types'.size = g.size
  get : ∀ m, (m ∈ members ∨ ∃ b ∈ members, g.DependsOn b m) → types.get m = types'.get m

theorem runRound_congr {members : List TypeNodeId} {types types' : Types}
    (h : Agree g members types types') :
    Agree g members (runRound r g members types).types (runRound r g members types').types ∧
      (runRound r g members types).changed = (runRound r g members types').changed := by
  suffices ∀ (todo : List TypeNodeId) (round round' : Round), todo ⊆ members →
      Agree g members round.types round'.types → round.changed = round'.changed →
      Agree g members (todo.foldl (step r g) round).types (todo.foldl (step r g) round').types ∧
      (todo.foldl (step r g) round).changed = (todo.foldl (step r g) round').changed from
    this members { types := types } { types := types' } (List.Subset.refl _) h rfl
  intro todo
  induction todo with
  | nil => exact fun _ _ _ h hchanged => ⟨h, hchanged⟩
  | cons id todo ih =>
    intro round round' hsub h hchanged
    have hid : id ∈ members := hsub (by simp)
    have houtcome : evaluate r round.types.get (ruleOf g id) =
        evaluate r round'.types.get (ruleOf g id) :=
      outcome_congr h.size h.size' fun d hd => h.get d (.inr ⟨id, hid, hd⟩)
    refine ih _ _ (fun m hm => hsub (List.mem_cons_of_mem id hm)) ⟨?_, ?_, fun m hm => ?_⟩ ?_
    · rw [step, Types.size_put, h.size]
    · rw [step, Types.size_put, h.size']
    · rw [step, step, Types.get_put, Types.get_put, h.size, h.size', houtcome, h.get m hm]
    · rw [step, step, houtcome, hchanged, h.get id (.inl hid)]

/-- Rounds that settle, with the types at which they do. -/
def SettlesTo (r : Resolver) (g : TypeGraph) (members : List TypeNodeId) (left : Nat)
    (types types' : Types) : Prop :=
  ∃ round, (settle r g members left 0 types).settled = some round ∧
    ∀ m ∈ members, types'.get m = round.types.get m

theorem SettlesTo.unique {members : List TypeNodeId} {left : Nat} {types final final' : Types}
    (h : SettlesTo r g members left types final) (h' : SettlesTo r g members left types final')
    {m : TypeNodeId} (hm : m ∈ members) : final.get m = final'.get m := by
  obtain ⟨round, hround, hget⟩ := h
  obtain ⟨round', hround', hget'⟩ := h'
  rw [hget m hm, hget' m hm, Option.some.inj (hround.symm.trans hround')]

theorem settle_congr {members : List TypeNodeId} {left : Nat} {types types' : Types}
    (h : Agree g members types types') (final : Types) :
    SettlesTo r g members left types final ↔ SettlesTo r g members left types' final := by
  suffices ∀ past, (settle r g members left past types).settled = none ∧
        (settle r g members left past types').settled = none ∨
      ∃ round round', (settle r g members left past types).settled = some round ∧
        (settle r g members left past types').settled = some round' ∧
        Agree g members round.types round'.types by
    rw [SettlesTo, SettlesTo]
    rcases this 0 with ⟨hnone, hnone'⟩ | ⟨round, round', hround, hround', hagree⟩
    · simp [hnone, hnone']
    · simp only [hround, hround', Option.some.injEq, exists_eq_left']
      exact forall₂_congr fun m hm => by rw [hagree.get m (.inl hm)]
  induction left generalizing types types' with
  | zero => exact fun _ => .inl ⟨rfl, rfl⟩
  | succ left ih =>
    intro past
    obtain ⟨htypes, hchanged⟩ := runRound_congr (r := r) h
    rw [settle, settle, ← hchanged]
    cases (runRound r g members types).changed with
    | true => exact ih htypes (past + 1)
    | false => exact .inr ⟨_, _, rfl, rfl, htypes⟩

theorem settle_rounds (r : Resolver) (g : TypeGraph) (members : List TypeNodeId) (left past : Nat)
    (types : Types) : past ≤ (settle r g members left past types).rounds ∧
      (settle r g members left past types).rounds ≤ past + left ∧
      (0 < left → past < (settle r g members left past types).rounds) := by
  induction left generalizing past types with
  | zero => exact ⟨Nat.le_refl _, Nat.le_refl _, fun h => absurd h (Nat.lt_irrefl 0)⟩
  | succ left ih =>
    rw [settle]
    cases (runRound r g members types).changed with
    | false =>
      simp only [Bool.false_eq_true, if_false]
      omega
    | true =>
      obtain ⟨hlow, hhigh, -⟩ := ih (past + 1) (runRound r g members types).types
      simp only [if_true]
      omega

/-! What one component changes. -/

/-- The findings of one kind at some nodes, in their order. -/
def findings (kind : Evaluation → Option Fault) (members : List TypeNodeId)
    (found : TypeNodeId → Evaluation) : List (TypeNodeId × Fault) :=
  members.flatMap (fun m => ((kind (found m)).map ((m, ·))).toList)

/-- One resolution is another in which what was found at some nodes is recorded. -/
structure Records (members : List TypeNodeId) (found : TypeNodeId → Evaluation)
    (res res' : Resolution) : Prop where
  size : res'.types.size = res.types.size
  types : ∀ m, res'.types.get m =
    if m ∈ members ∧ m.raw < res.types.size then (found m).ty else res.types.get m
  failures : res'.failures = res.failures
  errors : res'.errors = res.errors ++ findings (·.error) members found
  warnings : res'.warnings = res.warnings ++ findings (·.warning) members found

theorem foldl_record (members : List TypeNodeId) (found : TypeNodeId → Evaluation)
    (res : Resolution) :
    Records members found res ((members.map (fun m => (m, found m))).foldl record res) := by
  induction members generalizing res with
  | nil => exact ⟨rfl, by simp, rfl, by simp [findings], by simp [findings]⟩
  | cons id members ih =>
    rw [List.map_cons, List.foldl_cons]
    have h := ih (record res (id, found id))
    have hsize : (record res (id, found id)).types.size = res.types.size := Types.size_put _ _ _
    refine ⟨h.size.trans hsize, fun m => ?_, h.failures, ?_, ?_⟩
    · rw [h.types, hsize, record, Types.get_put]
      simp only [List.mem_cons]
      grind
    · rw [h.errors, record, List.append_assoc]
      rfl
    · rw [h.warnings, record, List.append_assoc]
      rfl

def failureOf (r : Resolver) (c : Component) : RecursionFailure :=
  ⟨c.id, c.members, .unresolvedRecursion c.members r.maxRounds, r.recursionFallback⟩

/-- A component is resolved so that each member is as its rule makes it, or it fails. -/
inductive Effect (r : Resolver) (g : TypeGraph) (c : Component) (res res' : Resolution) : Prop where
  | resolved (settles : c.cyclic = true →
        SettlesTo r g c.members r.maxRounds res.types res'.types)
      (failures : res'.failures = res.failures)
      (types : ∀ m ∈ c.members, res'.types.get m = (outcome r g res'.types m).ty)
      (errors : res'.errors = res.errors ++ findings (·.error) c.members (outcome r g res'.types))
      (warnings : res'.warnings =
        res.warnings ++ findings (·.warning) c.members (outcome r g res'.types))
  | failed (cyclic : c.cyclic = true)
      (settles : (settle r g c.members r.maxRounds 0 res.types).settled = none)
      (failures : res'.failures = res.failures ++ [failureOf r c])
      (types : ∀ m ∈ c.members, res'.types.get m = r.recursionFallback)
      (errors : res'.errors = res.errors) (warnings : res'.warnings = res.warnings)

/-- What was found under some types stands if it does not depend on what was recorded. -/
theorem Records.effect {c : Component} {types : Types} {res res' : Resolution}
    (h : Records c.members (outcome r g types) res res')
    (hsettles : c.cyclic = true → SettlesTo r g c.members r.maxRounds res.types res'.types)
    (hsize : res.types.size = g.size)
    (hsize' : types.size = g.size) (hin : ∀ m ∈ c.members, m.raw < g.size)
    (hsame : ∀ m ∈ c.members, ∀ d, g.DependsOn m d → types.get d = res'.types.get d) :
    Effect r g c res res' := by
  have houtcome : ∀ m ∈ c.members, outcome r g types m = outcome r g res'.types m :=
    fun m hm => outcome_congr hsize' (h.size.trans hsize) (hsame m hm)
  have hfindings : ∀ kind : Evaluation → Option Fault,
      findings kind c.members (outcome r g types) =
        findings kind c.members (outcome r g res'.types) := by
    intro kind
    rw [findings, findings, List.flatMap_def, List.flatMap_def]
    exact congrArg _ (List.map_congr_left fun m hm => by rw [houtcome m hm])
  refine .resolved hsettles h.failures (fun m hm => ?_) (h.errors.trans (by rw [hfindings]))
    (h.warnings.trans (by rw [hfindings]))
  rw [h.types, if_pos ⟨hm, hsize ▸ hin m hm⟩, houtcome m hm]

theorem get_foldl_put (members : List TypeNodeId) (found : TypeNodeId → Option Ty)
    (types : Types) :
    (members.foldl (fun types m => types.put m (found m)) types).size = types.size ∧
    ∀ m, (members.foldl (fun types m => types.put m (found m)) types).get m =
      if m ∈ members ∧ m.raw < types.size then found m else types.get m := by
  induction members generalizing types with
  | nil => simp
  | cons id members ih =>
    obtain ⟨hsize, hget⟩ := ih (types.put id (found id))
    rw [Types.size_put] at hsize
    simp only [Types.size_put] at hget
    refine ⟨hsize, fun m => ?_⟩
    rw [List.foldl_cons, hget, Types.get_put]
    simp only [List.mem_cons]
    grind

/-- Resolving a component has its effect on the members, and none on the types of other nodes. -/
theorem resolveComponent_effect {c : Component} {res : Resolution} (hsize : res.types.size = g.size)
    (hin : ∀ m ∈ c.members, m.raw < g.size)
    (hsingle : c.cyclic = false → ∃ m, c.members = [m] ∧ ¬g.DependsOn m m) :
    (resolveComponent r g res c).types.size = g.size ∧
      (∀ m ∉ c.members, (resolveComponent r g res c).types.get m = res.types.get m) ∧
      Effect r g c res (resolveComponent r g res c) := by
  cases hcyclic : c.cyclic with
  | false =>
    obtain ⟨m, hm, hself⟩ := hsingle hcyclic
    have hrecords : Records c.members (outcome r g res.types) res (resolveComponent r g res c) := by
      have h := foldl_record [m] (outcome r g res.types) res
      rw [resolveComponent, hcyclic, if_neg (by simp), hm]
      exact ⟨h.size, h.types, h.failures, h.errors, h.warnings⟩
    refine ⟨hrecords.size.trans hsize, fun d hd => ?_,
      hrecords.effect (fun h => by simp [hcyclic] at h) hsize hsize hin ?_⟩
    · rw [hrecords.types, if_neg fun h => hd h.1]
    · intro m' hm' d hd
      rw [hm, List.mem_singleton] at hm'
      subst hm'
      rw [hrecords.types, hm, if_neg]
      rintro ⟨hdm, -⟩
      rw [List.mem_singleton] at hdm
      exact hself (hdm ▸ hd)
  | true =>
    rw [resolveComponent, hcyclic, if_pos rfl, resolveCyclic]
    cases hsettle : settle r g c.members r.maxRounds 0 res.types with
    | mk n settled =>
      cases settled with
      | none =>
        obtain ⟨hput, hget⟩ := get_foldl_put c.members (fun _ => r.recursionFallback) res.types
        refine ⟨hput.trans hsize, fun m hm => ?_,
          .failed hcyclic (by rw [hsettle]) rfl (fun m hm => ?_) rfl rfl⟩
        · exact (hget m).trans (if_neg fun h => hm h.1)
        · exact (hget m).trans (if_pos ⟨hm, hsize ▸ hin m hm⟩)
      | some round =>
        obtain ⟨last, rfl, hchanged, hlast, hframe⟩ := settle_settled hsettle
        obtain ⟨hround, hmembers, hresults⟩ := runRound_unchanged hchanged
        have h := foldl_record c.members (outcome r g last)
          (count res (n * c.members.length) n)
        rw [← hresults, Array.foldl_toList] at h
        have hrecords : Records c.members (outcome r g last) res
            ((runRound r g c.members last).results.foldl record
              (count res (n * c.members.length) n)) :=
          ⟨h.size, h.types, h.failures, h.errors, h.warnings⟩
        have hlast' : ∀ m, last.get m = ((runRound r g c.members last).results.foldl record
            (count res (n * c.members.length) n)).types.get m := by
          intro m
          rw [hrecords.types]
          by_cases hm : m ∈ c.members
          · rw [if_pos ⟨hm, hsize ▸ hin m hm⟩, ← hmembers m hm]
          · rw [if_neg fun h => hm h.1, hframe m hm]
        have hsettles : SettlesTo r g c.members r.maxRounds res.types
            ((runRound r g c.members last).results.foldl record
              (count res (n * c.members.length) n)).types :=
          ⟨_, by rw [hsettle], fun m _ => by rw [hround, hlast']⟩
        refine ⟨hrecords.size.trans hsize, fun m hm => ?_,
          hrecords.effect (fun _ => hsettles) hsize (hlast.trans hsize) hin fun m _ d _ => hlast' d⟩
        exact (hrecords.types m).trans (if_neg fun h => hm h.1)

namespace Effect

variable {c : Component} {res res' : Resolution} {m : TypeNodeId}

/-- Only members fail with a component. -/
theorem failureFor?_of_not_mem (h : Effect r g c res res') (hm : m ∉ c.members) :
    res'.failureFor? m = none ↔ res.failureFor? m = none := by
  rw [Resolution.failureFor?_eq_none, Resolution.failureFor?_eq_none]
  cases h with
  | resolved _ failures => rw [failures]
  | failed _ _ failures =>
    rw [failures, List.forall_mem_append]
    exact and_iff_left (by simpa [failureOf] using hm)

/-- Members fail just when the rounds on them do not settle. -/
theorem failureFor?_of_mem (h : Effect r g c res res') (hm : m ∈ c.members)
    (hbefore : res.failureFor? m = none) (hcyclic : c.cyclic = true) :
    res'.failureFor? m = none ∧ SettlesTo r g c.members r.maxRounds res.types res'.types ∨
      res'.failureFor? m ≠ none ∧
        (settle r g c.members r.maxRounds 0 res.types).settled = none := by
  cases h with
  | resolved settles failures =>
    refine .inl ⟨?_, settles hcyclic⟩
    rw [Resolution.failureFor?, failures]
    exact hbefore
  | failed cyclic settles failures =>
    refine .inr ⟨fun hnone => ?_, settles⟩
    rw [Resolution.failureFor?_eq_none, failures] at hnone
    exact hnone (failureOf r c) (by simp) hm

end Effect

/-! All components. -/

theorem mem_findings {kind : Evaluation → Option Fault} {members : List TypeNodeId}
    {found : TypeNodeId → Evaluation} {m : TypeNodeId} {e : Fault} :
    (m, e) ∈ findings kind members found ↔ m ∈ members ∧ kind (found m) = some e := by
  simp only [findings, List.mem_flatMap, Option.mem_toList, Option.map_eq_some_iff, Prod.mk.injEq]
  constructor
  · rintro ⟨m', hm', e', he, rfl, rfl⟩
    exact ⟨hm', he⟩
  · rintro ⟨hm, he⟩
    exact ⟨m, hm, e, he, rfl, rfl⟩

theorem findings_nodup {kind : Evaluation → Option Fault} {members : List TypeNodeId}
    {found : TypeNodeId → Evaluation} (h : members.Nodup) :
    ((findings kind members found).map (·.1)).Nodup := by
  have hsub : ((findings kind members found).map (·.1)).Sublist members := by
    clear h
    induction members with
    | nil => exact .refl _
    | cons m members ih =>
      rw [findings, List.flatMap_cons, List.map_append]
      cases kind (found m) with
      | none => exact ih.cons m
      | some e => exact ih.cons_cons m
  exact h.sublist hsub

/-- Some findings are those of some nodes outside of the components that failed, each once. -/
structure Reports (r : Resolver) (g : TypeGraph) (kind : Evaluation → Option Fault)
    (nodes : TypeNodeId → Prop) (res : Resolution) (found : List (TypeNodeId × Fault)) : Prop where
  once : (found.map (·.1)).Nodup
  mem_iff : ∀ m e, (m, e) ∈ found ↔
    nodes m ∧ res.failureFor? m = none ∧ kind (outcome r g res.types m) = some e

/-- What holds when some components were resolved. -/
structure Solved (r : Resolver) (g : TypeGraph) (past : List Component) (res : Resolution) :
    Prop where
  size : res.types.size = g.size
  fresh : ∀ m, m ∉ past.flatMap (·.members) → res.types.get m = none
  failures : ∀ f ∈ res.failures, ∃ c ∈ past, c.cyclic = true ∧ f = failureOf r c
  failed_once : (res.failures.flatMap (·.members)).Nodup
  fallback : ∀ f ∈ res.failures, ∀ m ∈ f.members, res.types.get m = r.recursionFallback
  equation : ∀ m ∈ past.flatMap (·.members), res.failureFor? m = none →
    res.types.get m = (outcome r g res.types m).ty
  errors : Reports r g (·.error) (· ∈ past.flatMap (·.members)) res res.errors
  warnings : Reports r g (·.warning) (· ∈ past.flatMap (·.members)) res res.warnings

namespace Solved

variable {past : List Component} {c : Component} {res res' : Resolution}

theorem start (r : Resolver) (g : TypeGraph) : Solved r g [] (Plain.start g) where
  size := Array.size_replicate
  fresh := by
    intro m _
    rw [Plain.start, Types.get, Array.getElem?_replicate]
    split <;> rfl
  failures := by simp [Plain.start]
  failed_once := by simp [Plain.start]
  fallback := by simp [Plain.start]
  equation := by simp
  errors := ⟨by simp [Plain.start], by simp [Plain.start]⟩
  warnings := ⟨by simp [Plain.start], by simp [Plain.start]⟩

theorem failed_past (h : Solved r g past res) {f : RecursionFailure} (hf : f ∈ res.failures)
    {m : TypeNodeId} (hm : m ∈ f.members) : m ∈ past.flatMap (·.members) := by
  obtain ⟨b, hb, -, rfl⟩ := h.failures f hf
  exact List.mem_flatMap.mpr ⟨b, hb, hm⟩

/-- Findings at the nodes before stand, and those at the new nodes are added. -/
theorem reports {kind : Evaluation → Option Fault} {found found' : List (TypeNodeId × Fault)}
    (h : Reports r g kind (· ∈ past.flatMap (·.members)) res found)
    (hnodup : ((past ++ [c]).flatMap (·.members)).Nodup)
    (hfails : ∀ m ∈ past.flatMap (·.members), res'.failureFor? m = none ↔ res.failureFor? m = none)
    (hsame : ∀ m ∈ past.flatMap (·.members), outcome r g res.types m = outcome r g res'.types m)
    (hfound : (found' = found ++ findings kind c.members (outcome r g res'.types) ∧
        ∀ m ∈ c.members, res'.failureFor? m = none) ∨
      (found' = found ∧ ∀ m ∈ c.members, res'.failureFor? m ≠ none)) :
    Reports r g kind (· ∈ (past ++ [c]).flatMap (·.members)) res' found' := by
  rw [List.flatMap_append, List.flatMap_singleton] at hnodup ⊢
  obtain ⟨-, hc, hdisjoint⟩ := List.nodup_append.mp hnodup
  have hold : ∀ m e, (m, e) ∈ found ↔ m ∈ past.flatMap (·.members) ∧
      res'.failureFor? m = none ∧ kind (outcome r g res'.types m) = some e := by
    intro m e
    rw [h.mem_iff]
    exact and_congr_right fun hm => by rw [hfails m hm, hsame m hm]
  rcases hfound with ⟨rfl, hnew⟩ | ⟨rfl, hnew⟩
  · refine ⟨?_, fun m e => ?_⟩
    · rw [List.map_append]
      refine List.nodup_append.mpr ⟨h.once, findings_nodup hc, ?_⟩
      rintro m hm m' hm' rfl
      obtain ⟨⟨m, e⟩, hme, rfl⟩ := List.mem_map.mp hm
      obtain ⟨⟨m', e'⟩, hme', heq⟩ := List.mem_map.mp hm'
      obtain rfl : m' = m := heq
      exact hdisjoint m' ((hold m' e).mp hme).1 m' (mem_findings.mp hme').1 rfl
    · rw [List.mem_append, hold, mem_findings, List.mem_append, or_and_right]
      exact or_congr_right (and_congr_right fun hm => by simp [hnew m hm])
  · refine ⟨h.once, fun m e => ?_⟩
    rw [hold, List.mem_append, or_and_right]
    exact (or_iff_left fun hm => hnew m hm.1 hm.2.1).symm

theorem step (h : Solved r g past res) (hnodup : ((past ++ [c]).flatMap (·.members)).Nodup)
    (hclosed : ∀ m ∈ past.flatMap (·.members), ∀ d, g.DependsOn m d →
      d ∈ past.flatMap (·.members))
    (hsize : res'.types.size = g.size)
    (hframe : ∀ m ∉ c.members, res'.types.get m = res.types.get m)
    (heffect : Effect r g c res res') : Solved r g (past ++ [c]) res' := by
  have hflat : (past ++ [c]).flatMap (·.members) = past.flatMap (·.members) ++ c.members := by
    rw [List.flatMap_append, List.flatMap_singleton]
  have hdisjoint : ∀ m ∈ past.flatMap (·.members), m ∉ c.members := by
    rw [hflat] at hnodup
    exact fun m hm hmc => (List.nodup_append.mp hnodup).2.2 m hm m hmc rfl
  have hkept : ∀ m ∈ past.flatMap (·.members), res'.types.get m = res.types.get m :=
    fun m hm => hframe m (hdisjoint m hm)
  have hsame : ∀ m ∈ past.flatMap (·.members),
      outcome r g res.types m = outcome r g res'.types m :=
    fun m hm => outcome_congr h.size hsize fun d hd => (hkept d (hclosed m hm d hd)).symm
  have hfresh : ∀ m, m ∉ (past ++ [c]).flatMap (·.members) → res'.types.get m = none := by
    intro m hm
    rw [hflat, List.mem_append, not_or] at hm
    rw [hframe m hm.2, h.fresh m hm.1]
  have hfails : ∀ m ∈ past.flatMap (·.members),
      res'.failureFor? m = none ↔ res.failureFor? m = none :=
    fun m hm => heffect.failureFor?_of_not_mem (hdisjoint m hm)
  have hbefore : ∀ m ∈ c.members, res.failureFor? m = none := fun m hm =>
    Resolution.failureFor?_eq_none.mpr fun f hf hmf => hdisjoint m (h.failed_past hf hmf) hm
  have hfallback : ∀ f ∈ res.failures, ∀ m ∈ f.members, res'.types.get m = r.recursionFallback :=
    fun f hf m hm => (hkept m (h.failed_past hf hm)).trans (h.fallback f hf m hm)
  have hequation : ∀ m ∈ past.flatMap (·.members), res'.failureFor? m = none →
      res'.types.get m = (outcome r g res'.types m).ty := by
    intro m hm hnone
    rw [hkept m hm, ← hsame m hm]
    exact h.equation m hm ((hfails m hm).mp hnone)
  cases heffect with
  | resolved settles failures types errors warnings =>
    have hnew : ∀ m ∈ c.members, res'.failureFor? m = none := by
      intro m hm
      rw [Resolution.failureFor?, failures]
      exact hbefore m hm
    exact {
      size := hsize
      fresh := hfresh
      failures := by
        intro f hf
        obtain ⟨b, hb, hfb⟩ := h.failures f (failures ▸ hf)
        exact ⟨b, List.mem_append_left _ hb, hfb⟩
      failed_once := failures ▸ h.failed_once
      fallback := failures ▸ hfallback
      equation := by
        intro m hm hnone
        rw [hflat, List.mem_append] at hm
        exact hm.elim (fun hm => hequation m hm hnone) (types m)
      errors := reports h.errors hnodup hfails hsame (.inl ⟨errors, hnew⟩)
      warnings := reports h.warnings hnodup hfails hsame (.inl ⟨warnings, hnew⟩) }
  | failed cyclic settles failures types errors warnings =>
    have hmem : ∀ f, f ∈ res'.failures ↔ f ∈ res.failures ∨ f = failureOf r c := fun f => by
      rw [failures, List.mem_append, List.mem_singleton]
    have hnew : ∀ m ∈ c.members, res'.failureFor? m ≠ none := by
      intro m hm hnone
      exact Resolution.failureFor?_eq_none.mp hnone _ ((hmem _).mpr (.inr rfl)) hm
    exact {
      size := hsize
      fresh := hfresh
      failures := by
        intro f hf
        rcases (hmem f).mp hf with hf | rfl
        · obtain ⟨b, hb, hfb⟩ := h.failures f hf
          exact ⟨b, List.mem_append_left _ hb, hfb⟩
        · exact ⟨c, by simp, cyclic, rfl⟩
      failed_once := by
        rw [failures, List.flatMap_append, List.flatMap_singleton]
        refine List.nodup_append.mpr
          ⟨h.failed_once, (List.nodup_append.mp (hflat ▸ hnodup)).2.1, ?_⟩
        rintro m hm m' hm' rfl
        obtain ⟨f, hf, hmf⟩ := List.mem_flatMap.mp hm
        exact hdisjoint m (h.failed_past hf hmf) hm'
      fallback := by
        intro f hf m hm
        rcases (hmem f).mp hf with hf | rfl
        · exact hfallback f hf m hm
        · exact types m hm
      equation := by
        intro m hm hnone
        rw [hflat, List.mem_append] at hm
        exact hm.elim (fun hm => hequation m hm hnone) (fun hm => absurd hnone (hnew m hm))
      errors := reports h.errors hnodup hfails hsame (.inr ⟨errors, hnew⟩)
      warnings := reports h.warnings hnodup hfails hsame (.inr ⟨warnings, hnew⟩) }

end Solved

/-- After some components of a schedule what was resolved so far is solved, and nothing changed at
the nodes of other components. -/
theorem foldl_solved {order past now later : List Component} {res : Resolution}
    (hschedule : g.Schedule order) (hsplit : order = past ++ now ++ later)
    (h : Solved r g past res) :
    Solved r g (past ++ now) (now.foldl (resolveComponent r g) res) ∧
      ∀ m ∉ now.flatMap (·.members),
        (now.foldl (resolveComponent r g) res).types.get m = res.types.get m ∧
        ((now.foldl (resolveComponent r g) res).failureFor? m = none ↔
          res.failureFor? m = none) := by
  induction now generalizing past res with
  | nil => simpa using h
  | cons c now ih =>
    have hc : c ∈ order := by simp [hsplit]
    obtain ⟨hsize, hframe, heffect⟩ := resolveComponent_effect (r := r) h.size
      (fun m hm => hschedule.inside hc hm) (hschedule.single hc)
    have hnodup : ((past ++ [c]).flatMap (·.members)).Nodup := by
      have hall := hschedule.nodup
      rw [hsplit] at hall
      simp only [List.flatMap_append, List.flatMap_cons, List.append_assoc] at hall
      rw [← List.append_assoc] at hall
      simpa using (List.nodup_append.mp hall).1
    have hstep := h.step hnodup
      (fun m hm d => hschedule.closed (by rw [hsplit, List.append_assoc]) hm) hsize hframe heffect
    have hsplit' : order = past ++ [c] ++ now ++ later := by simpa using hsplit
    obtain ⟨hsolved, hlater⟩ := ih hsplit' hstep
    refine ⟨by simpa using hsolved, fun m hm => ?_⟩
    rw [List.flatMap_cons, List.mem_append, not_or] at hm
    rw [List.foldl_cons, (hlater m hm.2).1, (hlater m hm.2).2]
    exact ⟨hframe m hm.1, heffect.failureFor?_of_not_mem hm.1⟩

/-! How often nodes are evaluated. -/

/-- What resolving some components takes, each in some number of rounds: one without a cycle takes
none, and its node is evaluated once. -/
structure Costs (r : Resolver) (work : List (Component × Nat)) (stats : ResolverStats) : Prop where
  acyclic : ∀ w ∈ work, w.1.cyclic = false → w.2 = 0
  cyclic : ∀ w ∈ work, w.1.cyclic = true → w.2 ≤ r.maxRounds ∧ (0 < r.maxRounds → 0 < w.2)
  rounds : stats.rounds = (work.map (·.2)).sum
  evaluations : stats.evaluations =
    (work.map (fun w => if w.1.cyclic then w.2 * w.1.members.length else 1)).sum

theorem stats_foldl_record (entries : List (TypeNodeId × Evaluation)) (res : Resolution) :
    (entries.foldl record res).stats = res.stats := by
  induction entries generalizing res with
  | nil => rfl
  | cons entry entries ih => exact ih (record res entry)

theorem resolveComponent_costs {c : Component} {res : Resolution} {work : List (Component × Nat)}
    (h : Costs r work res.stats) (hsingle : c.cyclic = false → ∃ m, c.members = [m]) :
    ∃ n, Costs r (work ++ [(c, n)]) (resolveComponent r g res c).stats := by
  cases hcyclic : c.cyclic with
  | false =>
    obtain ⟨m, hm⟩ := hsingle hcyclic
    refine ⟨0, ?_, ?_, ?_, ?_⟩
    · exact List.forall_mem_append.mpr ⟨h.acyclic, by simp⟩
    · exact List.forall_mem_append.mpr ⟨h.cyclic, by simp [hcyclic]⟩
    · rw [resolveComponent, hcyclic, if_neg (by simp), hm, List.map_append, List.sum_append]
      exact h.rounds
    · rw [resolveComponent, hcyclic, if_neg (by simp), hm, List.map_append, List.sum_append,
        ← h.evaluations]
      simp only [List.foldl_cons, List.foldl_nil, resolveAcyclic, count, record, List.map_cons,
        List.map_nil, List.sum_cons, List.sum_nil, hcyclic]
      rfl
  | true =>
    have hrounds := settle_rounds r g c.members r.maxRounds 0 res.types
    have hstats : (resolveComponent r g res c).stats =
        (count res ((settle r g c.members r.maxRounds 0 res.types).rounds * c.members.length)
          (settle r g c.members r.maxRounds 0 res.types).rounds).stats := by
      rw [resolveComponent, hcyclic, if_pos rfl, resolveCyclic]
      cases (settle r g c.members r.maxRounds 0 res.types).settled with
      | none => rfl
      | some round => simp only [← Array.foldl_toList, stats_foldl_record]
    rw [hstats]
    refine ⟨(settle r g c.members r.maxRounds 0 res.types).rounds, ?_, ?_, ?_, ?_⟩
    · exact List.forall_mem_append.mpr ⟨h.acyclic, by simp [hcyclic]⟩
    · refine List.forall_mem_append.mpr ⟨h.cyclic, ?_⟩
      simp only [List.mem_singleton, forall_eq]
      exact fun _ => ⟨by omega, hrounds.2.2⟩
    · rw [List.map_append, List.sum_append, ← h.rounds]
      simp [count]
    · rw [List.map_append, List.sum_append, ← h.evaluations]
      simp [count, hcyclic]

theorem foldl_costs {comps : List Component} {res : Resolution} {work : List (Component × Nat)}
    (h : Costs r work res.stats)
    (hsingle : ∀ c ∈ comps, c.cyclic = false → ∃ m, c.members = [m]) :
    ∃ done : List (Component × Nat), done.map (·.1) = comps ∧
      Costs r (work ++ done) (comps.foldl (resolveComponent r g) res).stats := by
  induction comps generalizing res work with
  | nil => exact ⟨[], rfl, by simpa using h⟩
  | cons c comps ih =>
    obtain ⟨n, hn⟩ := resolveComponent_costs (g := g) h (hsingle c (by simp))
    obtain ⟨done, hdone, hcosts⟩ := ih hn (fun b hb => hsingle b (by simp [hb]))
    exact ⟨(c, n) :: done, by simp [hdone], by simpa using hcosts⟩

/-! The whole graph. -/

theorem resolve_eq (r : Resolver) (g : TypeGraph) :
    resolve r g = g.condense.order.foldl (resolveComponent r g) (start g) :=
  rfl

theorem resolve_solved (r : Resolver) (g : TypeGraph) :
    Solved r g g.condense.order (resolve r g) := by
  have hsplit : g.condense.order = [] ++ g.condense.order ++ [] := by simp
  exact (foldl_solved g.condense_schedule hsplit (.start r g)).1

/-- The types that the rounds on some nodes start from: their own are forgotten. -/
def entering (members : List TypeNodeId) (types : Types) : Types :=
  members.foldl (fun types id => types.put id none) types

@[simp] theorem entering_size (members : List TypeNodeId) (types : Types) :
    (entering members types).size = types.size :=
  (get_foldl_put members (fun _ => none) types).1

theorem entering_get {members : List TypeNodeId} {types : Types} (m : TypeNodeId) :
    (entering members types).get m = if m ∈ members then none else types.get m := by
  rw [entering, (get_foldl_put members (fun _ => none) types).2]
  by_cases hm : m ∈ members
  · by_cases hsize : m.raw < types.size
    · rw [if_pos ⟨hm, hsize⟩, if_pos hm]
    · rw [if_neg fun h => hsize h.2, if_pos hm, Types.get_of_le (Nat.le_of_not_lt hsize)]
  · rw [if_neg fun h => hm h.1, if_neg hm]

/-- A component on a cycle fails if its rounds do not settle, and else they settle at its types.
They start from the types of what the component depends on. -/
theorem resolve_component {c : Component} (hc : c ∈ g.condense.order) (hcyclic : c.cyclic = true)
    {m : TypeNodeId} (hm : m ∈ c.members) :
    (resolve r g).failureFor? m = none ∧ SettlesTo r g c.members r.maxRounds
        (entering c.members (resolve r g).types) (resolve r g).types ∨
      (resolve r g).failureFor? m ≠ none ∧ ∀ types, ¬SettlesTo r g c.members r.maxRounds
        (entering c.members (resolve r g).types) types := by
  have hschedule := g.condense_schedule
  have hfinal := (resolve_solved r g).size
  rw [resolve_eq] at hfinal ⊢
  generalize g.condense.order = order at hc hschedule hfinal ⊢
  obtain ⟨before, after, rfl⟩ := List.append_of_mem hc
  have hsplit : before ++ c :: after = [] ++ before ++ (c :: after) := rfl
  obtain ⟨hbefore, -⟩ := foldl_solved hschedule hsplit (.start r g)
  rw [List.foldl_append, List.foldl_cons] at hfinal ⊢
  generalize before.foldl (resolveComponent r g) (start g) = res at hbefore hfinal ⊢
  obtain ⟨hsize, hframe, heffect⟩ := resolveComponent_effect (r := r) hbefore.size
    (fun m hm => hschedule.inside hc hm) (hschedule.single hc)
  have hnodup := hschedule.nodup
  rw [List.flatMap_append, List.flatMap_cons] at hnodup
  obtain ⟨-, hlater, hdisjoint⟩ := List.nodup_append.mp hnodup
  have hfresh : ∀ m ∈ c.members, m ∉ before.flatMap (·.members) :=
    fun m hm hmb => hdisjoint m hmb m (List.mem_append_left _ hm) rfl
  have hafter : ∀ m, m ∈ before.flatMap (·.members) ∨ m ∈ c.members →
      m ∉ after.flatMap (·.members) := by
    rintro m (hm | hm) hma
    · exact hdisjoint m hm m (List.mem_append_right _ hma) rfl
    · exact (List.nodup_append.mp hlater).2.2 m hm m hma rfl
  have hstep : Solved r g (before ++ [c]) (resolveComponent r g res c) := by
    refine hbefore.step ?_ (fun m hm d => hschedule.closed rfl hm) hsize hframe heffect
    rw [List.flatMap_append, List.flatMap_singleton]
    refine List.nodup_append.mpr
      ⟨(List.nodup_append.mp hnodup).1, (List.nodup_append.mp hlater).1, ?_⟩
    exact fun m hm d hd => hdisjoint m hm d (List.mem_append_left _ hd)
  have hsplit' : before ++ c :: after = (before ++ [c]) ++ after ++ [] := by simp
  obtain ⟨-, hkept⟩ := foldl_solved hschedule hsplit' hstep
  generalize after.foldl (resolveComponent r g) (resolveComponent r g res c) =
      final at hfinal hkept ⊢
  have hagree : Agree g c.members res.types (entering c.members final.types) := by
    refine ⟨hbefore.size, (entering_size _ _).trans hfinal, fun d hd => ?_⟩
    rw [entering_get]
    by_cases hdc : d ∈ c.members
    · rw [if_pos hdc, hbefore.fresh d (hfresh d hdc)]
    · obtain ⟨b, hb, hbd⟩ := hd.resolve_left hdc
      have hready := hschedule.ready before c after rfl b hb d hbd
      obtain ⟨e, he, hde⟩ := hready.resolve_left hdc
      have hdbefore := List.mem_flatMap.mpr ⟨e, he, hde⟩
      rw [if_neg hdc, (hkept d (hafter d (.inl hdbefore))).1, hframe d hdc]
  have hfails := (hkept m (hafter m (.inr hm))).2
  rcases heffect.failureFor?_of_mem hm (Resolution.failureFor?_eq_none.mpr fun f hf hmf =>
      hfresh m hm (hbefore.failed_past hf hmf)) hcyclic with ⟨hnone, hsettles⟩ | ⟨hsome, hunsettled⟩
  · refine .inl ⟨hfails.mpr hnone, (settle_congr hagree _).mp ?_⟩
    obtain ⟨round, hround, htypes⟩ := hsettles
    exact ⟨round, hround, fun d hd => ((hkept d (hafter d (.inr hd))).1).trans (htypes d hd)⟩
  · refine .inr ⟨fun hnone => hsome (hfails.mp hnone), fun types hsettles => ?_⟩
    obtain ⟨round, hround, -⟩ := (settle_congr hagree _).mpr hsettles
    rw [hunsettled] at hround
    cases hround

end Plain

end Resolver

end TypedSsa

import TypedSsa.Proofs.Resolving

/-!
What one component of a graph adds to a resolution. Main statements: `resolveComponent_eq` and
`gain_mirrors`. It depends on the types that the component sees and on nothing else that is known so
far, and a component that is another one under new ids adds the same under the new ids.
-/

namespace TypedSsa

/-! Rules under new ids. -/

namespace TypeRule

def rename (e : TypeNodeId → TypeNodeId) : TypeRule → TypeRule
  | constant ty => constant ty
  | copy source => copy (e source)
  | join inputs => join (inputs.map e)
  | apply name args => apply name (args.map e)
  | undefined => undefined

variable {e : TypeNodeId → TypeNodeId} {rule : TypeRule}

@[simp] theorem dependencies_rename : (rule.rename e).dependencies = rule.dependencies.map e := by
  cases rule <;> rfl

@[simp] theorem rename_id : rule.rename id = rule := by
  cases rule <;> simp [rename]

end TypeRule

/-- Faults name type nodes where a cycle does not settle. -/
def Fault.rename (e : TypeNodeId → TypeNodeId) : Fault → Fault
  | .unresolvedRecursion members rounds => .unresolvedRecursion (members.map e) rounds
  | fault => fault

@[simp] theorem Fault.rename_id (fault : Fault) : fault.rename id = fault := by
  cases fault <;> simp [rename]

namespace Resolver

/-- What resolving one component finds. -/
structure Gain where
  assigned : List (TypeNodeId × Option Ty) := []
  failures : List RecursionFailure := []
  errors : List (TypeNodeId × Fault) := []
  warnings : List (TypeNodeId × Fault) := []
  evaluations : Nat := 0
  rounds : Nat := 0

namespace Gain

/-- What some evaluated nodes come to. -/
def ofResults (results : List (TypeNodeId × Evaluation)) : Gain where
  assigned := results.map (fun entry => (entry.1, entry.2.ty))
  errors := results.flatMap (fun entry => (entry.2.error.map ((entry.1, ·))).toList)
  warnings := results.flatMap (fun entry => (entry.2.warning.map ((entry.1, ·))).toList)

def addTo (gain : Gain) (res : Resolution) : Resolution :=
  { res with
    types := gain.assigned.foldl (fun types entry => types.put entry.1 entry.2) res.types
    failures := res.failures ++ gain.failures
    errors := res.errors ++ gain.errors
    warnings := res.warnings ++ gain.warnings
    stats := { res.stats with
      evaluations := res.stats.evaluations + gain.evaluations
      rounds := res.stats.rounds + gain.rounds } }

theorem foldl_record (results : List (TypeNodeId × Evaluation)) (res : Resolution) :
    results.foldl record res = (ofResults results).addTo res := by
  induction results generalizing res with
  | nil => simp [ofResults, addTo]
  | cons entry results ih =>
    rw [List.foldl_cons, ih]
    simp [ofResults, addTo, record]

end Gain

namespace Plain

variable (r : Resolver) (g : TypeGraph)

/-- What a component comes to, given the types so far. -/
def gain (types : Types) (c : Component) : Gain :=
  if c.cyclic then
    let outcome := settle r g c.members r.maxRounds 0 types
    let found : Gain := match outcome.settled with
      | some round => .ofResults round.results.toList
      | none =>
        { assigned := c.members.map (fun m => (m, r.recursionFallback))
          failures := [failureOf r c] }
    { found with evaluations := outcome.rounds * c.members.length, rounds := outcome.rounds }
  else
    { Gain.ofResults (c.members.map (fun m => (m, outcome r g types m))) with
      evaluations := c.members.length }

variable {r g}

theorem resolveComponent_eq {c : Component} {res : Resolution}
    (hsingle : c.cyclic = false → ∃ m, c.members = [m]) :
    resolveComponent r g res c = (gain r g res.types c).addTo res := by
  rw [resolveComponent, gain]
  cases hcyclic : c.cyclic with
  | false =>
    obtain ⟨m, hm⟩ := hsingle hcyclic
    simp [hm, resolveAcyclic, count, record, Gain.addTo, Gain.ofResults, outcome]
  | true =>
    simp only [if_true, resolveCyclic]
    cases (settle r g c.members r.maxRounds 0 res.types).settled with
    | none => simp [fail, count, Gain.addTo, failureOf, List.foldl_map]
    | some round =>
      dsimp only
      rw [← Array.foldl_toList, Gain.foldl_record]
      simp [count, Gain.addTo, Gain.ofResults]

/-! The same component under new ids. -/

variable {g g' : TypeGraph} {e : TypeNodeId → TypeNodeId} {members : List TypeNodeId}

/-- Nodes stand in another graph under new ids, and their rules look at what has the new ids. -/
structure Mirrors (e : TypeNodeId → TypeNodeId) (g g' : TypeGraph) (members : List TypeNodeId) :
    Prop where
  inj : Function.Injective e
  inside : ∀ m ∈ members, m.raw < g'.size ∧ (e m).raw < g.size
  rules : ∀ m ∈ members, ruleOf g (e m) = (ruleOf g' m).rename e

/-- Nodes and what they look at have the same types. -/
structure Sees (e : TypeNodeId → TypeNodeId) (g g' : TypeGraph) (members : List TypeNodeId)
    (types types' : Types) : Prop where
  size : types.size = g.size
  size' : types'.size = g'.size
  get : ∀ m, (m ∈ members ∨ ∃ b ∈ members, m ∈ (ruleOf g' b).dependencies) →
    types.get (e m) = types'.get m

theorem evaluate_rename (lookup : TypeNodeId → Option Ty) (rule : TypeRule) :
    evaluate r lookup (rule.rename e) = evaluate r (fun m => lookup (e m)) rule := by
  cases rule with
  | constant | copy | undefined => rfl
  | join inputs => simp [TypeRule.rename, evaluate, List.filterMap_map]
  | apply name args => simp [TypeRule.rename, evaluate, List.mapM_map, Function.comp_def]

section
variable (h : Mirrors e g g' members) {types types' : Types}

include h

theorem outcome_mirrors (hsees : Sees e g g' members types types') {m : TypeNodeId}
    (hm : m ∈ members) : outcome r g types (e m) = outcome r g' types' m := by
  rw [outcome, outcome, h.rules m hm, evaluate_rename]
  exact evaluate_congr fun d hd => hsees.get d (.inr ⟨m, hm, hd⟩)

/-- Rounds that went alike so far. -/
structure Alike (e : TypeNodeId → TypeNodeId) (g g' : TypeGraph) (members : List TypeNodeId)
    (round round' : Round) : Prop where
  sees : Sees e g g' members round.types round'.types
  changed : round.changed = round'.changed
  results : round.results.toList = round'.results.toList.map (fun entry => (e entry.1, entry.2))

theorem step_mirrors {round round' : Round} (halike : Alike e g g' members round round')
    {m : TypeNodeId} (hm : m ∈ members) :
    Alike e g g' members (step r g round (e m)) (step r g' round' m) := by
  obtain ⟨hsees, hchanged, hresults⟩ := halike
  have houtcome : evaluate r round.types.get (ruleOf g (e m)) =
      evaluate r round'.types.get (ruleOf g' m) := outcome_mirrors h hsees hm
  obtain ⟨hin, hin'⟩ := h.inside m hm
  refine ⟨⟨?_, ?_, fun d hd => ?_⟩, ?_, ?_⟩
  · rw [step, Types.size_put, hsees.size]
  · rw [step, Types.size_put, hsees.size']
  · rw [step, step, Types.get_put, Types.get_put, houtcome, hsees.get d hd, hsees.size, hsees.size']
    by_cases hsame : d = m
    · subst hsame
      rw [if_pos ⟨rfl, hin'⟩, if_pos ⟨rfl, hin⟩]
    · rw [if_neg fun hput => hsame (h.inj hput.1), if_neg fun hput => hsame hput.1]
  · rw [step, step, houtcome, hchanged, hsees.get m (.inl hm)]
  · rw [step, step, Array.toList_push, Array.toList_push, hresults, houtcome]
    simp

theorem runRound_mirrors (hsees : Sees e g g' members types types') :
    Alike e g g' members (runRound r g (members.map e) types) (runRound r g' members types') := by
  suffices ∀ (todo : List TypeNodeId) (round round' : Round), todo ⊆ members →
      Alike e g g' members round round' →
      Alike e g g' members ((todo.map e).foldl (step r g) round)
        (todo.foldl (step r g') round') from
    this members { types := types } { types := types' } (List.Subset.refl _) ⟨hsees, rfl, rfl⟩
  intro todo
  induction todo with
  | nil => exact fun _ _ _ halike => halike
  | cons m todo ih =>
    intro round round' hsub halike
    exact ih _ _ (fun d hd => hsub (List.mem_cons_of_mem m hd))
      (step_mirrors h halike (hsub List.mem_cons_self))

/-- The rounds on nodes and on the same nodes under new ids go alike. -/
theorem settle_mirrors (hsees : Sees e g g' members types types') (left past : Nat) :
    (settle r g (members.map e) left past types).rounds =
        (settle r g' members left past types').rounds ∧
      Option.Rel (Alike e g g' members) (settle r g (members.map e) left past types).settled
        (settle r g' members left past types').settled := by
  induction left generalizing past types types' with
  | zero => exact ⟨rfl, .none⟩
  | succ left ih =>
    have halike := runRound_mirrors (r := r) h hsees
    rw [settle, settle, halike.changed]
    cases (runRound r g' members types').changed with
    | true => exact ih halike.sees (past + 1)
    | false => exact ⟨rfl, .some halike⟩

end

end Plain

namespace Gain

/-- What a component finds when its nodes, and the component itself, have new ids. -/
def rename (e : TypeNodeId → TypeNodeId) (id : ComponentId) (gain : Gain) : Gain :=
  { gain with
    assigned := gain.assigned.map (fun entry => (e entry.1, entry.2))
    failures := gain.failures.map (fun f =>
      { f with component := id, members := f.members.map e, error := f.error.rename e })
    errors := gain.errors.map (fun entry => (e entry.1, entry.2))
    warnings := gain.warnings.map (fun entry => (e entry.1, entry.2)) }

theorem ofResults_rename (e : TypeNodeId → TypeNodeId) (id : ComponentId)
    (results : List (TypeNodeId × Evaluation)) :
    ofResults (results.map (fun entry => (e entry.1, entry.2))) =
      (ofResults results).rename e id := by
  have hfound : ∀ kind : Evaluation → Option Fault,
      (results.map (fun entry => (e entry.1, entry.2))).flatMap
          (fun entry => ((kind entry.2).map ((entry.1, ·))).toList) =
        (results.flatMap (fun entry => ((kind entry.2).map ((entry.1, ·))).toList)).map
          (fun entry => (e entry.1, entry.2)) := by
    intro kind
    rw [List.flatMap_map, List.map_flatMap]
    refine List.flatMap_congr fun entry _ => ?_
    cases kind entry.2 <;> rfl
  rw [ofResults, ofResults, rename, hfound, hfound]
  simp

theorem map_id_entries {α : Type} (entries : List (TypeNodeId × α)) :
    entries.map (fun entry => (id entry.1, entry.2)) = entries :=
  List.map_id _

end Gain

namespace Plain

/-- A component that is another one under new ids finds the same under the new ids. -/
theorem gain_mirrors {e : TypeNodeId → TypeNodeId} {c c' : Component} {types types' : Types}
    (h : Mirrors e g g' c'.members) (hsees : Sees e g g' c'.members types types')
    (hmembers : c.members = c'.members.map e) (hcyclic : c.cyclic = c'.cyclic) :
    gain r g types c = (gain r g' types' c').rename e c.id := by
  rw [gain, gain, hcyclic, hmembers]
  cases c'.cyclic with
  | false =>
    have hresults : (c'.members.map e).map (fun m => (m, outcome r g types m)) =
        (c'.members.map (fun m => (m, outcome r g' types' m))).map
          (fun entry => (e entry.1, entry.2)) := by
      rw [List.map_map, List.map_map]
      exact List.map_congr_left fun m hm => by
        simp only [Function.comp_apply, outcome_mirrors h hsees hm]
    simp only [Bool.false_eq_true, if_false]
    rw [hresults, Gain.ofResults_rename e c.id]
    simp [Gain.rename]
  | true =>
    obtain ⟨hrounds, hsettled⟩ := settle_mirrors (r := r) h hsees r.maxRounds 0
    simp only [if_true]
    rw [hrounds, List.length_map]
    generalize (settle r g (c'.members.map e) r.maxRounds 0 types).settled = settled at hsettled ⊢
    generalize (settle r g' c'.members r.maxRounds 0 types').settled = settled' at hsettled ⊢
    cases hsettled with
    | none =>
      simp [Gain.rename, failureOf, hmembers, Fault.rename]
    | some halike =>
      dsimp only
      rw [halike.results, Gain.ofResults_rename e c.id]
      rfl

/-- Nothing changes under the ids there are. -/
theorem gain_rename_id (types : Types) (c : Component) :
    (gain r g types c).rename id c.id = gain r g types c := by
  have hfailures : ∀ f ∈ (gain r g types c).failures, f.component = c.id := by
    rw [gain]
    cases c.cyclic with
    | false => simp [Gain.ofResults]
    | true =>
      simp only [if_true]
      cases (settle r g c.members r.maxRounds 0 types).settled <;>
        simp [Gain.ofResults, failureOf]
  have hsame : (gain r g types c).failures.map (fun f =>
      { f with component := c.id, members := f.members.map id, error := f.error.rename id }) =
        (gain r g types c).failures := by
    refine (List.map_congr_left fun f hf => ?_).trans (List.map_id _)
    simp [← hfailures f hf]
  rw [Gain.rename, hsame, Gain.map_id_entries, Gain.map_id_entries, Gain.map_id_entries]

end Plain

end Resolver

end TypedSsa

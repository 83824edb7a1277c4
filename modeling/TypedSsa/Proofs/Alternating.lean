import TypedSsa.Proofs.Rising

/-!
What becomes of types that conflict on a cycle of copies and joins. Main statement:
`conflicts_settle_or_alternate`. With enough rounds a component fails just when every round changes
a type for ever, which takes types that do not join well. In all other components a join without a
type is reported.
-/

namespace TypedSsa

namespace Resolver

def withRounds (r : Resolver) (n : Nat) : Resolver :=
  { r with maxRounds := n }

variable {r : Resolver} {g : TypeGraph}

namespace Plain

theorem outcome_withRounds (r : Resolver) (n : Nat) (g : TypeGraph) (types : Types)
    (m : TypeNodeId) :
    outcome (r.withRounds n) g types m = outcome r g types m := by
  rw [outcome, outcome]
  cases ruleOf g m <;> rfl

theorem settle_withRounds (r : Resolver) (n : Nat) (g : TypeGraph) (members : List TypeNodeId)
    (left past : Nat) (types : Types) :
    settle (r.withRounds n) g members left past types = settle r g members left past types := by
  have hround : ∀ types, runRound (r.withRounds n) g members types =
      runRound r g members types := by
    intro types
    have hstep : step (r.withRounds n) g = step r g := by
      funext round id
      have houtcome := outcome_withRounds r n g round.types id
      rw [outcome, outcome] at houtcome
      rw [step, step, houtcome]
    rw [runRound, runRound, hstep]
  induction left generalizing past types with
  | zero => rfl
  | succ left ih => simp only [settle, hround, ih]

theorem settle_mono {members : List TypeNodeId} {left left' past : Nat} {types : Types}
    {round : Round} (h : (settle r g members left past types).settled = some round)
    (hle : left ≤ left') : (settle r g members left' past types).settled = some round := by
  induction left generalizing left' past types with
  | zero => cases h
  | succ left ih =>
    obtain ⟨left', rfl⟩ : ∃ k, left' = k + 1 := ⟨left' - 1, by omega⟩
    rw [settle] at h ⊢
    cases hchanged : (runRound r g members types).changed with
    | false =>
      rw [hchanged] at h
      exact h
    | true =>
      rw [hchanged] at h
      exact ih h (by omega)

/-- Every round on some nodes changes a type, however many there are. -/
def Endless (r : Resolver) (g : TypeGraph) (members : List TypeNodeId) (types : Types) : Prop :=
  ∀ left, (settle r g members left 0 (entering members types)).settled = none

theorem endless_iff {members : List TypeNodeId} {types : Types} :
    Endless r g members types ↔
      ∀ left final, ¬SettlesTo r g members left (entering members types) final := by
  constructor
  · rintro h left final ⟨round, hround, -⟩
    rw [h left] at hround
    cases hround
  · intro h left
    by_contra hsettled
    obtain ⟨round, hround⟩ := Option.ne_none_iff_exists'.mp hsettled
    exact h left round.types ⟨round, hround, fun _ _ => rfl⟩

theorem exists_common {α : Type} {xs : List α} {P : α → Nat → Prop}
    (hmono : ∀ x N M, N ≤ M → P x N → P x M) (h : ∀ x ∈ xs, ∃ N, P x N) : ∃ N, ∀ x ∈ xs, P x N := by
  induction xs with
  | nil => exact ⟨0, by simp⟩
  | cons x xs ih =>
    obtain ⟨N, hN⟩ := h x (by simp)
    obtain ⟨M, hM⟩ := ih fun y hy => h y (by simp [hy])
    refine ⟨max N M, List.forall_mem_cons.mpr
      ⟨hmono x N _ (Nat.le_max_left N M) hN, fun y hy => ?_⟩⟩
    exact hmono y M _ (Nat.le_max_right N M) (hM y hy)

/-- From some number of rounds on, the type of a node does not depend on it. -/
def Steady (r : Resolver) (g : TypeGraph) (m : TypeNodeId) (N : Nat) : Prop :=
  ∀ n n', N ≤ n → N ≤ n' → (resolve (r.withRounds n) g).types.get m =
    (resolve (r.withRounds n') g).types.get m

theorem Steady.mono (m : TypeNodeId) (N M : Nat) (hle : N ≤ M) (h : Steady r g m N) :
    Steady r g m M :=
  fun n n' hn hn' => h n n' (hle.trans hn) (hle.trans hn')

section

variable {c : Component} {N : Nat}

theorem agree_entering (hsteady : ∀ m ∈ c.members, ∀ d, g.DependsOn m d → d ∉ c.members →
    Steady r g d N) {n n' : Nat} (hn : N ≤ n) (hn' : N ≤ n') :
    Agree g c.members (entering c.members (resolve (r.withRounds n) g).types)
      (entering c.members (resolve (r.withRounds n') g).types) := by
  refine ⟨(entering_size _ _).trans (resolve_solution _ g).size,
    (entering_size _ _).trans (resolve_solution _ g).size, fun d hd => ?_⟩
  rw [entering_get, entering_get]
  by_cases hdc : d ∈ c.members
  · rw [if_pos hdc, if_pos hdc]
  · obtain ⟨b, hb, hbd⟩ := hd.resolve_left hdc
    rw [if_neg hdc, if_neg hdc]
    exact hsteady b hb d hbd hdc n n' hn hn'

/-- With enough rounds a component fails just when its rounds are endless. -/
theorem component_steady (hc : c ∈ g.condense.order) (hcyclic : c.cyclic = true)
    (hsteady : ∀ m ∈ c.members, ∀ d, g.DependsOn m d → d ∉ c.members → Steady r g d N) :
    ∃ M, N ≤ M ∧ ∀ m ∈ c.members, Steady r g m M ∧ ∀ n, M ≤ n →
      ((resolve (r.withRounds n) g).failureFor? m ≠ none ↔
        Endless r g c.members (resolve (r.withRounds n) g).types) := by
  have hagree {n n' : Nat} := @agree_entering r g c N hsteady n n'
  have hsettles : ∀ {left n : Nat} {types final : Types},
      SettlesTo (r.withRounds n) g c.members left types final ↔
        SettlesTo r g c.members left types final := by
    intro left n types final
    rw [SettlesTo, SettlesTo, settle_withRounds]
  by_cases hendless : Endless r g c.members (resolve (r.withRounds N) g).types
  · have hall : ∀ n, N ≤ n → Endless r g c.members (resolve (r.withRounds n) g).types := by
      intro n hn
      rw [endless_iff] at hendless ⊢
      exact fun left final h =>
        hendless left final ((settle_congr (hagree hn (Nat.le_refl N)) final).mp h)
    have hfails : ∀ n, N ≤ n → ∀ m ∈ c.members,
        (resolve (r.withRounds n) g).failureFor? m ≠ none := by
      intro n hn m hm
      rcases resolve_component (r := r.withRounds n) hc hcyclic hm with ⟨-, hfinal⟩ | h
      · exact absurd (hsettles.mp hfinal) (endless_iff.mp (hall n hn) _ _)
      · exact h.1
    refine ⟨N, Nat.le_refl N, fun m hm => ⟨fun n n' hn hn' => ?_, fun n hn =>
      iff_of_true (hfails n hn m hm) (hall n hn)⟩⟩
    rw [(resolve_solution _ g).failed_type (hfails n hn m hm),
      (resolve_solution _ g).failed_type (hfails n' hn' m hm)]
    rfl
  · rw [endless_iff] at hendless
    simp only [not_forall, not_not] at hendless
    obtain ⟨left, final, round, hround, hfinal⟩ := hendless
    have hreached : ∀ n, max N left ≤ n → SettlesTo r g c.members n
        (entering c.members (resolve (r.withRounds n) g).types) final := by
      intro n hn
      have hstart : SettlesTo r g c.members n
          (entering c.members (resolve (r.withRounds N) g).types) final :=
        ⟨round, settle_mono hround ((Nat.le_max_right N left).trans hn), hfinal⟩
      exact (settle_congr (hagree (Nat.le_refl N) ((Nat.le_max_left N left).trans hn)) final).mp
        hstart
    have hresolved : ∀ n, max N left ≤ n → ∀ m ∈ c.members,
        (resolve (r.withRounds n) g).failureFor? m = none ∧
          (resolve (r.withRounds n) g).types.get m = final.get m := by
      intro n hn m hm
      rcases resolve_component (r := r.withRounds n) hc hcyclic hm with ⟨hnone, h⟩ | ⟨-, hnever⟩
      · exact ⟨hnone, (hsettles.mp h).unique (hreached n hn) hm⟩
      · exact absurd (hsettles.mpr (hreached n hn)) (hnever final)
    refine ⟨max N left, Nat.le_max_left N left, fun m hm => ⟨fun n n' hn hn' => ?_, fun n hn => ?_⟩⟩
    · rw [(hresolved n hn m hm).2, (hresolved n' hn' m hm).2]
    · exact iff_of_false (fun h => h (hresolved n hn m hm).1)
        fun h => endless_iff.mp h _ _ (hreached n hn)

end

theorem steady_acyclic {m : TypeNodeId} {N : Nat} (hm : m.raw < g.size)
    (hacyclic : ¬Relation.TransGen g.DependsOn m m)
    (hsteady : ∀ d, g.DependsOn m d → Steady r g d N) : Steady r g m N := by
  have hequation : ∀ n, (resolve (r.withRounds n) g).types.get m =
      (outcome r g (resolve (r.withRounds n) g).types m).ty := by
    intro n
    have h := (resolve_solution (r.withRounds n) g).equation m hm (failureFor?_of_acyclic hacyclic)
    rwa [outcome_withRounds] at h
  intro n n' hn hn'
  rw [hequation n, hequation n', outcome_congr (resolve_solution _ g).size
    (resolve_solution _ g).size fun d hd => hsteady d hd n n' hn hn']

/-- From some number of rounds on, no type depends on it. -/
theorem exists_steady (r : Resolver) (g : TypeGraph) (m : TypeNodeId) (hm : m.raw < g.size) :
    ∃ N, Steady r g m N := by
  have hschedule := g.condense_schedule
  refine hschedule.induct (P := fun m => ∃ N, Steady r g m N) (fun c hc houtside m hm => ?_) m hm
  obtain ⟨N, hN⟩ : ∃ N, ∀ d ∈ c.members.flatMap g.dependencies,
      ∀ b ∈ c.members, g.DependsOn b d → d ∉ c.members → Steady r g d N := by
    refine exists_common (fun d N M hle h b hb hd hout => (h b hb hd hout).mono d N M hle) ?_
    intro d _
    by_cases hd : ∃ b ∈ c.members, g.DependsOn b d ∧ d ∉ c.members
    · obtain ⟨b, hb, hbd, hout⟩ := hd
      obtain ⟨N, hN⟩ := houtside b hb d hbd hout
      exact ⟨N, fun _ _ _ _ => hN⟩
    · exact ⟨0, fun b hb hbd hout => absurd ⟨b, hb, hbd, hout⟩ hd⟩
  have hsteady : ∀ m ∈ c.members, ∀ d, g.DependsOn m d → d ∉ c.members → Steady r g d N :=
    fun m hm d hd hout => hN d (List.mem_flatMap.mpr ⟨m, hm, hd.1⟩) m hm hd hout
  cases hcyclic : c.cyclic with
  | true =>
    obtain ⟨M, -, hM⟩ := component_steady hc hcyclic hsteady
    exact ⟨M, (hM m hm).1⟩
  | false =>
    obtain ⟨m', hmembers, hself⟩ := hschedule.single hc hcyclic
    obtain rfl : m = m' := by simpa [hmembers] using hm
    refine ⟨N, steady_acyclic (hschedule.inside hc hm) (hschedule.acyclic_of_mem hc hcyclic hm)
      fun d hd => hsteady m hm d hd fun hdc => hself ?_⟩
    rw [hmembers, List.mem_singleton] at hdc
    exact hdc ▸ hd

theorem failing_iff_endless (r : Resolver) (g : TypeGraph) :
    ∃ N, ∀ n, N ≤ n → ∀ c ∈ g.condense.order, c.cyclic = true → ∀ m ∈ c.members,
      ((resolve (r.withRounds n) g).failureFor? m ≠ none ↔
        Endless r g c.members (resolve (r.withRounds n) g).types) := by
  have hrange : ∃ N, ∀ m ∈ (List.range g.size).map (Ident.mk : Nat → TypeNodeId),
      Steady r g m N := by
    refine exists_common Steady.mono fun m hm => ?_
    obtain ⟨i, hi, rfl⟩ := List.mem_map.mp hm
    exact exists_steady r g ⟨i⟩ (List.mem_range.mp hi)
  obtain ⟨N, hN⟩ := hrange
  have hsteady : ∀ m d, g.DependsOn m d → Steady r g d N := fun m d hd =>
    hN d (List.mem_map.mpr ⟨d.raw, List.mem_range.mpr hd.2, rfl⟩)
  obtain ⟨M, hM⟩ : ∃ M, ∀ c ∈ g.condense.order, ∀ n, M ≤ n → c.cyclic = true → ∀ m ∈ c.members,
      ((resolve (r.withRounds n) g).failureFor? m ≠ none ↔
        Endless r g c.members (resolve (r.withRounds n) g).types) := by
    refine exists_common (fun c N M hle h n hn => h n (hle.trans hn)) fun c hc => ?_
    cases hcyclic : c.cyclic with
    | false => exact ⟨0, fun _ _ h => nomatch h⟩
    | true =>
      obtain ⟨M, -, hM⟩ := component_steady hc hcyclic fun m _ d hd _ => hsteady m d hd
      exact ⟨M, fun n hn _ m hm => (hM m hm).2 n hn⟩
  exact ⟨M, fun n hn c hc => hM c hc n hn⟩

theorem not_endless (hg : g.AppliesNone) {c : Component} (hc : c ∈ g.condense.order)
    (hcyclic : c.cyclic = true) {S : Ty → Prop} (hcoherent : r.lattice.Coherent S) {types : Types}
    (hsize : types.size = g.size)
    (houtside : ∀ m ∈ c.members, ∀ d, g.DependsOn m d → d ∉ c.members →
      ∀ ty, types.get d = some ty → S ty) : ¬Endless r g c.members types := by
  have hschedule := g.condense_schedule
  -- the types that come from outside of the component
  let G := (c.members.flatMap g.dependencies).filterMap fun d =>
    if d ∈ c.members then none else types.get d
  have hG : ∀ x ∈ G, S x := by
    intro x hx
    obtain ⟨d, hd, hx⟩ := List.mem_filterMap.mp hx
    obtain ⟨m, hm, hd⟩ := List.mem_flatMap.mp hd
    by_cases hdc : d ∈ c.members
    · simp [hdc] at hx
    · rw [if_neg hdc] at hx
      have hin : d.raw < g.size := by
        by_contra hout
        rw [Types.get_of_le (hsize ▸ Nat.le_of_not_lt hout)] at hx
        cases hx
      exact houtside m hm d ⟨hd, hin⟩ hdc x hx
  obtain ⟨final, hfinal, -⟩ := rounds_settle (r := r) (g := g) (G := G) hcoherent hG hsize
    (flows_of_cyclic hg hc hcyclic) (fun m hm => hschedule.inside hc hm)
    (fun m hm d hd hout x hx => List.mem_filterMap.mpr
      ⟨d, List.mem_flatMap.mpr ⟨m, hm, hd.1⟩, by rw [if_neg hout, hx]⟩)
    (Nat.lt_succ_self _)
  exact fun hendless => endless_iff.mp hendless _ _ hfinal

end Plain

end Resolver

namespace Lattice

theorem join_error {l : Lattice} {a b : Ty} {e : Fault} (h : l.join a b = .error e) :
    e = .unification a b := by
  rw [join] at h
  split at h
  · cases h
  · split at h
    · cases h
    · split at h
      · cases h
      · split at h
        · cases h
        · exact (Except.error.inj h).symm

theorem joinAll_error {l : Lattice} {xs : List Ty} {e : Fault} (h : l.joinAll xs = .error e) :
    ∃ a b, e = .unification a b := by
  have hfold : ∀ (xs : List Ty) (outcome : JoinOutcome), xs.foldlM l.extend outcome = .error e →
      ∃ a b, e = .unification a b := by
    intro xs
    induction xs with
    | nil => exact fun _ h => nomatch h
    | cons x xs ih =>
      intro outcome h
      rw [List.foldlM_cons] at h
      cases hextend : l.extend outcome x with
      | ok next =>
        rw [hextend] at h
        exact ih next h
      | error fault =>
        rw [hextend] at h
        obtain rfl : fault = e := Except.error.inj h
        cases outcome with
        | fallback current cause => cases hextend
        | joined current =>
          rw [extend, joinOrFallback] at hextend
          split at hextend
          · cases hextend
          · cases hextend
          · rename_i hjoin _
            exact ⟨current, x, Except.error.inj hextend ▸ join_error hjoin⟩
  cases xs with
  | nil => cases h
  | cons x xs =>
    rw [joinAll] at h
    cases hxs : xs.foldlM l.extend (.joined x) with
    | ok outcome =>
      rw [hxs] at h
      cases h
    | error fault =>
      rw [hxs] at h
      obtain rfl : fault = e := Except.error.inj h
      exact hfold xs _ hxs

end Lattice

namespace Resolver

variable {r : Resolver} {g : TypeGraph}

/-- A join of known inputs that has no type is reported, if it does not fail. -/
theorem Plain.conflict_reported {res : Resolution} (h : Solution r g res) {m : TypeNodeId}
    {inputs : List TypeNodeId} (hm : g.rule? m = some (.join inputs))
    (hnone : res.failureFor? m = none) (hty : res.typeOf? m = none)
    (hknown : inputs.filterMap res.typeOf? ≠ []) : ∃ a b, (m, .unification a b) ∈ res.errors := by
  have hin := TypeGraph.raw_lt_of_rule? hm
  have houtcome : outcome r g res.types m = r.evaluateJoin (inputs.filterMap res.typeOf?) := by
    rw [outcome, ruleOf, hm]
    rfl
  have hequation := h.equation m hin hnone
  rw [houtcome, hty] at hequation
  cases hjoin : r.lattice.joinAll (inputs.filterMap res.typeOf?) with
  | error e =>
    obtain ⟨a, b, rfl⟩ := Lattice.joinAll_error hjoin
    refine ⟨a, b, (h.errors.mem_iff m _).mpr ⟨hin, hnone, ?_⟩⟩
    rw [houtcome, evaluateJoin, hjoin]
  | ok result =>
    rw [evaluateJoin, hjoin] at hequation
    obtain ⟨x, xs, hxs⟩ := List.exists_cons_of_ne_nil hknown
    cases result with
    | none =>
      rw [hxs, Lattice.joinAll] at hjoin
      cases hfold : xs.foldlM r.lattice.extend (.joined x) <;> rw [hfold] at hjoin <;> cases hjoin
    | some outcome => cases outcome <;> cases hequation

/-- How types that meet on cycles come out. -/
structure MeetingsSettled (r : Resolver) (g : TypeGraph) (res : Resolution) : Prop where
  /-- A component fails just when every round changes a type for ever. -/
  failing : ∀ c ∈ g.condense.components, c.cyclic = true → ∀ m ∈ c.members,
    (res.failureFor? m ≠ none ↔ Plain.Endless r g c.members res.types)
  /-- No component fails to which types come that join well. -/
  coherent : ∀ c ∈ g.condense.components, ∀ S : Ty → Prop, r.lattice.Coherent S →
    (∀ m ∈ c.members, ∀ d, g.DependsOn m d → d ∉ c.members → ∀ ty, res.typeOf? d = some ty → S ty) →
    ∀ m ∈ c.members, res.failureFor? m = none
  conflict : ∀ m inputs, g.rule? m = some (.join inputs) → res.failureFor? m = none →
    res.typeOf? m = none → inputs.filterMap res.typeOf? ≠ [] →
    ∃ a b, (m, .unification a b) ∈ res.errors

/-- With enough rounds, types that conflict on a cycle of copies and joins are reported, unless the
rounds alternate for ever. -/
theorem conflicts_settle_or_alternate (r : Resolver) {g : TypeGraph} (hg : g.AppliesNone) :
    ∃ N, ∀ n, N ≤ n → ∀ memo : Memo,
      MeetingsSettled r g (((r.withRounds n).resolve g).run memo).1 := by
  obtain ⟨N, hN⟩ := Plain.failing_iff_endless r g
  refine ⟨N, fun n hn memo => ?_⟩
  rw [resolve_yields_of_appliesNone _ hg memo]
  have hsolution := Plain.resolve_solution (r.withRounds n) g
  have horder : ∀ c ∈ g.condense.components, c ∈ g.condense.order := fun c hc =>
    g.condense_order_perm.mem_iff.mpr (Array.mem_toList_iff.mpr hc)
  refine ⟨fun c hc hcyclic => hN n hn c (horder c hc) hcyclic, ?_,
    fun m inputs hm hnone => Plain.conflict_reported hsolution hm hnone⟩
  intro c hc S hcoherent houtside m hm
  cases hcyclic : c.cyclic with
  | false =>
    exact Plain.failureFor?_of_acyclic
      (g.condense_schedule.acyclic_of_mem (horder c hc) hcyclic hm)
  | true =>
    by_contra hfails
    have hendless := (hN n hn c (horder c hc) hcyclic m hm).mp hfails
    exact Plain.not_endless hg (horder c hc) hcyclic hcoherent hsolution.size houtside hendless

/-! A conflict that alternates. -/

/-- Three joins in a circle, each with a type of its own that joins with none of the others. -/
def spinning : TypeGraph :=
  ⟨#[⟨.join [⟨3⟩, ⟨2⟩], .synthetic, none⟩, ⟨.join [⟨4⟩, ⟨0⟩], .synthetic, none⟩,
    ⟨.join [⟨5⟩, ⟨1⟩], .synthetic, none⟩, ⟨.constant .str, .synthetic, none⟩,
    ⟨.constant .unit, .synthetic, none⟩, ⟨.constant .int64, .synthetic, none⟩]⟩

namespace spinning

theorem flows : spinning.AppliesNone := by
  rintro ⟨_ | _ | _ | _ | _ | _ | n⟩ name args h <;> cases h

theorem inRange : ∀ m, ∀ d ∈ spinning.dependencies m, d.raw < spinning.size := by
  rintro ⟨_ | _ | _ | _ | _ | _ | n⟩
  iterate 6 decide
  exact fun d hd => nomatch hd

theorem ring : spinning.Ring [⟨0⟩, ⟨1⟩, ⟨2⟩] := by
  have hfirst : spinning.DependsOn ⟨0⟩ ⟨2⟩ := ⟨by decide, by decide⟩
  have hsecond : spinning.DependsOn ⟨2⟩ ⟨1⟩ := ⟨by decide, by decide⟩
  have hthird : spinning.DependsOn ⟨1⟩ ⟨0⟩ := ⟨by decide, by decide⟩
  have hforth : ∀ b ∈ [(⟨0⟩ : TypeNodeId), ⟨1⟩, ⟨2⟩],
      Relation.TransGen spinning.DependsOn ⟨0⟩ b := by
    have h2 := Relation.TransGen.single hfirst
    have h1 := h2.tail hsecond
    simpa using ⟨h1.tail hthird, h1, h2⟩
  have hback : ∀ a ∈ [(⟨0⟩ : TypeNodeId), ⟨1⟩, ⟨2⟩],
      Relation.TransGen spinning.DependsOn a ⟨0⟩ := by
    have h1 := Relation.TransGen.single hthird
    have h2 := h1.head hsecond
    simpa using ⟨h2.head hfirst, h1, h2⟩
  refine ⟨by simp, by simp, fun a ha b hb => (hback a ha).trans (hforth b hb), ?_⟩
  rintro ⟨_ | _ | _ | _ | _ | _ | n⟩ hout hin
  · simp at hout
  · simp at hout
  · simp at hout
  · exact ⟨_, rfl⟩
  · exact ⟨_, rfl⟩
  · exact ⟨_, rfl⟩
  · exact absurd hin (Nat.not_lt_of_le (Nat.le_add_left 6 n))

theorem constants_eq :
    spinning.constants = #[none, none, none, some .str, some .unit, some .int64] := by
  simp [TypeGraph.constants, spinning, TypeRule.constant?]

/-- A resolver without a fallback. -/
def resolver : Resolver :=
  .ofConfig {} { id := 0 }

/-- Each round on the circle undoes the one before it. -/
theorem alternates (left past : Nat) :
    (Plain.settle resolver spinning [⟨0⟩, ⟨1⟩, ⟨2⟩] left past
        #[some .str, none, some .int64, some .str, some .unit, some .int64]).settled = none ∧
      (Plain.settle resolver spinning [⟨0⟩, ⟨1⟩, ⟨2⟩] left past
        #[none, some .unit, none, some .str, some .unit, some .int64]).settled = none := by
  have hforth : ∃ results, Plain.runRound resolver spinning [⟨0⟩, ⟨1⟩, ⟨2⟩]
        #[some .str, none, some .int64, some .str, some .unit, some .int64] =
      ⟨#[none, some .unit, none, some .str, some .unit, some .int64], true, results⟩ := ⟨_, rfl⟩
  have hback : ∃ results, Plain.runRound resolver spinning [⟨0⟩, ⟨1⟩, ⟨2⟩]
        #[none, some .unit, none, some .str, some .unit, some .int64] =
      ⟨#[some .str, none, some .int64, some .str, some .unit, some .int64], true, results⟩ :=
        ⟨_, rfl⟩
  obtain ⟨_, hforth⟩ := hforth
  obtain ⟨_, hback⟩ := hback
  induction left generalizing past with
  | zero => exact ⟨rfl, rfl⟩
  | succ left ih =>
    rw [Plain.settle, Plain.settle, hforth, hback]
    exact (ih (past + 1)).symm

theorem unsettled (left past : Nat) : (Plain.settle resolver spinning [⟨0⟩, ⟨1⟩, ⟨2⟩] left past
    #[none, none, none, some .str, some .unit, some .int64]).settled = none := by
  have hfirst : ∃ results, Plain.runRound resolver spinning [⟨0⟩, ⟨1⟩, ⟨2⟩]
        #[none, none, none, some .str, some .unit, some .int64] =
      ⟨#[some .str, none, some .int64, some .str, some .unit, some .int64], true, results⟩ :=
        ⟨_, rfl⟩
  obtain ⟨_, hfirst⟩ := hfirst
  cases left with
  | zero => rfl
  | succ left =>
    rw [Plain.settle, hfirst]
    exact (alternates left (past + 1)).1

/-- However many rounds there are, the circle fails. -/
theorem never_settles : spinning.AppliesNone ∧
    (∀ m, ∀ d ∈ spinning.dependencies m, d.raw < spinning.size) ∧
    ¬∃ N, ∀ n, N ≤ n →
      (((resolver.withRounds n).resolve spinning).run {}).1.failures = [] := by
  refine ⟨flows, inRange, ?_⟩
  rintro ⟨N, hN⟩
  have hnone := hN N (Nat.le_refl N)
  rw [resolve_yields_of_appliesNone _ flows] at hnone
  have hunsettled : (Plain.settle (resolver.withRounds N) spinning [⟨0⟩, ⟨1⟩, ⟨2⟩] N 0
      spinning.constants).settled = none := by
    rw [Plain.settle_withRounds, constants_eq]
    exact unsettled N 0
  have hfails := Plain.ring_fails (r := resolver.withRounds N) ring hunsettled (m := ⟨0⟩) (by simp)
  rw [Ne, Resolution.failureFor?_eq_none, hnone] at hfails
  exact hfails fun f hf => nomatch hf

theorem settles_or_alternates : spinning.AppliesNone ∧
    ∃ N, ∀ n, N ≤ n → ∀ memo : Memo,
      MeetingsSettled resolver spinning (((resolver.withRounds n).resolve spinning).run memo).1 :=
  ⟨flows, conflicts_settle_or_alternate resolver flows⟩

end spinning

end Resolver

end TypedSsa

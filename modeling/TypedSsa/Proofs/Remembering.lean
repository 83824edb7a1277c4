import TypedSsa.Typing.Resolution

/-!
Remembered results change nothing. Main statements: `resolve_yields` and
`resolve_yields_of_appliesNone`. As long as what is remembered of a rule set is what the set
computes, a graph resolves to what it resolves to when every rule runs anew, and what is remembered
then is right again. For a graph that applies no rule it does not matter what is remembered.
-/

namespace TypedSsa

/-- What is remembered of a rule set is what the set computes. -/
def Memo.Faithful (memo : Memo) (s : RuleSet) (l : Lattice) : Prop :=
  ∀ name args ty, memo.cache.get? ⟨.rules s.id, name, args⟩ = some ty → s.apply l name args = .ok ty

theorem Memo.faithful_empty (s : RuleSet) (l : Lattice) : Memo.Faithful {} s l := by
  intro name args ty h
  cases h

theorem RuleSet.applyMemo_faithful {s : RuleSet} {l : Lattice} {memo : Memo}
    (h : memo.Faithful s l) (name : String) (args : List Ty) :
    (s.applyMemo l name args memo).1 = s.apply l name args ∧
      (s.applyMemo l name args memo).2.Faithful s l := by
  rw [applyMemo, apply]
  cases hfind : s.find? name with
  | none => exact ⟨rfl, h⟩
  | some rule =>
    by_cases hcache : rule.cacheable = true
    case neg =>
      simp only [hcache]
      exact ⟨rfl, h⟩
    simp only [hcache, if_true]
    cases hget : memo.cache.get? ⟨.rules s.id, name, args⟩ with
    | some ty =>
      rw [SignatureCache.getOrCompute_of_some hget]
      have hty := h name args ty hget
      rw [apply, hfind] at hty
      exact ⟨hty.symm, h⟩
    | none =>
      rw [SignatureCache.getOrCompute_of_none hget]
      cases hresult : rule.apply l args with
      | error e => exact ⟨rfl, by simpa [Memo.Faithful] using h⟩
      | ok ty =>
        refine ⟨rfl, fun name' args' ty' hget' => ?_⟩
        rw [SignatureCache.get?_learn_ok, SignatureCache.get?_ensure] at hget'
        by_cases hsame : (⟨.rules s.id, name, args⟩ : Signature) = ⟨.rules s.id, name', args'⟩
        · simp only [Signature.mk.injEq, true_and] at hsame
          obtain ⟨rfl, rfl⟩ := hsame
          rw [if_pos rfl] at hget'
          rw [apply, hfind, ← Option.some.inj hget']
          exact hresult
        · rw [if_neg hsame] at hget'
          exact h name' args' ty' hget'

/-- A computation has one outcome whatever is remembered, as long as that is good, and leaves it
good. -/
def Yields (good : Memo → Prop) (m : StateM Memo α) (a : α) : Prop :=
  ∀ memo : Memo, good memo → (m.run memo).1 = a ∧ good (m.run memo).2

namespace Yields

variable {good : Memo → Prop}

theorem pure (a : α) : Yields good (Pure.pure a) a :=
  fun _ h => ⟨rfl, h⟩

theorem bind {m : StateM Memo α} {f : α → StateM Memo β} {a : α} {b : β} (hm : Yields good m a)
    (hf : Yields good (f a) b) : Yields good (m >>= f) b := by
  intro memo h
  obtain ⟨ha, h'⟩ := hm memo h
  have hrun : (m >>= f).run memo = (f (m.run memo).1).run (m.run memo).2 := rfl
  rw [hrun, ha]
  exact hf _ h'

theorem foldlM {f : β → α → StateM Memo β} {f' : β → α → β} {xs : List α}
    (hf : ∀ b x, Yields good (f b x) (f' b x)) (b : β) :
    Yields good (xs.foldlM f b) (xs.foldl f' b) := by
  induction xs generalizing b with
  | nil => exact .pure b
  | cons x xs ih =>
    rw [List.foldlM_cons, List.foldl_cons]
    exact (hf b x).bind (ih (f' b x))

end Yields

/-- No node applies a rule. -/
def TypeGraph.AppliesNone (g : TypeGraph) : Prop :=
  ∀ m name args, g.rule? m ≠ some (.apply name args)

namespace Resolver

/-! Resolving when every rule runs anew. -/

namespace Plain

variable (r : Resolver)

def evaluate (lookup : TypeNodeId → Option Ty) : TypeRule → Evaluation
  | .constant ty => { ty := ty }
  | .copy source => { ty := lookup source }
  | .undefined => {}
  | .join inputs => r.evaluateJoin (inputs.filterMap lookup)
  | .apply name args =>
    match args.mapM lookup with
    | none => {}
    | some args => r.evaluateApplied (r.rules.apply r.lattice name args)

variable (g : TypeGraph)

def step (round : Round) (id : TypeNodeId) : Round :=
  let result := evaluate r round.types.get (ruleOf g id)
  { types := round.types.put id result.ty
    changed := round.changed || round.types.get id != result.ty
    results := round.results.push (id, result) }

def runRound (members : List TypeNodeId) (types : Types) : Round :=
  members.foldl (step r g) { types := types }

def settle (members : List TypeNodeId) : Nat → Nat → Types → Settling
  | 0, past, _ => ⟨past, none⟩
  | left + 1, past, types =>
    let round := runRound r g members types
    if round.changed then settle members left (past + 1) round.types
    else ⟨past + 1, some round⟩

def resolveAcyclic (resolution : Resolution) (id : TypeNodeId) : Resolution :=
  count (record resolution (id, evaluate r resolution.types.get (ruleOf g id))) 1 0

def resolveCyclic (resolution : Resolution) (c : Component) : Resolution :=
  let outcome := settle r g c.members r.maxRounds 0 resolution.types
  let resolution := count resolution (outcome.rounds * c.members.length) outcome.rounds
  match outcome.settled with
  | some round => round.results.foldl record resolution
  | none => r.fail resolution c

def resolveComponent (resolution : Resolution) (c : Component) : Resolution :=
  if c.cyclic then resolveCyclic r g resolution c
  else c.members.foldl (resolveAcyclic r g) resolution

def start : Resolution :=
  { types := Array.replicate g.size none
    condensation := g.condense
    stats := { components := g.condense.size, cyclic := g.condense.cyclicCount } }

def resolve : Resolution :=
  (g.condense.waves.flatten.filterMap g.condense.component?).foldl (resolveComponent r g) (start g)

end Plain

section

variable (r : Resolver)

theorem evaluate_yields (lookup : TypeNodeId → Option Ty) (rule : TypeRule) :
    Yields (Memo.Faithful · r.rules r.lattice) (r.evaluate lookup rule)
      (Plain.evaluate r lookup rule) := by
  cases rule with
  | constant ty => exact .pure _
  | copy source => exact .pure _
  | undefined => exact .pure _
  | join inputs => exact .pure _
  | apply name args =>
    rw [evaluate, Plain.evaluate]
    cases args.mapM lookup with
    | none => exact .pure _
    | some args =>
      intro memo h
      obtain ⟨hresult, h'⟩ := RuleSet.applyMemo_faithful h name args
      exact ⟨congrArg r.evaluateApplied hresult, h'⟩

variable {r} {g : TypeGraph} {good : Memo → Prop}
  (heval : ∀ lookup id, Yields good (r.evaluate lookup (ruleOf g id))
    (Plain.evaluate r lookup (ruleOf g id)))

include heval

theorem runRound_yields (members : List TypeNodeId) (types : Types) :
    Yields good (r.runRound g members types) (Plain.runRound r g members types) := by
  have hstep : ∀ round id, Yields good (r.step g round id) (Plain.step r g round id) :=
    fun round id => (heval round.types.get id).bind (.pure _)
  exact .foldlM hstep _

theorem settle_yields (members : List TypeNodeId) (left past : Nat) (types : Types) :
    Yields good (r.settle g members left past types)
      (Plain.settle r g members left past types) := by
  induction left generalizing past types with
  | zero => exact .pure _
  | succ left ih =>
    refine (runRound_yields heval members types).bind ?_
    rw [Plain.settle]
    cases (Plain.runRound r g members types).changed with
    | true => exact ih (past + 1) _
    | false => exact .pure _

theorem resolveComponent_yields (resolution : Resolution) (c : Component) :
    Yields good (r.resolveComponent g resolution c) (Plain.resolveComponent r g resolution c) := by
  rw [resolveComponent, Plain.resolveComponent]
  cases c.cyclic with
  | true =>
    refine (settle_yields heval c.members r.maxRounds 0 resolution.types).bind ?_
    rw [if_pos rfl, Plain.resolveCyclic]
    cases (Plain.settle r g c.members r.maxRounds 0 resolution.types).settled with
    | some round => exact .pure _
    | none => exact .pure _
  | false =>
    have hacyclic : ∀ resolution id,
        Yields good (r.resolveAcyclic g resolution id) (Plain.resolveAcyclic r g resolution id) :=
      fun resolution id => (heval resolution.types.get id).bind (.pure _)
    exact .foldlM hacyclic resolution

theorem resolve_yields_good : Yields good (r.resolve g) (Plain.resolve r g) :=
  .foldlM (resolveComponent_yields heval) _

end

theorem resolve_yields (r : Resolver) (g : TypeGraph) :
    Yields (Memo.Faithful · r.rules r.lattice) (r.resolve g) (Plain.resolve r g) :=
  resolve_yields_good fun lookup id => evaluate_yields r lookup (ruleOf g id)

theorem resolve_yields_of_appliesNone (r : Resolver) {g : TypeGraph} (h : g.AppliesNone)
    (memo : Memo) :
    ((r.resolve g).run memo).1 = Plain.resolve r g := by
  have heval : ∀ lookup id, Yields (fun _ => True) (r.evaluate lookup (ruleOf g id))
      (Plain.evaluate r lookup (ruleOf g id)) := by
    intro lookup id
    rw [ruleOf]
    cases hrule : g.rule? id with
    | none => exact .pure _
    | some rule =>
      cases rule with
      | constant ty => exact .pure _
      | copy source => exact .pure _
      | undefined => exact .pure _
      | join inputs => exact .pure _
      | apply name args => exact absurd hrule (h id name args)
  exact (resolve_yields_good heval memo trivial).1

end Resolver

end TypedSsa

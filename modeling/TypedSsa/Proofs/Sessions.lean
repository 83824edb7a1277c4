import TypedSsa.Proofs.Founding
import TypedSsa.Proofs.Scheduling

/-!
One context in the course of many compilations. Main statement: `Session.resolve_invisible`. Rule
sets are made, copied and extended, graphs are resolved and programs compiled with any of them, and
what is remembered of a rule set is always what the set computes. So what was done before, and in
which order components are taken up, does not show in what a graph resolves to.
-/

namespace TypedSsa

/-- What a context remembers, all rule sets that there are or were, and the next id for one. -/
structure Session where
  nextId : Nat := 1
  sets : List RuleSet := []
  memo : Memo := {}

namespace Session

/-- A new rule set beside the others. -/
def make (s : Session) (m : RuleSetM RuleSet) : Session :=
  { s with nextId := (m.run s.nextId).2, sets := (m.run s.nextId).1 :: s.sets }

/-- A step in the use of a context. A copy of a rule set keeps its id, so that a set which is
extended may live on as it was. A program whose components are taken up in another order is compiled
by resolving its graph that way and recording its signatures. -/
inductive Step (config : Config) : Session → Session → Prop
  | empty {s : Session} : Step config s (s.make RuleSet.empty)
  | register {s : Session} {set : RuleSet} (known : set ∈ s.sets) (name : String) (rule : Rule) :
    Step config s (s.make (set.register name rule))
  | resolve {s : Session} {r : Resolver} (known : r.rules ∈ s.sets)
    (lattice : r.lattice = .ofConfig config) (g : TypeGraph) :
    Step config s { s with memo := ((r.resolve g).run s.memo).2 }
  | resolveBeside {s : Session} {r : Resolver} (known : r.rules ∈ s.sets)
    (lattice : r.lattice = .ofConfig config) (g : TypeGraph) (d : Resolver.Dispatch) :
    Step config s { s with memo := ((r.resolveBeside g d).run s.memo).2 }
  | compile {s : Session} {c : Compiler} (known : c.rules ∈ s.sets) (settings : c.config = config)
    (a : Arena) (functions : List NodeId) :
    Step config s { s with memo := ((c.compile a functions).run s.memo).2 }
  | record {s : Session} {signature : Signature} (own : signature.scope = .program) (ty : Ty) :
    Step config s { s with memo.cache := (s.memo.cache.record signature ty).2 }

end Session

/-! What resolving does with the signatures of the program's own functions. -/

/-- The same is remembered of rule sets, and the same was counted. -/
structure Memo.Agrees (memo memo' : Memo) : Prop where
  get : ∀ id name args, memo.cache.get? ⟨.rules id, name, args⟩ =
    memo'.cache.get? ⟨.rules id, name, args⟩
  hits : memo.cache.hits = memo'.cache.hits
  misses : memo.cache.misses = memo'.cache.misses
  ran : memo.ran = memo'.ran

/-- A computation that neither reads nor writes what is remembered of the program's own
functions. -/
structure Aloof {α : Type} (m : StateM Memo α) : Prop where
  reads : ∀ memo memo' : Memo, memo.Agrees memo' →
    (m.run memo).1 = (m.run memo').1 ∧ (m.run memo).2.Agrees (m.run memo').2
  writes : ∀ (memo : Memo) (s : Signature), s.scope = .program →
    (m.run memo).2.cache.get? s = memo.cache.get? s

namespace Aloof

variable {α β : Type}

theorem pure (a : α) : Aloof (Pure.pure a) :=
  ⟨fun _ _ h => ⟨rfl, h⟩, fun _ _ _ => rfl⟩

theorem bind {m : StateM Memo α} {f : α → StateM Memo β} (hm : Aloof m)
    (hf : ∀ a, Aloof (f a)) : Aloof (m >>= f) := by
  have hrun : ∀ memo, (m >>= f).run memo = (f (m.run memo).1).run (m.run memo).2 := fun _ => rfl
  constructor
  · intro memo memo' h
    obtain ⟨hsame, hagrees⟩ := hm.reads memo memo' h
    rw [hrun, hrun, hsame]
    exact (hf _).reads _ _ hagrees
  · intro memo s hs
    rw [hrun, (hf _).writes _ s hs, hm.writes memo s hs]

theorem foldlM {f : β → α → StateM Memo β} (hf : ∀ b x, Aloof (f b x)) (xs : List α) (b : β) :
    Aloof (xs.foldlM f b) := by
  induction xs generalizing b with
  | nil => exact .pure b
  | cons x xs ih =>
    rw [List.foldlM_cons]
    exact (hf b x).bind ih

theorem mapM {f : α → StateM Memo β} (hf : ∀ x, Aloof (f x)) (xs : List α) :
    Aloof (xs.mapM f) := by
  induction xs with
  | nil => exact .pure []
  | cons x xs ih =>
    rw [List.mapM_cons]
    exact (hf x).bind fun _ => ih.bind fun _ => .pure _

theorem applyMemo (set : RuleSet) (l : Lattice) (name : String) (args : List Ty) :
    Aloof (modifyGet (set.applyMemo l name args)) := by
  have hrun : ∀ memo, (modifyGet (set.applyMemo l name args) : StateM Memo _).run memo =
      set.applyMemo l name args memo := fun _ => rfl
  constructor
  · intro memo memo' h
    rw [hrun, hrun, RuleSet.applyMemo, RuleSet.applyMemo]
    cases set.find? name with
    | none => exact ⟨rfl, h⟩
    | some rule =>
      by_cases hcache : rule.cacheable = true
      case neg =>
        simp only [hcache]
        exact ⟨rfl, h.get, h.hits, h.misses, congrArg ((set.id, name) :: ·) h.ran⟩
      simp only [hcache, if_true]
      cases hget : memo.cache.get? ⟨.rules set.id, name, args⟩ with
      | some ty =>
        rw [SignatureCache.getOrCompute_of_some hget,
          SignatureCache.getOrCompute_of_some (h.get .. ▸ hget), ← h.get, hget]
        exact ⟨rfl, h.get, congrArg (· + 1) h.hits, h.misses, h.ran⟩
      | none =>
        rw [SignatureCache.getOrCompute_of_none hget,
          SignatureCache.getOrCompute_of_none (h.get .. ▸ hget), ← h.get, hget]
        refine ⟨rfl, fun id name' args' => ?_, by simpa using h.hits, by simpa using h.misses,
          congrArg ((set.id, name) :: ·) h.ran⟩
        cases rule.apply l args with
        | error e => simpa using h.get id name' args'
        | ok ty =>
          dsimp only
          rw [SignatureCache.get?_learn_ok, SignatureCache.get?_learn_ok,
            SignatureCache.get?_ensure, SignatureCache.get?_ensure, h.get id name' args']
  · intro memo s hs
    rw [hrun, RuleSet.applyMemo]
    cases set.find? name with
    | none => rfl
    | some rule =>
      by_cases hcache : rule.cacheable = true
      case neg => simp only [hcache, Bool.false_eq_true, if_false]
      simp only [hcache, if_true]
      cases hget : memo.cache.get? ⟨.rules set.id, name, args⟩ with
      | some ty =>
        rw [SignatureCache.getOrCompute_of_some hget]
        rfl
      | none =>
        rw [SignatureCache.getOrCompute_of_none hget]
        cases rule.apply l args with
        | error e => exact SignatureCache.get?_ensure
        | ok ty =>
          have hother : (⟨.rules set.id, name, args⟩ : Signature) ≠ s := by
            rintro rfl
            cases hs
          dsimp only
          rw [SignatureCache.get?_learn_ok, if_neg hother, SignatureCache.get?_ensure]

variable (r : Resolver) (g : TypeGraph)

theorem evaluate (lookup : TypeNodeId → Option Ty) (rule : TypeRule) :
    Aloof (r.evaluate lookup rule) := by
  cases rule with
  | constant | copy | undefined | join => exact .pure _
  | apply name args =>
    rw [Resolver.evaluate]
    cases args.mapM lookup with
    | none => exact .pure _
    | some args => exact (applyMemo r.rules r.lattice name args).bind fun _ => .pure _

theorem settle (members : List TypeNodeId) (left past : Nat) (types : Types) :
    Aloof (r.settle g members left past types) := by
  have hstep : ∀ round id, Aloof (r.step g round id) := fun round id =>
    (evaluate r round.types.get (Resolver.ruleOf g id)).bind fun _ => .pure _
  induction left generalizing past types with
  | zero => exact .pure _
  | succ left ih =>
    refine (foldlM hstep members { types := types }).bind fun round => ?_
    split
    · exact ih _ _
    · exact .pure _

theorem resolveComponent (res : Resolution) (c : Component) :
    Aloof (r.resolveComponent g res c) := by
  rw [Resolver.resolveComponent]
  split
  · refine (settle r g c.members r.maxRounds 0 res.types).bind fun outcome => ?_
    cases outcome.settled <;> exact .pure _
  · have hacyclic : ∀ res id, Aloof (r.resolveAcyclic g res id) := fun res id =>
      (evaluate r res.types.get (Resolver.ruleOf g id)).bind fun _ => .pure _
    exact foldlM hacyclic c.members res

theorem resolve : Aloof (r.resolve g) :=
  foldlM (resolveComponent r g) _ _

theorem resolveBeside (d : Resolver.Dispatch) : Aloof (r.resolveBeside g d) := by
  refine foldlM (fun res wave => ?_) _ _
  refine (mapM (fun c => ?_) _).bind fun _ => .pure _
  exact (resolveComponent r g _ c).bind fun _ => .pure _

end Aloof

/-! What is remembered of rule sets. -/

/-- What is remembered of a rule set is what a rule of that set computes, one whose results may be
kept. -/
def Memo.Kept (sets : List RuleSet) (l : Lattice) (memo : Memo) : Prop :=
  ∀ id name args ty, memo.cache.get? ⟨.rules id, name, args⟩ = some ty →
    ∃ set ∈ sets, set.id = id ∧ ∃ rule, set.find? name = some rule ∧ rule.cacheable = true ∧
      rule.apply l args = .ok ty

namespace Memo.Kept

variable {sets : List RuleSet} {l : Lattice} {memo : Memo}

theorem mono {more : List RuleSet} (h : memo.Kept sets l) (hsub : sets ⊆ more) :
    memo.Kept more l := by
  intro id name args ty hget
  obtain ⟨set, hset, hrest⟩ := h id name args ty hget
  exact ⟨set, hsub hset, hrest⟩

/-- A set with an id of its own is remembered as it is. -/
theorem faithful (h : memo.Kept sets l) {set : RuleSet}
    (hunique : ∀ other ∈ sets, other.id = set.id → other = set) : memo.Faithful set l := by
  intro name args ty hget
  obtain ⟨other, hother, hid, rule, hrule, -, happly⟩ := h set.id name args ty hget
  obtain rfl := hunique other hother hid
  rwa [RuleSet.apply, hrule]

theorem stored (h : memo.Kept sets l) {cache : SignatureCache} {signature : Signature} {ty : Ty}
    (hstored : ∀ s, cache.get? s = if signature = s then some ty else memo.cache.get? s)
    (hnew : ∀ id name args, signature = ⟨.rules id, name, args⟩ → ∃ set ∈ sets, set.id = id ∧
      ∃ rule, set.find? name = some rule ∧ rule.cacheable = true ∧ rule.apply l args = .ok ty)
    (ran : List (Nat × String)) : Memo.Kept sets l ⟨cache, ran⟩ := by
  intro id name args ty' hget
  rw [hstored] at hget
  split at hget
  · rename_i hsame
    obtain rfl := Option.some.inj hget
    exact hnew id name args hsame
  · exact h id name args ty' hget

theorem record (h : memo.Kept sets l) {signature : Signature} {ty : Ty}
    (hnew : ∀ id name args, signature = ⟨.rules id, name, args⟩ → ∃ set ∈ sets, set.id = id ∧
      ∃ rule, set.find? name = some rule ∧ rule.cacheable = true ∧ rule.apply l args = .ok ty)
    (ran : List (Nat × String)) :
    Memo.Kept sets l ⟨(memo.cache.record signature ty).2, ran⟩ :=
  h.stored (fun s => memo.cache.get?_record signature s ty) hnew ran

theorem applyMemo (h : memo.Kept sets l) {set : RuleSet} (hset : set ∈ sets) (name : String)
    (args : List Ty) : (set.applyMemo l name args memo).2.Kept sets l := by
  rw [RuleSet.applyMemo]
  cases hfind : set.find? name with
  | none => exact h
  | some rule =>
    by_cases hcache : rule.cacheable = true
    case neg =>
      simp only [hcache]
      exact h
    simp only [hcache, if_true]
    cases hget : memo.cache.get? ⟨.rules set.id, name, args⟩ with
    | some ty =>
      rw [SignatureCache.getOrCompute_of_some hget]
      exact h
    | none =>
      rw [SignatureCache.getOrCompute_of_none hget]
      cases hresult : rule.apply l args with
      | error e => simpa [Memo.Kept] using h
      | ok ty =>
        let own : Signature := ⟨.rules set.id, name, args⟩
        have hstored : ∀ s, ((memo.cache.ensure own).learn own (.ok ty : Except Fault Ty)).get? s =
            if own = s then some ty else memo.cache.get? s := fun s => by
          rw [SignatureCache.get?_learn_ok, SignatureCache.get?_ensure]
        refine h.stored hstored (fun id name' args' hsame => ?_) _
        simp only [own, Signature.mk.injEq, SignatureScope.rules.injEq] at hsame
        obtain ⟨rfl, rfl, rfl⟩ := hsame
        exact ⟨set, hset, rfl, rule, hfind, hcache, hresult⟩

end Memo.Kept

namespace Session

/-- No two sets of one id, and what is remembered is right. -/
structure Sound (l : Lattice) (s : Session) : Prop where
  below : ∀ set ∈ s.sets, set.id < s.nextId
  unique : ∀ set ∈ s.sets, ∀ other ∈ s.sets, other.id = set.id → other = set
  kept : s.memo.Kept s.sets l

namespace Sound

variable {l : Lattice} {s : Session}

theorem make (h : s.Sound l) {m : RuleSetM RuleSet} (hid : (m.run s.nextId).1.id = s.nextId)
    (hnext : (m.run s.nextId).2 = s.nextId + 1) : (s.make m).Sound l := by
  refine ⟨List.forall_mem_cons.mpr ⟨?_, fun set hset => ?_⟩, ?_,
    h.kept.mono (List.subset_cons_self _ _)⟩
  · change (m.run s.nextId).1.id < (m.run s.nextId).2
    omega
  · have hbelow := h.below set hset
    change set.id < (m.run s.nextId).2
    omega
  · intro set hset other hother hsame
    rcases List.mem_cons.mp hset with rfl | hset <;>
      rcases List.mem_cons.mp hother with rfl | hother
    · rfl
    · have hbelow := h.below other hother
      omega
    · have hbelow := h.below set hset
      omega
    · exact h.unique set hset other hother hsame

/-- A rule of a known set gives what the set computes, and leaves only right results behind. -/
theorem evaluate_yields (h : s.Sound l) {r : Resolver} (hknown : r.rules ∈ s.sets)
    (hlattice : r.lattice = l) (lookup : TypeNodeId → Option Ty) (rule : TypeRule) :
    Yields (Memo.Kept s.sets l) (r.evaluate lookup rule)
      (Resolver.Plain.evaluate r lookup rule) := by
  cases rule with
  | constant | copy | undefined | join => exact .pure _
  | apply name args =>
    rw [Resolver.evaluate, Resolver.Plain.evaluate]
    cases args.mapM lookup with
    | none => exact .pure _
    | some args =>
      intro memo hmemo
      have hfaithful : memo.Faithful r.rules r.lattice :=
        hlattice ▸ hmemo.faithful (h.unique r.rules hknown)
      obtain ⟨hresult, -⟩ := RuleSet.applyMemo_faithful hfaithful name args
      refine ⟨congrArg r.evaluateApplied hresult, ?_⟩
      rw [hlattice]
      exact hmemo.applyMemo hknown name args

theorem resolve_yields (h : s.Sound l) {r : Resolver} (hknown : r.rules ∈ s.sets)
    (hlattice : r.lattice = l) (g : TypeGraph) :
    Yields (Memo.Kept s.sets l) (r.resolve g) (Resolver.Plain.resolve r g) :=
  Resolver.resolve_yields_good fun lookup _ => h.evaluate_yields hknown hlattice lookup _

theorem resolveBeside_yields (h : s.Sound l) {r : Resolver} (hknown : r.rules ∈ s.sets)
    (hlattice : r.lattice = l) (g : TypeGraph) (d : Resolver.Dispatch) :
    Yields (Memo.Kept s.sets l) (r.resolveBeside g d) (Resolver.Plain.resolve r g) :=
  Resolver.resolveBeside_yields (fun lookup _ => h.evaluate_yields hknown hlattice lookup _) d

/-- Signatures of the program's own functions are kept apart. -/
theorem recordSignatures {sets : List RuleSet} {memo : Memo} (h : memo.Kept sets l)
    (p : ProgramTypes) (res : Resolution) :
    (Compiler.recordSignatures p res memo).Kept sets l := by
  have hown : ∀ entry ∈ p.functions.filterMap res.signature?, entry.1.scope = .program := by
    intro entry hentry
    obtain ⟨t, -, ht⟩ := List.mem_filterMap.mp hentry
    rw [Resolution.signature?] at ht
    obtain ⟨result, -, ht⟩ := Option.bind_eq_some_iff.mp ht
    obtain ⟨params, -, ht⟩ := Option.bind_eq_some_iff.mp ht
    rw [← Option.some.inj ht]
  rw [Compiler.recordSignatures]
  generalize p.functions.filterMap res.signature? = entries at hown
  induction entries generalizing memo with
  | nil => exact h
  | cons entry entries ih =>
    obtain ⟨hfirst, hrest⟩ := List.forall_mem_cons.mp hown
    refine ih (h.record (fun id name args hsame => ?_) memo.ran) hrest
    rw [hsame] at hfirst
    cases hfirst

theorem step {config : Config} {s' : Session} (h : s.Sound (.ofConfig config))
    (hstep : Step config s s') : s'.Sound (.ofConfig config) := by
  cases hstep with
  | empty => exact h.make rfl rfl
  | register known name rule => exact h.make rfl rfl
  | resolve known lattice g =>
    exact ⟨h.below, h.unique, (h.resolve_yields known lattice g s.memo h.kept).2⟩
  | resolveBeside known lattice g d =>
    exact ⟨h.below, h.unique, (h.resolveBeside_yields known lattice g d s.memo h.kept).2⟩
  | @compile c known settings a functions =>
    have hyields := h.resolve_yields (r := .ofConfig c.config c.rules) known
      (congrArg Lattice.ofConfig settings) (c.linked a functions).graph s.memo h.kept
    exact ⟨h.below, h.unique, recordSignatures hyields.2 _ _⟩
  | record own ty =>
    refine ⟨h.below, h.unique, h.kept.record (fun id name args hsame => ?_) s.memo.ran⟩
    rw [hsame] at own
    cases own

theorem run {config : Config} (h : Relation.ReflTransGen (Step config) {} s) :
    s.Sound (.ofConfig config) := by
  induction h with
  | refl =>
    refine ⟨by simp, by simp, fun id name args ty hget => ?_⟩
    cases hget
  | tail _ hstep ih => exact ih.step hstep

end Sound

/-- Whatever a context was used for, and in whatever order components are taken up, a graph resolves
to what it resolves to with nothing remembered. What is remembered of a rule set is what the set
computes, and what is remembered of the program's own functions is neither read nor written. -/
theorem resolve_invisible (config : Config) (s : Session)
    (h : Relation.ReflTransGen (Step config) {} s) :
    (∀ id name args ty, s.memo.cache.get? ⟨.rules id, name, args⟩ = some ty →
      (∃ set ∈ s.sets, set.id = id) ∧
        ∀ set ∈ s.sets, set.id = id → set.apply (.ofConfig config) name args = .ok ty) ∧
    ∀ r : Resolver, r.rules ∈ s.sets → r.lattice = .ofConfig config →
      ∀ (g : TypeGraph) (d : Resolver.Dispatch),
        ((r.resolve g).run s.memo).1 = ((r.resolve g).run {}).1 ∧
        ((r.resolveBeside g d).run s.memo).1 = ((r.resolve g).run {}).1 ∧
        Aloof (r.resolve g) ∧ Aloof (r.resolveBeside g d) := by
  have hsound := Sound.run h
  constructor
  · intro id name args ty hget
    obtain ⟨set, hset, rfl, rule, hrule, -, happly⟩ := hsound.kept id name args ty hget
    refine ⟨⟨set, hset, rfl⟩, fun other hother hsame => ?_⟩
    obtain rfl := hsound.unique set hset other hother hsame
    rwa [RuleSet.apply, hrule]
  · intro r hknown hlattice g d
    have hfirst : ((r.resolve g).run {}).1 = Resolver.Plain.resolve r g :=
      (Resolver.resolve_yields r g {} (Memo.faithful_empty _ _)).1
    rw [hfirst]
    exact ⟨(hsound.resolve_yields hknown hlattice g s.memo hsound.kept).1,
      (hsound.resolveBeside_yields hknown hlattice g d s.memo hsound.kept).1,
      .resolve r g, .resolveBeside r g d⟩

/-! A context in which a rule was used, and a function of its name compiled. -/

def lenSet : RuleSet where
  id := 2
  rules := [("len", Rule.fixed "len" (some 1) .int64)]

def lenGraph : TypeGraph :=
  ⟨#[⟨.constant .str, .synthetic, none⟩, ⟨.apply "len" [⟨0⟩], .synthetic, none⟩]⟩

/-- The set is an extension of the empty one. -/
def lenMade : Session where
  nextId := 3
  sets := [lenSet, { id := 1 }]

def lenUsed : Session :=
  { lenMade with memo := (((Resolver.ofConfig {} lenSet).resolve lenGraph).run {}).2 }

def lenSession : Session :=
  { lenUsed with memo.cache := (lenUsed.memo.cache.record ⟨.program, "len", [.str]⟩ .str).2 }

def backwards : Resolver.Dispatch where
  order := List.reverse
  perm := List.reverse_perm

theorem run_lenSession : Relation.ReflTransGen (Step {}) {} lenSession := by
  have hempty : Step {} {} { nextId := 2, sets := [{ id := 1 }] } := .empty
  have hknown : ({ id := 1 } : RuleSet) ∈ ({ nextId := 2, sets := [{ id := 1 }] } : Session).sets :=
    List.mem_singleton.mpr rfl
  have hmade : Step {} { nextId := 2, sets := [{ id := 1 }] } lenMade :=
    .register hknown "len" (Rule.fixed "len" (some 1) .int64)
  have hused : Step {} lenMade lenUsed :=
    .resolve (r := .ofConfig {} lenSet) (by simp [lenMade, Resolver.ofConfig]) rfl lenGraph
  have hrecorded : Step {} lenUsed lenSession := .record rfl .str
  exact (((Relation.ReflTransGen.single hempty).tail hmade).tail hused).tail hrecorded

theorem resolve_invisible_lenSession :
    (Relation.ReflTransGen (Step {}) {} lenSession ∧ lenSet ∈ lenSession.sets) ∧
      (((Resolver.ofConfig {} lenSet).resolveBeside lenGraph backwards).run lenSession.memo).1 =
        (((Resolver.ofConfig {} lenSet).resolve lenGraph).run {}).1 := by
  have hset : lenSet ∈ lenSession.sets := by simp [lenSession, lenUsed, lenMade]
  obtain ⟨-, hresolve⟩ := resolve_invisible {} lenSession run_lenSession
  exact ⟨⟨run_lenSession, hset⟩,
    (hresolve (.ofConfig {} lenSet) hset rfl lenGraph backwards).2.1⟩

end Session

end TypedSsa

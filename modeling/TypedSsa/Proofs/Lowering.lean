import TypedSsa.Proofs.Building

/-!
Lowering lays each statement out in the graph. Main statement: `lower_laid`.
-/

namespace TypedSsa

/-- What is around the body of a loop. -/
def Scope.inLoop (scope : Scope) (id : NodeId) (exit next : BlockId) : Scope :=
  { scope with construct := some id, depth := scope.depth + 1, loop := some ⟨exit, next⟩ }

namespace LowerM

variable {α β : Type} {s s' s'' : Lowering}

/-! No step takes blocks away. -/

/-- The graph has no fewer blocks after it. -/
def Keeps (m : LowerM α) : Prop :=
  ∀ s x s', m s = .ok (x, s') → s.graph.blocks.length ≤ s'.graph.blocks.length

theorem widens : Follows (fun _ => True) (fun _ => True)
    (fun g g' => g.blocks.length ≤ g'.blocks.length) where
  refl := fun _ => Nat.le_refl _
  trans := fun _ _ _ => Nat.le_trans
  creates := fun g role construct depth => by
    have hput := putBy_length Block.id g.blocks
      { id := ⟨g.nextBlock⟩, origin := ⟨role, depth, construct⟩ }
    exact hput ▸ Nat.le_add_right _ _
  pushes := fun g g' c slot _ run => by
    obtain ⟨b, hupdates⟩ := FlowGraph.pushSlot_updates run
    exact Nat.le_of_eq hupdates.count.symm
  terminates := fun g g' c t _ run => by
    obtain ⟨b, hupdates⟩ := FlowGraph.setTerminator_updates run
    exact Nat.le_of_eq hupdates.count.symm
  raises := fun g g' c handler run => by
    obtain ⟨-, b, successors, hupdates, -⟩ := FlowGraph.addExceptionEdge_updates run
    exact Nat.le_of_eq hupdates.count.symm
  loops := fun _ _ => Nat.le_refl _
  jumps := fun _ _ => trivial

theorem keeps_statement (a : Arena) (fuel : Nat) (scope : Scope) (id : NodeId) :
    Keeps (statement a fuel scope id) :=
  widens.statement (fun _ => True) (fun _ _ => trivial) (fun _ _ => trivial)
    (fun _ _ _ _ => trivial) fuel scope id trivial

/-! The steps of each construct. None of the graphs on the way has more blocks than the last. -/

section
variable {a : Arena} {scope : Scope} {lower : Scope → List NodeId → LowerM Unit} {id : NodeId}
  {body handlers : List NodeId}

theorem simple_ok {u : Unit} (run : simple scope id s = .ok (u, s')) {n : Nat}
    (hcount : s'.graph.blocks.length ≤ n) :
    ∃ c g₁ g₂, ensureBlock scope s = .ok (c, ⟨g₁, some c⟩) ∧ g₁.pushSlot c (.node id) = .ok g₂ ∧
      g₁.blocks.length ≤ n ∧
      (scope.guarded = true ∧ (∃ next g₃ g₄,
        newBlock scope .tryBody ⟨g₂, some c⟩ = .ok (next, ⟨g₃, some c⟩) ∧
        g₃.setTerminator c (.jump next .normal) = .ok g₄ ∧ s' = ⟨g₄, some next⟩ ∧
        g₃.blocks.length ≤ n) ∨ ¬scope.guarded = true ∧ s' = ⟨g₂, some c⟩) := by
  unfold simple at run
  obtain ⟨c, s₁, hensure, run⟩ := bind_ok run
  obtain ⟨g₁, cur⟩ := s₁
  obtain rfl : cur = some c := by
    rcases ensureBlock_ok hensure with ⟨hcurrent, rfl⟩ | ⟨-, s₂, -, hs⟩
    · exact hcurrent
    · exact congrArg Lowering.current hs
  obtain ⟨u', s₂, hpush, run⟩ := bind_ok run
  have hle₁ := widens.pushSlot _ _ trivial _ _ _ hpush
  obtain ⟨g₂, hpushed, rfl⟩ := change_ok hpush
  by_cases hguarded : scope.guarded = true
  · rw [if_pos hguarded] at run
    obtain ⟨next, s₃, hnew, run⟩ := bind_ok run
    obtain ⟨u', s₄, hfall, run⟩ := bind_ok run
    obtain rfl := setCurrent_ok run
    have hle₂ := widens.newBlock _ _ _ _ _ hnew
    have hle₃ := widens.fallTo _ _ _ _ hfall
    obtain ⟨g₃, cur⟩ := s₃
    obtain rfl : cur = some c := congrArg Lowering.current (newBlock_ok hnew).2
    rcases fallTo_ok hfall with ⟨hnone, -⟩ | ⟨c', g₄, hc', hend, rfl⟩
    · cases hnone
    obtain rfl := Option.some.inj hc'
    dsimp only at hle₁ hle₂ hle₃ hcount
    exact ⟨c, g₁, g₂, hensure, hpushed, by omega,
      .inl ⟨hguarded, next, g₃, g₄, hnew, hend, rfl, by omega⟩⟩
  · rw [if_neg hguarded] at run
    obtain ⟨-, rfl⟩ := pure_ok run
    exact ⟨c, g₁, g₂, hensure, hpushed, Nat.le_trans hle₁ hcount, .inr ⟨hguarded, rfl⟩⟩

theorem ifElse_ok {test : NodeId} {orelse : List NodeId}
    (hkeeps : ∀ scope ids, Keeps (lower scope ids))
    (run : ifElse lower scope id test body orelse s = .ok ((), s')) {n : Nat}
    (hcount : s'.graph.blocks.length ≤ n) :
    ∃ c s₁ join s₂ thenBlock s₃ elseBlock s₄,
      ensureBlock scope s = .ok (c, s₁) ∧ newBlock scope .join s₁ = .ok (join, s₂) ∧
      newBlock { scope with construct := some id } .thenPart s₂ = .ok (thenBlock, s₃) ∧
      (orelse = [] ∧ elseBlock = none ∧ s₄ = s₃ ∨ ∃ block, elseBlock = some block ∧
        newBlock { scope with construct := some id } .elsePart s₃ = .ok (block, s₄)) ∧
      branchParts lower scope id test body orelse c thenBlock join elseBlock s₄ = .ok ((), s') ∧
      s₁.graph.blocks.length ≤ n ∧ s₂.graph.blocks.length ≤ n ∧ s₃.graph.blocks.length ≤ n ∧
      s₄.graph.blocks.length ≤ n := by
  unfold ifElse at run
  obtain ⟨c, s₁, hensure, run⟩ := bind_ok run
  obtain ⟨join, s₂, hjoin, run⟩ := bind_ok run
  obtain ⟨thenBlock, s₃, hthen, run⟩ := bind_ok run
  have hle₁ := widens.newBlock _ _ _ _ _ hjoin
  have hle₂ := widens.newBlock _ _ _ _ _ hthen
  have rest := widens.branchParts scope id test (fun _ _ => trivial) (hkeeps · body)
    (hkeeps · orelse) c thenBlock join
  by_cases hempty : orelse.isEmpty = true
  · rw [if_pos hempty] at run
    obtain ⟨elseBlock, s₄, hnone, run⟩ := bind_ok run
    obtain ⟨rfl, rfl⟩ := pure_ok hnone
    have hle₃ := rest none _ _ _ run
    exact ⟨c, s₁, join, s₂, thenBlock, s₃, none, s₃, hensure, hjoin, hthen,
      .inl ⟨List.isEmpty_iff.mp hempty, rfl, rfl⟩, run, by omega⟩
  · rw [if_neg hempty] at run
    obtain ⟨elseBlock, s₄, helse, run⟩ := bind_ok run
    obtain ⟨block, hblock, rfl⟩ := map_ok helse
    have hle₃ := widens.newBlock _ _ _ _ _ hblock
    have hle₄ := rest (some block) _ _ _ run
    exact ⟨c, s₁, join, s₂, thenBlock, s₃, some block, s₄, hensure, hjoin, hthen,
      .inr ⟨block, rfl, hblock⟩, run, by omega⟩

theorem branchParts_ok {test : NodeId} {orelse : List NodeId} {c thenBlock join : BlockId}
    {elseBlock : Option BlockId} (hkeeps : ∀ scope ids, Keeps (lower scope ids))
    (run : branchParts lower scope id test body orelse c thenBlock join elseBlock s = .ok ((), s'))
    {n : Nat} (hcount : s'.graph.blocks.length ≤ n) :
    ∃ g₁ s₂ s₃,
      s.graph.setTerminator c (.branch (.expr test) thenBlock (elseBlock.getD join)) = .ok g₁ ∧
      lower { scope with construct := some id } body ⟨g₁, some thenBlock⟩ = .ok ((), s₂) ∧
      fallTo join s₂ = .ok ((), s₃) ∧ s₃.graph.blocks.length ≤ n ∧
      (elseBlock = none ∧ s' = ⟨s₃.graph, some join⟩ ∨ ∃ block s₄ s₅, elseBlock = some block ∧
        lower { scope with construct := some id } orelse ⟨s₃.graph, some block⟩ = .ok ((), s₄) ∧
        fallTo join s₄ = .ok ((), s₅) ∧ s' = ⟨s₅.graph, some join⟩) := by
  obtain ⟨u₁, s₁, hend, run⟩ := bind_ok run
  obtain ⟨g₁, hended, rfl⟩ := change_ok hend
  obtain ⟨u₂, s₂, hset, run⟩ := bind_ok run
  obtain rfl := setCurrent_ok hset
  obtain ⟨u₃, s₃, hbody, run⟩ := bind_ok run
  obtain ⟨u₄, s₄, hfall, run⟩ := bind_ok run
  cases elseBlock with
  | none =>
    obtain rfl := setCurrent_ok run
    exact ⟨g₁, s₃, s₄, hended, hbody, hfall, hcount, .inl ⟨rfl, rfl⟩⟩
  | some block =>
    obtain ⟨u₅, s₅, hset, run⟩ := bind_ok run
    obtain rfl := setCurrent_ok hset
    obtain ⟨u₆, s₆, hbody', run⟩ := bind_ok run
    obtain ⟨u₇, s₇, hfall', run⟩ := bind_ok run
    obtain rfl := setCurrent_ok run
    have hle₁ := hkeeps _ _ _ _ _ hbody'
    have hle₂ := widens.fallTo _ _ _ _ hfall'
    exact ⟨g₁, s₃, s₄, hended, hbody, hfall, Nat.le_trans hle₁ (Nat.le_trans hle₂ hcount),
      .inr ⟨block, s₆, s₇, rfl, hbody', hfall', rfl⟩⟩

theorem whileLoop_ok {test : NodeId} (hkeeps : ∀ scope ids, Keeps (lower scope ids))
    (run : whileLoop lower scope id test body s = .ok ((), s')) {n : Nat}
    (hcount : s'.graph.blocks.length ≤ n) :
    ∃ c s₁ exit s₂ header s₃ start s₄ g₅ g₆ s₇ s₈,
      ensureBlock scope s = .ok (c, s₁) ∧ newBlock scope .loopExit s₁ = .ok (exit, s₂) ∧
      newBlock { scope with construct := some id, depth := scope.depth + 1 } .loopHeader s₂ =
        .ok (header, s₃) ∧
      newBlock { scope with construct := some id, depth := scope.depth + 1 } .loopBody s₃ =
        .ok (start, s₄) ∧
      s₄.graph.setTerminator c (.jump header .normal) = .ok g₅ ∧
      g₅.setTerminator header (.branch (.expr test) start exit) = .ok g₆ ∧
      lower (scope.inLoop id exit header) body ⟨g₆, some start⟩ = .ok ((), s₇) ∧
      fallTo header s₇ = .ok ((), s₈) ∧
      s' = ⟨s₈.graph.addLoop {
        construct := id, header, latch := none, exit, parallel := false, depth := scope.depth + 1
        body := s₈.graph.blockIds.filter (fun b => s₃.graph.nextBlock ≤ b.raw) }, some exit⟩ ∧
      s₁.graph.blocks.length ≤ n ∧ s₂.graph.blocks.length ≤ n ∧ s₃.graph.blocks.length ≤ n ∧
      s₄.graph.blocks.length ≤ n ∧ s₈.graph.blocks.length ≤ n := by
  unfold whileLoop at run
  obtain ⟨c, s₁, hensure, run⟩ := bind_ok run
  obtain ⟨exit, s₂, hexit, run⟩ := bind_ok run
  obtain ⟨header, s₃, hheader, run⟩ := bind_ok run
  obtain ⟨first, s₄, hpeek, run⟩ := bind_ok run
  obtain ⟨rfl, rfl⟩ := peekBlock_ok hpeek
  obtain ⟨start, s₅, hstart, run⟩ := bind_ok run
  obtain ⟨u₁, s₆, hend, run⟩ := bind_ok run
  obtain ⟨g₆, hended, rfl⟩ := change_ok hend
  obtain ⟨u₂, s₇, htest, run⟩ := bind_ok run
  obtain ⟨g₇, htested, rfl⟩ := change_ok htest
  obtain ⟨u₃, s₈, hset, run⟩ := bind_ok run
  obtain rfl := setCurrent_ok hset
  obtain ⟨u₄, s₉, hlower, run⟩ := bind_ok run
  obtain ⟨u₅, s₁₀, hfall, run⟩ := bind_ok run
  obtain ⟨blocks, s₁₁, hblocks, run⟩ := bind_ok run
  obtain ⟨rfl, rfl⟩ := blocksSince_ok hblocks
  obtain ⟨u₆, s₁₂, hloop, run⟩ := bind_ok run
  obtain ⟨g₁₂, hadd, rfl⟩ := change_ok hloop
  cases hadd
  obtain rfl := setCurrent_ok run
  have hle₁ := widens.newBlock _ _ _ _ _ hexit
  have hle₂ := widens.newBlock _ _ _ _ _ hheader
  have hle₃ := widens.newBlock _ _ _ _ _ hstart
  have hle₄ := widens.endBlock _ _ trivial _ _ _ hend
  have hle₅ := widens.endBlock _ _ trivial _ _ _ htest
  have hle₆ := hkeeps _ _ _ _ _ hlower
  have hle₇ := widens.fallTo _ _ _ _ hfall
  have hcount : s₁₀.graph.blocks.length ≤ n := hcount
  dsimp only at hle₄ hle₅ hle₆
  exact ⟨c, s₁, exit, s₂, header, s₃, start, s₅, g₆, g₇, s₉, s₁₀, hensure, hexit, hheader, hstart,
    hended, htested, hlower, hfall, rfl, by omega⟩

theorem forLoop_ok {parallel : Bool} (hkeeps : ∀ scope ids, Keeps (lower scope ids))
    (run : forLoop lower scope id body parallel s = .ok ((), s')) {n : Nat}
    (hcount : s'.graph.blocks.length ≤ n) :
    ∃ c s₁ g₂ exit s₃ header s₄ start s₅ latch s₆ g₇ g₈ g₉ g₁₀ s₁₁ s₁₂,
      ensureBlock scope s = .ok (c, s₁) ∧ s₁.graph.pushSlot c (.loopInit id) = .ok g₂ ∧
      newBlock scope .loopExit ⟨g₂, s₁.current⟩ = .ok (exit, s₃) ∧
      newBlock { scope with construct := some id, depth := scope.depth + 1 } .loopHeader s₃ =
        .ok (header, s₄) ∧
      newBlock { scope with construct := some id, depth := scope.depth + 1 } .loopBody s₄ =
        .ok (start, s₅) ∧
      newBlock { scope with construct := some id, depth := scope.depth + 1 } .loopLatch s₅ =
        .ok (latch, s₆) ∧
      s₆.graph.setTerminator c (.jump header .normal) = .ok g₇ ∧
      g₇.setTerminator header (.branch (.loopTest id) start exit) = .ok g₈ ∧
      g₈.pushSlot latch (.loopStep id) = .ok g₉ ∧
      g₉.setTerminator latch (.jump header .normal) = .ok g₁₀ ∧
      lower (scope.inLoop id exit latch) body ⟨g₁₀, some start⟩ = .ok ((), s₁₁) ∧
      fallTo latch s₁₁ = .ok ((), s₁₂) ∧
      s' = ⟨s₁₂.graph.addLoop {
        construct := id, header, latch := some latch, exit, parallel, depth := scope.depth + 1
        body := s₁₂.graph.blockIds.filter (fun b => s₄.graph.nextBlock ≤ b.raw) }, some exit⟩ ∧
      s₁.graph.blocks.length ≤ n ∧ s₃.graph.blocks.length ≤ n ∧ s₄.graph.blocks.length ≤ n ∧
      s₅.graph.blocks.length ≤ n ∧ s₆.graph.blocks.length ≤ n ∧ s₁₂.graph.blocks.length ≤ n := by
  unfold forLoop at run
  obtain ⟨c, s₁, hensure, run⟩ := bind_ok run
  obtain ⟨u₁, s₂, hinit, run⟩ := bind_ok run
  obtain ⟨g₂, hpushed, rfl⟩ := change_ok hinit
  obtain ⟨exit, s₃, hexit, run⟩ := bind_ok run
  obtain ⟨header, s₄, hheader, run⟩ := bind_ok run
  obtain ⟨first, s₅, hpeek, run⟩ := bind_ok run
  obtain ⟨rfl, rfl⟩ := peekBlock_ok hpeek
  obtain ⟨start, s₆, hstart, run⟩ := bind_ok run
  obtain ⟨latch, s₇, hlatch, run⟩ := bind_ok run
  obtain ⟨u₂, s₈, hend, run⟩ := bind_ok run
  obtain ⟨g₈, hended, rfl⟩ := change_ok hend
  obtain ⟨u₃, s₉, htest, run⟩ := bind_ok run
  obtain ⟨g₉, htested, rfl⟩ := change_ok htest
  obtain ⟨u₄, s₁₀, hstep, run⟩ := bind_ok run
  obtain ⟨g₁₀, hstepped, rfl⟩ := change_ok hstep
  obtain ⟨u₅, s₁₁, hback, run⟩ := bind_ok run
  obtain ⟨g₁₁, hbacked, rfl⟩ := change_ok hback
  obtain ⟨u₆, s₁₂, hset, run⟩ := bind_ok run
  obtain rfl := setCurrent_ok hset
  obtain ⟨u₇, s₁₃, hlower, run⟩ := bind_ok run
  obtain ⟨u₈, s₁₄, hfall, run⟩ := bind_ok run
  obtain ⟨blocks, s₁₅, hblocks, run⟩ := bind_ok run
  obtain ⟨rfl, rfl⟩ := blocksSince_ok hblocks
  obtain ⟨u₉, s₁₆, hloop, run⟩ := bind_ok run
  obtain ⟨g₁₆, hadd, rfl⟩ := change_ok hloop
  cases hadd
  obtain rfl := setCurrent_ok run
  have hle₁ := widens.pushSlot _ _ trivial _ _ _ hinit
  have hle₂ := widens.newBlock _ _ _ _ _ hexit
  have hle₃ := widens.newBlock _ _ _ _ _ hheader
  have hle₄ := widens.newBlock _ _ _ _ _ hstart
  have hle₅ := widens.newBlock _ _ _ _ _ hlatch
  have hle₆ := widens.endBlock _ _ trivial _ _ _ hend
  have hle₇ := widens.endBlock _ _ trivial _ _ _ htest
  have hle₈ := widens.pushSlot _ _ trivial _ _ _ hstep
  have hle₉ := widens.endBlock _ _ trivial _ _ _ hback
  have hle₁₀ := hkeeps _ _ _ _ _ hlower
  have hle₁₁ := widens.fallTo _ _ _ _ hfall
  have hcount : s₁₄.graph.blocks.length ≤ n := hcount
  dsimp only at hle₁ hle₂ hle₆ hle₇ hle₈ hle₉ hle₁₀
  exact ⟨c, s₁, g₂, exit, s₃, header, s₄, start, s₆, latch, s₇, g₈, g₉, g₁₀, g₁₁, s₁₃, s₁₄, hensure,
    hpushed, hexit, hheader, hstart, hlatch, hended, htested, hstepped, hbacked, hlower, hfall, rfl,
    by omega⟩

theorem tryCatch_ok (hkeeps : ∀ scope ids, Keeps (lower scope ids))
    (run : LowerM.tryCatch a lower scope id body handlers s = .ok ((), s')) {n : Nat}
    (hcount : s'.graph.blocks.length ≤ n) :
    ∃ c s₁ after s₂ tryBlock s₃ entries s₄ g₅ s₆ s₇ s₈ s₉,
      ensureBlock scope s = .ok (c, s₁) ∧ newBlock scope .afterTry s₁ = .ok (after, s₂) ∧
      newBlock { scope with construct := some id } .tryBody s₂ = .ok (tryBlock, s₃) ∧
      entryBlocks { scope with construct := some id } handlers s₃ = .ok (entries, s₄) ∧
      s₄.graph.setTerminator c (.jump tryBlock .normal) = .ok g₅ ∧
      lower { scope with construct := some id, guarded := true } body ⟨g₅, some tryBlock⟩ =
        .ok ((), s₆) ∧
      fallTo after s₆ = .ok ((), s₇) ∧
      raiseTo entries (tryBlock :: s₇.graph.blockIds.filter (fun b => g₅.nextBlock ≤ b.raw)) s₇ =
        .ok ((), s₈) ∧
      handlerParts a lower { scope with construct := some id } entries after s₈ = .ok ((), s₉) ∧
      s' = ⟨s₉.graph, some after⟩ ∧
      s₁.graph.blocks.length ≤ n ∧ s₂.graph.blocks.length ≤ n ∧ s₃.graph.blocks.length ≤ n ∧
      s₄.graph.blocks.length ≤ n ∧ s₇.graph.blocks.length ≤ n ∧ s₉.graph.blocks.length ≤ n := by
  unfold LowerM.tryCatch at run
  obtain ⟨c, s₁, hensure, run⟩ := bind_ok run
  obtain ⟨after, s₂, hafter, run⟩ := bind_ok run
  obtain ⟨tryBlock, s₃, htry, run⟩ := bind_ok run
  obtain ⟨entries, s₄, hentries, run⟩ := bind_ok run
  obtain ⟨u₁, s₅, hend, run⟩ := bind_ok run
  obtain ⟨g₅, hended, rfl⟩ := change_ok hend
  obtain ⟨first, s₆, hpeek, run⟩ := bind_ok run
  obtain ⟨rfl, rfl⟩ := peekBlock_ok hpeek
  obtain ⟨u₂, s₇, hset, run⟩ := bind_ok run
  obtain rfl := setCurrent_ok hset
  obtain ⟨u₃, s₈, hlower, run⟩ := bind_ok run
  obtain ⟨u₄, s₉, hfall, run⟩ := bind_ok run
  obtain ⟨nested, s₁₀, hnested, run⟩ := bind_ok run
  obtain ⟨rfl, rfl⟩ := blocksSince_ok hnested
  obtain ⟨u₅, s₁₁, hedges, run⟩ := bind_ok run
  obtain ⟨u₆, s₁₂, hhandlers, run⟩ := bind_ok run
  obtain rfl := setCurrent_ok run
  have hle₁ := widens.newBlock _ _ _ _ _ hafter
  have hle₂ := widens.newBlock _ _ _ _ _ htry
  have hle₃ := widens.entryBlocks _ handlers _ _ _ hentries
  have hle₄ := widens.endBlock _ _ trivial _ _ _ hend
  have hle₅ := hkeeps _ _ _ _ _ hlower
  have hle₆ := widens.fallTo _ _ _ _ hfall
  have hle₇ := widens.raiseTo entries _ _ _ _ hedges
  have hle₈ := widens.handlerParts _ after (fun _ _ ids _ => (hkeeps · ids)) _ _ _ hhandlers
  have hcount : s₁₂.graph.blocks.length ≤ n := hcount
  dsimp only at hle₄ hle₅
  exact ⟨c, s₁, after, s₂, tryBlock, s₃, entries, s₄, g₅, s₈, s₉, s₁₁, s₁₂, hensure, hafter, htry,
    hentries, hended, hlower, hfall, hedges, hhandlers, rfl, by omega⟩

end

end LowerM

/-! What lowering does to the graph and where it lays the code. -/

/-- A block and all that are new. -/
def FlowGraph.Since (g : FlowGraph) (b : Option BlockId) (c : BlockId) : Prop :=
  b = some c ∨ g.nextBlock ≤ c.raw

/-- Where lowering goes on. -/
def Lowering.point? (s : Lowering) : Option Point :=
  s.current.map (fun c => (c, ((s.graph.bare? c).map (·.slots.length)).getD 0))

structure Lowering.Valid (guarded : Bool) (s : Lowering) : Prop where
  sound : s.graph.Sound
  opened : ∀ c, s.current = some c → ∃ b, s.graph.bare? c = some b ∧ b.Open guarded

def Scope.Fits (scope : Scope) (g : FlowGraph) : Prop :=
  ∀ l, scope.loop = some l → g.Target l.breakTo ∧ g.Target l.continueTo

/-- What is around the code of a scope, with any handlers. -/
structure Around.Of (w : Around) (scope : Scope) : Prop where
  guarded : w.guarded = scope.guarded
  loop : w.loop = scope.loop

/-- Code has been put into the current block and new ones. In whatever graph these blocks come to
be, it lies from where lowering was to where it goes on. -/
structure Lowered (a : Arena) (scope : Scope) (code : Code) (s s' : Lowering) : Prop where
  valid : s'.Valid scope.guarded
  frame : FlowGraph.Frame (s.graph.Since s.current) s.graph s'.graph
  owned : ∀ c, s'.current = some c → s.graph.Since s.current c
  laid : ∀ p, s.point? = some p → ∀ g w, Around.Of w scope →
    FlowGraph.Grows w.handlers (s.graph.Since s.current) s'.graph g → Laid a g w code p s'.point?

/-- Lists of statements are lowered as they should. -/
structure Lowers (a : Arena) (lower : Scope → List NodeId → LowerM Unit) : Prop where
  keeps : ∀ scope ids, LowerM.Keeps (lower scope ids)
  lowered : ∀ scope ids s s', s.Valid scope.guarded → scope.Fits s.graph →
    lower scope ids s = .ok ((), s') → s'.graph.blocks.length ≤ Ident.invalidRaw →
    Lowered a scope (.all ids) s s'

/-- Code has been put into an empty block and new ones, and after it control falls to a target. -/
structure Part (a : Arena) (scope : Scope) (ids : List NodeId) (start target : BlockId)
    (g : FlowGraph) (s' : Lowering) : Prop where
  sound : s'.graph.Sound
  gone : s'.current = none
  frame : FlowGraph.Frame (g.Since start) g s'.graph
  laid : ∀ g' w, Around.Of w scope →
    FlowGraph.Grows w.handlers (g.Since start) s'.graph g' →
    ∃ e, Laid a g' w (.all ids) (start, 0) e ∧ Falls g' w target e

section
variable {a : Arena} {scope : Scope} {code : Code} {g g' : FlowGraph} {c d : BlockId} {b : Block}

open LowerM FlowGraph

theorem Scope.Fits.frame {region : BlockId → Prop} (h : scope.Fits g) (hframe : Frame region g g') :
    scope.Fits g' :=
  fun l hl => ⟨hframe.target (h l hl).1, hframe.target (h l hl).2⟩

theorem point?_some (hb : g.bare? c = some b) :
    (⟨g, some c⟩ : Lowering).point? = some (c, b.slots.length) := by
  simp [Lowering.point?, hb]

/-- An end without exception edges raises to the handlers around alone. -/
theorem no_exceptions {t : Terminator} (ht : ∀ e ∈ t.edges, e.kind ≠ .exception ∧ g.Target e.target)
    (k : BlockId) : (⟨k, .exception⟩ : Edge) ∉ t.edges :=
  fun hk => (ht _ hk).1 rfl

theorem jump_targets (kind : EdgeKind) (hkind : kind ≠ .exception) (hd : g.Target d) :
    ∀ e ∈ (Terminator.jump d kind).edges, e.kind ≠ .exception ∧ g.Target e.target := by
  intro e he
  obtain rfl := List.mem_singleton.mp he
  exact ⟨hkind, hd⟩

theorem branch_targets (condition : Condition) {onTrue onFalse : BlockId}
    (htrue : g.Target onTrue) (hfalse : g.Target onFalse) :
    ∀ e ∈ (Terminator.branch condition onTrue onFalse).edges,
      e.kind ≠ .exception ∧ g.Target e.target := by
  intro e he
  rcases List.mem_cons.mp he with rfl | he
  · exact ⟨nofun, htrue⟩
  · obtain rfl := List.mem_singleton.mp he
    exact ⟨nofun, hfalse⟩

theorem exit_targets {t : Terminator} (ht : t.edges = []) :
    ∀ e ∈ t.edges, e.kind ≠ .exception ∧ g.Target e.target := by
  rw [ht]
  nofun

/-- A block that was just made is open in every region. -/
theorem fresh_open (guarded : Bool) (c : BlockId) (origin : BlockOrigin) :
    ({ id := c, origin } : Block).Open guarded :=
  ⟨rfl, rfl, fun _ => rfl⟩

/-- A body, and then the way on. -/
theorem Lowers.part {lower : Scope → List NodeId → LowerM Unit} (h : Lowers a lower)
    {ids : List NodeId} {start target : BlockId} {s s' : Lowering} {origin : BlockOrigin}
    (hsound : g.Sound) (hstart : g.bare? start = some { id := start, origin })
    (hfits : scope.Fits g) (htarget : g.Target target)
    (run : lower scope ids ⟨g, some start⟩ = .ok ((), s)) (fall : fallTo target s = .ok ((), s'))
    (hcount : s'.graph.blocks.length ≤ Ident.invalidRaw) : Part a scope ids start target g s' := by
  have hs := h.lowered scope ids ⟨g, some start⟩ s
    ⟨hsound, fun c hc => ⟨_, Option.some.inj hc ▸ hstart, fresh_open _ _ _⟩⟩ hfits run
    (Nat.le_trans (widens.fallTo target s () s' fall) hcount)
  have hlaid := hs.laid _ (point?_some hstart)
  rcases fallTo_ok fall with ⟨hnone, rfl⟩ | ⟨c, g', hc, hend, rfl⟩
  · refine ⟨hs.valid.sound, hnone, hs.frame, fun g' w hw hg' => ⟨none, ?_, .never⟩⟩
    have hlaid := hlaid g' w hw hg'
    rwa [Lowering.point?, hnone] at hlaid
  · obtain ⟨b, hb, hopen⟩ := hs.valid.opened c hc
    have htargets := jump_targets .normal nofun (hs.frame.target htarget)
    have hchanges := hs.valid.sound.endBlock hb hopen htargets hend
    have howned := hs.owned c hc
    refine ⟨hchanges.sound, rfl, hs.frame.trans (hchanges.frame.mono ?_), ?_⟩
    · rintro k rfl
      exact howned
    · intro g'' w hw hg''
      have hlaid := hlaid g'' w hw (hchanges.frame.before hg'')
      have hpoint : s.point? = some (c, b.slots.length) := by
        simp [Lowering.point?, hc, hb]
      refine ⟨_, hlaid, ?_⟩
      rw [hpoint]
      refine .jump ?_ (hg''.endsAt howned hchanges.self rfl rfl)
        (hg''.raisesTo howned hchanges.self (no_exceptions htargets))
      intro hguarded
      rw [hopen.empty (hw.guarded ▸ hguarded)]
      rfl

theorem newBlock_creates {role : BlockRole} {cur : Option BlockId} {s : Lowering}
    (hsound : g.Sound) (run : newBlock scope role ⟨g, cur⟩ = .ok (c, s))
    (hcount : s.graph.blocks.length ≤ Ident.invalidRaw) :
    ∃ g', s = ⟨g', cur⟩ ∧ Creates g c ⟨role, scope.depth, scope.construct⟩ g' := by
  obtain ⟨rfl, rfl⟩ := newBlock_ok run
  exact ⟨_, rfl, hsound.createBlock role scope.construct scope.depth hcount⟩

theorem endBlock_changes {t : Terminator} {guarded : Bool} {cur : Option BlockId} {s : Lowering}
    {u : Unit} (hsound : g.Sound) (hb : g.bare? c = some b) (hopen : b.Open guarded)
    (htargets : ∀ e ∈ t.edges, e.kind ≠ .exception ∧ g.Target e.target)
    (run : endBlock c t ⟨g, cur⟩ = .ok (u, s)) : ∃ g', s = ⟨g', cur⟩ ∧
      Changes g c { b with terminator := some t, successors := t.edges } g' := by
  obtain ⟨g', hend, rfl⟩ := change_ok run
  exact ⟨g', rfl, hsound.endBlock hb hopen htargets hend⟩

/-- A statement that control does not reach is lowered from a block of its own. -/
theorem ensureBlock_starts {s s₁ : Lowering} (hvalid : s.Valid scope.guarded)
    (hfits : scope.Fits s.graph) (run : ensureBlock scope s = .ok (c, s₁))
    (hcount : s₁.graph.blocks.length ≤ Ident.invalidRaw) :
    ∃ g b, s₁ = ⟨g, some c⟩ ∧ g.Sound ∧ scope.Fits g ∧ g.bare? c = some b ∧
      b.Open scope.guarded ∧
      ∀ a code s', Lowered a scope code ⟨g, some c⟩ s' → Lowered a scope code s s' := by
  obtain ⟨g, cur⟩ := s
  rcases ensureBlock_ok run with ⟨hc, rfl⟩ | ⟨hnone, s₂, hnew, rfl⟩
  · obtain rfl : cur = some c := hc
    obtain ⟨b, hb, hopen⟩ := hvalid.opened c rfl
    exact ⟨g, b, rfl, hvalid.sound, hfits, hb, hopen, fun _ _ _ h => h⟩
  · obtain rfl : cur = none := hnone
    obtain ⟨g', rfl, hcreates⟩ := newBlock_creates hvalid.sound hnew hcount
    refine ⟨g', _, rfl, hcreates.sound, hfits.frame hcreates.frame, hcreates.self,
      fresh_open _ _ _, ?_⟩
    intro a code s' hs
    have hsince : ∀ k, g'.Since (some c) k → g.Since none k := by
      rintro k (hk | hk)
      · obtain rfl := Option.some.inj hk
        exact .inr (hcreates.id ▸ Nat.le_refl _)
      · exact .inr (Nat.le_trans (Nat.le_of_lt (hcreates.next ▸ Nat.lt_succ_self _)) hk)
    exact ⟨hs.valid, (hcreates.frame.mono (fun _ => .inr)).trans (hs.frame.mono hsince),
      fun k hk => hsince k (hs.owned k hk), nofun⟩

/-- Code from a block on, after which lowering goes on in a new block. -/
theorem Lowered.compound (hb : g.bare? c = some b) (hsound : g'.Sound)
    (hframe : Frame (g.Since c) g g') {origin : BlockOrigin}
    (hd : g'.bare? d = some { id := d, origin }) (hnew : g.nextBlock ≤ d.raw)
    (hlaid : ∀ g'' w, Around.Of w scope → Grows w.handlers (g.Since c) g' g'' →
      Laid a g'' w code (c, b.slots.length) (some (d, 0))) :
    Lowered a scope code ⟨g, some c⟩ ⟨g', some d⟩ := by
  refine ⟨⟨hsound, ?_⟩, hframe, ?_, ?_⟩
  · intro k hk
    obtain rfl := Option.some.inj hk
    exact ⟨_, hd, fresh_open _ _ _⟩
  · intro k hk
    obtain rfl := Option.some.inj hk
    exact .inr hnew
  · intro p hp g'' w hw hg''
    obtain rfl := Option.some.inj ((point?_some hb).symm.trans hp)
    rw [point?_some hd]
    exact hlaid g'' w hw hg''

/-- Code that ends its block for good. -/
theorem Lowered.terminated (hb : g.bare? c = some b) (hopen : b.Open scope.guarded)
    (hsound : g.Sound) {t : Terminator}
    (htargets : ∀ e ∈ t.edges, e.kind ≠ .exception ∧ g.Target e.target) {s' : Lowering}
    (run : (do endBlock c t; setCurrent none : LowerM Unit) ⟨g, some c⟩ = .ok ((), s'))
    (hlaid : ∀ g'' w, Around.Of w scope → g''.EndsAt c b.slots.length t → Guards g'' w c →
      Laid a g'' w code (c, b.slots.length) none) :
    Lowered a scope code ⟨g, some c⟩ s' := by
  obtain ⟨u, s₁, hend, run⟩ := bind_ok run
  obtain ⟨g', rfl, hchanges⟩ := endBlock_changes hsound hb hopen htargets hend
  obtain rfl := setCurrent_ok run
  have hc : g.Since (some c) c := .inl rfl
  refine ⟨⟨hchanges.sound, nofun⟩, hchanges.frame.mono ?_, nofun, ?_⟩
  · rintro k rfl
    exact hc
  · intro p hp g'' w hw hg''
    obtain rfl := Option.some.inj ((point?_some hb).symm.trans hp)
    exact hlaid g'' w hw (hg''.endsAt hc hchanges.self rfl rfl)
      (hg''.raisesTo hc hchanges.self (no_exceptions htargets))

/-- A step stays in its block, or in a guarded region is followed by a new one. -/
theorem simple_lowered {id : NodeId} {st : Statement} (hst : st.isSimple = true) {s s' : Lowering}
    (hvalid : s.Valid scope.guarded) (hfits : scope.Fits s.graph)
    (run : simple scope id s = .ok ((), s')) (hcount : s'.graph.blocks.length ≤ Ident.invalidRaw) :
    Lowered a scope (.one id st) s s' := by
  obtain ⟨c, g, g₁, hensure, hput, hcount₁, hrest⟩ := simple_ok run hcount
  obtain ⟨g, b, hs₁, hsound, -, hb, hopen, hstarts⟩ :=
    ensureBlock_starts hvalid hfits hensure hcount₁
  cases hs₁
  refine hstarts _ _ _ ?_
  have hpushed := hsound.pushSlot hb hopen.unended hput
  have hc : g.Since (some c) c := .inl rfl
  have hframe : Frame (g.Since (some c)) g g₁ := hpushed.frame.mono (fun k hk => hk ▸ hc)
  have hslot : (b.slots ++ [Slot.node id])[b.slots.length]? = some (.node id) := by simp
  rcases hrest with ⟨hguarded, next, g₂, g₃, hnew, hend, rfl, hcount₂⟩ | ⟨hguarded, rfl⟩
  · obtain ⟨g₂, hs₂, hcreates⟩ := newBlock_creates hpushed.sound hnew hcount₂
    cases hs₂
    have hopen₁ : Block.Open false { b with slots := b.slots ++ [.node id] } :=
      ⟨hopen.unended, hopen.edgeless, nofun⟩
    have htargets := jump_targets .normal nofun
      (hcreates.target hpushed.sound (by simp))
    have hends := hcreates.sound.endBlock (hcreates.other hpushed.self) hopen₁ htargets hend
    have hnew : g.nextBlock ≤ next.raw := hcreates.id ▸ Nat.le_of_eq hpushed.next.symm
    have hne : next ≠ c := by
      rintro rfl
      exact absurd (hsound.lt_of_bare hb) (by omega)
    refine .compound hb hends.sound ?_ ((hends.frame.only next hne).trans hcreates.self) hnew ?_
    · refine (hframe.trans (hcreates.frame.mono ?_)).trans (hends.frame.mono ?_)
      · exact fun k hk => .inr (hpushed.next ▸ hk)
      · exact fun k hk => hk ▸ hc
    · intro g' w hw hg'
      have hempty : b.slots.length = 0 := by rw [hopen.empty hguarded]; rfl
      rw [hempty] at hslot ⊢
      have hlength : (b.slots ++ [Slot.node id]).length = 1 := by simp [hempty]
      exact .splits hst (hw.guarded.trans hguarded) (hg'.slotAt hc hends.self hslot)
        (hg'.endsAt hc hends.self hlength rfl)
        (hg'.raisesTo hc hends.self (no_exceptions htargets))
  · refine ⟨⟨hpushed.sound, ?_⟩, hframe, ?_, ?_⟩
    · intro k hk
      obtain rfl := Option.some.inj hk
      exact ⟨_, hpushed.self, hopen.unended, hopen.edgeless, fun h => absurd h hguarded⟩
    · intro k hk
      obtain rfl := Option.some.inj hk
      exact hc
    · intro p hp g' w hw hg'
      obtain rfl := Option.some.inj ((point?_some hb).symm.trans hp)
      rw [point?_some hpushed.self, List.length_append]
      have hraises := hg'.raisesTo hc hpushed.self (by simp [hopen.edgeless])
      exact .stays hst (by simpa [hw.guarded] using hguarded)
        (hg'.slotAt hc hpushed.self hslot) hraises

theorem terminate_lowered {t : Terminator} {s s' : Lowering} (hvalid : s.Valid scope.guarded)
    (hfits : scope.Fits s.graph) (run : terminate scope t s = .ok ((), s'))
    (hcount : s'.graph.blocks.length ≤ Ident.invalidRaw)
    (htargets : ∀ g, scope.Fits g → ∀ e ∈ t.edges, e.kind ≠ .exception ∧ g.Target e.target)
    (hlaid : ∀ g w c k, Around.Of w scope → g.EndsAt c k t → Guards g w c →
      Laid a g w code (c, k) none) : Lowered a scope code s s' := by
  obtain ⟨c, s₁, hensure, run⟩ := bind_ok run
  have hkeeps := widens.andThen (widens.endBlock c t trivial) (fun _ => widens.setCurrent none)
  obtain ⟨g, b, rfl, hsound, hfits, hb, hopen, hstarts⟩ := ensureBlock_starts hvalid hfits hensure
    (Nat.le_trans (hkeeps s₁ () s' run) hcount)
  exact hstarts _ _ _ (.terminated hb hopen hsound (htargets g hfits) run
    (fun g w => hlaid g w c _))

theorem leaveLoop_lowered {id : NodeId} {reason : String} {kind : EdgeKind}
    {target : LoopTargets → BlockId} {s s' : Lowering} (hvalid : s.Valid scope.guarded)
    (hfits : scope.Fits s.graph) (run : leaveLoop scope id reason kind target s = .ok ((), s'))
    (hcount : s'.graph.blocks.length ≤ Ident.invalidRaw) (hkind : kind ≠ .exception)
    (htarget : ∀ l, target l = l.breakTo ∨ target l = l.continueTo)
    (hlaid : ∀ g w c k l, w.loop = some l → g.EndsAt c k (.jump (target l) kind) →
      Guards g w c → Laid a g w code (c, k) none) : Lowered a scope code s s' := by
  unfold leaveLoop at run
  cases hloop : scope.loop with
  | none =>
    rw [hloop] at run
    cases run
  | some l =>
    rw [hloop] at run
    refine terminate_lowered hvalid hfits run hcount ?_ ?_
    · intro g hfits
      refine jump_targets kind hkind ?_
      rcases htarget l with h | h
      · exact h ▸ (hfits l hloop).1
      · exact h ▸ (hfits l hloop).2
    · exact fun g w c k hw => hlaid g w c k l (hw.loop.trans hloop)

end

/-! Code that is put into more than one block. -/

/-- Since a moment when a block was current, that block and new ones alone have been changed. -/
structure Site (scope : Scope) (g₀ : FlowGraph) (c : BlockId) (g : FlowGraph) : Prop where
  base : g₀.Sound
  sound : g.Sound
  fits : scope.Fits g
  frame : FlowGraph.Frame (g₀.Since c) g₀ g

/-- A block made since then, and empty yet. -/
structure Waits (g₀ g : FlowGraph) (d : BlockId) (origin : BlockOrigin) : Prop where
  self : g.bare? d = some { id := d, origin }
  new : g₀.nextBlock ≤ d.raw

section
variable {a : Arena} {scope scope' : Scope} {g₀ g g' : FlowGraph} {c d : BlockId} {b : Block}
  {origin : BlockOrigin} {cur : Option BlockId} {s s' : Lowering}

open LowerM FlowGraph

namespace Waits

theorem since (h : Waits g₀ g d origin) : g₀.Since c d :=
  .inr h.new

theorem change (h : Waits g₀ g d origin) {b : Block} (hchanges : Changes g c b g') (hne : d ≠ c) :
    Waits g₀ g' d origin :=
  ⟨(hchanges.frame.only d hne).trans h.self, h.new⟩

theorem ne {origin' : BlockOrigin} (h : Waits g₀ g c origin) (h' : Waits g₀ g d origin')
    (hrole : origin.role ≠ origin'.role) : c ≠ d := by
  rintro rfl
  have hsame := Option.some.inj (h.self.symm.trans h'.self)
  exact hrole (congrArg (·.origin.role) hsame)

/-- A part does not touch what waits beside it. -/
theorem part {ids : List NodeId} {start target : BlockId} (h : Waits g₀ g d origin)
    (hpart : Part a scope ids start target g s') (hg : g.Sound) (hne : d ≠ start) :
    Waits g₀ s'.graph d origin := by
  refine ⟨(hpart.frame.only d ?_).trans h.self, h.new⟩
  rintro (hd | hd)
  · exact hne (Option.some.inj hd).symm
  · exact absurd (hg.lt_of_bare h.self) (by omega)

theorem raises {caught region : BlockId → Prop} (h : Waits g₀ g d origin)
    (hraises : Raises caught region g g') (hd : ¬region d) : Waits g₀ g' d origin :=
  ⟨(hraises.only d hd).trans h.self, h.new⟩

end Waits

namespace Site

theorem start (hg : g.Sound) (hfits : scope.Fits g) (c : BlockId) : Site scope g c g :=
  ⟨hg, hg, hfits, .refl _ g⟩

theorem ne_entry (h : Site scope g₀ c g) (hd : Waits g₀ g d origin) : d ≠ g.entry := by
  rw [h.frame.entry]
  rintro rfl
  have := (h.base.ids _).mp h.base.linked.entry
  have := hd.new
  omega

theorem target (h : Site scope g₀ c g) (hd : Waits g₀ g d origin) (hrole : origin.role ≠ .handler) :
    g.Target d :=
  ⟨h.ne_entry hd, _, hd.self, hrole⟩

theorem ne (h : Site scope g₀ c g) (hc : g₀.bare? c = some b) (hd : Waits g₀ g d origin) :
    d ≠ c := by
  rintro rfl
  have := h.base.lt_of_bare hc
  have := hd.new
  omega

theorem create (h : Site scope g₀ c g) {role : BlockRole}
    (run : newBlock scope' role ⟨g, cur⟩ = .ok (d, s))
    (hcount : s.graph.blocks.length ≤ Ident.invalidRaw) :
    ∃ g', s = ⟨g', cur⟩ ∧ Site scope g₀ c g' ∧
      Waits g₀ g' d ⟨role, scope'.depth, scope'.construct⟩ ∧
      ∀ k b, g.bare? k = some b → g'.bare? k = some b := by
  obtain ⟨g', rfl, hcreates⟩ := newBlock_creates h.sound run hcount
  have hframe : Frame (g₀.Since c) g g' :=
    hcreates.frame.mono (fun _ hk => .inr (Nat.le_trans h.frame.next hk))
  exact ⟨g', rfl, ⟨h.base, hcreates.sound, h.fits.frame hcreates.frame, h.frame.trans hframe⟩,
    ⟨hcreates.self, hcreates.id ▸ h.frame.next⟩, fun k b => hcreates.other⟩

theorem changes (h : Site scope g₀ c g) (hd : g₀.Since c d) (hchanges : Changes g d b g') :
    Site scope g₀ c g' := by
  refine ⟨h.base, hchanges.sound, h.fits.frame hchanges.frame,
    h.frame.trans (hchanges.frame.mono ?_)⟩
  rintro k rfl
  exact hd

theorem part (h : Site scope g₀ c g) {ids : List NodeId} {start target : BlockId}
    (hpart : Part a scope' ids start target g s') (hstart : g₀.Since c start) :
    Site scope g₀ c s'.graph := by
  refine ⟨h.base, hpart.sound, h.fits.frame hpart.frame, h.frame.trans (hpart.frame.mono ?_)⟩
  rintro k (hk | hk)
  · exact Option.some.inj hk ▸ hstart
  · exact .inr (Nat.le_trans h.frame.next hk)

/-- New blocks may come to raise to handlers. -/
theorem raises {caught region : BlockId → Prop} (h : Site scope g₀ c g)
    (hraises : Raises caught region g g')
    (hregion : ∀ k, region k → g₀.Since c k ∧ g₀.nextBlock ≤ k.raw) : Site scope g₀ c g' := by
  refine ⟨h.base, hraises.sound, ?_, ?_⟩
  · exact fun l hl => ⟨hraises.target (h.fits l hl).1, hraises.target (h.fits l hl).2⟩
  · exact h.frame.thenNew h.base hraises.entry hraises.next
      (fun k hk => hraises.only k (fun hmem => hk (hregion k hmem)))

/-- What a part is laid in belongs to the whole. -/
theorem since (h : Site scope g₀ c g) {start : BlockId} (hstart : g₀.Since c start) {k : BlockId}
    (hk : g.Since (some start) k) : g₀.Since c k := by
  rcases hk with hk | hk
  · exact Option.some.inj hk ▸ hstart
  · exact .inr (Nat.le_trans h.frame.next hk)

end Site

/-- The two parts of a branch, of which the second may be missing. -/
theorem branchParts_lowered {lower : Scope → List NodeId → LowerM Unit} (ih : Lowers a lower)
    {id test : NodeId} {body orelse : List NodeId} {thenBlock join : BlockId}
    {elseBlock : Option BlockId} (hsite : Site scope g₀ c g) (hb₀ : g₀.bare? c = some b)
    (hb : g.bare? c = some b) (hopen : b.Open scope.guarded)
    (hthen : Waits g₀ g thenBlock ⟨.thenPart, scope.depth, some id⟩)
    (hjoin : Waits g₀ g join ⟨.join, scope.depth, scope.construct⟩)
    (helse : ∀ block, elseBlock = some block →
      Waits g₀ g block ⟨.elsePart, scope.depth, some id⟩)
    (hmissing : elseBlock = none → orelse = [])
    (run : branchParts lower scope id test body orelse c thenBlock join elseBlock ⟨g, some c⟩ =
      .ok ((), s'))
    (hcount : s'.graph.blocks.length ≤ Ident.invalidRaw) :
    Lowered a scope (.one id (.ifElse test body orelse)) ⟨g₀, some c⟩ s' := by
  have hc : g₀.Since c c := .inl rfl
  have hfalse : g.Target (elseBlock.getD join) := by
    cases elseBlock with
    | none => exact hsite.target hjoin (by simp)
    | some block => exact hsite.target (helse block rfl) (by simp)
  have htargets := branch_targets (.expr test) (hsite.target hthen (by simp)) hfalse
  obtain ⟨g₁, s₃, s₄, hended, hbody, hfall, hcount₄, hrest⟩ := branchParts_ok ih.keeps run hcount
  have hends := hsite.sound.endBlock hb hopen htargets hended
  have hsite₁ := hsite.changes hc hends
  have hthen₁ := hthen.change hends (hsite.ne hb₀ hthen)
  have hjoin₁ := hjoin.change hends (hsite.ne hb₀ hjoin)
  have hfits : Scope.Fits { scope with construct := some id } g₁ := hsite₁.fits
  have hpart := ih.part hsite₁.sound hthen₁.self hfits (hsite₁.target hjoin₁ (by simp)) hbody
    hfall hcount₄
  have hsite₄ := hsite₁.part hpart hthen.since
  have hjoin₄ := hjoin₁.part hpart hsite₁.sound (hjoin.ne hthen (by simp))
  rcases hrest with ⟨rfl, rfl⟩ | ⟨block, s₆, s₇, rfl, hbody', hfall', rfl⟩
  · obtain rfl := hmissing rfl
    refine .compound hb₀ hsite₄.sound hsite₄.frame hjoin₄.self hjoin.new ?_
    intro g' w hw hg'
    have hg₁ := hpart.frame.before hg'
    obtain ⟨e, hlaid, hfalls⟩ := hpart.laid g' w ⟨hw.guarded, hw.loop⟩
      (hg'.mono (fun k => hsite₁.since hthen.since))
    exact .ifElse (hg₁.endsAt hc hends.self rfl rfl)
      (hg₁.raisesTo hc hends.self (no_exceptions htargets))
      (hg'.raisesTo hjoin.since hjoin₄.self (by simp)) hlaid hfalls .nothing (.inl rfl)
  · have helse := helse block rfl
    have helse₄ := (helse.change hends (hsite.ne hb₀ helse)).part hpart hsite₁.sound
      (helse.ne hthen (by simp))
    have hfits : Scope.Fits { scope with construct := some id } s₄.graph := hsite₄.fits
    have hpart' := ih.part hsite₄.sound helse₄.self hfits (hsite₄.target hjoin₄ (by simp)) hbody'
      hfall' hcount
    have hsite₇ := hsite₄.part hpart' helse.since
    have hjoin₇ := hjoin₄.part hpart' hsite₄.sound (hjoin.ne helse (by simp))
    refine .compound hb₀ hsite₇.sound hsite₇.frame hjoin₇.self hjoin.new ?_
    intro g' w hw hg'
    have hg₄ := hpart'.frame.before hg'
    have hg₁ := hpart.frame.before hg₄
    obtain ⟨e, hlaid, hfalls⟩ := hpart.laid g' w ⟨hw.guarded, hw.loop⟩
      (hg₄.mono (fun k => hsite₁.since hthen.since))
    obtain ⟨e', hlaid', hfalls'⟩ := hpart'.laid g' w ⟨hw.guarded, hw.loop⟩
      (hg'.mono (fun k => hsite₄.since helse.since))
    exact .ifElse (hg₁.endsAt hc hends.self rfl rfl)
      (hg₁.raisesTo hc hends.self (no_exceptions htargets))
      (hg'.raisesTo hjoin.since hjoin₇.self (by simp)) hlaid hfalls hlaid' (.inr hfalls')

theorem ifElse_lowered {lower : Scope → List NodeId → LowerM Unit} (ih : Lowers a lower)
    {id test : NodeId} {body orelse : List NodeId} (hvalid : s.Valid scope.guarded)
    (hfits : scope.Fits s.graph)
    (run : ifElse lower scope id test body orelse s = .ok ((), s'))
    (hcount : s'.graph.blocks.length ≤ Ident.invalidRaw) :
    Lowered a scope (.one id (.ifElse test body orelse)) s s' := by
  obtain ⟨c, s₁, join, s₂, thenBlock, s₃, elseBlock, s₄, hensure, hjoin, hthen, helse, run,
    hcounts⟩ := ifElse_ok ih.keeps run hcount
  obtain ⟨g, b, rfl, hsound, hfits, hb, hopen, hstarts⟩ :=
    ensureBlock_starts hvalid hfits hensure (by omega)
  obtain ⟨g₁, rfl, hsite₁, hjoin₁, hold₁⟩ := (Site.start hsound hfits c).create hjoin (by omega)
  obtain ⟨g₂, rfl, hsite₂, hthen₂, hold₂⟩ := hsite₁.create hthen (by omega)
  have hb₂ := hold₂ _ _ (hold₁ _ _ hb)
  have hjoin₂ : Waits g g₂ join _ := ⟨hold₂ _ _ hjoin₁.self, hjoin₁.new⟩
  refine hstarts _ _ _ ?_
  rcases helse with ⟨hempty, rfl, rfl⟩ | ⟨block, rfl, hblock⟩
  · exact branchParts_lowered ih hsite₂ hb hb₂ hopen hthen₂ hjoin₂ (fun _ h => by cases h)
      (fun _ => hempty) run hcount
  · obtain ⟨g₃, rfl, hsite₃, helse₃, hold₃⟩ := hsite₂.create hblock (by omega)
    have helse : ∀ k, some block = some k → Waits g g₃ k ⟨.elsePart, scope.depth, some id⟩ := by
      intro k hk
      obtain rfl := Option.some.inj hk
      exact helse₃
    have hmissing : some block = none → orelse = [] := nofun
    exact branchParts_lowered ih hsite₃ hb (hold₃ _ _ hb₂) hopen ⟨hold₃ _ _ hthen₂.self, hthen₂.new⟩
      ⟨hold₃ _ _ hjoin₂.self, hjoin₂.new⟩ helse hmissing run hcount

theorem Site.addLoop (h : Site scope g₀ c g) (l : LoopInfo) : Site scope g₀ c (g.addLoop l) :=
  ⟨h.base, h.sound.addLoop l, h.fits, h.frame.addLoop l⟩

theorem whileLoop_lowered {lower : Scope → List NodeId → LowerM Unit} (ih : Lowers a lower)
    {id test : NodeId} {body : List NodeId} (hvalid : s.Valid scope.guarded)
    (hfits : scope.Fits s.graph) (run : whileLoop lower scope id test body s = .ok ((), s'))
    (hcount : s'.graph.blocks.length ≤ Ident.invalidRaw) :
    Lowered a scope (.one id (.whileLoop test body)) s s' := by
  obtain ⟨c, s₁, exit, s₂, header, s₃, bodyBlock, s₅, g₆, g₇, s₉, s₁₀, hensure, hexit, hheader,
    hbody, hended, htested, hlower, hfall, rfl, hcounts⟩ := whileLoop_ok ih.keeps run hcount
  obtain ⟨g, b, rfl, hsound, hfits, hb, hopen, hstarts⟩ :=
    ensureBlock_starts hvalid hfits hensure (by omega)
  have hc : g.Since c c := .inl rfl
  obtain ⟨g₂, rfl, hsite₂, hexit₂, hold₂⟩ := (Site.start hsound hfits c).create hexit (by omega)
  obtain ⟨g₃, rfl, hsite₃, hheader₃, hold₃⟩ := hsite₂.create hheader (by omega)
  obtain ⟨g₅, rfl, hsite₅, hbody₅, hold₅⟩ := hsite₃.create hbody (by omega)
  have hexit₅ : Waits g g₅ exit _ := ⟨hold₅ _ _ (hold₃ _ _ hexit₂.self), hexit₂.new⟩
  have hheader₅ : Waits g g₅ header _ := ⟨hold₅ _ _ hheader₃.self, hheader₃.new⟩
  have htargets := jump_targets .normal nofun (hsite₅.target hheader₅ (by simp))
  have hends := hsite₅.sound.endBlock (hold₅ _ _ (hold₃ _ _ (hold₂ _ _ hb))) hopen htargets hended
  have hsite₆ := hsite₅.changes hc hends
  have hexit₆ := hexit₅.change hends (hsite₅.ne hb hexit₅)
  have hheader₆ := hheader₅.change hends (hsite₅.ne hb hheader₅)
  have hbody₆ := hbody₅.change hends (hsite₅.ne hb hbody₅)
  have htargets' := branch_targets (.expr test) (hsite₆.target hbody₆ (by simp))
    (hsite₆.target hexit₆ (by simp))
  have htests := hsite₆.sound.endBlock hheader₆.self (fresh_open false _ _) htargets' htested
  have hsite₇ := hsite₆.changes hheader₆.since htests
  have hexit₇ := hexit₆.change htests (hexit₆.ne hheader₆ (by simp))
  have hbody₇ := hbody₆.change htests (hbody₆.ne hheader₆ (by simp))
  have htexit := hsite₇.target hexit₇ (by simp)
  have htheader := htests.frame.target (hsite₆.target hheader₆ (by simp))
  have hfits₇ : (scope.inLoop id exit header).Fits g₇ := by
    intro l hl
    obtain rfl := Option.some.inj hl
    exact ⟨htexit, htheader⟩
  have hpart := ih.part hsite₇.sound hbody₇.self hfits₇ htheader hlower hfall (by omega)
  have hsite₁₁ := hsite₇.part hpart hbody₇.since
  have hexit₁₁ := hexit₇.part hpart hsite₇.sound (hexit₇.ne hbody₇ (by simp))
  refine hstarts _ _ _ (.compound hb (hsite₁₁.addLoop _).sound (hsite₁₁.addLoop _).frame
    hexit₁₁.self hexit₁₁.new ?_)
  intro g' w hw hg'
  have hg' : Grows w.handlers (g.Since c) s₁₀.graph g' := hg'
  have hg₇ := hpart.frame.before hg'
  have hg₆ := htests.frame.before hg₇
  obtain ⟨e, hlaid, hfalls⟩ := hpart.laid g' (w.inLoop exit header) ⟨hw.guarded, rfl⟩
    (hg'.mono (fun k => hsite₇.since hbody₇.since))
  exact .whileLoop (hg₆.endsAt hc hends.self rfl rfl)
    (hg₆.raisesTo hc hends.self (no_exceptions htargets))
    (.loop (hg₇.endsAt hheader₆.since htests.self rfl rfl)
      (hg₇.raisesTo hheader₆.since htests.self (no_exceptions htargets')) hlaid
      (falls_inLoop.mp hfalls) .none)

theorem forLoop_lowered {lower : Scope → List NodeId → LowerM Unit} (ih : Lowers a lower)
    {id : NodeId} {loop : CountedLoop} (hvalid : s.Valid scope.guarded)
    (hfits : scope.Fits s.graph)
    (run : forLoop lower scope id loop.body loop.parallel s = .ok ((), s'))
    (hcount : s'.graph.blocks.length ≤ Ident.invalidRaw) :
    Lowered a scope (.one id (.forLoop loop)) s s' := by
  obtain ⟨c, s₁, g₂, exit, s₃, header, s₄, bodyBlock, s₆, latch, s₇, g₈, g₉, g₁₀, g₁₁, s₁₃, s₁₄,
    hensure, hinit, hexit, hheader, hbody, hlatch, hended, htested, hstepped, hbacked, hlower,
    hfall, rfl, hcounts⟩ := forLoop_ok ih.keeps run hcount
  obtain ⟨g, b, rfl, hsound, hfits, hb, hopen, hstarts⟩ :=
    ensureBlock_starts hvalid hfits hensure (by omega)
  have hc : g.Since c c := .inl rfl
  have hpushed := hsound.pushSlot hb hopen.unended hinit
  have hsite₂ := (Site.start hsound hfits c).changes hc hpushed
  obtain ⟨g₃, rfl, hsite₃, hexit₃, hold₃⟩ := hsite₂.create hexit (by omega)
  obtain ⟨g₄, rfl, hsite₄, hheader₄, hold₄⟩ := hsite₃.create hheader (by omega)
  obtain ⟨g₆, rfl, hsite₆, hbody₆, hold₆⟩ := hsite₄.create hbody (by omega)
  obtain ⟨g₇, rfl, hsite₇, hlatch₇, hold₇⟩ := hsite₆.create hlatch (by omega)
  have hexit₇ : Waits g g₇ exit _ :=
    ⟨hold₇ _ _ (hold₆ _ _ (hold₄ _ _ hexit₃.self)), hexit₃.new⟩
  have hheader₇ : Waits g g₇ header _ := ⟨hold₇ _ _ (hold₆ _ _ hheader₄.self), hheader₄.new⟩
  have hbody₇ : Waits g g₇ bodyBlock _ := ⟨hold₇ _ _ hbody₆.self, hbody₆.new⟩
  -- The block before the loop.
  have hopen₇ : Block.Open false { b with slots := b.slots ++ [.loopInit id] } :=
    ⟨hopen.unended, hopen.edgeless, nofun⟩
  have htargets := jump_targets .normal nofun (hsite₇.target hheader₇ (by simp))
  have hends := hsite₇.sound.endBlock
    (hold₇ _ _ (hold₆ _ _ (hold₄ _ _ (hold₃ _ _ hpushed.self)))) hopen₇ htargets hended
  have hsite₈ := hsite₇.changes hc hends
  have hexit₈ := hexit₇.change hends (hsite₇.ne hb hexit₇)
  have hheader₈ := hheader₇.change hends (hsite₇.ne hb hheader₇)
  have hbody₈ := hbody₇.change hends (hsite₇.ne hb hbody₇)
  have hlatch₈ := hlatch₇.change hends (hsite₇.ne hb hlatch₇)
  -- The header.
  have htargets' := branch_targets (.loopTest id) (hsite₈.target hbody₈ (by simp))
    (hsite₈.target hexit₈ (by simp))
  have htests := hsite₈.sound.endBlock hheader₈.self (fresh_open false _ _) htargets' htested
  have hsite₉ := hsite₈.changes hheader₈.since htests
  have hexit₉ := hexit₈.change htests (hexit₈.ne hheader₈ (by simp))
  have hbody₉ := hbody₈.change htests (hbody₈.ne hheader₈ (by simp))
  have hlatch₉ := hlatch₈.change htests (hlatch₈.ne hheader₈ (by simp))
  have htheader := htests.frame.target (hsite₈.target hheader₈ (by simp))
  have htlatch := hsite₉.target hlatch₉ (by simp)
  -- The latch.
  have hsteps := hsite₉.sound.pushSlot hlatch₉.self rfl hstepped
  have hsite₁₀ := hsite₉.changes hlatch₉.since hsteps
  have htargets'' := jump_targets .normal nofun (hsteps.frame.target htheader)
  have hbacks := hsite₁₀.sound.endBlock hsteps.self (⟨rfl, rfl, nofun⟩ : Block.Open false _)
    htargets'' hbacked
  have hsite₁₁ := hsite₁₀.changes hlatch₉.since hbacks
  have hexit₁₁ := (hexit₉.change hsteps (hexit₉.ne hlatch₉ (by simp))).change hbacks
    (hexit₉.ne hlatch₉ (by simp))
  have hbody₁₁ := (hbody₉.change hsteps (hbody₉.ne hlatch₉ (by simp))).change hbacks
    (hbody₉.ne hlatch₉ (by simp))
  have htlatch := hbacks.frame.target (hsteps.frame.target htlatch)
  -- The body.
  have hfits₁₁ : (scope.inLoop id exit latch).Fits g₁₁ := by
    intro l hl
    obtain rfl := Option.some.inj hl
    exact ⟨hsite₁₁.target hexit₁₁ (by simp), htlatch⟩
  have hpart := ih.part hsite₁₁.sound hbody₁₁.self hfits₁₁ htlatch hlower hfall (by omega)
  have hsite₁₄ := hsite₁₁.part hpart hbody₁₁.since
  have hexit₁₄ := hexit₁₁.part hpart hsite₁₁.sound (hexit₁₁.ne hbody₁₁ (by simp))
  refine hstarts _ _ _ (.compound hb (hsite₁₄.addLoop _).sound (hsite₁₄.addLoop _).frame
    hexit₁₄.self hexit₁₄.new ?_)
  intro g' w hw hg'
  have hg' : Grows w.handlers (g.Since c) s₁₄.graph g' := hg'
  have hg₁₁ := hpart.frame.before hg'
  have hg₉ := hsteps.frame.before (hbacks.frame.before hg₁₁)
  have hg₈ := htests.frame.before hg₉
  obtain ⟨e, hlaid, hfalls⟩ := hpart.laid g' (w.inLoop exit latch) ⟨hw.guarded, rfl⟩
    (hg'.mono (fun k => hsite₁₁.since hbody₁₁.since))
  have hslot : (b.slots ++ [Slot.loopInit id])[b.slots.length]? = some (.loopInit id) := by simp
  exact .forLoop (hg₈.slotAt hc hends.self hslot)
    (hg₈.endsAt hc hends.self (by simp) rfl)
    (hg₈.raisesTo hc hends.self (no_exceptions htargets))
    (.loop (hg₉.endsAt hheader₈.since htests.self rfl rfl)
      (hg₉.raisesTo hheader₈.since htests.self (no_exceptions htargets')) hlaid
      (falls_inLoop.mp hfalls)
      (.some (hg₁₁.slotAt hlatch₉.since hbacks.self rfl)
        (hg₁₁.endsAt hlatch₉.since hbacks.self rfl rfl)
        (hg₁₁.raisesTo hlatch₉.since hbacks.self (no_exceptions htargets''))))

/-! Handlers. -/

theorem entryBlocks_created {handlers : List NodeId} {entries : List (NodeId × BlockId)}
    (hsite : Site scope g₀ c g) (run : entryBlocks scope' handlers ⟨g, cur⟩ = .ok (entries, s))
    (hcount : s.graph.blocks.length ≤ Ident.invalidRaw) :
    ∃ g', s = ⟨g', cur⟩ ∧ Site scope g₀ c g' ∧ entries.map (·.1) = handlers ∧
      (∀ x ∈ entries, Waits g₀ g' x.2 ⟨.handler, scope'.depth, scope'.construct⟩ ∧
        g.nextBlock ≤ x.2.raw) ∧
      (entries.map (·.2)).Nodup ∧ ∀ k b, g.bare? k = some b → g'.bare? k = some b := by
  induction handlers generalizing g entries with
  | nil =>
    obtain ⟨rfl, rfl⟩ := entryBlocks_nil run
    exact ⟨g, rfl, hsite, rfl, nofun, .nil, fun _ _ h => h⟩
  | cons handler handlers ih =>
    obtain ⟨entry, s₁, rest, rfl, hnew, hall⟩ := entryBlocks_cons run
    have hle := widens.entryBlocks _ handlers _ _ _ hall
    obtain ⟨g₁, rfl, hsite₁, hwaits, hold₁⟩ := hsite.create hnew (by omega)
    have hid : entry.raw = g.nextBlock := by
      obtain ⟨hid, -⟩ := newBlock_ok hnew
      rw [hid]
    obtain ⟨g₂, rfl, hsite₂, hmap, hmem, hnodup, hold₂⟩ := ih hsite₁ hall
    have hentry := hsite₁.sound.lt_of_bare hwaits.self
    refine ⟨g₂, rfl, hsite₂, by rw [List.map_cons, hmap], ?_, ?_,
      fun k b h => hold₂ k b (hold₁ k b h)⟩
    · intro x hx
      rcases List.mem_cons.mp hx with rfl | hx
      · exact ⟨⟨hold₂ _ _ hwaits.self, hwaits.new⟩, Nat.le_of_eq hid.symm⟩
      · exact ⟨(hmem x hx).1, by have := (hmem x hx).2; omega⟩
    · rw [List.map_cons]
      refine List.nodup_cons.mpr ⟨?_, hnodup⟩
      intro hin
      obtain ⟨x, hx, heq⟩ := List.mem_map.mp hin
      have heq : x.2 = entry := heq
      have hle := (hmem x hx).2
      rw [heq] at hle
      omega

theorem raiseFrom_raises {entries : List (NodeId × BlockId)} {block : BlockId} {u : Unit}
    (hsound : g.Sound) (hentries : ∀ x ∈ entries, g.Catches x.2 ∧ x.2 ≠ g.entry)
    (run : raiseFrom entries block ⟨g, cur⟩ = .ok (u, s)) :
    ∃ g', s = ⟨g', cur⟩ ∧ Raises (fun h => h ∈ entries.map (·.2)) (· = block) g g' := by
  induction entries generalizing g with
  | nil =>
    obtain ⟨-, rfl⟩ := pure_ok run
    exact ⟨g, rfl, (Raises.none hsound _).mono (fun k => by simp [uncaught]) (fun _ => Iff.rfl)⟩
  | cons x xs ih =>
    obtain ⟨u₁, s₁, hone, run⟩ := bind_ok run
    obtain ⟨g₁, hadd, rfl⟩ := change_ok hone
    have hx := hentries x (by simp)
    have hraises := hsound.addExceptionEdge hx.1 hx.2 hadd
    obtain ⟨g₂, rfl, hraises'⟩ := ih hraises.sound (fun y hy =>
      ⟨hraises.catches (hentries y (by simp [hy])).1,
        hraises.entry ▸ (hentries y (by simp [hy])).2⟩) run
    exact ⟨g₂, rfl, hraises.trans hraises' (fun k => by simp)⟩

theorem raiseTo_raises {entries : List (NodeId × BlockId)} {blocks : List BlockId} {u : Unit}
    (hsound : g.Sound) (hentries : ∀ x ∈ entries, g.Catches x.2 ∧ x.2 ≠ g.entry)
    (run : raiseTo entries blocks ⟨g, cur⟩ = .ok (u, s)) :
    ∃ g', s = ⟨g', cur⟩ ∧
      Raises (fun h => h ∈ entries.map (·.2)) (fun k => k ∈ blocks) g g' := by
  induction blocks generalizing g with
  | nil =>
    obtain ⟨-, rfl⟩ := pure_ok run
    exact ⟨g, rfl, (Raises.nowhere hsound _).mono (fun _ => Iff.rfl) (fun k => by simp [uncaught])⟩
  | cons block blocks ih =>
    obtain ⟨u₁, s₁, hone, run⟩ := bind_ok run
    obtain ⟨g₁, rfl, hraises⟩ := raiseFrom_raises hsound hentries hone
    obtain ⟨g₂, rfl, hraises'⟩ := ih hraises.sound (fun y hy =>
      ⟨hraises.catches (hentries y hy).1, hraises.entry ▸ (hentries y hy).2⟩) run
    exact ⟨g₂, rfl, (hraises.union hraises').mono (fun _ => Iff.rfl) (fun k => by simp)⟩

theorem handlerParts_lowered {lower : Scope → List NodeId → LowerM Unit} (ih : Lowers a lower)
    {entries : List (NodeId × BlockId)} {after : BlockId} {u : Unit} {origin' : BlockOrigin}
    (hsite : Site scope g₀ c g) (hfits : scope'.Fits g)
    (hentries : ∀ x ∈ entries, Waits g₀ g x.2 origin) (hnodup : (entries.map (·.2)).Nodup)
    (hafter : Waits g₀ g after origin') (hhandler : origin.role = .handler)
    (hrole : origin'.role ≠ .handler)
    (run : handlerParts a lower scope' entries after ⟨g, cur⟩ = .ok (u, s))
    (hcount : s.graph.blocks.length ≤ Ident.invalidRaw) :
    Site scope g₀ c s.graph ∧ Frame (fun _ => True) g s.graph ∧
      Waits g₀ s.graph after origin' ∧
      ∀ g' w, Around.Of w scope' → Grows w.handlers (g₀.Since c) s.graph g' →
        ∀ x ∈ entries, ∃ ids e, a.handlerBody x.1 = .ok ids ∧
          Laid a g' w (.all ids) (x.2, 0) e ∧ Falls g' w after e := by
  induction entries generalizing g cur with
  | nil =>
    obtain ⟨-, rfl⟩ := pure_ok run
    exact ⟨hsite, .refl _ g, hafter, fun _ _ _ _ => nofun⟩
  | cons x xs ih' =>
    obtain ⟨body, s₄, s₁, hbody, hlower, hfall, run⟩ := handlerParts_cons run
    have hle : s₁.graph.blocks.length ≤ s.graph.blocks.length :=
      widens.handlerParts scope' after (fun _ _ ids _ => (ih.keeps · ids)) _ _ _ run
    rw [List.map_cons, List.nodup_cons] at hnodup
    have hx := hentries x (by simp)
    have hneAfter := hafter.ne hx (hhandler ▸ hrole)
    have hpart := ih.part hsite.sound hx.self hfits (hsite.target hafter hrole) hlower hfall
      (Nat.le_trans hle hcount)
    have hsite₁ := hsite.part hpart hx.since
    have hxs : ∀ y ∈ xs, Waits g₀ s₁.graph y.2 origin := by
      intro y hy
      refine (hentries y (by simp [hy])).part hpart hsite.sound ?_
      intro heq
      exact hnodup.1 (List.mem_map.mpr ⟨y, hy, heq⟩)
    obtain ⟨g₁, cur₁⟩ := s₁
    obtain ⟨hsite', hframe, hafter', hlaid⟩ := ih' hsite₁ (hfits.frame hpart.frame) hxs hnodup.2
      (hafter.part hpart hsite.sound hneAfter) run
    refine ⟨hsite', (hpart.frame.mono (fun _ _ => trivial)).trans hframe, hafter', ?_⟩
    intro g' w hw hg' y hy
    rcases List.mem_cons.mp hy with rfl | hy
    · obtain ⟨e, hone, hfalls⟩ := hpart.laid g' w hw
        ((hframe.before hg').mono (fun k => hsite.since hx.since))
      exact ⟨body, e, hbody, hone, hfalls⟩
    · exact hlaid g' w hw hg' y hy

theorem tryCatch_lowered {lower : Scope → List NodeId → LowerM Unit} (ih : Lowers a lower)
    {id : NodeId} {body handlers : List NodeId} (hvalid : s.Valid scope.guarded)
    (hfits : scope.Fits s.graph)
    (run : LowerM.tryCatch a lower scope id body handlers s = .ok ((), s'))
    (hcount : s'.graph.blocks.length ≤ Ident.invalidRaw) :
    Lowered a scope (.one id (.tryCatch body handlers)) s s' := by
  obtain ⟨c, s₁, after, s₂, tryBlock, s₃, entries, s₄, g₅, s₈, s₉, s₁₁, s₁₂, hensure, hafter, htry,
    hentries, hended, hlower, hfall, hedges, hhandlers, rfl, hcounts⟩ :=
    tryCatch_ok ih.keeps run hcount
  obtain ⟨g, b, rfl, hsound, hfits, hb, hopen, hstarts⟩ :=
    ensureBlock_starts hvalid hfits hensure (by omega)
  have hc : g.Since c c := .inl rfl
  obtain ⟨g₂, rfl, hsite₂, hafter₂, hold₂⟩ := (Site.start hsound hfits c).create hafter (by omega)
  obtain ⟨g₃, rfl, hsite₃, htry₃, hold₃⟩ := hsite₂.create htry (by omega)
  obtain ⟨g₄, rfl, hsite₄, hmap, hentries₄, hnodup, hold₄⟩ :=
    entryBlocks_created hsite₃ hentries (by omega)
  have hafter₄ : Waits g g₄ after _ := ⟨hold₄ _ _ (hold₃ _ _ hafter₂.self), hafter₂.new⟩
  have htry₄ : Waits g g₄ tryBlock _ := ⟨hold₄ _ _ htry₃.self, htry₃.new⟩
  -- The block before the `try`.
  have htargets := jump_targets .normal nofun (hsite₄.target htry₄ (by simp))
  have hends := hsite₄.sound.endBlock (hold₄ _ _ (hold₃ _ _ (hold₂ _ _ hb))) hopen htargets hended
  have hsite₅ := hsite₄.changes hc hends
  have hafter₅ := hafter₄.change hends (hsite₄.ne hb hafter₄)
  have htry₅ := htry₄.change hends (hsite₄.ne hb htry₄)
  have hentries₅ : ∀ x ∈ entries, Waits g g₅ x.2 ⟨.handler, scope.depth, some id⟩ :=
    fun x hx => (hentries₄ x hx).1.change hends (hsite₄.ne hb (hentries₄ x hx).1)
  -- The body.
  have hfits₅ : Scope.Fits { scope with construct := some id, guarded := true } g₅ := hsite₅.fits
  have hpart := ih.part hsite₅.sound htry₅.self hfits₅ (hsite₅.target hafter₅ (by simp)) hlower
    hfall (by omega)
  obtain ⟨g₉, cur⟩ := s₉
  have hsite₉ := hsite₅.part hpart htry₅.since
  have hafter₉ := hafter₅.part hpart hsite₅.sound (hafter₅.ne htry₅ (by simp))
  have hentries₉ : ∀ x ∈ entries, Waits g g₉ x.2 ⟨.handler, scope.depth, some id⟩ :=
    fun x hx => (hentries₅ x hx).part hpart hsite₅.sound ((hentries₅ x hx).ne htry₅ (by simp))
  -- The exception edges.
  obtain ⟨g₁₁, rfl, hraises⟩ := raiseTo_raises hsite₉.sound
    (fun x hx => ⟨⟨_, (hentries₉ x hx).self, rfl⟩, hsite₉.ne_entry (hentries₉ x hx)⟩) hedges
  have outside : ∀ k x, g₅.bare? k = some x → k ≠ tryBlock →
      k ∉ tryBlock :: g₉.blockIds.filter (fun id => g₅.nextBlock ≤ id.raw) := by
    intro k x hk hne hmem
    rcases List.mem_cons.mp hmem with rfl | hmem
    · exact hne rfl
    · have hle : g₅.nextBlock ≤ k.raw := by simpa using (List.mem_filter.mp hmem).2
      exact absurd (hsite₅.sound.lt_of_bare hk) (Nat.not_lt.mpr hle)
  have inside : ∀ k, g₅.Since (some tryBlock) k → ∀ x, g₉.bare? k = some x →
      k ∈ tryBlock :: g₉.blockIds.filter (fun id => g₅.nextBlock ≤ id.raw) := by
    rintro k (hk | hk) x hx
    · rw [Option.some.inj hk]
      exact List.mem_cons_self
    · refine List.mem_cons_of_mem _ (List.mem_filter.mpr ⟨?_, ?_⟩)
      · exact mem_blockIds.mpr (contains_iff_bare.mpr ⟨x, hx⟩)
      · simpa using hk
  have hafter₁₁ : Waits g g₁₁ after _ :=
    hafter₉.raises hraises (outside _ _ hafter₅.self (hafter₅.ne htry₅ (by simp)))
  have hentries₁₁ : ∀ x ∈ entries, Waits g g₁₁ x.2 ⟨.handler, scope.depth, some id⟩ :=
    fun x hx => (hentries₉ x hx).raises hraises
      (outside _ _ (hentries₅ x hx).self ((hentries₅ x hx).ne htry₅ (by simp)))
  have hsite₁₁ : Site scope g c g₁₁ := by
    refine hsite₉.raises hraises ?_
    intro k hk
    rcases List.mem_cons.mp hk with rfl | hk
    · exact ⟨htry₅.since, htry₅.new⟩
    · have hle : g₅.nextBlock ≤ k.raw := by simpa using (List.mem_filter.mp hk).2
      have hnew : g.nextBlock ≤ k.raw := Nat.le_trans hsite₅.frame.next hle
      exact ⟨.inr hnew, hnew⟩
  -- The handlers.
  have hfits₁₁ : Scope.Fits { scope with construct := some id } g₁₁ := hsite₁₁.fits
  obtain ⟨hsite₁₂, hframe, hafter₁₂, hcaught⟩ := handlerParts_lowered ih hsite₁₁ hfits₁₁ hentries₁₁
    hnodup hafter₁₁ rfl (by simp) hhandlers hcount
  refine hstarts _ _ _ (.compound hb hsite₁₂.sound hsite₁₂.frame hafter₁₂.self hafter₁₂.new ?_)
  intro g' w hw hg'
  have hg₁₁ := hframe.before hg'
  have hg₅ : Grows w.handlers (· = c) g₅ g' := by
    refine hpart.frame.before (Grows.trans (.of_only ?_) (hg₁₁.mono ?_)
      (fun _ => ⟨.inr, fun h => h.elim False.elim (fun h => h)⟩))
    · rintro k rfl
      exact hraises.only k (outside k _ hends.self (hsite₅.ne hb htry₅).symm)
    · rintro k rfl
      exact hc
  have hbody : Grows (w.inTry entries).handlers (g₅.Since tryBlock) g₉ g' := by
    refine Grows.trans (fun k hk x hx => hraises.grows k (inside k hk x hx) x hx)
      (hg₁₁.mono (fun k => hsite₅.since htry₅.since)) (fun _ => Iff.rfl)
  obtain ⟨e, hlaid, hfalls⟩ := hpart.laid g' (w.inTry entries) ⟨rfl, hw.loop⟩ hbody
  have hcaught := hcaught g' w ⟨hw.guarded, hw.loop⟩ hg'
  let caught (handler : NodeId) : List NodeId := ((a.handlerBody handler).toOption).getD []
  have hends' : ∀ x, ∃ e, x ∈ entries → a.handlerBody x.1 = .ok (caught x.1) ∧
      Laid a g' w (.all (caught x.1)) (x.2, 0) e ∧ Falls g' w after e := by
    intro x
    by_cases hx : x ∈ entries
    · obtain ⟨ids, e, hids, hlaid, hfalls⟩ := hcaught x hx
      have hcaught : caught x.1 = ids := by
        simp only [caught, hids]
        rfl
      exact ⟨e, fun _ => hcaught ▸ ⟨hids, hlaid, hfalls⟩⟩
    · exact ⟨none, fun h => absurd h hx⟩
  obtain ⟨ends, hends'⟩ := Classical.axiomOfChoice hends'
  exact .tryCatch (hg₅.endsAt rfl hends.self rfl rfl)
    (hg₅.raisesTo rfl hends.self (no_exceptions htargets))
    (hg'.raisesTo hafter₁₂.since hafter₁₂.self (by simp)) hlaid hfalls hmap
    (fun x hx => (hends' x hx).1) (fun x hx => (hends' x hx).2.1)
    (fun x hx => (hends' x hx).2.2)

/-! All statements. -/

theorem Lowered.all_nil (hvalid : s.Valid scope.guarded) : Lowered a scope (.all []) s s := by
  refine ⟨hvalid, .refl _ _, fun c hc => .inl hc, ?_⟩
  intro p hp g w _ _
  rw [hp]
  exact .nothing

/-- A statement, and then the rest of a list. -/
theorem Lowered.all_cons {id : NodeId} {st : Statement} {ids : List NodeId} {s₁ : Lowering}
    (hst : a.statement id = .ok st) (h : Lowered a scope (.one id st) s s₁)
    (h' : Lowered a scope (.all ids) s₁ s') : Lowered a scope (.all (id :: ids)) s s' := by
  have since : ∀ k, s₁.graph.Since s₁.current k → s.graph.Since s.current k := by
    rintro k (hk | hk)
    · exact h.owned k hk
    · exact .inr (Nat.le_trans h.frame.next hk)
  refine ⟨h'.valid, h.frame.trans (h'.frame.mono since), fun c hc => since c (h'.owned c hc), ?_⟩
  intro p hp g w hw hg
  have hone := h.laid p hp g w hw (h'.frame.before hg)
  cases hq : s₁.point? with
  | none =>
    rw [hq] at hone
    exact .cutShort hst hone
  | some q =>
    rw [hq] at hone
    exact .andThen hst hone (h'.laid q hq g w hw (hg.mono since))

theorem lowers_forM {f : Scope → NodeId → LowerM PUnit}
    (hkeeps : ∀ scope id, Keeps (f scope id))
    (h : ∀ scope id s s', s.Valid scope.guarded → scope.Fits s.graph →
      f scope id s = .ok ((), s') → s'.graph.blocks.length ≤ Ident.invalidRaw →
      ∃ st, a.statement id = .ok st ∧ Lowered a scope (.one id st) s s') :
    Lowers a (fun scope ids => ids.forM (f scope)) := by
  refine ⟨fun scope ids => widens.forM (fun id _ => hkeeps scope id), ?_⟩
  intro scope ids
  induction ids with
  | nil =>
    intro s s' hvalid _ run _
    obtain ⟨-, rfl⟩ := pure_ok run
    exact .all_nil hvalid
  | cons id ids ih =>
    intro s s' hvalid hfits run hcount
    obtain ⟨u, s₁, hone, run⟩ := bind_ok run
    have hle := widens.forM (fun id _ => hkeeps scope id) _ _ _ run
    obtain ⟨st, hst, hlowered⟩ := h scope id s s₁ hvalid hfits hone (by omega)
    exact .all_cons hst hlowered (ih s₁ s' hlowered.valid (hfits.frame hlowered.frame) run hcount)

theorem statement_lowered (fuel : Nat) : ∀ scope id s s', s.Valid scope.guarded →
    scope.Fits s.graph → LowerM.statement a fuel scope id s = .ok ((), s') →
    s'.graph.blocks.length ≤ Ident.invalidRaw →
    ∃ st, a.statement id = .ok st ∧ Lowered a scope (.one id st) s s' := by
  induction fuel with
  | zero =>
    intro scope id s s' _ _ run
    cases run
  | succ fuel ih =>
    intro scope id s s' hvalid hfits run hcount
    have hlower := lowers_forM (keeps_statement a fuel) ih
    obtain ⟨st, s₁, hlift, run⟩ := bind_ok run
    obtain ⟨hst, rfl⟩ := lift_ok hlift
    refine ⟨st, hst, ?_⟩
    cases st with
    | assign | expr => exact simple_lowered rfl hvalid hfits run hcount
    | ifElse => exact ifElse_lowered hlower hvalid hfits run hcount
    | whileLoop => exact whileLoop_lowered hlower hvalid hfits run hcount
    | forLoop => exact forLoop_lowered hlower hvalid hfits run hcount
    | tryCatch => exact tryCatch_lowered hlower hvalid hfits run hcount
    | breakStmt =>
      exact leaveLoop_lowered hvalid hfits run hcount nofun (fun l => .inl rfl)
        (fun _ _ _ _ l hl => .breaks hl)
    | continueStmt =>
      exact leaveLoop_lowered hvalid hfits run hcount nofun (fun l => .inr rfl)
        (fun _ _ _ _ l hl => .continues hl)
    | returnStmt =>
      exact terminate_lowered hvalid hfits run hcount (fun g _ => exit_targets rfl)
        (fun _ _ _ _ _ => .returns)
    | raise =>
      exact terminate_lowered hvalid hfits run hcount (fun g _ => exit_targets rfl)
        (fun _ _ _ _ _ => .raises)

end

/-! The whole body of a function. -/

/-- Outside of every loop and `try`. -/
def Around.outermost : Around :=
  ⟨false, uncaught, none⟩

namespace FlowGraph

theorem bare?_new (name : String) (c : BlockId) : (FlowGraph.new name).bare? c =
    if c = ⟨0⟩ then some { id := ⟨0⟩, origin := ⟨.entry, 0, none⟩ } else none := by
  unfold bare? block? FlowGraph.new
  by_cases hc : c = ⟨0⟩
  · subst hc
    rfl
  · have hne : ((⟨0⟩ : BlockId) == c) = false := by simpa using fun h => hc h.symm
    simp [hne, hc]

theorem Sound.new (name : String) : Sound (FlowGraph.new name) := by
  have only : ∀ {c b}, (FlowGraph.new name).bare? c = some b →
      b = { id := ⟨0⟩, origin := ⟨.entry, 0, none⟩ } := by
    intro c b hb
    rw [bare?_new] at hb
    split at hb
    · exact (Option.some.inj hb).symm
    · cases hb
  refine ⟨.new name, ?_, rfl, ?_, ?_, rfl, List.nodup_nil⟩
  · intro c
    have hraw : c.raw < 1 ↔ c = ⟨0⟩ := by
      cases c
      simp
    rw [contains_iff_bare, bare?_new, show (FlowGraph.new name).nextBlock = 1 from rfl, hraw]
    split <;> simp [*]
  · intro c b hb
    rw [only hb]
    rfl
  · intro c b e hb he
    rw [only hb] at he
    cases he

theorem bare?_entry (name : String) : (FlowGraph.new name).bare? ⟨0⟩ =
    some { id := ⟨0⟩, origin := ⟨.entry, 0, none⟩ } := by
  rw [bare?_new, if_pos rfl]

end FlowGraph

theorem Lowering.Valid.new (name : String) :
    (⟨.new name, some ⟨0⟩⟩ : Lowering).Valid false := by
  refine ⟨.new name, fun c hc => ?_⟩
  rw [← Option.some.inj hc]
  exact ⟨_, FlowGraph.bare?_entry name, fresh_open _ _ _⟩

namespace FlowGraph

theorem since_new (name : String) (b : BlockId) : (FlowGraph.new name).Since (some ⟨0⟩) b := by
  by_cases hb : b = ⟨0⟩
  · exact .inl (congrArg some hb.symm)
  · refine .inr (Nat.pos_of_ne_zero (fun hraw => hb ?_))
    exact congrArg Ident.mk hraw

/-- The body of a function lies in its graph from the entry on. -/
theorem lower_laid {a : Arena} {view : FunctionView} {g : FlowGraph}
    (run : FlowGraph.lower a view = .ok g) (hcount : g.blocks.length ≤ Ident.invalidRaw) :
    g.Sound ∧ ∃ e, Laid a g .outermost (.all view.body) (g.entry, 0) e ∧
      ∀ q, e = some q → g.EndsAt q.1 q.2 (.returnWith none) ∧ Guards g .outermost q.1 := by
  unfold FlowGraph.lower at run
  dsimp only at run
  have hlowers := lowers_forM (LowerM.keeps_statement a a.nodes.size)
    (statement_lowered a.nodes.size)
  have hvalid : (⟨FlowGraph.new view.name, some ⟨0⟩⟩ : Lowering).Valid false := .new view.name
  have hpoint := point?_some (bare?_entry view.name)
  cases hbody : (view.body.forM (LowerM.statement a a.nodes.size {})).run
      ⟨FlowGraph.new view.name, some (FlowGraph.new view.name).entry⟩ with
  | error fault =>
    rw [hbody] at run
    cases run
  | ok r =>
    obtain ⟨u, s⟩ := r
    rw [hbody] at run
    have lowered := fun hcount => hlowers.lowered {} view.body _ s hvalid nofun hbody hcount
    cases hcurrent : s.current with
    | none =>
      simp only [bind, Except.bind, hcurrent] at run
      obtain rfl := Except.ok.inj run
      have hs := lowered hcount
      have hlaid := hs.laid _ hpoint s.graph .outermost ⟨rfl, rfl⟩ (.of_only (fun _ _ => rfl))
      rw [Lowering.point?, hcurrent] at hlaid
      exact ⟨hs.valid.sound, none, hs.frame.entry ▸ hlaid, nofun⟩
    | some c =>
      simp only [bind, Except.bind, hcurrent] at run
      obtain ⟨b', hupdates⟩ := setTerminator_updates run
      have hs := lowered (hupdates.count ▸ hcount)
      obtain ⟨b, hb, hopen⟩ := hs.valid.opened c hcurrent
      have hends := hs.valid.sound.endBlock hb hopen (exit_targets rfl) run
      have hgrows : Grows uncaught (fun _ => True) s.graph g := hends.frame.grows
      have hlaid := hs.laid _ hpoint g .outermost ⟨rfl, rfl⟩ (hgrows.mono (fun _ _ => trivial))
      have hat : s.point? = some (c, b.slots.length) := by simp [Lowering.point?, hcurrent, hb]
      rw [hat] at hlaid
      have hentry : g.entry = ⟨0⟩ := hends.frame.entry.trans hs.frame.entry
      refine ⟨hends.sound, some (c, b.slots.length), hentry ▸ hlaid, ?_⟩
      rintro q hq
      obtain rfl := Option.some.inj hq
      refine ⟨endsAt_iff.mpr ⟨_, hends.self, rfl, rfl⟩, raisesTo_iff.mpr ⟨_, hends.self, ?_⟩⟩
      exact fun h => ⟨nofun, False.elim⟩

end FlowGraph

end TypedSsa

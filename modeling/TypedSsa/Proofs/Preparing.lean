import TypedSsa.Proofs.Coming
import TypedSsa.Proofs.Spreading

/-!
The blocks that are made and ended before the parts of a statement are lowered into them. Main
statement: `Prepared.goes`: with these control neither quits nor leaves a loop.
-/

namespace TypedSsa
open LowerM FlowGraph

theorem target_of_jump {target : BlockId} {kind : EdgeKind} {e : Edge}
    (he : e ∈ (Terminator.jump target kind).edges) : e.target = target := by
  obtain rfl := List.mem_singleton.mp he
  rfl

theorem target_of_branch (condition : Condition) {onTrue onFalse : BlockId} {e : Edge}
    (he : e ∈ (Terminator.branch condition onTrue onFalse).edges) :
    e.target = onTrue ∨ e.target = onFalse := by
  rcases List.mem_cons.mp he with rfl | he
  · exact .inl rfl
  · obtain rfl := List.mem_singleton.mp he
    exact .inr rfl

/-- Since a block was current, blocks have been made of which some are reached through it, and some
are still open. -/
structure Prepared (scope : Scope) (g₀ : FlowGraph) (c : BlockId) (g : FlowGraph)
    (reached opened : BlockId → Prop) : Prop where
  site : Site scope g₀ c g
  reachable : ∀ b, g.Reachable b ↔ g₀.Reachable b ∨ reached b ∧ g₀.Reachable c
  fresh : ∀ b : BlockId, reached b → g₀.nextBlock ≤ b.raw
  plain : ∀ b y, g.ends? b = some y → g₀.ends? b = some y ∨ y.quits? = none
  ended : ∀ b, g₀.Since (some c) b → g.contains b = true → opened b ∨ ∃ y, g.ends? b = some y
  table : g.loops = g₀.loops

namespace Prepared

variable {scope scope' : Scope} {g₀ g g' : FlowGraph} {c d : BlockId} {b b₀ : Block}
  {reached opened : BlockId → Prop} {cur : Option BlockId} {s : Lowering} {u : Unit}
  {origin origin' : BlockOrigin}

theorem start (hg : Sound g) (hfits : scope.Fits g) (c : BlockId) :
    Prepared scope g c g (fun _ => False) (· = c) := by
  refine ⟨.start hg hfits c, fun b => by simp, fun _ => False.elim, fun _ _ => .inl, ?_, rfl⟩
  intro k hk hin
  rcases hk with hk | hk
  · exact .inl (Option.some.inj hk).symm
  · rw [hg.ids] at hin
    omega

section
variable (h : Prepared scope g₀ c g reached opened)
include h

theorem of_congr {reached' opened' : BlockId → Prop} (hreached : ∀ b, reached b ↔ reached' b)
    (hopened : ∀ b, opened b → opened' b) : Prepared scope g₀ c g reached' opened' := by
  obtain rfl : reached = reached' := funext (fun b => propext (hreached b))
  exact ⟨h.site, h.reachable, h.fresh, h.plain,
    fun b hb hin => (h.ended b hb hin).imp_left (hopened b), h.table⟩

theorem reachable_new {k : BlockId} (hk : g₀.nextBlock ≤ k.raw) :
    g.Reachable k ↔ reached k ∧ g₀.Reachable c := by
  rw [h.reachable, or_iff_right_iff_imp]
  intro hreach
  have hlt := h.site.base.lt_of_reachable hreach
  omega

theorem reachable_self : g.Reachable c ↔ g₀.Reachable c := by
  rw [h.reachable, or_iff_left_iff_imp]
  exact fun hreach => hreach.2

theorem create {role : BlockRole} (run : newBlock scope' role ⟨g, cur⟩ = .ok (d, s))
    (hcount : s.graph.blocks.length ≤ Ident.invalidRaw) :
    ∃ g', s = ⟨g', cur⟩ ∧ Prepared scope g₀ c g' reached (fun b => opened b ∨ b = d) ∧
      Waits g₀ g' d ⟨role, scope'.depth, scope'.construct⟩ ∧
      ∀ k b, g.bare? k = some b → g'.bare? k = some b := by
  obtain ⟨g', rfl, hsite, hwaits, hold⟩ := h.site.create run hcount
  obtain ⟨g'', hs, hcreates⟩ := newBlock_creates h.site.sound run hcount
  obtain rfl : g' = g'' := congrArg Lowering.graph hs
  have hends : ∀ b y, g'.ends? b = some y → g.ends? b = some y := by
    intro b y hy
    by_cases hb : b = d
    · rw [hb, ends?_of_bare hwaits.self] at hy
      cases hy
    · rwa [ends?_congr ((hcreates.after b).trans (if_neg hb))] at hy
  refine ⟨g', rfl, ⟨hsite, ?_, h.fresh, fun b y hy => h.plain b y (hends b y hy), ?_, ?_⟩, hwaits,
    hold⟩
  · intro b
    rw [hcreates.spreads.reachable_none, h.reachable]
  · intro b hb hin
    by_cases hd : b = d
    · exact .inl (.inr hd)
    · obtain ⟨blk, hblk⟩ := contains_iff_bare.mp hin
      rw [hcreates.after, if_neg hd] at hblk
      rcases h.ended b hb (contains_iff_bare.mpr ⟨blk, hblk⟩) with hopened | ⟨y, hy⟩
      · exact .inl (.inl hopened)
      · exact .inr ⟨y, hcreates.frame.ends hy⟩
  · obtain ⟨-, hs⟩ := newBlock_ok run
    obtain rfl := congrArg Lowering.graph hs
    exact h.table

theorem push {slot : Slot} (hd : g₀.Since (some c) d) (hb : g.bare? d = some b)
    (hunended : b.terminator = none) (run : g.pushSlot d slot = .ok g') :
    Prepared scope g₀ c g' reached opened ∧
      Changes g d { b with slots := b.slots ++ [slot] } g' := by
  have hchanges := h.site.sound.pushSlot hb hunended run
  have hends : ∀ k, g'.ends? k = g.ends? k := by
    intro k
    by_cases hk : k = d
    · rw [hk, ends?_of_bare hchanges.self, ends?_of_bare hb]
    · exact ends?_congr (hchanges.frame.only k hk)
  refine ⟨⟨h.site.changes hd hchanges, ?_, h.fresh, ?_, ?_, ?_⟩, hchanges⟩
  · intro k
    rw [(hchanges.spreads_none hb).reachable_none, h.reachable]
  · intro k y hy
    exact h.plain k y (hends k ▸ hy)
  · intro k hk hin
    rw [hends]
    refine h.ended k hk ?_
    rw [h.site.sound.ids, ← hchanges.next, ← hchanges.sound.ids]
    exact hin
  · obtain ⟨b', hupdates⟩ := pushSlot_updates run
    exact hupdates.loops.trans h.table

/-- A block is ended in a way that does not quit. New blocks that it leads to have nothing in them
yet, if it is reached. -/
theorem close {y : Terminator} {guarded : Bool} {whenever : Prop} (hd : g₀.Since (some c) d)
    (hb : g.bare? d = some b) (hopen : b.Open guarded)
    (htargets : ∀ e ∈ y.edges, e.kind ≠ .exception ∧ g.Target e.target)
    (hplain : y.quits? = none) (hat : g.Reachable d ↔ whenever ∧ g₀.Reachable c)
    (hnew : ∀ e ∈ y.edges, g₀.nextBlock ≤ e.target.raw)
    (hfresh : whenever → ∀ e ∈ y.edges,
      ∃ origin, g.bare? e.target = some { id := e.target, origin })
    (run : g.setTerminator d y = .ok g') :
    Prepared scope g₀ c g' (fun b => reached b ∨ whenever ∧ ∃ e ∈ y.edges, e.target = b)
        (fun b => opened b ∧ b ≠ d) ∧
      Changes g d { b with terminator := some y, successors := y.edges } g' := by
  have hchanges := h.site.sound.endBlock hb hopen htargets run
  have hother : ∀ k, k ≠ d → g'.ends? k = g.ends? k :=
    fun k hk => ends?_congr (hchanges.frame.only k hk)
  refine ⟨⟨h.site.changes hd hchanges, ?_, ?_, ?_, ?_, ?_⟩, hchanges⟩
  · intro k
    rw [(hchanges.spreads hb hopen.edgeless).reachable]
    · rw [exists_eq_left, hat, h.reachable]
      tauto
    · intro e t u he hreach ht hu
      obtain ⟨e', he', rfl⟩ := ht
      obtain ⟨origin, horigin⟩ := hfresh (hat.mp (he ▸ hreach)).1 e' he'
      obtain ⟨blk, hblk, e'', he'', -⟩ := mem_targets_bare.mp hu
      obtain rfl := Option.some.inj (horigin.symm.trans hblk)
      cases he''
  · intro k hk
    rcases hk with hk | ⟨-, e, he, rfl⟩
    · exact h.fresh k hk
    · exact hnew e he
  · intro k z hz
    by_cases hk : k = d
    · subst hk
      rw [ends?_of_bare hchanges.self] at hz
      obtain rfl := Option.some.inj hz
      exact .inr hplain
    · exact h.plain k z (hother k hk ▸ hz)
  · intro k hk hin
    by_cases hkd : k = d
    · subst hkd
      exact .inr ⟨y, ends?_of_bare hchanges.self⟩
    · rw [hother k hkd]
      refine (h.ended k hk ?_).imp_left (fun hopened => ⟨hopened, hkd⟩)
      rw [h.site.sound.ids, ← hchanges.next, ← hchanges.sound.ids]
      exact hin
  · obtain ⟨b', hupdates⟩ := setTerminator_updates run
    exact hupdates.loops.trans h.table

/-- A block that control comes to leads to one that waits. -/
theorem jump {guarded : Bool} {target : BlockId} (hd : g₀.Since (some c) d)
    (hb : g.bare? d = some b) (hopen : b.Open guarded) (hat : g.Reachable d ↔ g₀.Reachable c)
    (htarget : Waits g₀ g target origin) (hrole : origin.role ≠ .handler)
    (run : g.setTerminator d (.jump target .normal) = .ok g') :
    Prepared scope g₀ c g' (fun k => reached k ∨ k = target) (fun k => opened k ∧ k ≠ d) ∧
      Changes g d { b with
        terminator := some (.jump target .normal)
        successors := (Terminator.jump target .normal).edges } g' := by
  obtain ⟨hclosed, hends⟩ := h.close hd hb hopen
    (jump_targets .normal nofun (h.site.target htarget hrole)) rfl (by rw [hat, true_and])
    (fun e he => target_of_jump he ▸ htarget.new)
    (fun _ e he => ⟨_, target_of_jump he ▸ htarget.self⟩) run
  exact ⟨hclosed.of_congr (fun k => by simp [Terminator.edges, eq_comm]) (fun _ hk => hk), hends⟩

/-- A block that control comes to leads to two that wait. -/
theorem branch {guarded : Bool} {condition : Condition} {onTrue onFalse : BlockId}
    (hd : g₀.Since (some c) d) (hb : g.bare? d = some b) (hopen : b.Open guarded)
    (hat : g.Reachable d ↔ g₀.Reachable c) (htrue : Waits g₀ g onTrue origin)
    (hrole : origin.role ≠ .handler) (hfalse : Waits g₀ g onFalse origin')
    (hrole' : origin'.role ≠ .handler)
    (run : g.setTerminator d (.branch condition onTrue onFalse) = .ok g') :
    Prepared scope g₀ c g' (fun k => reached k ∨ k = onTrue ∨ k = onFalse)
        (fun k => opened k ∧ k ≠ d) ∧
      Changes g d { b with
        terminator := some (.branch condition onTrue onFalse)
        successors := (Terminator.branch condition onTrue onFalse).edges } g' := by
  have hwaits : ∀ e ∈ (Terminator.branch condition onTrue onFalse).edges,
      ∃ origin, Waits g₀ g e.target origin := by
    intro e he
    rcases target_of_branch condition he with htarget | htarget
    · exact ⟨_, htarget ▸ htrue⟩
    · exact ⟨_, htarget ▸ hfalse⟩
  obtain ⟨hclosed, hends⟩ := h.close hd hb hopen
    (branch_targets condition (h.site.target htrue hrole) (h.site.target hfalse hrole')) rfl
    (by rw [hat, true_and]) (fun e he => (hwaits e he).choose_spec.new)
    (fun _ e he => ⟨_, (hwaits e he).choose_spec.self⟩) run
  exact ⟨hclosed.of_congr (fun k => by simp [Terminator.edges, eq_comm]) (fun _ hk => hk), hends⟩

theorem goes {loops : List LoopInfo} (hpast : Past g₀ loops) :
    Goes (fun _ => False) loops g₀ (some c) loops g opened (fun _ => False) False := by
  have hjoins : Joins reached (g₀.Reachable c) loops g₀ g := by
    refine ⟨h.reachable, fun _ b hb => hpast.receives (fun blk hblk => ?_),
      fun b y => h.site.frame.ends, h.table⟩
    have hlt := h.site.base.lt_of_bare hblk
    have hle := h.fresh b hb
    omega
  refine ⟨h.site.sound, h.site.frame, fun b hb => (h.reachable b).mpr (.inl hb), ?_, ?_, h.ended,
    ?_, hjoins.past hpast, fun l => .inl, ?_⟩
  · intro b hb hreach
    rcases (h.reachable b).mp hreach with hreach | ⟨hreached, -⟩
    · exact .inl hreach
    · have hle := h.fresh b hreached
      rw [h.site.base.ids] at hb
      omega
  · intro b hb hreach
    rcases (h.reachable b).mp hreach with hreach | ⟨-, hat⟩
    · have hlt := h.site.base.lt_of_reachable hreach
      omega
    · exact at_some.mpr hat
  · intro n x _ _ _
    rw [and_false, or_false]
    refine exists_congr (fun b => and_congr_right (fun _ => ?_))
    cases hends : g₀.ends? b with
    | some y => exact hjoins.quits_iff ((hjoins.ends b y hends).trans hends.symm)
    | none =>
      -- An end that is new does not quit.
      constructor
      · intro hquits
        obtain ⟨y, hy, hx⟩ := Option.bind_eq_some_iff.mp hquits.2
        rcases h.plain b y hy with hy | hplain
        · rw [hends] at hy
          cases hy
        · rw [hplain] at hx
          cases hx
      · intro hquits
        rw [Quits, hends] at hquits
        cases hquits.2
  · rw [and_false, or_false]
    exact hjoins.early_iff hpast

end

end Prepared

end TypedSsa

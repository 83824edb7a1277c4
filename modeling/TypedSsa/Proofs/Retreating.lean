import Mathlib.Data.Finset.Max
import Mathlib.Data.List.Chain
import TypedSsa.Proofs.Dominance
import TypedSsa.Proofs.Spreading

/-!
Ranges of blocks that are entered at one place. Ids are given out in order, so what is made for a
construct is a range of ids. Main statements: `Sealed.dominates`, by which the one entrance of a
range dominates it, and `Enclosed.cycle`: a cycle goes through the header of a loop that dominates
the cycle, if each edge back to an older block leaves such a range.
-/

namespace TypedSsa
namespace FlowGraph

variable {g g' : FlowGraph} {b x y : BlockId} {n m k lo hi gate : Nat} {l : LoopInfo}
  {role : BlockRole}

def HasRole (g : FlowGraph) (b : BlockId) (role : BlockRole) : Prop :=
  ∃ blk, g.block? b = some blk ∧ blk.origin.role = role

/-- An edge into a range of blocks comes from the range or from one block. -/
def Sealed (g : FlowGraph) (lo hi gate : Nat) : Prop :=
  ∀ x y : BlockId, y ∈ g.targets x → lo ≤ y.raw → y.raw < hi →
    (lo ≤ x.raw ∧ x.raw < hi) ∨ x.raw = gate

/-- An edge back to `y` leaves a range of newer blocks that is entered from an older one, or from
`y` itself if that is the header of a loop. -/
def Hedged (g : FlowGraph) (m : Nat) (x y : BlockId) : Prop :=
  ∃ lo hi gate : Nat, g.Sealed lo hi gate ∧ y.raw < lo ∧ lo ≤ x.raw ∧ x.raw < hi ∧ hi ≤ m ∧
    (gate < y.raw ∨ gate = y.raw ∧ lo = y.raw + 1 ∧ g.HasRole y .loopHeader)

/-- The edges back to blocks of a range are hedged. -/
def Enclosed (g : FlowGraph) (n m : Nat) : Prop :=
  ∀ x y : BlockId, y ∈ g.targets x → n ≤ y.raw → y.raw < m → y.raw ≤ x.raw → g.Hedged m x y

/-- The blocks of a loop are entered at its header alone, which leads to the exit. -/
structure Rings (g : FlowGraph) (n m : Nat) (l : LoopInfo) : Prop where
  header : ∃ condition start, g.ends? l.header = some (.branch condition start l.exit)
  base : n ≤ l.header.raw
  range : ∃ hi ≤ m, g.Sealed (l.header.raw + 1) hi l.header.raw ∧
    ∀ b : BlockId, l.latch = some b ∨ b ∈ l.body → l.header.raw < b.raw ∧ b.raw < hi

theorem hasRole_iff : g.HasRole b role ↔ ∃ blk, g.bare? b = some blk ∧ blk.origin.role = role :=
  exists_bare (fun _ => Iff.rfl)

/-! What stays so while a graph is made, and when there are fewer edges. -/

/-- Of the blocks from `n` on none is led to from more blocks. All keep their roles and ends. -/
structure Later (n : Nat) (g g' : FlowGraph) : Prop where
  next : g.nextBlock ≤ g'.nextBlock
  role : ∀ b role, g.HasRole b role → g'.HasRole b role
  ends : ∀ b t, g.ends? b = some t → g'.ends? b = some t
  edges : ∀ x y : BlockId, y ∈ g'.targets x → y ∈ g.targets x ∨ y.raw < n ∨ g.nextBlock ≤ y.raw

theorem Frame.hasRole {region : BlockId → Prop} (h : Frame region g g') (hb : g.HasRole b role) :
    g'.HasRole b role := by
  obtain ⟨blk, hblk, hrole⟩ := hasRole_iff.mp hb
  obtain ⟨blk', hblk', hgrown⟩ := h.grows b trivial blk hblk
  exact hasRole_iff.mpr ⟨blk', hblk', hgrown.origin ▸ hrole⟩

theorem Frame.later {region : BlockId → Prop} (h : Frame region g g')
    (hedges : ∀ x y : BlockId, y ∈ g'.targets x →
      y ∈ g.targets x ∨ y.raw < n ∨ g.nextBlock ≤ y.raw) : Later n g g' :=
  ⟨h.next, fun _ _ => h.hasRole, fun _ _ => h.ends, hedges⟩

theorem Raises.later {caught region : BlockId → Prop} (h : Raises caught region g g')
    (hedges : ∀ x y : BlockId, y ∈ g'.targets x →
      y ∈ g.targets x ∨ y.raw < n ∨ g.nextBlock ≤ y.raw) : Later n g g' := by
  have grows : ∀ b blk, g.bare? b = some blk →
      ∃ caught blk', g'.bare? b = some blk' ∧ blk.Grown caught blk' := by
    intro b blk hb
    by_cases hmem : region b
    · obtain ⟨blk', hb', hgrown⟩ := h.grows b hmem blk hb
      exact ⟨caught, blk', hb', hgrown⟩
    · exact ⟨uncaught, blk, (h.only b hmem).trans hb, .refl blk⟩
  refine ⟨Nat.le_of_eq h.next.symm, fun b role hb => ?_, fun b t ht => ?_, hedges⟩
  · obtain ⟨blk, hblk, hrole⟩ := hasRole_iff.mp hb
    obtain ⟨handlers, blk', hblk', hgrown⟩ := grows b blk hblk
    exact hasRole_iff.mpr ⟨blk', hblk', hgrown.origin ▸ hrole⟩
  · obtain ⟨blk, hblk, hterm⟩ := ends?_some.mp ht
    obtain ⟨handlers, blk', hblk', hgrown⟩ := grows b blk hblk
    exact ends?_some.mpr ⟨blk', hblk', (hgrown.ended t hterm).1⟩

namespace Later

variable (h : Later n g g')
include h

theorem isSealed (hs : g.Sealed lo hi gate) (hlo : n ≤ lo) (hhi : hi ≤ g.nextBlock) :
    g'.Sealed lo hi gate := by
  intro x y hy hle hlt
  rcases h.edges x y hy with hy | hy
  · exact hs x y hy hle hlt
  · omega

theorem hedged (hhedged : g.Hedged m x y) (hn : n ≤ y.raw) (hm : m ≤ g.nextBlock) :
    g'.Hedged m x y := by
  obtain ⟨lo, hi, gate, hs, hlo, hx, hxhi, hhi, hgate⟩ := hhedged
  refine ⟨lo, hi, gate, h.isSealed hs (by omega) (by omega), hlo, hx, hxhi, hhi, ?_⟩
  exact hgate.imp_right (fun hgate => ⟨hgate.1, hgate.2.1, h.role y _ hgate.2.2⟩)

theorem enclosed (henclosed : g.Enclosed n m) (hm : m ≤ g.nextBlock) : g'.Enclosed n m := by
  intro x y hy hn hlt hle
  rcases h.edges x y hy with hy | hy
  · exact h.hedged (henclosed x y hy hn hlt hle) hn hm
  · omega

theorem rings (hl : g.Rings n m l) (hm : m ≤ g.nextBlock) : g'.Rings n m l := by
  obtain ⟨condition, start, hends⟩ := hl.header
  obtain ⟨hi, hhi, hs, hmem⟩ := hl.range
  have hbase := hl.base
  exact ⟨⟨condition, start, h.ends _ _ hends⟩, hbase, hi, hhi,
    h.isSealed hs (by omega) (by omega), hmem⟩

end Later

theorem Hedged.mono (h : g.Hedged m x y) (hm : m ≤ k) : g.Hedged k x y := by
  obtain ⟨lo, hi, gate, hs, hlo, hx, hxhi, hhi, hgate⟩ := h
  exact ⟨lo, hi, gate, hs, hlo, hx, hxhi, Nat.le_trans hhi hm, hgate⟩

theorem Rings.mono {n' m' : Nat} (h : g.Rings n m l) (hn : n' ≤ n) (hm : m ≤ m') :
    g.Rings n' m' l := by
  obtain ⟨hi, hhi, hrange⟩ := h.range
  exact ⟨h.header, Nat.le_trans hn h.base, hi, Nat.le_trans hhi hm, hrange⟩

theorem Enclosed.none (g : FlowGraph) (h : m ≤ n) : g.Enclosed n m := by
  intro x y _ hn hlt _
  omega

/-- The edges back are hedged among fewer edges too. -/
theorem Enclosed.of_le (h : g.Enclosed n m) (hle : ∀ x, g'.targets x ⊆ g.targets x)
    (hrole : ∀ x y role, y ∈ g'.targets x → g.HasRole y role → g'.HasRole y role) :
    g'.Enclosed n m := by
  intro x y hy hn hlt hback
  obtain ⟨lo, hi, gate, hs, hlo, hx, hxhi, hhi, hgate⟩ := h x y (hle x hy) hn hlt hback
  refine ⟨lo, hi, gate, fun u v hv => hs u v (hle u hv), hlo, hx, hxhi, hhi, ?_⟩
  exact hgate.imp_right (fun hgate => ⟨hgate.1, hgate.2.1, hrole x y _ hy hgate.2.2⟩)

/-! What follows for paths and cycles. -/

/-- The one block that leads into a range dominates it. -/
theorem Sealed.dominates (hs : g.Sealed lo hi gate) (hentry : g.entry.raw < lo)
    (hb : g.Reachable b) (hlo : lo ≤ b.raw) (hhi : b.raw < hi) : g.Dominates ⟨gate⟩ b := by
  have through : ∀ path, g.Path path → ∀ b before, path = b :: before → lo ≤ b.raw → b.raw < hi →
      ⟨gate⟩ ∈ before := by
    intro path hpath
    induction hpath with
    | start =>
      intro b before he hlo _
      obtain ⟨rfl, -⟩ := List.cons.inj he
      omega
    | @step v w before hwalk hedge ih =>
      intro b before' he hlo hhi
      obtain ⟨rfl, rfl⟩ := List.cons.inj he
      rcases hs v w hedge hlo hhi with hv | rfl
      · exact List.mem_cons_of_mem v (ih v before rfl hv.1 hv.2)
      · exact List.mem_cons_self
  obtain ⟨before, hpath⟩ := reachable_iff.mp hb
  have hmem := through _ hpath b before rfl hlo hhi
  obtain ⟨later, rest, -, hgate⟩ := hpath.start_of_mem (List.mem_cons_of_mem b hmem)
  refine ⟨reachable_iff.mpr ⟨rest, hgate⟩, hb, fun before hpath => ?_⟩
  exact List.mem_cons_of_mem b (through _ hpath b before rfl hlo hhi)

theorem dominates_self (hb : g.Reachable b) : g.Dominates b b :=
  ⟨hb, hb, fun _ _ => List.mem_cons_self⟩

/-- An edge among blocks that are no older than `k`. -/
def StepAbove (g : FlowGraph) (k : BlockId) (x y : BlockId) : Prop :=
  y ∈ g.targets x ∧ k.raw ≤ x.raw ∧ k.raw ≤ y.raw

/-- A range that is entered from an older block than `k` is not entered from `k` on. -/
theorem Sealed.not_entered {k : BlockId} (hs : g.Sealed lo hi gate) (hgate : gate < k.raw)
    (hlo : k.raw < lo) (hwalk : Relation.ReflTransGen (g.StepAbove k) k x) :
    ¬(lo ≤ x.raw ∧ x.raw < hi) := by
  induction hwalk with
  | refl => omega
  | @tail v w _ hstep ih =>
    intro hin
    rcases hs v w hstep.1 hin.1 hin.2 with hv | hv
    · exact ih hv
    · have hle := hstep.2.1
      omega

/-- What leads back to `k`, over blocks that are no older, is in a range that an edge back to `k`
leaves. -/
theorem Enclosed.on_way_back {k : BlockId} (h : g.Enclosed 0 m) (hk : k.raw < m)
    (hwalk : Relation.ReflTransGen (g.StepAbove k) x k) : x = k ∨ g.Hedged m x k := by
  induction hwalk using Relation.ReflTransGen.head_induction_on with
  | refl => exact .inl rfl
  | @head v w hstep _ ih =>
    obtain ⟨hedge, hv, hw⟩ := hstep
    rcases ih with rfl | ⟨lo, hi, gate, hs, hlo, hle, hlt, hhi, hgate⟩
    · exact .inr (h v w hedge (Nat.zero_le _) hk hv)
    · rcases hs v w hedge hle hlt with hin | hin
      · exact .inr ⟨lo, hi, gate, hs, hlo, hin.1, hin.2, hhi, hgate⟩
      · left
        have hraw : v.raw = k.raw := by omega
        exact congrArg Ident.mk hraw

/-- A closed walk from a block over others. -/
def Cycle (g : FlowGraph) (b : BlockId) (bs : List BlockId) : Prop :=
  List.IsChain (fun x y => y ∈ g.targets x) (b :: (bs ++ [b]))

theorem Cycle.first {bs : List BlockId} (h : g.Cycle b bs) : ∃ c ∈ b :: bs, c ∈ g.targets b := by
  cases bs with
  | nil => exact ⟨b, List.mem_cons_self, (List.isChain_cons_cons.mp h).1⟩
  | cons c cs => exact ⟨c, by simp, (List.isChain_cons_cons.mp h).1⟩

theorem Cycle.contains {bs : List BlockId} (h : g.Cycle b bs) (linked : Linked g) :
    ∀ x ∈ b :: bs, g.contains x = true := by
  have hall := h.induction (g.contains · = true) _ (fun _ _ hedge _ => linked.closed hedge)
    (fun _ => by
      obtain ⟨c, -, hedge⟩ := h.first
      obtain ⟨blk, hblk, -⟩ := mem_targets.mp hedge
      exact contains_iff.mpr ⟨blk, hblk⟩)
  exact fun x hx => hall x (List.mem_append_left [b] hx)

/-- A cycle goes through a header that dominates it: the oldest of its blocks. What leads back to
this one is in a range that is entered from there, since otherwise the cycle would not get in. -/
theorem Enclosed.cycle {bs : List BlockId} (h : g.Enclosed 0 m) (hentry : g.entry.raw = 0)
    (hreach : ∀ x ∈ b :: bs, g.Reachable x) (hm : ∀ x ∈ b :: bs, x.raw < m)
    (hcycle : g.Cycle b bs) :
    ∃ k ∈ b :: bs, g.HasRole k .loopHeader ∧ ∀ x ∈ b :: bs, g.Dominates k x := by
  obtain ⟨k, hk, hleast⟩ :=
    (b :: bs).toFinset.exists_min_image Ident.raw ⟨b, List.mem_toFinset.mpr List.mem_cons_self⟩
  simp only [List.mem_toFinset] at hk hleast
  have hin : ∀ x, x ∈ b :: (bs ++ [b]) ↔ x ∈ b :: bs := by grind
  have habove : List.IsChain (g.StepAbove k) (b :: (bs ++ [b])) :=
    hcycle.imp_of_mem_imp (fun x y hx hy hedge =>
      ⟨hedge, hleast x ((hin x).mp hx), hleast y ((hin y).mp hy)⟩)
  have hto : ∀ x ∈ b :: bs, Relation.ReflTransGen (g.StepAbove k) b x := fun x hx =>
    habove.induction _ _ (fun _ _ hstep hwalk => hwalk.tail hstep) (fun _ => .refl) x
      ((hin x).mpr hx)
  have hfrom : ∀ x ∈ b :: bs, Relation.ReflTransGen (g.StepAbove k) x b :=
    habove.backwards_concat_induction _ (b :: bs) (fun _ _ hstep hwalk => hwalk.head hstep) .refl
  have held : ∀ x ∈ b :: bs, x = k ∨ g.HasRole k .loopHeader ∧
      ∃ hi, g.Sealed (k.raw + 1) hi k.raw ∧ k.raw < x.raw ∧ x.raw < hi := by
    intro x hx
    refine (h.on_way_back (hm k hk) ((hfrom x hx).trans (hto k hk))).imp_right (fun hhedged => ?_)
    obtain ⟨lo, hi, gate, hs, hlo, hle, hlt, -, hgate | ⟨rfl, rfl, hrole⟩⟩ := hhedged
    · exact absurd ⟨hle, hlt⟩ (hs.not_entered hgate hlo ((hfrom k hk).trans (hto x hx)))
    · exact ⟨hrole, hi, hs, hle, hlt⟩
  refine ⟨k, hk, ?_, fun x hx => ?_⟩
  · by_contra hno
    have honly : ∀ x ∈ b :: bs, x = k := fun x hx => (held x hx).resolve_right (fun h => hno h.1)
    obtain ⟨c, hc, hedge⟩ := hcycle.first
    rw [honly c hc, honly b List.mem_cons_self] at hedge
    obtain ⟨lo, hi, gate, -, hlo, hle, -⟩ := h k k hedge (Nat.zero_le _) (hm k hk) (Nat.le_refl _)
    omega
  · rcases held x hx with rfl | ⟨-, hi, hs, hlt, hhi⟩
    · exact dominates_self (hreach x hx)
    · exact hs.dominates (by omega) (hreach x hx) hlt hhi

end FlowGraph

end TypedSsa

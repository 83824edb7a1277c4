import TypedSsa.Proofs.Search

/-!
What a depth-first search tells of cycles. Main statement: `firstOnCycle?_eq_none`. An edge leads to
a vertex that is still open just when there is a cycle; else the order in which vertices are left
goes against every edge.
-/

namespace TypedSsa.Digraph

variable {α : Type}

/-- A vertex waits to be entered from an open one. -/
def Awaits (v w : α) (stack : List (Step α)) : Prop :=
  ∃ rest, (Step.enter w :: rest) <:+ stack ∧ v ∈ opens rest

namespace Awaits

variable {v w : α} {rest : List (Step α)}

theorem of_leave {u : α} (h : Awaits v w (.leave u :: rest)) : Awaits v w rest := by
  obtain ⟨below, hsuffix, hv⟩ := h
  rcases List.suffix_cons_iff.mp hsuffix with hsame | hsuffix
  · cases hsame
  · exact ⟨below, hsuffix, hv⟩

theorem of_enter {u : α} (h : Awaits v w (.enter u :: rest)) :
    u = w ∧ v ∈ opens rest ∨ Awaits v w rest := by
  obtain ⟨below, hsuffix, hv⟩ := h
  rcases List.suffix_cons_iff.mp hsuffix with hsame | hsuffix
  · cases hsame
    exact .inl ⟨rfl, hv⟩
  · exact .inr ⟨below, hsuffix, hv⟩

theorem mono {stack : List (Step α)} (h : Awaits v w rest) (hsuffix : rest <:+ stack) :
    Awaits v w stack := by
  obtain ⟨below, hbelow, hv⟩ := h
  exact ⟨below, hbelow.trans hsuffix, hv⟩

/-- The targets of a vertex that is opened wait to be entered from it. -/
theorem of_opened {ws : List α} (hw : w ∈ ws) :
    Awaits v w (ws.map .enter ++ .leave v :: rest) := by
  obtain ⟨xs, ys, rfl⟩ := List.append_of_mem hw
  refine ⟨ys.map .enter ++ .leave v :: rest, ⟨xs.map .enter, by simp⟩, ?_⟩
  rw [opens_enters]
  exact List.mem_cons_self

end Awaits

variable [DecidableEq α] [Hashable α] {next : α → List α} {vertices roots : List α}

/-- What edges back tell while a search goes on. -/
structure Watched (next : α → List α) (vertices : List α) (stack : List (Step α)) (s : Search α) :
    Prop where
  path : ∀ v, v ∈ s.path ↔ v ∈ opens stack
  sound : ∀ v ∈ s.back, Relation.TransGen (fun u w => w ∈ next u) v v
  ordered : s.back = [] → ∀ v ∈ s.seen, ∀ w ∈ next v, w ∈ vertices →
    [v, w].Sublist (leaving stack s) ∨ Awaits v w stack

namespace Watched

variable {rest : List (Step α)} {s : Search α} {v : α}

theorem leave (h : Watched next vertices (.leave v :: rest) s)
    (he : Exploring next vertices roots (.leave v :: rest) s) :
    Watched next vertices rest { s with path := s.path.erase v, left := v :: s.left } := by
  have hnodup : (opens rest).Nodup ∧ v ∉ opens rest := by
    have hall := (List.nodup_append.mp (he.perm.nodup_iff.mpr he.nodup)).1
    have hopens := List.nodup_cons.mp ((List.reverse_perm _).nodup_iff.mp hall)
    exact ⟨hopens.2, hopens.1⟩
  have hsame : leaving rest { s with path := s.path.erase v, left := v :: s.left } =
      leaving (.leave v :: rest) s := by
    simp [leaving, opens]
  refine ⟨fun u => ?_, h.sound, fun hback u hu w hw hin => ?_⟩
  · rw [Std.HashSet.mem_erase, h.path, opens, List.mem_cons, beq_eq_false_iff_ne]
    constructor
    · rintro ⟨hne, rfl | hu⟩
      · exact absurd rfl hne
      · exact hu
    · exact fun hu => ⟨fun hsame => hnodup.2 (hsame ▸ hu), .inr hu⟩
  · rw [hsame]
    exact (h.ordered hback u hu w hw hin).imp_right Awaits.of_leave

/-- An edge to an open vertex closes a cycle. -/
theorem turn (h : Watched next vertices (.enter v :: rest) s)
    (he : Exploring next vertices roots (.enter v :: rest) s) (hopen : v ∈ s.path) :
    Watched next vertices rest { s with back := v :: s.back } := by
  refine ⟨h.path, ?_, nofun⟩
  exact List.forall_mem_cons.mpr ⟨he.hung.2.1 v ((h.path v).mp hopen), h.sound⟩

/-- An edge to a vertex that has been left goes against the order. -/
theorem skip (h : Watched next vertices (.enter v :: rest) s)
    (he : Exploring next vertices roots (.enter v :: rest) s) (hseen : v ∉ s.unseen)
    (hclosed : v ∉ s.path) : Watched next vertices rest s := by
  refine ⟨h.path, h.sound, fun hback u hu w hw hin => ?_⟩
  rcases h.ordered hback u hu w hw hin with hbefore | hawaits
  · exact .inl hbefore
  · rcases hawaits.of_enter with ⟨rfl, hopen⟩ | hawaits
    · left
      have hleft : v ∈ s.left := by
        have hv : v ∈ s.seen :=
          Classical.byContradiction fun hn => hseen ((he.unseen v).mpr ⟨hin, hn⟩)
        rcases List.mem_append.mp (he.perm.mem_iff.mpr hv) with hv | hv
        · exact absurd ((h.path v).mpr (List.mem_reverse.mp hv)) hclosed
        · exact hv
      exact (List.singleton_sublist.mpr (List.mem_reverse.mpr hopen)).append
        (List.singleton_sublist.mpr hleft)
    · exact .inr hawaits

theorem enter {s' : Search α} (h : Watched next vertices (.enter v :: rest) s)
    (seen : s'.seen = v :: s.seen) (path : s'.path = s.path.insert v) (left : s'.left = s.left)
    (back : s'.back = s.back) :
    Watched next vertices ((next v).map .enter ++ .leave v :: rest) s' := by
  have hopened : leaving ((next v).map .enter ++ .leave v :: rest) s' =
      (opens rest).reverse ++ v :: s.left := by
    rw [leaving, opens_enters, opens, List.reverse_cons, left, List.append_assoc]
    rfl
  have hrest : rest <:+ (next v).map Step.enter ++ .leave v :: rest :=
    ((List.suffix_cons _ rest).trans (List.suffix_append _ _))
  refine ⟨fun u => ?_, back ▸ h.sound, fun hback u hu w hw hin => ?_⟩
  · rw [path, opens_enters, Std.HashSet.mem_insert, h.path, opens, opens, List.mem_cons, beq_iff_eq]
    exact or_congr_left eq_comm
  · rw [seen] at hu
    rcases List.mem_cons.mp hu with rfl | hu
    · exact .inr (.of_opened hw)
    · rw [hopened]
      rcases h.ordered (back ▸ hback) u hu w hw hin with hbefore | hawaits
      · exact .inl (hbefore.trans ((List.sublist_cons_self v s.left).append_left _))
      · rcases hawaits.of_enter with ⟨rfl, hopen⟩ | hawaits
        · exact .inl ((List.singleton_sublist.mpr (List.mem_reverse.mpr hopen)).append
            (List.singleton_sublist.mpr List.mem_cons_self))
        · exact .inr (hawaits.mono hrest)

end Watched

theorem search_watched {stack : List (Step α)} {s : Search α}
    (he : Exploring next vertices roots stack s) (h : Watched next vertices stack s) :
    Watched next vertices [] (search next stack s) := by
  fun_induction search next stack s with
  | case1 s => exact h
  | case2 v rest s ih => exact ih he.leave (h.leave he)
  | case3 v rest s hv ih => exact ih (he.enter hv rfl rfl rfl) (h.enter rfl rfl rfl rfl)
  | case4 v rest s hv hpath ih => exact ih (he.pass hv rfl rfl rfl) (h.turn he hpath)
  | case5 v rest s hv hpath ih => exact ih (he.pass hv rfl rfl rfl) (h.skip he hv hpath)

theorem searchFrom_watched (next : α → List α) (vertices roots : List α) :
    Watched next vertices [] (searchFrom vertices next roots) := by
  have hnone : opens (roots.map Step.enter) = [] :=
    (List.append_nil (roots.map Step.enter)) ▸ opens_enters roots []
  have hstart : Exploring next vertices roots (roots.map .enter)
      { unseen := .ofList vertices } := exploring_start (by simp)
  refine search_watched hstart ⟨?_, ?_, ?_⟩
  · simp [hnone]
  · simp
  · simp

/-- No vertex is found on a cycle just when none is on one. -/
theorem firstOnCycle?_eq_none (hnext : ∀ v w, w ∈ next v → w ∈ vertices) :
    firstOnCycle? vertices next = none ↔
      ∀ v, ¬Relation.TransGen (fun u w => w ∈ next u) v v := by
  have hwatched := searchFrom_watched next vertices vertices
  have hexplored := searchFrom_explored next vertices vertices
  rw [firstOnCycle?, List.getLast?_eq_none_iff]
  constructor
  · intro hback v hcycle
    have hnodup := hexplored.left_nodup
    have hedge : ∀ u w, u ∈ vertices → w ∈ next u →
        [u, w].Sublist (searchFrom vertices next vertices).left := by
      intro u w hu hw
      rcases hwatched.ordered hback u (hexplored.rooted u hu hu) w hw (hnext u w hw) with
        hbefore | ⟨below, hsuffix, -⟩
      · simpa [leaving, opens] using hbefore
      · exact absurd (List.suffix_nil.mp hsuffix) (List.cons_ne_nil _ _)
    have hv : v ∈ vertices := by
      cases hcycle with
      | single hw => exact hnext _ _ hw
      | tail _ hw => exact hnext _ _ hw
    -- Along the edges from a vertex each is left before it.
    have hbefore : ∀ w, Relation.TransGen (fun u w => w ∈ next u) v w →
        w ∈ vertices ∧ [v, w].Sublist (searchFrom vertices next vertices).left := by
      intro w hreach
      induction hreach with
      | single hw => exact ⟨hnext _ _ hw, hedge _ _ hv hw⟩
      | @tail u w _ hw ih =>
        obtain ⟨hu, hbefore⟩ := ih
        refine ⟨hnext _ _ hw, ?_⟩
        obtain ⟨xs, ys, hsplit⟩ := List.append_of_mem (hbefore.subset (show u ∈ [v, u] by simp))
        have hvu := mem_of_pair_sublist (hsplit ▸ hbefore) (hsplit ▸ hnodup)
        have huw := mem_of_sublist_pair (hsplit ▸ hedge u w hu hw) (hsplit ▸ hnodup)
        rw [hsplit]
        exact (List.singleton_sublist.mpr hvu).append
          (List.singleton_sublist.mpr (List.mem_cons_of_mem u huw))
    have htwice := (hbefore v hcycle).2.nodup hnodup
    exact (List.nodup_cons.mp htwice).1 (List.mem_singleton_self v)
  · intro hacyclic
    exact List.eq_nil_iff_forall_not_mem.mpr fun v hv => hacyclic v (hwatched.sound v hv)

end TypedSsa.Digraph

import TypedSsa.Proofs.Search

/-!
In which order a depth-first search enters and leaves vertices. Main statement: `leaves_after`. Of
the vertices that lead to each other, the one that is entered first is left after everything that it
leads to and that does not lead back.
-/

namespace TypedSsa.Digraph

variable {α : Type}

/-! Pairs in a list without repetitions. -/

theorem pair_glue {a b c : α} {xs : List α} (hn : xs.Nodup) (hab : [a, b].Sublist xs)
    (hbc : [b, c].Sublist xs) : [a, b, c].Sublist xs := by
  induction xs with
  | nil => cases hab
  | cons x xs ih =>
    have hx := List.nodup_cons.mp hn
    have hbc' : [b, c].Sublist xs := by
      cases hbc with
      | cons _ h => exact h
      | cons_cons _ h =>
        cases hab with
        | cons _ h' => exact absurd (h'.subset (by simp)) hx.1
        | cons_cons _ h' => exact absurd (h'.subset (by simp)) hx.1
    cases hab with
    | cons _ h => exact (ih hx.2 h hbc').cons x
    | cons_cons _ h => exact hbc'.cons_cons a

theorem pair_trans {a b c : α} {xs : List α} (hn : xs.Nodup) (hab : [a, b].Sublist xs)
    (hbc : [b, c].Sublist xs) : [a, c].Sublist xs :=
  (((List.sublist_cons_self b [c]).cons_cons a).trans (pair_glue hn hab hbc))

theorem pair_ne {a b : α} {xs : List α} (hn : xs.Nodup) (hab : [a, b].Sublist xs) : a ≠ b := by
  rintro rfl
  have := hab.nodup hn
  simp at this

theorem pair_asymm {a b : α} {xs : List α} (hn : xs.Nodup) (hab : [a, b].Sublist xs) :
    ¬[b, a].Sublist xs :=
  fun hba => pair_ne hn (pair_trans hn hab hba) rfl

theorem pair_total {a b : α} {xs : List α} (ha : a ∈ xs) (hb : b ∈ xs) (hne : a ≠ b) :
    [a, b].Sublist xs ∨ [b, a].Sublist xs := by
  induction xs with
  | nil => cases ha
  | cons x xs ih =>
    rcases List.mem_cons.mp ha with rfl | ha
    · have hb := (List.mem_cons.mp hb).resolve_left (Ne.symm hne)
      exact .inl ((List.singleton_sublist.mpr hb).cons_cons a)
    · rcases List.mem_cons.mp hb with heq | hb
      · exact .inr (heq ▸ (List.singleton_sublist.mpr ha).cons_cons b)
      · exact (ih ha hb).imp (·.cons x) (·.cons x)

/-! What waits above an open vertex. -/

/-- Every target of an open vertex was entered or waits to be, above it. -/
def Owed (next : α → List α) (vertices seen : List α) : List α → List (Step α) → Prop
  | _, [] => True
  | waiting, .enter w :: rest => Owed next vertices seen (w :: waiting) rest
  | waiting, .leave v :: rest =>
    (∀ w ∈ next v, w ∈ vertices → w ∈ seen ∨ w ∈ waiting) ∧ Owed next vertices seen waiting rest

theorem Owed.mono {next : α → List α} {vertices seen seen' : List α} {stack : List (Step α)} :
    ∀ {waiting waiting' : List α}, Owed next vertices seen waiting stack →
      (∀ w ∈ seen, w ∈ seen') → (∀ w ∈ waiting, w ∈ vertices → w ∈ seen' ∨ w ∈ waiting') →
      Owed next vertices seen' waiting' stack := by
  induction stack with
  | nil => exact fun _ _ _ => trivial
  | cons step rest ih =>
    intro waiting waiting' h hseen hwaiting
    cases step with
    | enter v =>
      refine ih h hseen (fun w hw hin => ?_)
      rcases List.mem_cons.mp hw with rfl | hw
      · exact .inr (by simp)
      · exact (hwaiting w hw hin).imp_right (List.mem_cons_of_mem v)
    | leave v =>
      refine ⟨fun w hw hin => ?_, ih h.2 hseen hwaiting⟩
      exact (h.1 w hw hin).elim (fun hs => .inl (hseen w hs)) (fun hs => hwaiting w hs hin)

theorem owed_push {next : α → List α} {vertices seen : List α} {v : α} {rest : List (Step α)}
    (h : Owed next vertices seen [] rest) :
    Owed next vertices seen [] ((next v).map .enter ++ .leave v :: rest) := by
  suffices ∀ ws waiting : List α, (∀ w ∈ next v, w ∈ ws ∨ w ∈ waiting) →
      Owed next vertices seen waiting (ws.map .enter ++ .leave v :: rest) from
    this _ [] (fun _ hw => .inl hw)
  intro ws
  induction ws with
  | nil =>
    intro waiting hall
    exact ⟨fun w hw _ => .inr ((hall w hw).resolve_left (by simp)), h.mono (fun _ hs => hs)
      (by simp)⟩
  | cons w ws ih =>
    intro waiting hall
    refine ih (w :: waiting) (fun x hx => ?_)
    simp only [List.mem_cons] at hall ⊢
    rcases hall x hx with (hx | hx) | hx
    · exact .inr (.inl hx)
    · exact .inl hx
    · exact .inr (.inr hx)

variable [DecidableEq α] [Hashable α]

/-- What a search that goes on tells of the order of vertices: `seen` and `leaving` list the last
one first. -/
structure Nesting (next : α → List α) (vertices : List α) (stack : List (Step α)) (s : Search α) :
    Prop where
  opened : (opens stack).Sublist s.seen
  owed : Owed next vertices s.seen [] stack
  done : ∀ u ∈ s.left, ∀ w ∈ next u, w ∈ vertices → w ∈ s.seen
  /-- The target of an edge that is entered later is left earlier. -/
  inner : ∀ u ∈ s.left, ∀ w ∈ next u, [w, u].Sublist s.seen → [u, w].Sublist (leaving stack s)
  /-- What is entered after a vertex beside `a` is left after `a`. -/
  beside : ∀ a b x, [x, b, a].Sublist s.seen → [b, a].Sublist (leaving stack s) →
    [x, a].Sublist (leaving stack s)

namespace Nesting

variable {next : α → List α} {vertices roots : List α} {rest : List (Step α)} {s : Search α} {v : α}

theorem leave (h : Nesting next vertices (.leave v :: rest) s)
    (he : Exploring next vertices roots (.leave v :: rest) s) :
    Nesting next vertices rest { s with path := s.path.erase v, left := v :: s.left } := by
  have same : leaving rest { s with path := s.path.erase v, left := v :: s.left } =
      leaving (.leave v :: rest) s := by
    simp [leaving, opens]
  have shape : leaving (.leave v :: rest) s = (opens rest).reverse ++ v :: s.left := by
    simp [leaving, opens]
  refine ⟨(List.sublist_cons_self v _).trans h.opened, h.owed.2, ?_, ?_, fun a b x =>
    same ▸ h.beside a b x⟩
  · refine List.forall_mem_cons.mpr ⟨fun w hw hin => ?_, h.done⟩
    exact (h.owed.1 w hw hin).resolve_right (by simp)
  · rw [same]
    refine List.forall_mem_cons.mpr ⟨fun w hw hwv => ?_, h.inner⟩
    -- a target that is still open was entered before `v`
    have hmem : w ∈ (opens rest).reverse ++ v :: s.left :=
      shape ▸ he.perm.mem_iff.mpr (hwv.subset (by simp))
    rw [shape]
    rcases List.mem_append.mp hmem with hopen | hleft
    · have hvw : [v, w].Sublist s.seen :=
        ((List.singleton_sublist.mpr (List.mem_reverse.mp hopen)).cons_cons v).trans h.opened
      exact absurd hwv (pair_asymm he.nodup hvw)
    · rcases List.mem_cons.mp hleft with rfl | hleft
      · exact absurd rfl (pair_ne he.nodup hwv)
      · exact ((List.singleton_sublist.mpr hleft).cons_cons v).trans (List.sublist_append_right _ _)

theorem pass {s' : Search α} (h : Nesting next vertices (.enter v :: rest) s)
    (he : Exploring next vertices roots (.enter v :: rest) s) (hv : v ∉ s.unseen)
    (seen : s'.seen = s.seen) (left : s'.left = s.left) : Nesting next vertices rest s' := by
  have same : leaving rest s' = leaving (.enter v :: rest) s := by simp [leaving, opens, left]
  exact {
    opened := seen ▸ h.opened
    owed := by
      rw [seen]
      have howed : Owed next vertices s.seen [v] rest := h.owed
      refine howed.mono (fun _ hs => hs) (fun w hw hin => ?_)
      rw [List.mem_singleton] at hw
      subst hw
      left
      exact Classical.byContradiction (fun hn => hv ((he.unseen w).mpr ⟨hin, hn⟩))
    done := by
      rw [seen, left]
      exact h.done
    inner := by
      rw [same, seen, left]
      exact h.inner
    beside := by
      rw [same, seen]
      exact h.beside }

theorem enter {s' : Search α} (h : Nesting next vertices (.enter v :: rest) s)
    (he : Exploring next vertices roots (.enter v :: rest) s) (hv : v ∈ s.unseen)
    (seen : s'.seen = v :: s.seen) (left : s'.left = s.left) :
    Nesting next vertices ((next v).map .enter ++ .leave v :: rest) s' := by
  have fresh : v ∉ s.seen := ((he.unseen v).mp hv).2
  have hin : v ∈ vertices := ((he.unseen v).mp hv).1
  have opened : leaving ((next v).map .enter ++ .leave v :: rest) s' =
      (opens rest).reverse ++ v :: s.left := leaving_enter left
  have old : leaving (.enter v :: rest) s = (opens rest).reverse ++ s.left := rfl
  have grown : (leaving (.enter v :: rest) s).Sublist
      (leaving ((next v).map .enter ++ .leave v :: rest) s') := sublist_leaving_enter left
  have hnodup : (leaving (.enter v :: rest) s).Nodup := he.perm.nodup_iff.mpr he.nodup
  exact {
    opened := by
      rw [opens_enters, seen]
      exact h.opened.cons_cons v
    owed := by
      rw [seen]
      have howed : Owed next vertices s.seen [v] rest := h.owed
      exact owed_push (howed.mono (fun _ hs => List.mem_cons_of_mem v hs) (by simp))
    done := by
      rw [left, seen]
      exact fun u hu w hw hwin => List.mem_cons_of_mem v (h.done u hu w hw hwin)
    inner := by
      rw [left, seen]
      intro u hu w hw hwu
      -- `v` is no target of a vertex that was left, for then it would have been entered
      have hne : w ≠ v := fun hwv => fresh (hwv ▸ h.done u hu w hw (hwv ▸ hin))
      exact (h.inner u hu w hw (sublist_of_cons_of_ne hwu hne)).trans grown
    beside := by
      intro a b x hxba hba
      rw [seen] at hxba
      cases hxba with
      | cons _ hxba =>
        have hb : b ≠ v := fun hbv => fresh (hbv ▸ hxba.subset (by simp))
        have ha : a ≠ v := fun hav => fresh (hav ▸ hxba.subset (by simp))
        rw [opened] at hba
        exact (h.beside a b x hxba (old ▸ pair_sublist_erase hba hb ha)).trans grown
      | cons_cons _ hseen =>
        have hb : b ≠ v := fun hbv => fresh (hbv ▸ hseen.subset (by simp))
        have ha : a ≠ v := fun hav => fresh (hav ▸ hseen.subset (by simp))
        rw [opened] at hba ⊢
        have hba := pair_sublist_erase hba hb ha
        -- an open `a` would have `b` open above it, so left before it
        have haleft : a ∈ s.left := by
          have hmem : a ∈ (opens rest).reverse ++ s.left := hba.subset (by simp)
          refine (List.mem_append.mp hmem).resolve_left (fun hopen => ?_)
          obtain ⟨above, below, hsplit⟩ := List.append_of_mem hopen
          have hbopen : b ∈ above := by
            rw [hsplit, List.append_assoc, List.cons_append] at hba
            rw [old, hsplit, List.append_assoc, List.cons_append] at hnodup
            exact mem_of_pair_sublist hba hnodup
          have hpair : [a, b].Sublist (opens rest) := by
            have : [b, a].Sublist (opens rest).reverse := by
              rw [hsplit]
              exact (List.singleton_sublist.mpr hbopen).append
                (List.singleton_sublist.mpr (List.mem_cons_self ..))
            simpa using this.reverse
          exact pair_asymm he.nodup hseen (hpair.trans h.opened)
        exact ((List.singleton_sublist.mpr haleft).cons_cons _).trans
          (List.sublist_append_right _ _) }

end Nesting

theorem search_nesting {next : α → List α} {vertices roots : List α} {stack : List (Step α)}
    {s : Search α} (h : Nesting next vertices stack s)
    (he : Exploring next vertices roots stack s) :
    Nesting next vertices [] (search next stack s) := by
  fun_induction search next stack s with
  | case1 s => exact h
  | case2 v rest s ih => exact ih (h.leave he) he.leave
  | case3 v rest s hv ih => exact ih (h.enter he hv rfl rfl) (he.enter hv rfl rfl rfl)
  | case4 v rest s hv hpath ih => exact ih (h.pass he hv rfl rfl) (he.pass hv rfl rfl rfl)
  | case5 v rest s hv hpath ih => exact ih (h.pass he hv rfl rfl) (he.pass hv rfl rfl rfl)

/-- The order of vertices in a finished search. -/
structure Ordered (next : α → List α) (s : Search α) : Prop where
  inner : ∀ u w, w ∈ next u → [w, u].Sublist s.seen → [u, w].Sublist s.left
  beside : ∀ a b x, [x, b, a].Sublist s.seen → [b, a].Sublist s.left → [x, a].Sublist s.left

theorem searchFrom_ordered (next : α → List α) (vertices roots : List α) :
    Ordered next (searchFrom vertices next roots) := by
  have hopens : opens (roots.map .enter) = ([] : List α) := by
    simpa [opens] using opens_enters roots ([] : List (Step α))
  have howed : ∀ (rs waiting : List α), Owed next vertices [] waiting (rs.map .enter) := by
    intro rs
    induction rs with
    | nil => exact fun _ => trivial
    | cons r rs ih => exact fun waiting => ih (r :: waiting)
  have start : Nesting next vertices (roots.map .enter) { unseen := .ofList vertices } :=
    ⟨by simp [hopens], howed roots [], by simp, by simp, by simp⟩
  have exploring : Exploring next vertices roots (roots.map .enter)
      { unseen := .ofList vertices } :=
    exploring_start (by simp)
  have h := search_nesting start exploring
  have hexplored := searchFrom_explored next vertices roots
  exact ⟨fun u w hw hwu => h.inner u (hexplored.mem_left.mpr (hwu.subset (by simp))) w hw hwu,
    h.beside⟩

namespace Ordered

variable {next : α → List α} {vertices roots : List α} {s : Search α} {x y d : α}

/-- What an edge leads to is left before its source, if it does not lead back. -/
theorem left_or_back (h : Ordered next s) (he : Explored next vertices roots s) (hx : x ∈ s.seen)
    (hy : y ∈ s.seen) (hedge : y ∈ next x) : [x, y].Sublist s.left ∨ Reaches next y x := by
  by_cases hxy : x = y
  · exact .inr (hxy ▸ .refl)
  rcases pair_total hx hy hxy with hlater | hearlier
  · refine (pair_total (he.mem_left.mpr hx) (he.mem_left.mpr hy) hxy).imp_right (fun hleft => ?_)
    exact he.nested y x hlater hleft
  · exact .inl (h.inner x y hedge hearlier)

/-- What is reached from `x` through vertices entered later is left before `x`. -/
theorem left_within (h : Ordered next s) (he : Explored next vertices roots s)
    (hreach : Relation.ReflTransGen (fun u w => w ∈ next u ∧ (w = x ∨ [w, x].Sublist s.seen)) x d) :
    d = x ∨ ([d, x].Sublist s.seen ∧ [x, d].Sublist s.left) := by
  have hleft := he.left_nodup
  induction hreach with
  | refl => exact .inl rfl
  | @tail u w _ hedge ih =>
    obtain ⟨hw, rfl | hwx⟩ := hedge
    · exact .inl rfl
    refine .inr ⟨hwx, ?_⟩
    have hwleft : w ∈ s.left := he.mem_left.mpr (hwx.subset (by simp))
    have hxleft : x ∈ s.left := he.mem_left.mpr (hwx.subset (by simp))
    refine (pair_total hxleft hwleft (pair_ne he.nodup hwx).symm).resolve_right (fun hlate => ?_)
    rcases ih with rfl | ⟨hux, hxu⟩
    · exact pair_asymm hleft (h.inner u w hw hwx) hlate
    · have hne : w ≠ u := by
        rintro rfl
        exact pair_asymm hleft hxu hlate
      rcases pair_total (hwx.subset (by simp)) (hux.subset (by simp)) hne with hwu | huw
      · exact pair_asymm hleft (pair_trans hleft hxu (h.inner u w hw hwu)) hlate
      · exact pair_asymm hleft (h.beside x w u (pair_glue he.nodup huw hwx) hlate) hxu

/-- Something on the way is entered before all that follows. -/
theorem first_on_way (he : Explored next vertices roots s) (hx : x ∈ s.seen)
    (hin : ∀ u w, u ∈ s.seen → w ∈ next u → w ∈ s.seen) (hreach : Reaches next x d) :
    ∃ y, Reaches next x y ∧ (y = x ∨ [x, y].Sublist s.seen) ∧
      Relation.ReflTransGen (fun u w => w ∈ next u ∧ (w = y ∨ [w, y].Sublist s.seen)) y d ∧
      d ∈ s.seen := by
  induction hreach with
  | refl => exact ⟨x, .refl, .inl rfl, .refl, hx⟩
  | @tail u w hxu hw ih =>
    obtain ⟨y, hxy, hyx, hway, hu⟩ := ih
    have hwseen := hin u w hu hw
    have hyseen : y ∈ s.seen := hyx.elim (fun hyx => hyx ▸ hx) (fun hxy => hxy.subset (by simp))
    by_cases hwy : w = y
    · exact ⟨y, hxy, hyx, hway.tail ⟨hw, .inl hwy⟩, hwseen⟩
    rcases pair_total hwseen hyseen hwy with hlater | hearlier
    · exact ⟨y, hxy, hyx, hway.tail ⟨hw, .inr hlater⟩, hwseen⟩
    · refine ⟨w, hxu.tail hw, .inr ?_, .refl, hwseen⟩
      rcases hyx with rfl | hyx
      · exact hearlier
      · exact pair_trans he.nodup hyx hearlier

/-- Of the vertices that lead to each other, the one that is entered first is left after everything
that it leads to and that does not lead back. -/
theorem leaves_after (h : Ordered next s) (he : Explored next vertices roots s) (hx : x ∈ s.seen)
    (hin : ∀ u w, u ∈ s.seen → w ∈ next u → w ∈ s.seen)
    (hfirst : ∀ c, Reaches next x c → Reaches next c x → c = x ∨ [c, x].Sublist s.seen)
    (hreach : Reaches next x d) (hback : ¬Reaches next d x) : [x, d].Sublist s.left := by
  obtain ⟨y, hxy, hyx, hway, -⟩ := first_on_way he hx hin hreach
  have hd := left_within h he hway
  rcases hyx with rfl | hyx
  · rcases hd with rfl | hd
    · exact absurd .refl hback
    · exact hd.2
  have hleft := he.left_nodup
  have hyback : ¬Reaches next y x := fun hback' =>
    (hfirst y hxy hback').elim (fun heq => pair_ne he.nodup hyx heq.symm) (pair_asymm he.nodup hyx)
  have hmem : ∀ z ∈ [x, y], z ∈ s.left := fun z hz => he.mem_left.mpr (hyx.subset hz)
  have hleave : [x, y].Sublist s.left :=
    (pair_total (hmem x (by simp)) (hmem y (by simp)) (pair_ne he.nodup hyx)).resolve_right
      (fun hlate => hyback (he.nested y x hyx hlate))
  rcases hd with rfl | hd
  · exact hleave
  · exact pair_trans hleft hleave hd.2

end Ordered

end TypedSsa.Digraph

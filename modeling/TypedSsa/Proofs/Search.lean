import Mathlib.Logic.Relation
import TypedSsa.Digraph.Search

/-!
What a depth-first search finds, and in which order. Main statement: `searchFrom_explored`. It comes
to exactly the vertices that the roots reach; each that is no root has the source of an edge into it
entered before and left after it; and a vertex that is entered and left in between is reached.
-/

namespace TypedSsa.Digraph

variable {α : Type}

abbrev Reaches (next : α → List α) : α → α → Prop :=
  Relation.ReflTransGen (fun v w => w ∈ next v)

/-- The vertices that are still to be left, the next one first. -/
def opens : List (Step α) → List α
  | [] => []
  | .enter _ :: rest => opens rest
  | .leave v :: rest => v :: opens rest

@[simp] theorem opens_enters (vs : List α) (rest : List (Step α)) :
    opens (vs.map .enter ++ rest) = opens rest := by
  induction vs with
  | nil => rfl
  | cons v vs ih => exact ih

/-- Whatever waits to be entered is a root or the target of an open vertex, and edges lead to it
from everything that is open below it. -/
def Hung (next : α → List α) (roots : List α) : List (Step α) → Prop
  | [] => True
  | .enter v :: rest =>
    (v ∈ roots ∨ ∃ p ∈ opens rest, v ∈ next p) ∧
      (∀ a ∈ opens rest, Relation.TransGen (fun u w => w ∈ next u) a v) ∧ Hung next roots rest
  | .leave _ :: rest => Hung next roots rest

theorem hung_roots {next : α → List α} {roots : List α} {vs : List α} (h : ∀ v ∈ vs, v ∈ roots) :
    Hung next roots (vs.map .enter) := by
  induction vs with
  | nil => trivial
  | cons v vs ih =>
    have none : opens (vs.map Step.enter) = [] := (List.append_nil (vs.map Step.enter)) ▸
      opens_enters vs []
    exact ⟨.inl (h v (by simp)), by simp [none], ih (fun w hw => h w (by simp [hw]))⟩

theorem hung_push {next : α → List α} {roots : List α} {v : α} {rest : List (Step α)}
    (h : Hung next roots rest)
    (hv : ∀ a ∈ opens rest, Relation.TransGen (fun u w => w ∈ next u) a v) :
    Hung next roots ((next v).map .enter ++ .leave v :: rest) := by
  suffices ∀ ws : List α, (∀ w ∈ ws, w ∈ next v) →
      Hung next roots (ws.map .enter ++ .leave v :: rest) from this _ (fun _ hw => hw)
  intro ws
  induction ws with
  | nil => exact fun _ => h
  | cons w ws ih =>
    intro hws
    have hw := hws w (by simp)
    refine ⟨.inr ⟨v, by simp [opens], hw⟩, ?_, ih (fun x hx => hws x (by simp [hx]))⟩
    intro a ha
    change a ∈ opens (ws.map .enter ++ .leave v :: rest) at ha
    rw [opens_enters] at ha
    rcases List.mem_cons.mp ha with rfl | ha
    · exact .single hw
    · exact (hv a ha).tail hw

/-! Pairs in a list. -/

theorem mem_of_pair_sublist {a b : α} {xs ys : List α} (h : [a, b].Sublist (xs ++ b :: ys))
    (hn : (xs ++ b :: ys).Nodup) : a ∈ xs := by
  rw [List.nodup_append, List.nodup_cons] at hn
  obtain ⟨-, ⟨hys, -⟩, hdisjoint⟩ := hn
  have hxs : b ∉ xs := fun hb => hdisjoint b hb b (by simp) rfl
  obtain ⟨l, r, he, hl, hr⟩ := List.sublist_append_iff.mp h
  match l with
  | [] =>
    subst he
    cases hr with
    | cons _ hr => exact absurd (hr.subset (by simp)) hys
    | cons_cons _ hr => exact absurd (hr.subset (by simp)) hys
  | c :: l =>
    simp only [List.cons_append, List.cons.injEq] at he
    exact he.1 ▸ hl.subset (by simp)

theorem mem_of_sublist_pair {a b : α} {xs ys : List α} (h : [a, b].Sublist (xs ++ a :: ys))
    (hn : (xs ++ a :: ys).Nodup) : b ∈ ys := by
  have hreverse : [b, a].Sublist (ys.reverse ++ a :: xs.reverse) := by
    simpa using h.reverse
  have hnodup : (ys.reverse ++ a :: xs.reverse).Nodup := by
    simpa using (List.reverse_perm (xs ++ a :: ys)).nodup_iff.mpr hn
  simpa using mem_of_pair_sublist hreverse hnodup

theorem sublist_of_cons_of_ne {a b : α} {xs ys : List α} (h : (b :: xs).Sublist (a :: ys))
    (hne : b ≠ a) : (b :: xs).Sublist ys := by
  cases h with
  | cons _ h => exact h
  | cons_cons _ h => exact absurd rfl hne

theorem pair_sublist_erase {a b v : α} {xs ys : List α} (h : [a, b].Sublist (xs ++ v :: ys))
    (ha : a ≠ v) (hb : b ≠ v) : [a, b].Sublist (xs ++ ys) := by
  obtain ⟨l, r, he, hl, hr⟩ := List.sublist_append_iff.mp h
  have hr' : r.Sublist ys := by
    cases r with
    | nil => exact List.nil_sublist ys
    | cons c r =>
      have hc : c ∈ [a, b] := he ▸ List.mem_append_right l (by simp)
      refine sublist_of_cons_of_ne hr ?_
      rintro rfl
      simp only [List.mem_cons, List.not_mem_nil, or_false] at hc
      exact hc.elim (fun h => ha h.symm) (fun h => hb h.symm)
  exact he ▸ hl.append hr'

variable [DecidableEq α] [Hashable α]

/-- The order in which vertices are left, the last one first, if nothing more is entered. -/
def leaving (stack : List (Step α)) (s : Search α) : List α :=
  (opens stack).reverse ++ s.left

theorem leaving_enter {v : α} {vs : List α} {rest : List (Step α)} {s s' : Search α}
    (left : s'.left = s.left) : leaving (vs.map .enter ++ .leave v :: rest) s' =
      (opens rest).reverse ++ v :: s.left := by
  rw [leaving, opens_enters, opens, List.reverse_cons, left, List.append_assoc]
  rfl

theorem sublist_leaving_enter {v : α} {vs : List α} {rest : List (Step α)} {s s' : Search α}
    (left : s'.left = s.left) : (leaving (.enter v :: rest) s).Sublist
      (leaving (vs.map .enter ++ .leave v :: rest) s') := by
  rw [leaving_enter left]
  exact (List.sublist_cons_self v s.left).append_left _

/-- What holds while a search goes on. -/
structure Exploring (next : α → List α) (vertices roots : List α) (stack : List (Step α))
    (s : Search α) : Prop where
  unseen : ∀ v, v ∈ s.unseen ↔ v ∈ vertices ∧ v ∉ s.seen
  inside : ∀ v ∈ s.seen, v ∈ vertices
  nodup : s.seen.Nodup
  perm : (leaving stack s).Perm s.seen
  rooted : ∀ r ∈ roots, r ∈ vertices → r ∈ s.seen ∨ .enter r ∈ stack
  closed : ∀ v ∈ s.seen, ∀ w ∈ next v, w ∈ vertices → w ∈ s.seen ∨ .enter w ∈ stack
  hung : Hung next roots stack
  source : ∀ v ∈ s.seen, v ∈ roots ∨
    ∃ p, v ∈ next p ∧ [v, p].Sublist s.seen ∧ [p, v].Sublist (leaving stack s)
  nested : ∀ a b, [b, a].Sublist s.seen → [a, b].Sublist (leaving stack s) → Reaches next a b

namespace Exploring

variable {next : α → List α} {vertices roots : List α} {rest : List (Step α)} {s : Search α} {v : α}

theorem leave (h : Exploring next vertices roots (.leave v :: rest) s) :
    Exploring next vertices roots rest { s with path := s.path.erase v, left := v :: s.left } := by
  have same : leaving rest { s with path := s.path.erase v, left := v :: s.left } =
      leaving (.leave v :: rest) s := by
    simp [leaving, opens]
  exact {
    unseen := h.unseen
    inside := h.inside
    nodup := h.nodup
    perm := same ▸ h.perm
    rooted := fun r hr hin => by simpa using h.rooted r hr hin
    closed := fun w hw x hx hin => by simpa using h.closed w hw x hx hin
    hung := h.hung
    source := fun w hw => same ▸ h.source w hw
    nested := fun a b hab => same ▸ h.nested a b hab }

/-- A vertex that was entered before, or is none of the given ones, is passed over. -/
theorem pass {s' : Search α} (h : Exploring next vertices roots (.enter v :: rest) s)
    (hv : v ∉ s.unseen) (unseen : s'.unseen = s.unseen) (seen : s'.seen = s.seen)
    (left : s'.left = s.left) : Exploring next vertices roots rest s' := by
  have same : leaving rest s' = leaving (.enter v :: rest) s := by simp [leaving, opens, left]
  have passed : ∀ w, w ∈ vertices → w ∈ s.seen ∨ .enter w ∈ Step.enter v :: rest →
      w ∈ s.seen ∨ .enter w ∈ rest := by
    intro w hin hw
    rcases hw with hw | hw
    · exact .inl hw
    · rcases List.mem_cons.mp hw with hw | hw
      · cases hw
        left
        exact Classical.byContradiction (fun hn => hv ((h.unseen v).mpr ⟨hin, hn⟩))
      · exact .inr hw
  exact {
    unseen := unseen ▸ seen ▸ h.unseen
    inside := seen ▸ h.inside
    nodup := seen ▸ h.nodup
    perm := same ▸ seen ▸ h.perm
    rooted := fun r hr hin => seen ▸ passed r hin (h.rooted r hr hin)
    closed := fun w hw x hx hin => seen ▸ passed x hin (h.closed w (seen ▸ hw) x hx hin)
    hung := h.hung.2.2
    source := fun w hw => same ▸ seen ▸ h.source w (seen ▸ hw)
    nested := fun a b ha hb => h.nested a b (seen ▸ ha) (same ▸ hb) }

theorem enter {s' : Search α} (h : Exploring next vertices roots (.enter v :: rest) s)
    (hv : v ∈ s.unseen) (unseen : s'.unseen = s.unseen.erase v) (seen : s'.seen = v :: s.seen)
    (left : s'.left = s.left) :
    Exploring next vertices roots ((next v).map .enter ++ .leave v :: rest) s' := by
  have opened : leaving ((next v).map .enter ++ .leave v :: rest) s' =
      (opens rest).reverse ++ v :: s.left := leaving_enter left
  have old : leaving (.enter v :: rest) s = (opens rest).reverse ++ s.left := rfl
  have grown : (leaving (.enter v :: rest) s).Sublist
      (leaving ((next v).map .enter ++ .leave v :: rest) s') := sublist_leaving_enter left
  have openSeen : ∀ p ∈ opens rest, p ∈ s.seen := by
    intro p hp
    exact h.perm.subset (List.mem_append_left _ (by simpa [opens] using hp))
  have before : ∀ p ∈ opens rest, [p, v].Sublist
      (leaving ((next v).map .enter ++ .leave v :: rest) s') := by
    intro p hp
    rw [opened]
    exact (List.singleton_sublist.mpr (by simpa using hp)).append
      (List.singleton_sublist.mpr (by simp))
  have fresh : v ∉ s.seen := ((h.unseen v).mp hv).2
  have perm : (leaving ((next v).map .enter ++ .leave v :: rest) s').Perm s'.seen := by
    rw [opened, seen]
    exact List.perm_middle.trans (List.Perm.cons v h.perm)
  have still : ∀ w, w ∈ s.seen ∨ .enter w ∈ Step.enter v :: rest →
      w ∈ s'.seen ∨ .enter w ∈ (next v).map .enter ++ Step.leave v :: rest := by
    intro w hw
    rcases hw with hw | hw
    · left
      simp [seen, hw]
    · rcases List.mem_cons.mp hw with hw | hw
      · cases hw
        left
        simp [seen]
      · right
        simp [hw]
  exact {
    unseen := by
      intro w
      rw [unseen, seen, Std.HashSet.mem_erase, h.unseen w, List.mem_cons, beq_eq_false_iff_ne]
      constructor
      · rintro ⟨hne, hin, hw⟩
        exact ⟨hin, fun hw' => hw'.elim (fun he => hne he.symm) hw⟩
      · rintro ⟨hin, hw⟩
        exact ⟨fun he => hw (.inl he.symm), hin, fun hw' => hw (.inr hw')⟩
    inside := by
      rw [seen]
      exact List.forall_mem_cons.mpr ⟨((h.unseen v).mp hv).1, h.inside⟩
    nodup := seen ▸ List.nodup_cons.mpr ⟨fresh, h.nodup⟩
    perm := perm
    rooted := fun r hr hin => still r (h.rooted r hr hin)
    closed := by
      intro w hw x hx hin
      rw [seen] at hw
      rcases List.mem_cons.mp hw with rfl | hw
      · right
        exact List.mem_append_left _ (List.mem_map.mpr ⟨x, hx, rfl⟩)
      · exact still x (h.closed w hw x hx hin)
    hung := hung_push h.hung.2.2 h.hung.2.1
    source := by
      intro w hw
      rw [seen] at hw ⊢
      rcases List.mem_cons.mp hw with rfl | hw
      · rcases h.hung.1 with hroot | ⟨p, hp, hpw⟩
        · exact .inl hroot
        · exact .inr ⟨p, hpw, (List.singleton_sublist.mpr (openSeen p hp)).cons_cons w, before p hp⟩
      · rcases h.source w hw with hroot | ⟨p, hpw, hseen, hleaving⟩
        · exact .inl hroot
        · exact .inr ⟨p, hpw, hseen.cons v, hleaving.trans grown⟩
    nested := by
      intro a b hab hba
      rw [seen] at hab
      rw [opened] at hba
      by_cases hb : b = v
      · subst hb
        have hnodup : ((opens rest).reverse ++ b :: s.left).Nodup :=
          opened ▸ (perm.nodup_iff.mpr (seen ▸ List.nodup_cons.mpr ⟨fresh, h.nodup⟩))
        exact (h.hung.2.1 a (by simpa using mem_of_pair_sublist hba hnodup)).to_reflTransGen
      · have hab' := sublist_of_cons_of_ne hab hb
        have ha : a ≠ v := fun he => fresh (he ▸ hab'.subset (by simp))
        exact h.nested a b hab' (old ▸ pair_sublist_erase hba ha hb) }

end Exploring

theorem search_exploring {next : α → List α} {vertices roots : List α} {stack : List (Step α)}
    {s : Search α} (h : Exploring next vertices roots stack s) :
    Exploring next vertices roots [] (search next stack s) := by
  fun_induction search next stack s with
  | case1 s => exact h
  | case2 v rest s ih => exact ih h.leave
  | case3 v rest s hv ih => exact ih (h.enter hv rfl rfl rfl)
  | case4 v rest s hv hpath ih => exact ih (h.pass hv rfl rfl rfl)
  | case5 v rest s hv hpath ih => exact ih (h.pass hv rfl rfl rfl)

/-- What is known of a finished search. -/
structure Explored (next : α → List α) (vertices roots : List α) (s : Search α) : Prop where
  unseen : ∀ v, v ∈ s.unseen ↔ v ∈ vertices ∧ v ∉ s.seen
  perm : s.left.Perm s.seen
  nodup : s.seen.Nodup
  inside : ∀ v ∈ s.seen, v ∈ vertices
  rooted : ∀ r ∈ roots, r ∈ vertices → r ∈ s.seen
  closed : ∀ v ∈ s.seen, ∀ w ∈ next v, w ∈ vertices → w ∈ s.seen
  source : ∀ v ∈ s.seen, v ∈ roots ∨
    ∃ p, v ∈ next p ∧ [v, p].Sublist s.seen ∧ [p, v].Sublist s.left
  nested : ∀ a b, [b, a].Sublist s.seen → [a, b].Sublist s.left → Reaches next a b

theorem exploring_start {next : α → List α} {vertices roots : List α} {unseen : Std.HashSet α}
    (h : ∀ v, v ∈ unseen ↔ v ∈ vertices) :
    Exploring next vertices roots (roots.map .enter) { unseen := unseen } where
  unseen := by simpa using h
  inside := by simp
  nodup := by simp
  perm := by
    have := opens_enters roots ([] : List (Step α))
    simp only [List.append_nil] at this
    simp [leaving, this, opens]
  rooted := fun r hr _ => .inr (List.mem_map.mpr ⟨r, hr, rfl⟩)
  closed := by simp
  hung := hung_roots (fun _ hv => hv)
  source := by simp
  nested := by simp

/-- A search from some roots, whatever is still to be seen. -/
theorem search_explored {next : α → List α} {vertices roots : List α} {unseen : Std.HashSet α}
    (hunseen : ∀ v, v ∈ unseen ↔ v ∈ vertices) :
    Explored next vertices roots (search next (roots.map .enter) { unseen := unseen }) := by
  have start : Exploring next vertices roots (roots.map .enter) { unseen := unseen } :=
    exploring_start hunseen
  have h := search_exploring start
  exact {
    unseen := h.unseen
    perm := h.perm
    nodup := h.nodup
    inside := h.inside
    rooted := fun r hr hin => by simpa using h.rooted r hr hin
    closed := fun v hv w hw hin => by simpa using h.closed v hv w hw hin
    source := h.source
    nested := h.nested }

theorem searchFrom_explored (next : α → List α) (vertices roots : List α) :
    Explored next vertices roots (searchFrom vertices next roots) :=
  search_explored (by simp)

namespace Explored

variable {next : α → List α} {vertices roots : List α} {s : Search α}

theorem left_nodup (h : Explored next vertices roots s) : s.left.Nodup :=
  h.perm.nodup_iff.mpr h.nodup

theorem mem_left (h : Explored next vertices roots s) {v : α} : v ∈ s.left ↔ v ∈ s.seen :=
  h.perm.mem_iff

/-- A property of the roots that every edge carries on holds of whatever was entered. -/
theorem carried (h : Explored next vertices roots s) {P : α → Prop}
    (hroots : ∀ r ∈ roots, r ∈ s.seen → P r)
    (step : ∀ v w, w ∈ s.seen → w ∈ next v → P v → P w) : ∀ v ∈ s.seen, P v := by
  suffices ∀ vs, vs <:+ s.seen → ∀ v ∈ vs, P v from this _ List.suffix_rfl
  intro vs
  induction vs with
  | nil => simp
  | cons v vs ih =>
    intro hsuffix
    have later := ih ((List.suffix_cons v vs).trans hsuffix)
    refine List.forall_mem_cons.mpr ⟨?_, later⟩
    rcases h.source v (hsuffix.subset (by simp)) with hroot | ⟨p, hp, hseen, -⟩
    · exact hroots v hroot (hsuffix.subset (by simp))
    · obtain ⟨before, he⟩ := hsuffix
      have hv : v ∈ s.seen := he ▸ by simp
      rw [← he] at hseen
      exact step p v hv hp (later p (mem_of_sublist_pair hseen (he ▸ h.nodup)))

/-- What was entered is what the roots reach within the given vertices. -/
theorem mem_seen_within (h : Explored next vertices roots s) {v : α} :
    v ∈ s.seen ↔ ∃ r ∈ roots, r ∈ vertices ∧
      Relation.ReflTransGen (fun u w => w ∈ next u ∧ w ∈ vertices) r v := by
  constructor
  · refine h.carried (P := fun v => ∃ r ∈ roots, r ∈ vertices ∧
      Relation.ReflTransGen (fun u w => w ∈ next u ∧ w ∈ vertices) r v)
      (fun r hr hs => ⟨r, hr, h.inside r hs, .refl⟩) ?_ v
    rintro v w hs hw ⟨r, hr, hin, hreach⟩
    exact ⟨r, hr, hin, hreach.tail ⟨hw, h.inside w hs⟩⟩
  · rintro ⟨r, hr, hin, hreach⟩
    induction hreach with
    | refl => exact h.rooted r hr hin
    | tail _ hw ih => exact h.closed _ ih _ hw.1 hw.2

theorem mem_seen (h : Explored next vertices roots s) (hroots : ∀ r ∈ roots, r ∈ vertices)
    (hnext : ∀ v w, w ∈ next v → w ∈ vertices) {v : α} :
    v ∈ s.seen ↔ ∃ r ∈ roots, Reaches next r v := by
  rw [h.mem_seen_within]
  constructor
  · rintro ⟨r, hr, -, hreach⟩
    exact ⟨r, hr, Relation.ReflTransGen.mono (fun _ _ hw => hw.1) _ _ hreach⟩
  · rintro ⟨r, hr, hreach⟩
    exact ⟨r, hr, hroots r hr,
      Relation.ReflTransGen.mono (fun u w hw => ⟨hw, hnext u w hw⟩) _ _ hreach⟩

end Explored

end TypedSsa.Digraph

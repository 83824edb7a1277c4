import TypedSsa.Digraph.Components
import TypedSsa.Proofs.Finishing

/-!
Strongly connected components are what they should be. Main statements: `components_decompose`,
which other modules use, and `components_exact`. The lists partition the numbers below `n`, two
numbers are in one list just when each reaches the other, and whatever a list reaches stands in it
or before it.
-/

namespace TypedSsa.Digraph

variable {α : Type} [DecidableEq α] [Hashable α]

/-! Edges out of range. -/

/-- The edges between numbers below `n`. -/
def within (n : Nat) (next : Nat → List Nat) (v : Nat) : List Nat :=
  (next v).filter (· < n)

theorem mem_within {n v w : Nat} {next : Nat → List Nat} :
    w ∈ within n next v ↔ w ∈ next v ∧ w < n := by
  simp [within]

/-- The vertex of a step is kept, or the step enters none. -/
def Step.kept (keep : α → Bool) : Step α → Bool
  | .enter v => keep v
  | .leave _ => true

/-- A search passes over the vertices that are never to be seen, so they need not be looked at. -/
theorem search_filter {next : α → List α} {keep : α → Bool} {stack : List (Step α)} {s : Search α}
    (hunseen : ∀ v ∈ s.unseen, keep v = true) (hpath : ∀ v ∈ s.path, keep v = true) :
    search (fun v => (next v).filter keep) (stack.filter (Step.kept keep)) s =
      search next stack s := by
  fun_induction search next stack s with
  | case1 s => simp [search]
  | case2 v rest s ih =>
    rw [List.filter_cons_of_pos (by rfl), search]
    exact ih hunseen (fun w hw => hpath w (Std.HashSet.mem_of_mem_erase hw))
  | case3 v rest s hv ih =>
    have hk : Step.kept keep (.enter v) = true := hunseen v hv
    have hpush : ((next v).map Step.enter ++ Step.leave v :: rest).filter (Step.kept keep) =
        ((next v).filter keep).map Step.enter ++ Step.leave v :: rest.filter (Step.kept keep) := by
      rw [List.filter_append, List.filter_map, List.filter_cons_of_pos (by rfl)]
      rfl
    rw [List.filter_cons_of_pos hk, search, dif_pos hv, ← hpush]
    refine ih (fun w hw => hunseen w (Std.HashSet.mem_of_mem_erase hw)) (fun w hw => ?_)
    rcases Std.HashSet.mem_insert.mp hw with hw | hw
    · exact eq_of_beq hw ▸ hunseen v hv
    · exact hpath w hw
  | case4 v rest s hv hopen ih =>
    have hk : Step.kept keep (.enter v) = true := hpath v hopen
    rw [List.filter_cons_of_pos hk, search, dif_neg hv, if_pos hopen]
    exact ih hunseen hpath
  | case5 v rest s hv hopen ih =>
    by_cases hk : Step.kept keep (.enter v) = true
    · rw [List.filter_cons_of_pos hk, search, dif_neg hv, if_neg hopen]
      exact ih hunseen hpath
    · rw [List.filter_cons_of_neg hk]
      exact ih hunseen hpath

theorem reversePostorder_within (n : Nat) (next : Nat → List Nat) :
    reversePostorder (List.range n) (within n next) (List.range n) =
      reversePostorder (List.range n) next (List.range n) := by
  have hroots : ((List.range n).map Step.enter).filter (Step.kept (· < n)) =
      (List.range n).map .enter := by
    rw [List.filter_map, List.filter_eq_self.mpr]
    intro v hv
    simpa [Step.kept] using hv
  have h : search (within n next) (((List.range n).map Step.enter).filter (Step.kept (· < n)))
        { unseen := .ofList (List.range n) } =
      search next ((List.range n).map .enter) { unseen := .ofList (List.range n) } :=
    search_filter (by simp) (by simp)
  rw [hroots] at h
  exact congrArg Search.left h

/-! Edges backwards. -/

theorem mem_sources {vertices : List α} {next : α → List α} {v w : α} :
    v ∈ (sources vertices next).getD w [] ↔ v ∈ vertices ∧ w ∈ next v := by
  have inner : ∀ (u : α) (targets : List α) (m : Std.HashMap α (List α)),
      v ∈ (targets.foldl (fun m x => m.insert x (u :: m.getD x [])) m).getD w [] ↔
        (v = u ∧ w ∈ targets) ∨ v ∈ m.getD w [] := by
    intro u targets
    induction targets with
    | nil => simp
    | cons x targets ih =>
      intro m
      rw [List.foldl_cons, ih, Std.HashMap.getD_insert]
      by_cases hx : x = w
      · subst hx
        simp only [beq_self_eq_true, if_true, List.mem_cons, true_or, and_true]
        grind
      · have hw : w ≠ x := fun he => hx he.symm
        simp [hx, hw]
  suffices ∀ (m : Std.HashMap α (List α)),
      v ∈ (vertices.foldl (fun m u =>
        (next u).foldl (fun m x => m.insert x (u :: m.getD x [])) m) m).getD w [] ↔
        (v ∈ vertices ∧ w ∈ next v) ∨ v ∈ m.getD w [] by
    simpa [sources] using this {}
  induction vertices with
  | nil => simp
  | cons u vertices ih =>
    intro m
    rw [List.foldl_cons, ih, inner]
    by_cases hu : v = u
    · subst hu
      simp only [true_and, List.mem_cons, true_or]
      grind
    · simp [hu]

/-! Vertices that reach each other. -/

def Mutual (next : α → List α) (u v : α) : Prop :=
  Reaches next u v ∧ Reaches next v u

omit [DecidableEq α] [Hashable α] in
theorem Mutual.refl (next : α → List α) (v : α) : Mutual next v v :=
  ⟨.refl, .refl⟩

omit [DecidableEq α] [Hashable α] in
theorem Mutual.symm {next : α → List α} {u v : α} (h : Mutual next u v) : Mutual next v u :=
  ⟨h.2, h.1⟩

omit [DecidableEq α] [Hashable α] in
theorem Mutual.trans {next : α → List α} {u v w : α} (huv : Mutual next u v)
    (hvw : Mutual next v w) : Mutual next u w :=
  ⟨huv.1.trans hvw.1, hvw.2.trans huv.2⟩

theorem Reaches.below {n u v : Nat} {next : Nat → List Nat} (h : Reaches (within n next) u v)
    (hu : u < n) : v < n := by
  cases h with
  | refl => exact hu
  | tail _ hw => exact (mem_within.mp hw).2

omit [DecidableEq α] [Hashable α] in
/-- Of some entered vertices one was entered first. -/
theorem exists_first {seen : List α} {P : α → Prop} (h : ∃ v ∈ seen, P v) :
    ∃ x ∈ seen, P x ∧ ∀ c ∈ seen, P c → c = x ∨ [c, x].Sublist seen := by
  induction seen with
  | nil => simp at h
  | cons v seen ih =>
    by_cases hlater : ∃ v ∈ seen, P v
    · obtain ⟨x, hx, hPx, hfirst⟩ := ih hlater
      refine ⟨x, List.mem_cons_of_mem v hx, hPx, fun c hc hPc => ?_⟩
      rcases List.mem_cons.mp hc with rfl | hc
      · exact .inr ((List.singleton_sublist.mpr hx).cons_cons c)
      · exact (hfirst c hc hPc).imp_right (·.cons v)
    · obtain ⟨w, hw, hPw⟩ := h
      rcases List.mem_cons.mp hw with rfl | hw
      · refine ⟨w, by simp, hPw, fun c hc hPc => ?_⟩
        rcases List.mem_cons.mp hc with rfl | hc
        · exact .inl rfl
        · exact absurd ⟨c, hc, hPc⟩ hlater
      · exact absurd ⟨w, hw, hPw⟩ hlater

/-- One vertex of each class stands in reverse postorder before all that the class leads to. -/
theorem exists_leader {n v : Nat} (next : Nat → List Nat) (hv : v < n) :
    ∃ x, Mutual (within n next) v x ∧ ∀ d, Reaches (within n next) x d →
      ¬Reaches (within n next) d x →
      [x, d].Sublist (reversePostorder (List.range n) next (List.range n)) := by
  have he := searchFrom_explored (within n next) (List.range n) (List.range n)
  have hseen : ∀ u, u ∈ (searchFrom (List.range n) (within n next) (List.range n)).seen ↔ u < n :=
    fun u => ⟨fun hu => by simpa using he.inside u hu,
      fun hu => he.rooted u (by simpa using hu) (by simpa using hu)⟩
  obtain ⟨x, hx, hmutual, hfirst⟩ := exists_first
    (P := Mutual (within n next) v) ⟨v, (hseen v).mpr hv, .refl _ v⟩
  refine ⟨x, hmutual, fun d hd hback => ?_⟩
  rw [← reversePostorder_within]
  refine (searchFrom_ordered _ _ _).leaves_after he hx ?_ ?_ hd hback
  · exact fun u w _ hw => (hseen w).mpr (mem_within.mp hw).2
  · intro c hxc hcx
    exact hfirst c ((hseen c).mpr (hxc.below ((hseen x).mp hx))) (hmutual.trans ⟨hxc, hcx⟩)

/-! One component. -/

section

variable {n v : Nat} {next previous : Nat → List Nat} {left : Std.HashSet Nat}

/-- Of what reaches a vertex, the part that it reaches. The class of the vertex has to be left as a
whole. -/
theorem mem_class (hleft : ∀ u ∈ left, u < n)
    (hprevious : ∀ u w, u < n → (u ∈ previous w ↔ w ∈ next u))
    (hclass : ∀ u, Mutual (within n next) v u → u ∈ left) (u : Nat) :
    u ∈ (search next [.enter v]
        { unseen := .ofList (search previous [.enter v] { unseen := left }).seen }).seen ↔
      Mutual (within n next) v u := by
  have hbefore : Explored previous left.toList [v]
      (search previous [.enter v] { unseen := left }) :=
    search_explored (by simp)
  generalize search previous [.enter v] { unseen := left } = before at hbefore ⊢
  have hboth : Explored next before.seen [v]
      (search next [.enter v] { unseen := .ofList before.seen }) := search_explored (by simp)
  generalize search next [.enter v] { unseen := .ofList before.seen } = both at hboth ⊢
  have hv : v ∈ left := hclass v (.refl _ v)
  have seenLeft : ∀ w ∈ before.seen, w ∈ left := fun w hw => by simpa using hbefore.inside w hw
  have back : ∀ w ∈ before.seen, w < n ∧ Reaches (within n next) w v := by
    refine hbefore.carried (P := fun w => w < n ∧ Reaches (within n next) w v) ?_ ?_
    · rintro r hr -
      rw [List.mem_singleton.mp hr]
      exact ⟨hleft v hv, .refl⟩
    · rintro u w hw hwu ⟨hu, hreach⟩
      have hwn := hleft w (seenLeft w hw)
      exact ⟨hwn, .head (mem_within.mpr ⟨(hprevious w u hwn).mp hwu, hu⟩) hreach⟩
  have classSeen : ∀ w, Mutual (within n next) v w → w ∈ before.seen := by
    rintro w ⟨hvw, hwv⟩
    induction hwv using Relation.ReflTransGen.head_induction_on with
    | refl => exact hbefore.rooted v (by simp) (by simpa using hv)
    | @head w x hx hxv ih =>
      have hw := hclass w ⟨hvw, .head hx hxv⟩
      exact hbefore.closed x (ih (hvw.tail hx)) w
        ((hprevious w x (hleft w hw)).mpr (mem_within.mp hx).1)
        (by simpa using hw)
  constructor
  · intro hu
    have forth : ∀ w ∈ both.seen, Reaches (within n next) v w := by
      refine hboth.carried ?_ (fun w x hx hxw hreach => ?_)
      · rintro r hr -
        rw [List.mem_singleton.mp hr]
      · exact hreach.tail (mem_within.mpr ⟨hxw, (back x (hboth.inside x hx)).1⟩)
    exact ⟨forth u hu, (back u (hboth.inside u hu)).2⟩
  · rintro ⟨hvu, huv⟩
    induction hvu with
    | refl => exact hboth.rooted v (by simp) (classSeen v (.refl _ v))
    | @tail w u hvw hu ih =>
      exact hboth.closed w (ih (.head hu huv)) u (mem_within.mp hu).1
        (classSeen u ⟨hvw.tail hu, huv⟩)

/-- A list of the vertices that reach each other, in ascending order. -/
structure IsClass (n : Nat) (next : Nat → List Nat) (c : List Nat) : Prop where
  sorted : c.Pairwise (· < ·)
  nonempty : c ≠ []
  below : ∀ v ∈ c, v < n
  members : ∀ v ∈ c, ∀ u, u ∈ c ↔ Mutual (within n next) v u

theorem IsClass.nodup {c : List Nat} (h : IsClass n next c) : c.Nodup :=
  h.sorted.imp Nat.ne_of_lt

/-- Just the classes with an edge within lie on a cycle. -/
theorem IsClass.cycle_iff {c : List Nat} (h : IsClass n next c) :
    (1 < c.length ∨ ∃ v ∈ c, ∃ w ∈ next v, w ∈ c) ↔
      ∃ v ∈ c, Relation.TransGen (fun v w => w ∈ within n next v) v v := by
  constructor
  · rintro (hlength | ⟨v, hv, w, hw, hwc⟩)
    · obtain ⟨u, v, rest, rfl⟩ : ∃ u v rest, c = u :: v :: rest := by
        match c, hlength with
        | u :: v :: rest, _ => exact ⟨u, v, rest, rfl⟩
      have hne : u ≠ v := (List.nodup_cons.mp h.nodup).1 ∘ fun he => he ▸ by simp
      have hmutual := (h.members u (by simp) v).mp (by simp)
      refine ⟨u, by simp, ?_⟩
      have hstep := (Relation.reflTransGen_iff_eq_or_transGen.mp hmutual.1).resolve_left hne.symm
      exact hstep.trans_left hmutual.2
    · have hback := ((h.members v hv w).mp hwc).2
      exact ⟨v, hv, .head' (mem_within.mpr ⟨hw, h.below w hwc⟩) hback⟩
  · rintro ⟨v, hv, hcycle⟩
    obtain ⟨w, hw, hback⟩ := Relation.TransGen.head'_iff.mp hcycle
    exact .inr ⟨v, hv, w, (mem_within.mp hw).1, (h.members v hv w).mpr ⟨.single hw, hback⟩⟩

theorem split_class (found : List (List Nat)) (hleft : ∀ u ∈ left, u < n) (hv : v ∈ left)
    (hprevious : ∀ u w, u < n → (u ∈ previous w ↔ w ∈ next u))
    (hclass : ∀ u, Mutual (within n next) v u → u ∈ left) :
    ∃ c left', Split.step next previous ⟨found, left⟩ v = ⟨c :: found, left'⟩ ∧
      IsClass n next c ∧ v ∈ c ∧ ∀ u, u ∈ left' ↔ u ∈ left ∧ u ∉ c := by
  have hmem := mem_class hleft hprevious hclass
  have hbefore : Explored previous left.toList [v]
      (search previous [.enter v] { unseen := left }) :=
    search_explored (by simp)
  refine ⟨_, _, if_pos hv, ?_⟩
  generalize search previous [.enter v] { unseen := left } = before at hmem hbefore ⊢
  have hboth : Explored next before.seen [v]
      (search next [.enter v] { unseen := .ofList before.seen }) := search_explored (by simp)
  generalize search next [.enter v] { unseen := .ofList before.seen } = both at hmem hboth ⊢
  have hsorted : ∀ u, u ∈ both.seen.mergeSort ↔ Mutual (within n next) v u := fun u => by
    rw [List.mem_mergeSort, hmem]
  have hvc := (hsorted v).mpr (.refl _ v)
  refine ⟨⟨?_, List.ne_nil_of_mem hvc, ?_, ?_⟩, hvc, ?_⟩
  · have hnodup : both.seen.mergeSort.Nodup :=
      (List.mergeSort_perm both.seen _).nodup_iff.mpr hboth.nodup
    have hle : both.seen.mergeSort.Pairwise (fun a b => decide (a ≤ b) = true) :=
      List.pairwise_mergeSort (by simpa using fun a b c => Nat.le_trans)
        (by simpa using Nat.le_total) _
    refine (hle.and hnodup).imp (fun h => ?_)
    exact Nat.lt_of_le_of_ne (of_decide_eq_true h.1) h.2
  · intro u hu
    exact hleft u (hclass u ((hsorted u).mp hu))
  · intro w hw u
    have hvw := (hsorted w).mp hw
    rw [hsorted]
    exact ⟨hvw.symm.trans, hvw.trans⟩
  · intro u
    rw [Std.HashSet.mem_insertMany_list]
    simp only [List.contains_iff_mem, Std.HashSet.mem_toList, List.mem_mergeSort]
    rw [hbefore.unseen, hboth.unseen, Std.HashSet.mem_toList]
    constructor
    · rintro (⟨hu, hout⟩ | ⟨hu, hout⟩)
      · exact ⟨hu, fun hs => hout (hboth.inside u hs)⟩
      · exact ⟨by simpa using hbefore.inside u hu, hout⟩
    · rintro ⟨hu, hout⟩
      by_cases hs : u ∈ before.seen
      · exact .inr ⟨hs, hout⟩
      · exact .inl ⟨hu, hs⟩

end

/-! All components. -/

/-- What holds when the components of some vertices were split off. -/
structure Splitting (n : Nat) (next : Nat → List Nat) (past : List Nat) (s : Split) : Prop where
  left : ∀ v, v ∈ s.left ↔ v < n ∧ v ∉ s.found.flatten
  classes : ∀ c ∈ s.found, IsClass n next c
  nodup : s.found.flatten.Nodup
  covered : ∀ v ∈ past, v ∈ s.found.flatten
  /-- A component was found by one of its vertices. -/
  finder : ∀ c ∈ s.found, ∃ v ∈ past, v ∈ c
  order : s.found.Pairwise (fun c d => ∀ u ∈ c, ∀ v ∈ d, ¬Reaches (within n next) u v)

namespace Splitting

variable {n v : Nat} {next previous : Nat → List Nat} {past rest : List Nat} {s : Split}

theorem start (n : Nat) (next : Nat → List Nat) :
    Splitting n next [] { left := .ofList (List.range n) } where
  left := by simp
  classes := by simp
  nodup := by simp
  covered := by simp
  finder := by simp
  order := .nil

/-- The class of a vertex that is left is left. -/
theorem whole (h : Splitting n next past s) {u : Nat} (hv : v ∈ s.left)
    (hu : Mutual (within n next) v u) : u ∈ s.left := by
  obtain ⟨hvn, hfresh⟩ := (h.left v).mp hv
  refine (h.left u).mpr ⟨hu.1.below hvn, fun hfound => hfresh ?_⟩
  obtain ⟨c, hc, huc⟩ := List.mem_flatten.mp hfound
  exact List.mem_flatten.mpr ⟨c, hc, ((h.classes c hc).members u huc v).mpr hu.symm⟩

/-- A component that was found before does not reach what is left. -/
theorem not_reaches (h : Splitting n next past s)
    (horder : reversePostorder (List.range n) next (List.range n) = past ++ v :: rest)
    (hnodup : (past ++ v :: rest).Nodup) (hv : v ∈ s.left) {d : List Nat} (hd : d ∈ s.found)
    {w : Nat} (hw : w ∈ d) : ¬Reaches (within n next) v w := by
  intro hreach
  obtain ⟨x, hx, hlead⟩ := exists_leader next ((h.left v).mp hv).1
  have hxleft := h.whole hv hx
  obtain ⟨f, hf, hfd⟩ := h.finder d hd
  have hwf := ((h.classes d hd).members w hw f).mp hfd
  have hxf : Reaches (within n next) x f := hx.2.trans (hreach.trans hwf.1)
  have hback : ¬Reaches (within n next) f x := by
    intro hfx
    have hxd := ((h.classes d hd).members f hfd x).mpr ⟨hfx, hxf⟩
    exact ((h.left x).mp hxleft).2 (List.mem_flatten.mpr ⟨d, hd, hxd⟩)
  have hbefore := hlead f hxf hback
  -- the leader of the class would have been met by now
  obtain ⟨l, r, hsplit⟩ := List.append_of_mem hf
  rw [horder, hsplit, List.append_assoc, List.cons_append] at hbefore
  rw [hsplit, List.append_assoc, List.cons_append] at hnodup
  have hxpast : x ∈ past := by
    rw [hsplit]
    exact List.mem_append_left _ (mem_of_pair_sublist hbefore hnodup)
  exact ((h.left x).mp hxleft).2 (h.covered x hxpast)

theorem step (h : Splitting n next past s)
    (hprevious : ∀ u w, u < n → (u ∈ previous w ↔ w ∈ next u))
    (horder : reversePostorder (List.range n) next (List.range n) = past ++ v :: rest)
    (hnodup : (past ++ v :: rest).Nodup) (hv : v < n) :
    Splitting n next (past ++ [v]) (s.step next previous v) := by
  by_cases hleft : v ∈ s.left
  case neg =>
    have hfound : v ∈ s.found.flatten := by
      rw [h.left v] at hleft
      exact Classical.byContradiction (fun hn => hleft ⟨hv, hn⟩)
    have hsame : s.step next previous v = s := if_neg hleft
    rw [hsame]
    refine { h with covered := ?_, finder := ?_ }
    · exact List.forall_mem_append.mpr ⟨h.covered, by simpa using List.mem_flatten.mp hfound⟩
    · intro c hc
      obtain ⟨w, hw, hwc⟩ := h.finder c hc
      exact ⟨w, List.mem_append_left _ hw, hwc⟩
  obtain ⟨c, left', hstep, hc, hvc, hleft'⟩ := split_class s.found
    (fun u hu => ((h.left u).mp hu).1) hleft hprevious (fun u => h.whole hleft)
  have hcleft : ∀ u ∈ c, u ∈ s.left := fun u hu => h.whole hleft ((hc.members v hvc u).mp hu)
  change Splitting n next (past ++ [v]) (Split.step next previous ⟨s.found, s.left⟩ v)
  rw [hstep]
  exact {
    left := by
      intro u
      rw [hleft', h.left, List.flatten_cons, List.mem_append, not_or, and_assoc]
      exact and_congr_right fun _ => and_comm
    classes := List.forall_mem_cons.mpr ⟨hc, h.classes⟩
    nodup := by
      rw [List.flatten_cons]
      refine List.nodup_append.mpr ⟨hc.nodup, h.nodup, fun u hu w hw => ?_⟩
      rintro rfl
      exact ((h.left u).mp (hcleft u hu)).2 hw
    covered := by
      intro u hu
      rw [List.flatten_cons, List.mem_append]
      rcases List.mem_append.mp hu with hu | hu
      · exact .inr (h.covered u hu)
      · exact .inl (List.mem_singleton.mp hu ▸ hvc)
    finder := by
      refine List.forall_mem_cons.mpr ⟨⟨v, by simp, hvc⟩, fun d hd => ?_⟩
      obtain ⟨w, hw, hwd⟩ := h.finder d hd
      exact ⟨w, List.mem_append_left _ hw, hwd⟩
    order := by
      refine List.pairwise_cons.mpr ⟨fun d hd u hu w hw hreach => ?_, h.order⟩
      have hvu := (hc.members v hvc u).mp hu
      exact h.not_reaches horder hnodup hleft hd hw (hvu.1.trans hreach) }

end Splitting

/-! Reverse postorder of the numbers below `n`, from all of them. -/

theorem mem_reversePostorder_range (n : Nat) (next : Nat → List Nat) {v : Nat} :
    v ∈ reversePostorder (List.range n) next (List.range n) ↔ v < n := by
  have he := searchFrom_explored next (List.range n) (List.range n)
  rw [reversePostorder, he.mem_left]
  exact ⟨fun hv => by simpa using he.inside v hv,
    fun hv => he.rooted v (by simpa using hv) (by simpa using hv)⟩

theorem nodup_reversePostorder_range (n : Nat) (next : Nat → List Nat) :
    (reversePostorder (List.range n) next (List.range n)).Nodup :=
  (searchFrom_explored next (List.range n) (List.range n)).left_nodup

theorem mem_sources_range {n : Nat} {next : Nat → List Nat} (u w : Nat) (hu : u < n) :
    u ∈ (sources (List.range n) next).getD w [] ↔ w ∈ next u := by
  rw [mem_sources, List.mem_range]
  exact and_iff_right hu

/-- Lists that partition the numbers below `n` into strongly connected components. Whatever a list
reaches stands in it or before it. -/
structure Decomposes (n : Nat) (next : Nat → List Nat) (cs : List (List Nat)) : Prop where
  covered : ∀ v, v ∈ cs.flatten ↔ v < n
  nodup : cs.flatten.Nodup
  classes : ∀ c ∈ cs, IsClass n next c
  order : cs.Pairwise (fun c d => ∀ u ∈ c, ∀ v ∈ d, ¬Reaches (within n next) u v)

theorem components_decompose (n : Nat) (next : Nat → List Nat) :
    Decomposes n next (components n next) := by
  have hnodup := nodup_reversePostorder_range n next
  have hrun : ∀ (rest past : List Nat) (s : Split), Splitting n next past s →
      reversePostorder (List.range n) next (List.range n) = past ++ rest →
      Splitting n next (past ++ rest)
        (rest.foldl (Split.step next ((sources (List.range n) next).getD · [])) s) := by
    intro rest
    induction rest with
    | nil => simpa using fun past s h _ => h
    | cons v rest ih =>
      intro past s h hsplit
      have hstep := h.step mem_sources_range hsplit (hsplit ▸ hnodup)
        ((mem_reversePostorder_range n next).mp (by simp [hsplit]))
      simpa using ih (past ++ [v]) _ hstep (by simpa using hsplit)
  have h := hrun _ [] _ (.start n next) rfl
  refine ⟨fun v => ⟨fun hv => ?_, fun hv => ?_⟩, h.nodup, h.classes, h.order⟩
  · obtain ⟨c, hc, hvc⟩ := List.mem_flatten.mp hv
    exact (h.classes c hc).below v hvc
  · exact h.covered v (((mem_reversePostorder_range n next).mpr hv))

end TypedSsa.Digraph

import Mathlib.Data.List.Range
import Mathlib.Data.List.Perm.Subperm
import TypedSsa.Proofs.Search

/-!
Walks from a root, and the vertices that every walk to a vertex passes through.
-/

namespace TypedSsa.Digraph

variable {α : Type} {edge : α → α → Prop} {root : α}

/-- A walk along the edges, the vertex it ends at first. -/
inductive Walk (edge : α → α → Prop) (root : α) : List α → Prop
  | start : Walk edge root [root]
  | step {v w : α} {before : List α} : Walk edge root (v :: before) → edge v w →
      Walk edge root (w :: v :: before)

/-- Every walk to `b` passes through `a`. -/
def Dominates (edge : α → α → Prop) (root a b : α) : Prop :=
  ∀ before, Walk edge root (b :: before) → a ∈ b :: before

namespace Walk

theorem start_of_mem {a : α} {path : List α} (h : Walk edge root path) (ha : a ∈ path) :
    ∃ later before, path = later ++ a :: before ∧ Walk edge root (a :: before) := by
  induction h with
  | start =>
    rw [List.mem_singleton] at ha
    exact ⟨[], [], by rw [ha]; rfl, ha ▸ .start⟩
  | step h hedge ih =>
    rcases List.mem_cons.mp ha with rfl | ha
    · exact ⟨[], _, rfl, h.step hedge⟩
    · obtain ⟨later, before, he, hwalk⟩ := ih ha
      exact ⟨_ :: later, before, by rw [he]; rfl, hwalk⟩

theorem tail {b : α} {before : List α} (h : Walk edge root (b :: before)) (hne : before ≠ []) :
    Walk edge root before := by
  cases h with
  | start => exact absurd rfl hne
  | step h _ => exact h

theorem root_mem {path : List α} (h : Walk edge root path) : root ∈ path := by
  induction h with
  | start => exact List.mem_singleton_self root
  | step _ _ ih => exact List.mem_cons_of_mem _ ih

theorem reaches {next : α → List α} {b : α} {before : List α}
    (h : Walk (fun v w => w ∈ next v) root (b :: before)) : Reaches next root b := by
  generalize he : b :: before = path at h
  induction h generalizing b before with
  | start =>
    cases he
    exact .refl
  | step _ hedge ih =>
    cases he
    exact (ih rfl).tail hedge

theorem of_reaches {next : α → List α} {b : α} (h : Reaches next root b) :
    ∃ before, Walk (fun v w => w ∈ next v) root (b :: before) := by
  induction h with
  | refl => exact ⟨[], .start⟩
  | tail _ hedge ih =>
    obtain ⟨before, hwalk⟩ := ih
    exact ⟨_, hwalk.step hedge⟩

/-- The last part of a walk may follow another walk. -/
theorem regraft {root' v : α} {later earlier before : List α}
    (h : Walk edge root (later ++ v :: earlier)) (h' : Walk edge root' (v :: before)) :
    Walk edge root' (later ++ v :: before) := by
  induction later with
  | nil => exact h'
  | cons w later ih =>
    cases later with
    | nil =>
      cases h with
      | step _ hedge => exact h'.step hedge
    | cons u later =>
      cases h with
      | step h hedge => exact (ih h).step hedge

/-- What is met on a walk is met on one that comes to no vertex twice. -/
theorem simple {b : α} {before : List α} (h : Walk edge root (b :: before)) :
    ∃ before', Walk edge root (b :: before') ∧ (b :: before').Nodup ∧ before' ⊆ before := by
  generalize he : b :: before = path at h
  induction h generalizing b before with
  | start =>
    cases he
    exact ⟨[], .start, by simp, List.nil_subset _⟩
  | @step v w rest h hedge ih =>
    cases he
    obtain ⟨before', hwalk, hnodup, hsubset⟩ := ih rfl
    by_cases hb : w ∈ v :: before'
    · obtain ⟨later, earlier, hsplit, hshort⟩ := hwalk.start_of_mem hb
      refine ⟨earlier, hshort, ?_, ?_⟩
      · rw [hsplit] at hnodup
        exact (List.nodup_append.mp hnodup).2.1
      · intro x hx
        have : x ∈ v :: before' := by
          rw [hsplit]
          simp [hx]
        exact List.cons_subset_cons v hsubset this
    · exact ⟨v :: before', hwalk.step hedge, List.nodup_cons.mpr ⟨hb, hnodup⟩,
        List.cons_subset_cons v hsubset⟩

end Walk

namespace Dominates

theorem trans {a b c : α} (hab : Dominates edge root a b) (hbc : Dominates edge root b c) :
    Dominates edge root a c := by
  intro before h
  obtain ⟨later, earlier, he, hwalk⟩ := h.start_of_mem (hbc before h)
  rw [he]
  exact List.mem_append_right _ (hab earlier hwalk)

/-- A strict dominator dominates each vertex that an edge leads from. -/
theorem of_edge {a v b : α} (h : Dominates edge root a b) (hne : a ≠ b) (hedge : edge v b) :
    Dominates edge root a v := by
  intro before hwalk
  exact (List.mem_cons.mp (h _ (hwalk.step hedge))).resolve_left hne

end Dominates

end TypedSsa.Digraph

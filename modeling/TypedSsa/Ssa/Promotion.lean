import TypedSsa.Ssa.Form
import TypedSsa.Ty.Lattice

/-!
Phis whose operands all have known types take the join of these types. An operand of another type
is promoted at the end of its block. A phi that gets its type so may settle the next one, and the
passes go on until one changes nothing.
-/

namespace TypedSsa

structure PromotionReport where
  inserted : List DefId := []
  /-- Joins that a fallback made up for. -/
  warnings : List Fault := []
  errors : List Fault := []
  passes : Nat := 0
deriving DecidableEq, Repr

namespace SsaForm

def declaredOf? (f : SsaForm) (use : UseId) : Option Ty :=
  (f.definitionOf? use).bind (·.declared)

/-- The types of a phi's operands, once all are known. -/
def incomingTypes? (f : SsaForm) (phi : DefId) : Option (List Ty) :=
  (f.incoming? phi).bind (fun incoming => incoming.mapM f.declaredOf?)

/-- Promotes the operand in one slot: the phi now reads the promotion, and the promotion reads what
the phi did. -/
def promoteSlot (f : SsaForm) (phi : DefId) (slot : Nat) (source : UseId) (target : Ty) :
    Option (DefId × SsaForm) := do
  let old ← f.use? source
  match old.site with
  | .phiIncoming _ predecessor =>
    let (id, f) := f.addDef old.name predecessor (.promotion source phi) target
    let f := f.updateUse source (fun u => { u with site := .promotion id })
    let f := (f.record predecessor (.use source)).record predecessor (.define id)
    let (fresh, f) := f.addUse old.name predecessor (.phiIncoming phi predecessor) id
    some (id, f.setIncoming phi slot fresh)
  | _ => none

/-- The state of a pass. -/
structure Promoting where
  form : SsaForm
  report : PromotionReport := {}
  failed : List DefId := []
  changed : Bool := false

def promoteOperand (phi : DefId) (target : Ty) (s : Promoting) (operand : (UseId × Ty) × Nat) :
    Promoting :=
  let ((source, ty), slot) := operand
  if ty = target then s
  else
    match s.form.promoteSlot phi slot source target with
    | some (id, form) =>
      { s with form, report := { s.report with inserted := s.report.inserted ++ [id] } }
    | none => s

def typePhi (phi : DefId) (types : List Ty) (target : Ty) (s : Promoting) : Promoting :=
  let incoming := (s.form.incoming? phi).getD []
  let s := (incoming.zip types).zipIdx.foldl (promoteOperand phi target) s
  { s with
    form := s.form.updateDef phi (fun d => { d with declared := some target })
    changed := true }

def promotePhi (l : Lattice) (s : Promoting) (phi : DefId) : Promoting :=
  match s.form.incomingTypes? phi with
  | none => s
  | some types =>
    match l.joinAll types with
    | .ok none => s
    | .ok (some (.joined ty)) => typePhi phi types ty s
    | .ok (some (.fallback ty cause)) =>
      typePhi phi types ty
        { s with report := { s.report with warnings := s.report.warnings ++ [cause] } }
    | .error e =>
      { s with
        report := { s.report with errors := s.report.errors ++ [e] }
        failed := phi :: s.failed }

/-- The phis that still have no type. -/
def pending (s : Promoting) : List DefId :=
  (s.form.phis.filter (fun d => d.declared.isNone && !s.failed.contains d.id)).map (·.id)

def promotionPass (l : Lattice) (s : Promoting) : Promoting :=
  (pending s).foldl (promotePhi l)
    { s with report := { s.report with passes := s.report.passes + 1 }, changed := false }

def promotionPasses (l : Lattice) : Nat → Promoting → Promoting
  | 0, s => s
  | fuel + 1, s =>
    let s := promotionPass l s
    if s.changed then promotionPasses l fuel s else s

/-- Every pass but the last gives some phi its type. -/
def promote (f : SsaForm) (l : Lattice) : SsaForm × PromotionReport :=
  let s := promotionPasses l (f.phis.length + 1) { form := f }
  (s.form, s.report)

end SsaForm

end TypedSsa

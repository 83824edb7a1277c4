import TypedSsa.Ssa.Form

/-!
The check of a finished form against its graph: each phi has an operand for every predecessor, and
each definition dominates its reads.
-/

namespace TypedSsa.SsaForm

def fail (f : SsaForm) (block : BlockId) (reason : String) : Except Fault Unit :=
  .error (.malformedGraph f.function block reason)

/-- Whether a read is the operand of a phi for one predecessor. -/
def isOperand (f : SsaForm) (phi : DefId) (predecessor : BlockId) (id : UseId) : Bool :=
  match f.use? id with
  | some u => u.site == .phiIncoming phi predecessor
  | none => false

def verifyPhi (f : SsaForm) (x : BlockIndex) (d : Def) : Except Fault Unit :=
  match d.kind with
  | .phi incoming =>
    let predecessors := x.predecessors d.block
    if incoming.length ≠ predecessors.length then
      f.fail d.block (Reason.phiArity d.id incoming.length predecessors.length)
    else if (incoming.zip predecessors).all (fun (use, p) => f.isOperand d.id p use) then .ok ()
    else f.fail d.block (Reason.phiOrder d.id)
  | _ => .ok ()

/-- The block at whose end, or in which, a read takes place. -/
def placeOf (u : Use) : BlockId :=
  match u.site with
  | .phiIncoming _ predecessor => predecessor
  | _ => u.block

def verifyUse (f : SsaForm) (t : DominatorTree) (u : Use) : Except Fault Unit :=
  match f.definition? u.definition with
  | none => f.fail u.block (Reason.useOfMissing u.id u.definition)
  | some d =>
    if !t.isReachable d.block then f.fail d.block (Reason.useOfUnreachable u.id d.id)
    else if t.dominates d.block (placeOf u) then .ok ()
    else f.fail u.block (Reason.notDominating d.id d.block u.id)

def verify (f : SsaForm) (g : FlowGraph) : Except Fault Unit := do
  match g.dominance with
  | none => .error (.malformedGraph f.function none Reason.dominanceNotComputed)
  | some t =>
    f.defs.forM (f.verifyPhi g.index)
    f.uses.forM (f.verifyUse t)

end TypedSsa.SsaForm

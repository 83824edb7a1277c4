import TypedSsa.Program.Table
import TypedSsa.Proofs.Dominance
import TypedSsa.Proofs.Enriching
import TypedSsa.Proofs.Rebuilding

/-!
A finished form passes every check that it is put to when it is read from its table. Main statement:
`Intact.ofTable`. Promotion and binding keep that each read is dominated by its definition, that
the slots of phis are those of the predecessors, and that events are of what there is.
-/

namespace TypedSsa.SsaForm
open FlowGraph

variable {g : FlowGraph} {f f' : SsaForm} {phi : Def} {slot : Nat} {source : UseId} {read : Use}
  {p : BlockId} {target : Ty}

/-- Reads take place where their definitions dominate, and promotions have reads. -/
structure Supplied (g : FlowGraph) (f : SsaForm) : Prop where
  uses : ∀ i u, f.use? i = some u →
    ∃ d, f.definition? u.definition = some d ∧ g.Dominates d.block (placeOf u)
  promotions : ∀ i d source phi, f.definition? i = some d → d.kind = .promotion source phi →
    ∃ u, f.use? source = some u

namespace Supplied

theorem inserted {entry : BlockId} (h : Supplied g f) (hrecorded : Recorded entry f)
    (hopen : f.Open phi slot source read p) (hin : Inserted phi slot source read p target f f') :
    Supplied g f' := by
  have hf := hrecorded.numbered
  have hkept : ∀ i d, f.definition? i = some d →
      ∃ d', f'.definition? i = some d' ∧ d'.block = d.block := by
    intro i d hd
    obtain ⟨kind, hd', -⟩ := hin.kept hf hd
    exact ⟨_, hd', rfl⟩
  refine ⟨fun i u' hu' => ?_, fun i d' source' phi' hd' hkind => ?_⟩
  · rcases hin.use?_cases hu' with ⟨u, hu, ⟨-, rfl⟩ | ⟨rfl, rfl⟩⟩ | ⟨-, rfl⟩
    · obtain ⟨d, hd, hdom⟩ := h.uses i u' hu
      obtain ⟨d', hd', hblock⟩ := hkept _ d hd
      exact ⟨d', hd', hblock ▸ hdom⟩
    · -- The read that the promotion takes over was at the end of the promotion's block.
      obtain rfl := Option.some.inj (hu.symm.trans hopen.used)
      obtain ⟨d, hd, hdom⟩ := h.uses i u hu
      obtain ⟨d', hd', hblock⟩ := hkept _ d hd
      refine ⟨d', hd', ?_⟩
      have hplace : u.block = p := hrecorded.operand i u _ p hu hopen.site
      rw [placeOf, hopen.site] at hdom
      rw [hblock, placeOf, hplace]
      exact hdom
    · obtain ⟨d, hd, hdom⟩ := h.uses source read hopen.used
      rw [placeOf, hopen.site] at hdom
      exact ⟨_, hin.added, hdom.2.1, hdom.2.1, fun before _ => List.mem_cons_self⟩
  · rcases hin.definition?_cases hf hd' with ⟨d, kind, hd, rfl, hsame⟩ | ⟨-, rfl⟩
    · have hkind' : d.kind = .promotion source' phi' := by
        rcases hsame with ⟨rfl, rfl⟩ | ⟨-, rfl⟩
        · obtain ⟨incoming, hphi, -⟩ := hopen.operand
          obtain rfl := Option.some.inj (hd.symm.trans hopen.known)
          rw [hphi] at hkind
          cases hkind
        · exact hkind
      obtain ⟨u, hu⟩ := h.promotions i d source' phi' hd hkind'
      obtain ⟨site, hu', -⟩ := hin.use?_kept hf hu
      exact ⟨_, hu'⟩
    · cases hkind
      exact ⟨_, hin.moved⟩

theorem retyped (h : Supplied g f) (hretyped : Retyped f f') : Supplied g f' := by
  refine ⟨fun i u hu => ?_, fun i d' source' phi' hd' hkind => ?_⟩
  · rw [hretyped.use?] at hu
    obtain ⟨d, hd, hdom⟩ := h.uses i u hu
    obtain ⟨declared, hd', -⟩ := hretyped.kept _ d hd
    exact ⟨_, hd', hdom⟩
  · obtain ⟨d, declared, hd, rfl⟩ := hretyped.back i d' hd'
    rw [hretyped.use?]
    exact h.promotions i d source' phi' hd hkind

theorem inserts {entry : BlockId} (h : Supplied g f) (hrecorded : Recorded entry f)
    (hinserts : Inserts f f') : Supplied g f' := by
  cases hinserts with
  | promotion hopen run =>
    exact h.inserted hrecorded hopen (hopen.inserted hrecorded.numbered run).2
  | type target hphi hisPhi => exact h.retyped (hrecorded.numbered.retyped target hphi hisPhi)

theorem promote {a : Arena} {view : FunctionView} {l : Lattice} {entry : BlockId}
    (h : Supplied g f) (hsettled : Settled a view f) (hrecorded : Recorded entry f) :
    Supplied g (f.promote l).1 := by
  have hsteps := promote_inserts (l := l) hsettled
  generalize (f.promote l).1 = f' at hsteps
  suffices Supplied g f' ∧ Recorded entry f' from this.1
  induction hsteps with
  | refl => exact ⟨h, hrecorded⟩
  | tail _ hstep ih => exact ⟨ih.1.inserts ih.2 hstep, ih.2.inserts hstep⟩

end Supplied

/-- A form on a graph, in which nothing is missing. -/
structure Intact (g : FlowGraph) (f : SsaForm) : Prop where
  numbered : Numbered f
  sited : Sited g.predecessors f
  supplied : Supplied g f
  known : ∀ b, ∀ e ∈ f.eventsIn b, f.knows e = true

theorem Recorded.known {entry : BlockId} (h : Recorded entry f) (b : BlockId) :
    ∀ e ∈ f.eventsIn b, f.knows e = true := by
  intro e he
  cases e with
  | define i =>
    obtain ⟨d, hd, -⟩ := h.defines b i he
    exact Option.isSome_iff_exists.mpr ⟨d, hd⟩
  | use i =>
    obtain ⟨u, hu, -⟩ := h.reads b i he
    exact Option.isSome_iff_exists.mpr ⟨u, hu⟩

theorem Intact.mark (h : Intact g f) (states : List (UseId × BindState)) (r : BindingReport) :
    Intact g (f.mark states r) := by
  obtain ⟨hnumbered, hkept, hback, hread, hreadBack⟩ := h.numbered.marked states r
  refine ⟨hnumbered, ⟨?_, ?_, ?_⟩, ⟨?_, ?_⟩, ?_⟩
  · intro i d' incoming hd' hkind
    obtain ⟨d, poisoned, hd, rfl⟩ := hback i d' hd'
    exact h.sited.length i d incoming hd hkind
  · intro i d' incoming hd' hkind
    obtain ⟨d, poisoned, hd, rfl⟩ := hback i d' hd'
    exact h.sited.nodup i d incoming hd hkind
  · intro i d' incoming k u p hd' hkind hk hp
    obtain ⟨d, poisoned, hd, rfl⟩ := hback i d' hd'
    obtain ⟨use, hu, hsite⟩ := h.sited.site i d incoming k u p hd hkind hk hp
    obtain ⟨binding, hu'⟩ := hread u use hu
    exact ⟨_, hu', hsite⟩
  · intro i u' hu'
    obtain ⟨u, binding, hu, rfl⟩ := hreadBack i u' hu'
    obtain ⟨d, hd, hdom⟩ := h.supplied.uses i u hu
    obtain ⟨poisoned, hd'⟩ := hkept _ d hd
    exact ⟨_, hd', hdom⟩
  · intro i d' source phi hd' hkind
    obtain ⟨d, poisoned, hd, rfl⟩ := hback i d' hd'
    obtain ⟨u, hu⟩ := h.supplied.promotions i d source phi hd hkind
    obtain ⟨binding, hu'⟩ := hread source u hu
    exact ⟨_, hu'⟩
  · intro b e he
    have hknown := h.known b e he
    cases e with
    | define i =>
      obtain ⟨d, hd⟩ := Option.isSome_iff_exists.mp hknown
      obtain ⟨poisoned, hd'⟩ := hkept i d hd
      exact Option.isSome_iff_exists.mpr ⟨_, hd'⟩
    | use i =>
      obtain ⟨u, hu⟩ := Option.isSome_iff_exists.mp hknown
      obtain ⟨binding, hu'⟩ := hread i u hu
      exact Option.isSome_iff_exists.mpr ⟨_, hu'⟩

/-- The graph of a form has its own tree. -/
theorem ofGraph_dominance {a : Arena} {g' : FlowGraph} {fn : NodeId} (hplain : g.dominance = none)
    (run : ofGraph a g fn = .ok (f, g')) :
    ∃ t, g.buildDominance = .ok t ∧ g' = { g with dominance := some t } := by
  obtain ⟨t, hdominance⟩ := ofGraph_ensured run
  rw [ensureDominance, hplain] at hdominance
  obtain ⟨t', hbuild, hsame⟩ := except_map_ok.mp hdominance
  cases hsame
  exact ⟨t, hbuild, rfl⟩

/-- In the form of a function each read is of a definition that dominates it. -/
theorem ofGraph_supplied {a : Arena} {g' : FlowGraph} {fn : NodeId} {view : FunctionView}
    (hview : a.function fn = .ok view) (hg : g.Finished) (run : ofGraph a g fn = .ok (f, g')) :
    Supplied g f := by
  obtain ⟨t, htree, hg'⟩ := ofGraph_dominance hg.plain run
  obtain ⟨t', htree', -, hexact⟩ := hg.linked.consistent.buildDominance
  obtain rfl := Except.ok.inj (htree.symm.trans htree')
  have hstated := (ofGraph_stated hview run).1
  obtain ⟨t', ht', -, huses⟩ := verify_iff.mp (ofGraph_verified run)
  rw [hg'] at ht'
  cases ht'
  refine ⟨fun i u hu => ?_, fun i d source phi hd hkind => ?_⟩
  · have hid := hstated.numbered.use?_id hu
    obtain ⟨d, hd, -, hdom⟩ := verifyUse_iff.mp
      (huses u (hstated.numbered.mem_uses.mpr (hid ▸ hu)))
    exact ⟨d, hd, hexact.dominates_iff.mp hdom⟩
  · have hnot := hstated.unpromoted i d hd
    rw [hkind] at hnot
    cases hnot

/-- The form of a function is intact, with its promotions and with every read classified. -/
theorem intact_bind_promote {a : Arena} {g' : FlowGraph} {fn : NodeId} {view : FunctionView}
    {l : Lattice} {policy : UnboundPolicy} (hview : a.function fn = .ok view)
    (hg : g.Finished) (run : ofGraph a g fn = .ok (f, g')) :
    Intact g ((f.promote l).1.bind g' policy).1 := by
  obtain ⟨hstated, hfilled⟩ := ofGraph_stated hview run
  have hsettled := hstated.settled hfilled
  have hrecorded := ofGraph_recorded run
  have hsupplied := ofGraph_supplied hview hg run
  obtain ⟨hrecorded', hsited, -⟩ := promote_enriches (l := l) hsettled hrecorded
    (ofGraph_sited hview run)
  exact Intact.mark ⟨hrecorded'.numbered, hsited, hsupplied.promote hsettled hrecorded,
    hrecorded'.known⟩ _ _

/-! Events by block. -/

/-- The events of a map, by block. -/
def rowsOf (events : Std.HashMap BlockId (Array Event)) : List (BlockId × List Event) :=
  events.toList.map (fun (b, es) => (b, es.toList))

theorem nodup_rowsOf (events : Std.HashMap BlockId (Array Event)) :
    ((rowsOf events).map Prod.fst).Nodup := by
  rw [rowsOf, List.map_map]
  exact List.pairwise_map.mpr (Std.HashMap.distinct_keys_toList.imp (fun h => by simpa using h))

theorem blockEvents_perm (f : SsaForm) : f.blockEvents.Perm (rowsOf f.events) :=
  List.mergeSort_perm _ _

theorem mem_rowsOf {events : Std.HashMap BlockId (Array Event)} {b : BlockId} {es : List Event} :
    (b, es) ∈ rowsOf events ↔ events[b]? = some es.toArray := by
  rw [rowsOf, List.mem_map, ← Std.HashMap.mem_toList_iff_getElem?_eq_some]
  constructor
  · rintro ⟨⟨b', es'⟩, hmem, hsame⟩
    cases hsame
    exact hmem
  · exact fun hmem => ⟨_, hmem, rfl⟩

theorem mem_eventsIn {b : BlockId} {es : List Event} (h : (b, es) ∈ f.blockEvents) :
    f.eventsIn b = es := by
  have hget := mem_rowsOf.mp (f.blockEvents_perm.mem_iff.mp h)
  rw [eventsIn, Std.HashMap.getD_eq_getD_getElem?, hget]
  rfl

/-- The events of a form, as they are read from its table. -/
def restoredEvents (f : SsaForm) : Std.HashMap BlockId (Array Event) :=
  .ofList (f.blockEvents.map (fun (b, es) => (b, es.toArray)))

theorem restoredEvents_equiv (f : SsaForm) : f.restoredEvents.Equiv f.events := by
  have hnodup : ((f.blockEvents.map (fun (b, es) => (b, es.toArray))).map Prod.fst).Nodup := by
    rw [List.map_map]
    exact ((f.blockEvents_perm.map Prod.fst).nodup_iff).mpr (nodup_rowsOf f.events)
  refine .of_forall_getElem?_eq (fun b => ?_)
  cases hevents : f.events[b]? with
  | some es =>
    have hmem : (b, es) ∈ f.blockEvents.map (fun (b, es) => (b, es.toArray)) :=
      List.mem_map.mpr ⟨(b, es.toList), f.blockEvents_perm.mem_iff.mpr
        (mem_rowsOf.mpr (by simpa using hevents)), by simp⟩
    refine Std.HashMap.getElem?_ofList_of_mem (beq_self_eq_true b) ?_ hmem
    exact (List.pairwise_map.mp hnodup).imp (fun h => by simpa using h)
  | none =>
    refine Std.HashMap.getElem?_ofList_of_contains_eq_false ?_
    rw [← Bool.not_eq_true, List.contains_iff_mem]
    intro hmem
    obtain ⟨row, hrow, rfl⟩ := List.mem_map.mp hmem
    obtain ⟨⟨b, es⟩, hold, rfl⟩ := List.mem_map.mp hrow
    have hget := mem_rowsOf.mp (f.blockEvents_perm.mem_iff.mp hold)
    rw [hevents] at hget
    cases hget

/-- Rows with different blocks are sorted in one way. -/
theorem blockEvents_congr (h : f'.events.Equiv f.events) : f'.blockEvents = f.blockEvents := by
  have hperm : (rowsOf f'.events).Perm (rowsOf f.events) := h.toList_perm.map _
  have hsorted : ∀ f : SsaForm,
      f.blockEvents.Pairwise (fun x y => decide (x.1.raw ≤ y.1.raw) = true) :=
    fun f => List.pairwise_mergeSort (fun x y z hxy hyz => by simp at *; omega)
      (fun x y => by simp; omega) _
  refine List.Perm.eq_of_pairwise (fun x y hx hy hxy hyx => ?_) (hsorted f') (hsorted f)
    (f'.blockEvents_perm.trans (hperm.trans f.blockEvents_perm.symm))
  have hx := hperm.mem_iff.mp (f'.blockEvents_perm.mem_iff.mp hx)
  have hy := f.blockEvents_perm.mem_iff.mp hy
  simp only [decide_eq_true_eq] at hxy hyx
  exact List.inj_on_of_nodup_map (nodup_rowsOf f.events) hx hy
    (Ident.raw_inj _ _ (Nat.le_antisymm hxy hyx))

/-! The form again. -/

/-- A form as it is read from its table. -/
def restored (f : SsaForm) : SsaForm :=
  { f with
    events := f.restoredEvents
    nextDef := (f.defs.toList.map (·.id.raw + 1)).foldl max 0
    nextUse := (f.uses.toList.map (·.id.raw + 1)).foldl max 0 }

theorem eventsIn_restored (f : SsaForm) (b : BlockId) : f.restored.eventsIn b = f.eventsIn b := by
  rw [eventsIn, eventsIn, show f.restored.events = f.restoredEvents from rfl,
    f.restoredEvents_equiv.getD_eq]

theorem blockEvents_restored (f : SsaForm) : f.restored.blockEvents = f.blockEvents :=
  blockEvents_congr f.restoredEvents_equiv

theorem Numbered.uses_nodup (h : Numbered f) : (f.uses.toList.map (·.id)).Nodup :=
  nodup_of_placed h.uses

/-- A form in which nothing is missing is read from its table. -/
theorem Intact.ofTable (h : Intact g f) (hparams : ∀ i ∈ f.params, ∃ d, f.definition? i = some d)
    (hoperands : ∀ i d, f.definition? i = some d → ∀ u ∈ d.kind.operands, ∃ r, f.use? u = some r)
    {t : FunctionTable} (hname : t.name = f.function) (hnode : t.node = f.node)
    (hparamRows : t.params = f.params) (hdefs : t.defs = f.defs.toList)
    (huses : t.uses = f.uses.toList) (hevents : t.events = f.blockEvents) :
    SsaForm.ofTable t = .ok f.restored := by
  unfold SsaForm.ofTable
  rw [hdefs, huses, collectBy_eq_self h.numbered.ids_nodup, collectBy_eq_self h.numbered.uses_nodup,
    hevents, hname, hnode, hparamRows]
  change (f.uses.toList.forM f.restored.checkUse >>= fun _ =>
    f.defs.toList.forM f.restored.checkOperands >>= fun _ =>
    f.params.forM f.restored.checkParam >>= fun _ =>
    f.blockEvents.forM f.restored.checkEvents >>= fun _ => .ok f.restored) = _
  have hcheckUses : f.uses.toList.forM f.restored.checkUse = .ok () := by
    refine forM_ok_iff.mpr (fun u hu => ?_)
    have hu := h.numbered.mem_uses.mp (Array.mem_toList_iff.mp hu)
    obtain ⟨d, hd, -⟩ := h.supplied.uses u.id u hu
    rw [checkUse, show f.restored.definition? u.definition = some d from hd]
    rfl
  have hcheckOperands : f.defs.toList.forM f.restored.checkOperands = .ok () := by
    refine forM_ok_iff.mpr (fun d hd => ?_)
    have hd := h.numbered.mem_defs.mp (Array.mem_toList_iff.mp hd)
    have hnone : d.kind.operands.find? (fun u => (f.restored.use? u).isNone) = none := by
      rw [List.find?_eq_none]
      intro u hu
      obtain ⟨r, hr⟩ := hoperands d.id d hd u hu
      rw [show f.restored.use? u = some r from hr]
      simp
    rw [checkOperands, hnone]
  have hcheckParams : f.params.forM f.restored.checkParam = .ok () := by
    refine forM_ok_iff.mpr (fun i hi => ?_)
    obtain ⟨d, hd⟩ := hparams i hi
    rw [checkParam, show f.restored.definition? i = some d from hd]
    rfl
  have hcheckEvents : f.blockEvents.forM f.restored.checkEvents = .ok () := by
    refine forM_ok_iff.mpr (fun row hrow => ?_)
    have hknown := h.known row.1
    rw [mem_eventsIn hrow] at hknown
    have hnone : row.2.find? (fun e => !f.restored.knows e) = none := by
      rw [List.find?_eq_none]
      intro e he
      rw [show f.restored.knows e = f.knows e from rfl, hknown e he]
      simp
    rw [checkEvents, hnone]
  rw [hcheckUses, hcheckOperands, hcheckParams, hcheckEvents]
  rfl

/-- The check of a form accepts it on its graph. -/
theorem Intact.accepted (h : Intact g f) {t : DominatorTree} (hexact : g.Exact t) :
    f.verify { g with dominance := some t } = .ok () := by
  refine verify_iff.mpr ⟨t, rfl, fun d hd => ?_, fun u hu => ?_⟩
  · have hd := h.numbered.mem_defs.mp hd
    refine verifyPhi_iff.mpr (fun incoming hkind => ?_)
    rw [predecessors_index]
    refine ⟨h.sited.length d.id d incoming hd hkind, fun k u p hk hp => ?_⟩
    exact isOperand_iff.mpr (h.sited.site d.id d incoming k u p hd hkind hk hp)
  · obtain ⟨d, hd, hdom⟩ := h.supplied.uses u.id u (h.numbered.mem_uses.mp hu)
    exact verifyUse_iff.mpr ⟨d, hd, hexact.isReachable_iff.mpr hdom.1,
      hexact.dominates_iff.mpr hdom⟩

/-- So it does under any name, and when the form comes from its table. -/
theorem Intact.verify (h : Intact g f) {t : DominatorTree} (hexact : g.Exact t) (name : String) :
    f.restored.verify { g.renewed name with dominance := some t } = .ok () :=
  h.accepted hexact

end TypedSsa.SsaForm

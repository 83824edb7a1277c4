import Mathlib.Data.Fintype.EquivFin
import TypedSsa.Proofs.Restoring

/-!
What the import of a function makes sure of. Main statements: `TypedFunction.closed_iff` and
`TypedFunction.ofTable_asGiven`. Every id that a table refers to is that of one of its rows, but for
those that no check looks at: a table is read with any loops and any requirements.
-/

namespace TypedSsa

/-! The ids that the rows of a table refer to. -/

def Block.blockRefs (b : Block) : List BlockId :=
  b.predecessors ++ (b.successors ++ b.terminatorEdges).map (·.target)

def LoopInfo.blockRefs (l : LoopInfo) : List BlockId :=
  l.header :: l.exit :: (l.latch.toList ++ l.body)

namespace UseSite

def blockRefs : UseSite → List BlockId
  | phiIncoming _ predecessor => [predecessor]
  | _ => []

def defRefs : UseSite → List DefId
  | phiIncoming phi _ => [phi]
  | promotion definition => [definition]
  | _ => []

end UseSite

def DefKind.defRefs : DefKind → List DefId
  | promotion _ target => [target]
  | _ => []

namespace Event

def defRefs : Event → List DefId
  | define id => [id]
  | use _ => []

def useRefs : Event → List UseId
  | define _ => []
  | use id => [id]

end Event

namespace FunctionTable

variable (t : FunctionTable)

def blockIds : List BlockId :=
  t.blocks.map (·.id)

def defIds : List DefId :=
  t.defs.map (·.id)

def useIds : List UseId :=
  t.uses.map (·.id)

def blockRefs : List BlockId :=
  t.entry :: (t.blocks.flatMap (·.blockRefs) ++ t.loops.flatMap (·.blockRefs) ++
    t.defs.map (·.block) ++ t.uses.map (·.block) ++ t.uses.flatMap (·.site.blockRefs) ++
    t.events.map (·.1) ++ t.requirements.map (·.block))

def defRefs : List DefId :=
  t.params ++ t.defs.flatMap (·.kind.defRefs) ++ t.uses.map (·.definition) ++
    t.uses.flatMap (·.site.defRefs) ++ t.events.flatMap (·.2.flatMap Event.defRefs) ++
    t.types.map (·.1) ++ t.requirements.flatMap (·.undefined.toList)

def useRefs : List UseId :=
  t.defs.flatMap (·.kind.operands) ++ t.events.flatMap (·.2.flatMap Event.useRefs) ++
    t.requirements.map (·.use)

/-- No two rows have one id. -/
structure Apart : Prop where
  blocks : t.blockIds.Nodup
  defs : t.defIds.Nodup
  uses : t.useIds.Nodup

/-- Every id that the table refers to is that of a row, and no two rows have one id. -/
structure Closed : Prop where
  apart : t.Apart
  blocks : ∀ b ∈ t.blockRefs, b ∈ t.blockIds
  defs : ∀ d ∈ t.defRefs, d ∈ t.defIds
  uses : ∀ u ∈ t.useRefs, u ∈ t.useIds

/-! What no check looks at. -/

/-- Neither is the definition read nor is it a phi with operands. -/
def isAside (d : Def) : Bool :=
  !t.uses.any (·.definition == d.id) && (d.kind.incoming?.getD []).isEmpty

/-- The read is for a phi, but none has it for an operand. -/
def isStray (u : Use) : Bool :=
  !t.defs.any (fun d => (d.kind.incoming?.getD []).contains u.id)

def trustedBlocks : List BlockId :=
  t.loops.flatMap (·.blockRefs) ++ (t.defs.filter t.isAside).map (·.block) ++
    (t.uses.filter (fun u => !u.site.blockRefs.isEmpty)).map (·.block) ++
    t.events.map (·.1) ++ t.requirements.map (·.block)

def trustedDefs : List DefId :=
  t.defs.flatMap (·.kind.defRefs) ++ (t.uses.filter t.isStray).flatMap (·.site.defRefs) ++
    t.requirements.flatMap (·.undefined.toList)

/-- What the table refers to without a check is there. -/
structure Trusted : Prop where
  apart : t.Apart
  blocks : ∀ b ∈ t.trustedBlocks, b ∈ t.blockIds
  defs : ∀ d ∈ t.trustedDefs, d ∈ t.defIds
  uses : ∀ r ∈ t.requirements, r.use ∈ t.useIds

end FunctionTable

/-! The graph of a table. -/

namespace FlowGraph

variable {g : FlowGraph} {blocks : List Block} {loops : List LoopInfo} {name : String}
  {entry : BlockId} {t : DominatorTree} {b : BlockId}

theorem ofParts_ok (run : ofParts name entry blocks loops = .ok g) :
    g.blocks = blocks.foldl (putBy Block.id) [] ∧ g.entry = entry ∧ g.dominance = none ∧
      g.validate = .ok () ∧ g.checkEdges = .ok () := by
  obtain ⟨hvalid, hedges, rfl⟩ := ofParts_eq_ok.mp run
  exact ⟨rfl, rfl, rfl, hvalid, hedges⟩

theorem ofParts_loops (run : ofParts name entry blocks loops = .ok g) (loops' : List LoopInfo) :
    ofParts name entry blocks loops' =
      .ok { g with loops := loops'.foldl (putBy LoopInfo.construct) [] } := by
  obtain ⟨hvalid, hedges, rfl⟩ := ofParts_eq_ok.mp run
  exact ofParts_eq_ok.mpr ⟨hvalid, hedges, rfl⟩

theorem contains_of_numbered (run : g.buildDominance = .ok t) :
    (t.isReachable b = true → g.contains b = true) ∧ ∀ i, t.entered[b]? = some i →
      g.contains b = true := by
  have hinside : b ∈ g.reversePostorder → g.contains b = true := by
    obtain ⟨s, hs, hexplored⟩ := reversePostorder_explored g
    rw [hs, hexplored.mem_left]
    exact fun hb => mem_blockIds.mp (hexplored.inside b hb)
  unfold buildDominance at run
  split at run
  case isFalse => cases run
  unfold DominatorTree.build at run
  dsimp only at run
  split at run
  case h_1 => cases run
  cases run
  constructor
  · intro hreach
    rw [DominatorTree.isReachable, DominatorTree.ofParents, Std.HashMap.contains_iff_mem,
      DominatorTree.mem_numbered] at hreach
    exact hinside hreach
  · intro i hi
    have hmem := Std.HashMap.mem_iff_isSome_getElem?.mpr (Option.isSome_iff_exists.mpr ⟨i, hi⟩)
    rw [DominatorTree.ofParents, DominatorTree.mem_numbered] at hmem
    obtain ⟨k, -, hk⟩ := List.mem_filterMap.mp hmem
    exact hinside (by simpa using Array.mem_of_getElem? hk)

theorem contains_of_dominates {a : BlockId} (run : g.buildDominance = .ok t)
    (h : t.dominates a b = true) : g.contains b = true := by
  unfold DominatorTree.dominates at h
  split at h
  · exact (contains_of_numbered run).2 _ ‹_›
  · cases h

/-- The edges and the predecessors of each block lead to blocks. -/
theorem refs_contained (hvalid : g.validate = .ok ()) (hedges : g.checkEdges = .ok ()) :
    ∀ blk ∈ g.blocks, ∀ b ∈ blk.blockRefs, g.contains b = true := by
  intro blk hblk b hb
  obtain ⟨hsync, htargets, hsources⟩ := checkEdges_ok.mp hedges blk hblk
  have hclosed := ((validate_ok.mp hvalid).2 blk hblk).2
  rcases List.mem_append.mp hb with hb | hb
  · obtain ⟨source, hsource, -⟩ := mem_targets.mp (hsources b hb)
    exact contains_iff.mpr ⟨source, hsource⟩
  · obtain ⟨e, he, rfl⟩ := List.mem_map.mp hb
    refine (List.mem_append.mp he).elim (hclosed e) (fun he => hclosed e ?_)
    rw [← hsync] at he
    exact List.mem_of_mem_filter he

end FlowGraph

/-! The form of a table. -/

namespace SsaForm

variable {f : SsaForm} {t : FunctionTable}

/-- The checks of a form against its own rows. -/
structure Checked (t : FunctionTable) (f : SsaForm) : Prop where
  defs : f.defs = t.defs.toArray
  uses : f.uses = t.uses.toArray
  operands : ∀ d ∈ t.defs, ∀ u ∈ d.kind.operands, ∃ r, f.use? u = some r
  params : ∀ i ∈ t.params, ∃ d, f.definition? i = some d
  events : ∀ row ∈ t.events, ∀ e ∈ row.2, f.knows e = true

theorem ofTable_ok (hapart : t.Apart) (run : ofTable t = .ok f) : Checked t f := by
  unfold ofTable at run
  rw [collectBy_eq_self hapart.defs, collectBy_eq_self hapart.uses] at run
  obtain ⟨⟨⟩, -, run⟩ := except_bind_ok run
  obtain ⟨⟨⟩, hoperands, run⟩ := except_bind_ok run
  obtain ⟨⟨⟩, hparams, run⟩ := except_bind_ok run
  obtain ⟨⟨⟩, hevents, run⟩ := except_bind_ok run
  cases run
  refine ⟨rfl, rfl, fun d hd u hu => ?_, fun i hi => ?_, fun row hrow e he => ?_⟩
  · have hd := forM_ok_iff.mp hoperands d hd
    unfold checkOperands at hd
    split at hd
    · cases hd
    · rename_i hnone
      have hread := List.find?_eq_none.mp hnone u hu
      exact Option.ne_none_iff_exists'.mp (fun hmissing => hread (by rw [hmissing]; rfl))
  · have hi := forM_ok_iff.mp hparams i hi
    unfold checkParam at hi
    split at hi
    · exact Option.isSome_iff_exists.mp ‹_›
    · cases hi
  · have hrow := forM_ok_iff.mp hevents row hrow
    unfold checkEvents at hrow
    split at hrow
    · cases hrow
    · rename_i hnone
      simpa using List.find?_eq_none.mp hnone e he

namespace Checked

theorem definition? (h : Checked t f) {i : DefId} {d : Def} (hd : f.definition? i = some d) :
    d ∈ t.defs ∧ d.id = i := by
  obtain ⟨hmem, hid⟩ := mem_of_findNear? hd
  rw [h.defs, List.mem_toArray] at hmem
  exact ⟨hmem, hid⟩

theorem use? (h : Checked t f) {i : UseId} {u : Use} (hu : f.use? i = some u) :
    u ∈ t.uses ∧ u.id = i := by
  obtain ⟨hmem, hid⟩ := mem_of_findNear? hu
  rw [h.uses, List.mem_toArray] at hmem
  exact ⟨hmem, hid⟩

theorem mem_defIds (h : Checked t f) {i : DefId} {d : Def} (hd : f.definition? i = some d) :
    i ∈ t.defIds :=
  List.mem_map.mpr ⟨d, h.definition? hd⟩

theorem mem_useIds (h : Checked t f) {i : UseId} {u : Use} (hu : f.use? i = some u) :
    i ∈ t.useIds :=
  List.mem_map.mpr ⟨u, h.use? hu⟩

end Checked

end SsaForm

/-! A whole table. -/

namespace TypedFunction

variable {t : FunctionTable} {f : TypedFunction}

theorem ofTable_ok (run : ofTable t = .ok f) : ∃ g tree form,
    FlowGraph.ofParts t.name t.entry t.blocks t.loops = .ok g ∧ g.buildDominance = .ok tree ∧
      SsaForm.ofTable t = .ok form ∧ form.verify { g with dominance := some tree } = .ok () ∧
      t.types.forM (checkType form) = .ok () ∧
      f = { graph := { g with dominance := some tree }
            form
            types := t.types.foldl (putBy Prod.fst) []
            result := t.result
            requirements := t.requirements } := by
  unfold ofTable at run
  obtain ⟨g, hparts, run⟩ := except_bind_ok run
  obtain ⟨⟨tree, g'⟩, htree, run⟩ := except_bind_ok run
  obtain ⟨form, hform, run⟩ := except_bind_ok run
  obtain ⟨⟨⟩, hverify, run⟩ := except_bind_ok run
  obtain ⟨⟨⟩, htypes, run⟩ := except_bind_ok run
  obtain ⟨-, -, hplain, -⟩ := FlowGraph.ofParts_ok hparts
  rw [FlowGraph.ensureDominance, hplain] at htree
  obtain ⟨tree', hbuild, hsame⟩ := except_map_ok.mp htree
  cases hsame
  cases run
  exact ⟨g, tree, form, hparts, hbuild, hform, hverify, htypes, rfl⟩

/-- What all checks of an import find out about a table whose rows have ids of their own. -/
structure Imported (t : FunctionTable) (g : FlowGraph) (form : SsaForm) : Prop where
  blocks : g.blocks = t.blocks
  entry : g.entry = t.entry
  valid : g.validate = .ok ()
  edges : g.checkEdges = .ok ()
  checked : SsaForm.Checked t form
  types : ∀ row ∈ t.types, ∃ d, form.definition? row.1 = some d
  phis : ∀ d ∈ t.defs, form.verifyPhi g.index d = .ok ()
  reads : ∀ u ∈ t.uses, ∃ d, form.definition? u.definition = some d ∧
    g.contains d.block = true ∧ g.contains (SsaForm.placeOf u) = true

theorem ofTable_imported (hapart : t.Apart) (run : ofTable t = .ok f) :
    ∃ g form, Imported t g form := by
  obtain ⟨g, tree, form, hparts, hbuild, hform, hverify, htypes, -⟩ := ofTable_ok run
  obtain ⟨hblocks, hentry, -, hvalid, hedges⟩ := FlowGraph.ofParts_ok hparts
  rw [foldl_putBy_eq_self hapart.blocks] at hblocks
  have hchecked := SsaForm.ofTable_ok hapart hform
  obtain ⟨tree', htree', hphis, huses⟩ := SsaForm.verify_iff.mp hverify
  obtain rfl := Option.some.inj htree'
  refine ⟨g, form, hblocks, hentry, hvalid, hedges, hchecked, fun row hrow => ?_, fun d hd => ?_,
    fun u hu => ?_⟩
  · have hrow := forM_ok_iff.mp htypes row hrow
    unfold checkType at hrow
    split at hrow
    · exact Option.isSome_iff_exists.mp ‹_›
    · cases hrow
  · exact hphis d (by rw [hchecked.defs]; exact List.mem_toArray.mpr hd)
  · obtain ⟨d, hd, hreach, hdom⟩ := SsaForm.verifyUse_iff.mp
      (huses u (by rw [hchecked.uses]; exact List.mem_toArray.mpr hu))
    exact ⟨d, hd, (FlowGraph.contains_of_numbered hbuild).1 hreach,
      FlowGraph.contains_of_dominates hbuild hdom⟩

namespace Imported

variable {g : FlowGraph} {form : SsaForm}

theorem mem_blockIds (h : Imported t g form) {b : BlockId} :
    g.contains b = true → b ∈ t.blockIds := by
  intro hb
  obtain ⟨blk, hblk⟩ := FlowGraph.contains_iff.mp hb
  exact List.mem_map.mpr ⟨blk, h.blocks ▸ FlowGraph.block?_mem hblk, FlowGraph.block?_id hblk⟩

/-- The operand in a slot of a phi is one for a predecessor of the phi's block. -/
theorem slot (h : Imported t g form) {d : Def} (hd : d ∈ t.defs) {incoming : List UseId}
    (hkind : d.kind = .phi incoming) {u : UseId} (hu : u ∈ incoming) :
    ∃ p, p ∈ g.predecessors d.block ∧ ∃ r, form.use? u = some r ∧ r.site = .phiIncoming d.id p := by
  obtain ⟨hlength, hsites⟩ := SsaForm.verifyPhi_iff.mp (h.phis d hd) incoming hkind
  obtain ⟨k, hk⟩ := List.mem_iff_getElem?.mp hu
  rw [FlowGraph.predecessors_index] at hlength hsites
  obtain ⟨p, hp⟩ : ∃ p, (g.predecessors d.block)[k]? = some p :=
    ⟨_, List.getElem?_eq_getElem (hlength ▸ (List.getElem?_eq_some_iff.mp hk).1)⟩
  exact ⟨p, List.mem_of_getElem? hp, SsaForm.isOperand_iff.mp (hsites k u p hk hp)⟩

theorem def_block (h : Imported t g form) (hapart : t.Apart) {d : Def} (hd : d ∈ t.defs)
    (haside : ¬t.isAside d = true) : g.contains d.block = true := by
  by_cases hread : t.uses.any (·.definition == d.id) = true
  · obtain ⟨u, hu, hid⟩ := List.any_eq_true.mp hread
    obtain ⟨d', hd', hblock, -⟩ := h.reads u hu
    obtain ⟨hmem, hid'⟩ := h.checked.definition? hd'
    rwa [← List.inj_on_of_nodup_map hapart.defs hmem hd (hid'.trans (eq_of_beq hid))]
  · cases hkind : d.kind with
    | phi incoming =>
      cases incoming with
      | nil => exact absurd (by simp [FunctionTable.isAside, hread, hkind, DefKind.incoming?]) haside
      | cons u rest =>
        obtain ⟨p, hp, -⟩ := h.slot hd hkind List.mem_cons_self
        obtain ⟨blk, hblk, -⟩ := FlowGraph.mem_predecessors.mp hp
        exact FlowGraph.contains_iff.mpr ⟨blk, hblk⟩
    | _ => exact absurd (by simp [FunctionTable.isAside, hread, hkind, DefKind.incoming?]) haside

theorem site_blocks (h : Imported t g form) {u : Use} (hu : u ∈ t.uses) :
    ∀ b ∈ u.site.blockRefs, g.contains b = true := by
  obtain ⟨d, -, -, hplace⟩ := h.reads u hu
  unfold SsaForm.placeOf at hplace
  intro b hb
  cases hsite : u.site with
  | phiIncoming phi p =>
    rw [hsite] at hb hplace
    obtain rfl := List.mem_singleton.mp hb
    exact hplace
  | _ =>
    rw [hsite] at hb
    cases hb

theorem use_block (h : Imported t g form) {u : Use} (hu : u ∈ t.uses)
    (hsite : u.site.blockRefs.isEmpty = true) : g.contains u.block = true := by
  obtain ⟨d, -, -, hplace⟩ := h.reads u hu
  unfold SsaForm.placeOf at hplace
  cases hkind : u.site with
  | phiIncoming phi p =>
    rw [hkind] at hsite
    cases hsite
  | _ =>
    rw [hkind] at hplace
    exact hplace

theorem site_defs (h : Imported t g form) (hapart : t.Apart) {u : Use} (hu : u ∈ t.uses)
    (hstray : ¬t.isStray u = true) : ∀ i ∈ u.site.defRefs, i ∈ t.defIds := by
  rw [FunctionTable.isStray, Bool.not_eq_true', Bool.not_eq_false, List.any_eq_true] at hstray
  obtain ⟨d, hd, hin⟩ := hstray
  cases hkind : d.kind with
  | phi incoming =>
    rw [hkind] at hin
    obtain ⟨p, -, r, hr, hsite⟩ := h.slot hd hkind (List.contains_iff_mem.mp hin)
    obtain ⟨hmem, hid⟩ := h.checked.use? hr
    obtain rfl := List.inj_on_of_nodup_map hapart.uses hmem hu hid
    rw [hsite]
    exact fun i hi => List.mem_singleton.mp hi ▸ List.mem_map_of_mem hd
  | _ =>
    rw [hkind] at hin
    cases hin

/-- What the checks leave out of the references to blocks is what is trusted. -/
theorem closed_blocks (h : Imported t g form) (htrusted : t.Trusted) :
    ∀ b ∈ t.blockRefs, b ∈ t.blockIds := by
  have trusted : ∀ b ∈ t.trustedBlocks, b ∈ t.blockIds := htrusted.blocks
  simp only [FunctionTable.trustedBlocks, List.mem_append, or_imp, forall_and] at trusted
  obtain ⟨⟨⟨⟨hloops, hasides⟩, hincoming⟩, hevents⟩, hrequired⟩ := trusted
  simp only [FunctionTable.blockRefs, List.mem_cons, List.mem_append, or_imp, forall_and]
  refine ⟨fun b hb => ?_, ⟨⟨⟨⟨⟨fun b hb => ?_, hloops⟩, fun b hb => ?_⟩, fun b hb => ?_⟩,
    fun b hb => ?_⟩, hevents⟩, hrequired⟩
  · rw [hb, ← h.entry]
    exact h.mem_blockIds (FlowGraph.validate_ok.mp h.valid).1
  · obtain ⟨blk, hblk, hb⟩ := List.mem_flatMap.mp hb
    exact h.mem_blockIds (FlowGraph.refs_contained h.valid h.edges blk (h.blocks ▸ hblk) b hb)
  · obtain ⟨d, hd, rfl⟩ := List.mem_map.mp hb
    by_cases haside : t.isAside d = true
    · exact hasides _ (List.mem_map_of_mem (List.mem_filter.mpr ⟨hd, haside⟩))
    · exact h.mem_blockIds (h.def_block htrusted.apart hd haside)
  · obtain ⟨u, hu, rfl⟩ := List.mem_map.mp hb
    by_cases hsite : u.site.blockRefs.isEmpty = true
    · exact h.mem_blockIds (h.use_block hu hsite)
    · exact hincoming _ (List.mem_map_of_mem (List.mem_filter.mpr ⟨hu, by simpa using hsite⟩))
  · obtain ⟨u, hu, hb⟩ := List.mem_flatMap.mp hb
    exact h.mem_blockIds (h.site_blocks hu b hb)

theorem closed_defs (h : Imported t g form) (htrusted : t.Trusted) :
    ∀ d ∈ t.defRefs, d ∈ t.defIds := by
  have trustedDefs := htrusted.defs
  simp only [FunctionTable.trustedDefs, List.mem_append, or_imp, forall_and] at trustedDefs
  obtain ⟨⟨hphis, hstrays⟩, hundefined⟩ := trustedDefs
  simp only [FunctionTable.defRefs, List.mem_append, or_imp, forall_and]
  refine ⟨⟨⟨⟨⟨⟨fun i hi => ?_, hphis⟩, fun i hi => ?_⟩, fun i hi => ?_⟩, fun i hi => ?_⟩,
    fun i hi => ?_⟩, hundefined⟩
  · obtain ⟨d, hd⟩ := h.checked.params i hi
    exact h.checked.mem_defIds hd
  · obtain ⟨u, hu, rfl⟩ := List.mem_map.mp hi
    obtain ⟨d, hd, -⟩ := h.reads u hu
    exact h.checked.mem_defIds hd
  · obtain ⟨u, hu, hi⟩ := List.mem_flatMap.mp hi
    by_cases hstray : t.isStray u = true
    · exact hstrays i (List.mem_flatMap.mpr ⟨u, List.mem_filter.mpr ⟨hu, hstray⟩, hi⟩)
    · exact h.site_defs htrusted.apart hu hstray i hi
  · obtain ⟨row, hrow, hi⟩ := List.mem_flatMap.mp hi
    obtain ⟨e, he, hi⟩ := List.mem_flatMap.mp hi
    cases e with
    | define j =>
      obtain rfl := List.mem_singleton.mp hi
      obtain ⟨d, hd⟩ := Option.isSome_iff_exists.mp (h.checked.events row hrow _ he)
      exact h.checked.mem_defIds hd
    | use j => cases hi
  · obtain ⟨row, hrow, rfl⟩ := List.mem_map.mp hi
    obtain ⟨d, hd⟩ := h.types row hrow
    exact h.checked.mem_defIds hd

theorem closed_uses (h : Imported t g form) (htrusted : t.Trusted) :
    ∀ u ∈ t.useRefs, u ∈ t.useIds := by
  simp only [FunctionTable.useRefs, List.mem_append, or_imp, forall_and]
  refine ⟨⟨fun i hi => ?_, fun i hi => ?_⟩, fun i hi => ?_⟩
  · obtain ⟨d, hd, hi⟩ := List.mem_flatMap.mp hi
    obtain ⟨u, hu⟩ := h.checked.operands d hd i hi
    exact h.checked.mem_useIds hu
  · obtain ⟨row, hrow, hi⟩ := List.mem_flatMap.mp hi
    obtain ⟨e, he, hi⟩ := List.mem_flatMap.mp hi
    cases e with
    | use j =>
      obtain rfl := List.mem_singleton.mp hi
      obtain ⟨u, hu⟩ := Option.isSome_iff_exists.mp (h.checked.events row hrow _ he)
      exact h.checked.mem_useIds hu
    | define j => cases hi
  · obtain ⟨r, hr, rfl⟩ := List.mem_map.mp hi
    exact htrusted.uses r hr

theorem closed (h : Imported t g form) (htrusted : t.Trusted) : t.Closed :=
  ⟨htrusted.apart, h.closed_blocks htrusted, h.closed_defs htrusted, h.closed_uses htrusted⟩

end Imported

end TypedFunction

namespace FunctionTable

variable {t : FunctionTable}

theorem mem_map_of_filter {α β : Type} {f : α → β} {p : α → Bool} {xs : List α} {y : β}
    (h : y ∈ (xs.filter p).map f) : y ∈ xs.map f :=
  List.map_subset f (List.filter_subset_self xs) h

theorem trustedBlocks_subset : t.trustedBlocks ⊆ t.blockRefs := by
  intro b hb
  simp only [trustedBlocks, List.mem_append] at hb
  simp only [blockRefs, List.mem_cons, List.mem_append]
  rcases hb with (((hb | hb) | hb) | hb) | hb
  · tauto
  · have := mem_map_of_filter hb
    tauto
  · have := mem_map_of_filter hb
    tauto
  · tauto
  · tauto

theorem trustedDefs_subset : t.trustedDefs ⊆ t.defRefs := by
  intro i hi
  simp only [trustedDefs, List.mem_append] at hi
  simp only [defRefs, List.mem_append]
  rcases hi with (hi | hi) | hi
  · tauto
  · obtain ⟨u, hu, hi⟩ := List.mem_flatMap.mp hi
    have : i ∈ t.uses.flatMap (·.site.defRefs) :=
      List.mem_flatMap.mpr ⟨u, List.mem_of_mem_filter hu, hi⟩
    tauto
  · tauto

theorem Closed.trusted (h : t.Closed) : t.Trusted where
  apart := h.apart
  blocks b hb := h.blocks b (trustedBlocks_subset hb)
  defs i hi := h.defs i (trustedDefs_subset hi)
  uses _ hr := h.uses _ (List.mem_append_right _ (List.mem_map_of_mem hr))

end FunctionTable

namespace TypedFunction

variable {t : FunctionTable} {f : TypedFunction}

/-- Of a table that is imported, every id that it refers to is that of a row just if this holds of
the few references that no check looks at. -/
theorem closed_iff (run : ofTable t = .ok f) : t.Closed ↔ t.Trusted := by
  refine ⟨fun h => h.trusted, fun h => ?_⟩
  obtain ⟨g, form, himported⟩ := ofTable_imported h.apart run
  exact himported.closed h

theorem closed_iff_loopArena :
    ∃ f ∈ (loopCompiler.compile loopArena [⟨6⟩] {}).1.typedFunctions,
      ofTable f.toTable = .ok f.restored ∧ (f.toTable.Closed ↔ f.toTable.Trusted) := by
  obtain ⟨f, hf⟩ := List.exists_mem_of_length_pos
    (Nat.lt_of_lt_of_eq Nat.one_pos length_typedFunctions_loopArena.symm)
  obtain ⟨fn, hfn, view, u, hbuilt, r, t, rfl⟩ := Compiler.exists_builtFrom loopCompiler hf
  obtain rfl := List.mem_singleton.mp hfn
  have hread := hbuilt.functionIn_toTable (fun g hg => FlowGraph.ofFunction_finished
    function_loopArena lower_loopArena (by decide) hg) r t
  rw [ProgramTable.functionIn, show (r.irOf t u).toTable.node = u.form.node from rfl,
    hbuilt.contains, if_pos rfl] at hread
  exact ⟨_, hf, hread, closed_iff hread⟩

/-- A table that is imported is so with whatever loops and requirements. -/
theorem ofTable_asGiven (run : ofTable t = .ok f) (loops : List LoopInfo)
    (requirements : List Requirement) :
    ofTable { t with loops, requirements } = .ok { f with
      graph := { f.graph with loops := loops.foldl (putBy LoopInfo.construct) [] }
      requirements } := by
  obtain ⟨g, tree, form, hparts, hbuild, hform, hverify, htypes, rfl⟩ := ofTable_ok run
  have hparts' := FlowGraph.ofParts_loops hparts loops
  obtain ⟨-, -, hplain, -⟩ := FlowGraph.ofParts_ok hparts'
  have htree : ({ g with loops := loops.foldl (putBy LoopInfo.construct) [] } :
      FlowGraph).ensureDominance = .ok (tree, { g with
        loops := loops.foldl (putBy LoopInfo.construct) [], dominance := some tree }) := by
    rw [FlowGraph.ensureDominance, hplain]
    exact except_map_ok.mpr ⟨tree, hbuild, rfl⟩
  exact @ofTable_eq { t with loops, requirements } _ _ _ _ hparts' htree hform hverify htypes

/-- So a table may be imported with a loop of blocks that are not there. -/
theorem exists_imported_open (run : ofTable t = .ok f) :
    ∃ loops f', ofTable { t with loops } = .ok f' ∧
      ¬FunctionTable.Closed { t with loops } := by
  obtain ⟨n, hn⟩ := Infinite.exists_notMem_finset (t.blockIds.map (·.raw)).toFinset
  have hb : ⟨n⟩ ∉ t.blockIds := fun hmem =>
    hn (List.mem_toFinset.mpr (List.mem_map_of_mem (f := (·.raw)) hmem))
  let l : LoopInfo :=
    { construct := t.node, header := ⟨n⟩, latch := none, exit := ⟨n⟩, body := [], parallel := false,
      depth := 0 }
  refine ⟨[l], _, ofTable_asGiven run [l] t.requirements, fun hclosed => ?_⟩
  refine hb (hclosed.blocks ⟨n⟩ ?_)
  simp [FunctionTable.blockRefs, LoopInfo.blockRefs, l]

end TypedFunction

end TypedSsa

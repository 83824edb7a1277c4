import TypedSsa.Proofs.Accepting
import TypedSsa.Proofs.Founding
import TypedSsa.Proofs.Rows

/-!
Compiled programs as tables, and back. Main statement: `Compiler.compile_restored`. An arena and
what was compiled from it can be exported, and what is imported again is the same arena with
functions that give the same answers and the same table.
-/

namespace TypedSsa

/-- Two functions that give the same answers. -/
structure TypedFunction.Agrees (f f' : TypedFunction) : Prop where
  definitionOf? : ∀ use, f'.definitionOf? use = f.definitionOf? use
  typeOf? : ∀ id, f'.typeOf? id = f.typeOf? id
  typeOfUse? : ∀ use, f'.typeOfUse? use = f.typeOfUse? use
  incoming? : ∀ phi, f'.incoming? phi = f.incoming? phi
  eventsIn : ∀ block, f'.form.eventsIn block = f.form.eventsIn block
  result : f'.result = f.result
  requirements : f'.requirements = f.requirements
  preorder : f'.preorder = f.preorder
  text : f'.text = f.text

namespace TypedFunction

/-- A function as it is read from its table. -/
def restored (f : TypedFunction) : TypedFunction :=
  { f with
    graph := { f.graph.renewed f.name with dominance := f.graph.dominance }
    form := f.form.restored }

theorem toTable_restored (f : TypedFunction) : f.restored.toTable = f.toTable := by
  have hevents : f.restored.form.blockEvents = f.form.blockEvents := f.form.blockEvents_restored
  unfold toTable
  rw [hevents]
  rfl

theorem agrees_restored (f : TypedFunction) : f.Agrees f.restored where
  definitionOf? _ := rfl
  typeOf? _ := rfl
  typeOfUse? _ := rfl
  incoming? _ := rfl
  eventsIn := f.form.eventsIn_restored
  result := rfl
  requirements := rfl
  preorder := rfl
  text := by
    have hevents : f.restored.form.eventsIn = f.form.eventsIn :=
      funext f.form.eventsIn_restored
    have hblock : f.restored.blockText = f.blockText := by
      funext block
      rw [blockText, blockText, hevents]
      rfl
    rw [text, text, hblock]
    rfl

/-- A function is read from a table that passes all checks. -/
theorem ofTable_eq {row : FunctionTable} {g g' : FlowGraph} {tree : DominatorTree} {f : SsaForm}
    (hparts : FlowGraph.ofParts row.name row.entry row.blocks row.loops = .ok g)
    (htree : g.ensureDominance = .ok (tree, g')) (hform : SsaForm.ofTable row = .ok f)
    (hverify : f.verify g' = .ok ()) (htypes : row.types.forM (checkType f) = .ok ()) :
    ofTable row =
      ofParts g' f (row.types.foldl (putBy Prod.fst) []) row.result row.requirements := by
  simp only [ofTable, hparts, htree, hform, hverify, htypes, bind, Except.bind]

end TypedFunction

namespace FunctionUnit

variable {a : Arena} {fn : NodeId} {view : FunctionView} {u : FunctionUnit}

theorem BuiltFrom.contains (h : BuiltFrom a fn view u) : a.contains u.form.node = true := by
  have hnode : u.form.node = fn := h.settled.node.trans (Arena.function_node h.function)
  obtain ⟨n, hn, -⟩ := Option.bind_eq_some_iff.mp (Arena.readsFunction h.function).kind
  rw [hnode, Arena.contains, hn]
  rfl

/-- A form is read from the table of a function that has it. -/
theorem BuiltFrom.form_ofTable (h : BuiltFrom a fn view u) {g : FlowGraph}
    (hintact : u.form.Intact g) (hsteps : u.form.StepsRead) (r : Resolution) (t : FunctionTypes) :
    SsaForm.ofTable (r.irOf t u).toTable = .ok u.form.restored := by
  refine hintact.ofTable (fun i hi => ?_) (hintact.operands hsteps) rfl rfl rfl rfl rfl rfl
  obtain ⟨p, -, d, hd, -⟩ := exists_left_of_forall₂ h.settled.params i hi
  exact ⟨d, hd⟩

/-- What is built of a function is read from its table. -/
theorem BuiltFrom.functionIn_toTable (h : BuiltFrom a fn view u)
    (hfinished : ∀ g, FlowGraph.ofFunction a fn = .ok g → g.Finished) (r : Resolution)
    (t : FunctionTypes) :
    ProgramTable.functionIn a (r.irOf t u).toTable = .ok (r.irOf t u).restored := by
  obtain ⟨g, f, l, policy, hg, hform, hbound⟩ := h.form
  have hgraph := hfinished g hg
  have hvalid := FlowGraph.ofFunction_validate hg
  obtain ⟨tree, htree, hbuilt⟩ := SsaForm.ofGraph_dominance hgraph.plain hform
  obtain ⟨tree', htree', -, hexact⟩ := hgraph.linked.consistent.buildDominance
  obtain rfl := Except.ok.inj (htree.symm.trans htree')
  have hintact : u.form.Intact g :=
    hbound ▸ SsaForm.intact_bind_promote h.function hgraph hform
  have hsteps : u.form.StepsRead :=
    hbound ▸ SsaForm.stepsRead_bind_promote h.function hgraph hform
  have hparts : FlowGraph.ofParts u.form.function u.graph.entry u.graph.blocks u.graph.loops =
      .ok (g.renewed u.form.function) := by
    rw [hbuilt]
    exact hgraph.ofParts hvalid u.form.function
  -- Each definition has one row of types.
  have htypes : (r.irOf t u).types.foldl (putBy Prod.fst) [] = (r.irOf t u).types := by
    refine foldl_putBy_eq_self ?_
    rw [Resolution.irOf, List.map_map]
    exact h.settled.numbered.ids_nodup
  have hchecked : (r.irOf t u).types.forM (TypedFunction.checkType u.form.restored) = .ok () := by
    refine forM_ok_iff.mpr (fun row hrow => ?_)
    obtain ⟨d, hd, rfl⟩ := List.mem_map.mp hrow
    have hd := h.settled.numbered.mem_defs.mp (Array.mem_toList_iff.mp hd)
    rw [TypedFunction.checkType, show u.form.restored.definition? d.id = some d from hd]
    rfl
  have hread := TypedFunction.ofTable_eq hparts (FlowGraph.ensureDominance_renewed _ htree)
    (h.form_ofTable hintact hsteps r t) (hintact.verify hexact _) hchecked
  rw [ProgramTable.functionIn, show (r.irOf t u).toTable.node = u.form.node from rfl, h.contains,
    if_pos rfl, hread, show (r.irOf t u).toTable.types = (r.irOf t u).types from rfl, htypes,
    TypedFunction.restored, show (r.irOf t u).graph = u.graph from rfl, hbuilt]
  rfl

end FunctionUnit

namespace Compiler

variable {a : Arena} {functions : List NodeId} {memo : Memo}

/-- What a compilation makes of functions comes from what is built of them. -/
theorem exists_builtFrom (c : Compiler) {f : TypedFunction}
    (hf : f ∈ (c.compile a functions memo).1.typedFunctions) :
    ∃ fn ∈ functions, ∃ view u, FunctionUnit.BuiltFrom a fn view u ∧
      ∃ r t, f = Resolution.irOf r t u := by
  have hkept := c.collected_kept a functions
  obtain ⟨calls, hreport⟩ := c.compile_linked a functions memo
  obtain ⟨entry, hentry, hir⟩ := List.mem_filterMap.mp hf
  rw [hreport] at hentry
  rcases mem_foldl_finish hentry with hentry | ⟨u, hu, rfl⟩
  · rw [(hkept.faulty entry hentry).2] at hir
    cases hir
  · obtain ⟨fn, hfn, hbuild⟩ := hkept.built u hu
    obtain ⟨view, hbuilt⟩ := FunctionUnit.build_builtFrom hbuild
    obtain ⟨t, hf⟩ := ir_finished hbuilt.untyped hir
    exact ⟨fn, hfn, view, u, hbuilt, _, t, hf⟩

/-- What was compiled can be exported, and its import gives the same arena with functions that
answer as before and are exported to the same table. The functions have no more blocks than there
are ids. -/
theorem compile_restored (c : Compiler) {ids₀ : IdSupply .node} (ha : a.Grown ids₀)
    (functions : List NodeId) (memo : Memo)
    (hcount : ∀ fn ∈ functions, ∀ view whole, a.function fn = .ok view →
      FlowGraph.lower a view = .ok whole → whole.blocks.length ≤ Ident.invalidRaw) :
    ∃ table, ProgramTable.ofProgram a (c.compile a functions memo).1.typedFunctions = .ok table ∧
      ∀ ids, ∃ restored ids', table.import? a.registry ids = .ok (a, restored, ids') ∧
        ProgramTable.ofProgram a restored = .ok table ∧
        List.Forall₂ TypedFunction.Agrees (c.compile a functions memo).1.typedFunctions
          restored := by
  have hformed := ha.formed.1
  set fs := (c.compile a functions memo).1.typedFunctions
  have hread : ∀ f ∈ fs, ProgramTable.functionIn a f.toTable = .ok f.restored := by
    intro f hf
    obtain ⟨fn, hfn, view, u, hbuilt, r, t, rfl⟩ := exists_builtFrom c hf
    refine hbuilt.functionIn_toTable (fun g hg => ?_) r t
    obtain ⟨view', whole, hview, hwhole, -⟩ := FlowGraph.ofFunction_ok hg
    exact FlowGraph.ofFunction_finished hview hwhole (hcount fn hfn view' whole hview hwhole) hg
  have hexport : ∀ gs, ProgramTable.ofProgram a gs =
      .ok ⟨⟨a.nodes.toList.map a.row⟩, gs.map TypedFunction.toTable⟩ := by
    intro gs
    rw [ProgramTable.ofProgram, hformed.ofArena]
    rfl
  have hrows : (fs.map TypedFunction.toTable).mapM (ProgramTable.functionIn a) =
      .ok (fs.map TypedFunction.restored) := by
    rw [List.mapM_map]
    exact mapM_ok hread
  have himport : ∀ ids, ProgramTable.import?
      ⟨⟨a.nodes.toList.map a.row⟩, fs.map TypedFunction.toTable⟩ a.registry ids =
        .ok (a, fs.map TypedFunction.restored,
          (a.nodes.toList.map a.row).foldl (fun ids row => ids.advancePast row.id) ids) := by
    intro ids
    simp only [ProgramTable.import?, NodeTable.import?, hformed.restored, Except.map, hrows, bind,
      Except.bind]
  refine ⟨_, hexport fs, fun ids => ⟨_, _, himport ids, ?_, ?_⟩⟩
  · rw [hexport, List.map_map,
      show TypedFunction.toTable ∘ TypedFunction.restored = TypedFunction.toTable from
        funext TypedFunction.toTable_restored]
  · rw [List.forall₂_map_right_iff, List.forall₂_same]
    exact fun f _ => f.agrees_restored

/-- The first nodes of an arena that is made node by node. -/
def loopUpTo (n : Nat) : Arena :=
  { loopArena with nodes := loopArena.nodes.take n }

theorem grown_loopArena : loopArena.Grown ⟨7, by decide⟩ := by
  have h₀ : (loopUpTo 0).Grown {} := .new Registry.grown_builtin
  have h₁ := h₀.create (show (loopUpTo 0).create {} Kind.const [.type .int64, .str "1"] =
    (.ok (⟨0⟩, loopUpTo 1), ⟨1, by decide⟩) from rfl)
  have h₂ := h₁.create (show (loopUpTo 1).create ⟨1, _⟩ Kind.call
    [.str "f", .list [.node ⟨0⟩]] = (.ok (⟨1⟩, loopUpTo 2), ⟨2, by decide⟩) from rfl)
  have h₃ := h₂.create (show (loopUpTo 2).create ⟨2, _⟩ Kind.exprStmt [.node ⟨1⟩] =
    (.ok (⟨2⟩, loopUpTo 3), ⟨3, by decide⟩) from rfl)
  have h₄ := h₃.create (show (loopUpTo 3).create ⟨3, _⟩ Kind.name [.str "x"] =
    (.ok (⟨3⟩, loopUpTo 4), ⟨4, by decide⟩) from rfl)
  have h₅ := h₄.create (show (loopUpTo 4).create ⟨4, _⟩ Kind.returnStmt [.node ⟨3⟩] =
    (.ok (⟨4⟩, loopUpTo 5), ⟨5, by decide⟩) from rfl)
  have h₆ := h₅.create (show (loopUpTo 5).create ⟨5, _⟩ Kind.param [.str "x"] =
    (.ok (⟨5⟩, loopUpTo 6), ⟨6, by decide⟩) from rfl)
  exact h₆.create (show (loopUpTo 6).create ⟨6, _⟩ Kind.function
    [.str "f", .list [.node ⟨5⟩], .list [.node ⟨2⟩, .node ⟨4⟩]] =
    (.ok (⟨6⟩, loopArena), ⟨7, by decide⟩) from rfl)

theorem compile_restored_loopArena :
    (loopArena.Grown ⟨7, by decide⟩ ∧
      (∀ fn ∈ [(⟨6⟩ : NodeId)], ∀ view whole, loopArena.function fn = .ok view →
        FlowGraph.lower loopArena view = .ok whole → whole.blocks.length ≤ Ident.invalidRaw) ∧
      (loopCompiler.compile loopArena [⟨6⟩] {}).1.typedFunctions.length = 1) ∧
    ∃ table, ProgramTable.ofProgram loopArena
        (loopCompiler.compile loopArena [⟨6⟩] {}).1.typedFunctions = .ok table ∧
      ∀ ids, ∃ restored ids',
        table.import? loopArena.registry ids = .ok (loopArena, restored, ids') ∧
        ProgramTable.ofProgram loopArena restored = .ok table ∧
        List.Forall₂ TypedFunction.Agrees
          (loopCompiler.compile loopArena [⟨6⟩] {}).1.typedFunctions restored := by
  have hcount : ∀ fn ∈ [(⟨6⟩ : NodeId)], ∀ view whole, loopArena.function fn = .ok view →
      FlowGraph.lower loopArena view = .ok whole → whole.blocks.length ≤ Ident.invalidRaw := by
    intro fn hfn view whole hview hwhole
    obtain rfl := List.mem_singleton.mp hfn
    obtain rfl := Except.ok.inj (function_loopArena.symm.trans hview)
    obtain rfl := Except.ok.inj (lower_loopArena.symm.trans hwhole)
    decide
  exact ⟨⟨grown_loopArena, hcount, length_typedFunctions_loopArena⟩,
    compile_restored loopCompiler grown_loopArena [⟨6⟩] {} hcount⟩

end Compiler

end TypedSsa

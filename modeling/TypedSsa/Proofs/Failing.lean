import TypedSsa.Proofs.Editing

/-!
What is left of an operation that is refused. Main statement: `Operation.run_refused`. All but one
look before they change anything. The built-in kinds are added one by one, and those ahead of the
first whose name is taken stay.
-/

namespace TypedSsa

/-! Kinds that are added one by one. -/

namespace Registry

variable {r r' : Registry} {s : KindSchema} {kinds : List KindSchema} {e : Fault}

def extend (r : Registry) (kinds : List KindSchema) : Registry :=
  ⟨r.kinds ++ kinds⟩

/-- The kinds of a list ahead of the first whose name is taken. -/
def ahead (r : Registry) (kinds : List KindSchema) : List KindSchema :=
  kinds.takeWhile (fun s => (r.named? s.name).isNone)

@[simp] theorem extend_nil (r : Registry) : r.extend [] = r := by
  rw [extend, List.append_nil]

theorem extend_cons (r : Registry) (s : KindSchema) (kinds : List KindSchema) :
    (r.extend [s]).extend kinds = r.extend (s :: kinds) := by
  rw [extend, extend, extend, List.append_assoc, List.singleton_append]

theorem extend_eq_self : r.extend kinds = r ↔ kinds = [] := by
  constructor
  · intro h
    exact List.append_right_eq_self.mp (congrArg Registry.kinds h)
  · rintro rfl
    exact extend_nil r

theorem named?_extend {name : String} (hname : s.name ≠ name) :
    (r.extend [s]).named? name = r.named? name := by
  simp [named?, extend, List.find?_append, hname]

theorem ahead_congr (h : ∀ s ∈ kinds, r.named? s.name = r'.named? s.name) :
    r.ahead kinds = r'.ahead kinds := by
  induction kinds with
  | nil => rfl
  | cons s kinds ih =>
    have htail := ih (fun t ht => h t (List.mem_cons_of_mem _ ht))
    simp only [ahead, List.takeWhile_cons, h s List.mem_cons_self] at htail ⊢
    rw [htail]

theorem ahead_cons_of_taken (hs : (r.named? s.name).isSome) : r.ahead (s :: kinds) = [] :=
  List.takeWhile_cons_of_neg (by rw [Option.isNone_eq_false_iff.mpr hs]; exact Bool.false_ne_true)

theorem ahead_cons_of_new (hs : r.named? s.name = none) :
    r.ahead (s :: kinds) = s :: r.ahead kinds :=
  List.takeWhile_cons_of_pos (by rw [hs]; rfl)

theorem ahead_cons_eq_nil : r.ahead (s :: kinds) = [] ↔ (r.named? s.name).isSome := by
  cases hs : r.named? s.name with
  | none => simp [ahead_cons_of_new hs]
  | some t =>
    have htaken : (r.named? s.name).isSome := by rw [hs]; rfl
    simp [ahead_cons_of_taken htaken]

theorem register_of_taken (hs : (r.named? s.name).isSome) :
    r.register s = .error (.schema s.name Reason.kindTaken) := by
  rw [register, if_pos hs]

theorem register_of_new (hs : r.named? s.name = none)
    (hfields : repeated? ((s.fields ++ s.hidden).map (·.name)) [] = none) :
    r.register s = .ok (⟨r.kinds.length⟩, r.extend [s]) := by
  rw [register, if_neg (by simp [hs]), hfields]
  rfl

/-- Nothing but a taken name stops kinds that are sound in themselves, and those ahead of it are
added by then. -/
theorem registerAll_error (hnames : (kinds.map (·.name)).Nodup)
    (hfields : ∀ s ∈ kinds, repeated? ((s.fields ++ s.hidden).map (·.name)) [] = none)
    (run : r.registerAll kinds = (.error e, r')) :
    r' = r.extend (r.ahead kinds) ∧
      ∃ s ∈ kinds, (r.named? s.name).isSome ∧ e = .schema s.name Reason.kindTaken := by
  induction kinds generalizing r with
  | nil => cases run
  | cons s kinds ih =>
    obtain ⟨hnew, hnames⟩ := List.nodup_cons.mp hnames
    unfold registerAll at run
    cases hs : r.named? s.name with
    | some t =>
      have htaken : (r.named? s.name).isSome := by rw [hs]; rfl
      rw [register_of_taken htaken] at run
      cases run
      exact ⟨by rw [ahead_cons_of_taken htaken, extend_nil], s, List.mem_cons_self, htaken, rfl⟩
    | none =>
      rw [register_of_new hs (hfields s List.mem_cons_self)] at run
      have hsame : ∀ t ∈ kinds, (r.extend [s]).named? t.name = r.named? t.name := fun t ht =>
        named?_extend (fun hname => hnew (List.mem_map.mpr ⟨t, ht, hname.symm⟩))
      obtain ⟨rfl, t, ht, htaken, rfl⟩ :=
        ih hnames (fun t ht => hfields t (List.mem_cons_of_mem _ ht)) run
      refine ⟨?_, t, List.mem_cons_of_mem _ ht, hsame t ht ▸ htaken, rfl⟩
      rw [ahead_congr hsame, ahead_cons_of_new hs, extend_cons]

end Registry

namespace Kind

theorem nodup_builtin : (builtin.map (·.name)).Nodup := by
  decide

/-- No built-in kind names two of its fields alike. -/
theorem builtin_unrepeated : ∀ s ∈ builtin,
    Registry.repeated? ((s.fields ++ s.hidden).map (·.name)) [] = none := by
  decide

end Kind

/-! What may be refused. -/

/-- An operation on an arena, its kinds or its ids. -/
inductive Operation where
  | change (edit : Edit)
  | addBuiltin
  | importTable (table : NodeTable) (registry : Registry)

namespace Operation

variable {op : Operation} {g g' : Grove} {e : Fault}

/-- An imported arena takes the place of the one before it. -/
def run : Operation → TreeM Unit
  | .change edit => edit.run
  | .addBuiltin => fun g =>
    let (outcome, registry) := g.arena.registry.registerAll Kind.builtin
    (outcome, { g with arena := { g.arena with registry } })
  | .importTable table registry => fun g =>
    match table.import? registry g.ids with
    | .ok (arena, ids) => (.ok (), ⟨arena, ids⟩)
    | .error e => (.error e, g)

/-- The kinds that are added all the same. -/
def left (r : Registry) : Operation → List KindSchema
  | .addBuiltin => r.ahead Kind.builtin
  | .change _ | .importTable _ _ => []

theorem edit_refused {edit : Edit} (run : edit.run g = (.error e, g')) (he : e ≠ .idsExhausted) :
    g' = g := by
  have change : ∀ (step : Arena → Except Fault Arena),
      TreeM.change step g = (.error e, g') → g' = g := by
    intro step run
    rcases Grove.run_change run with ⟨-, -, houtcome, -⟩ | ⟨-, -, -, rfl⟩
    · cases houtcome
    · rfl
  cases edit with
  | create kind fields =>
    rw [Grove.run_create] at run
    split at run
    · cases run
    · rename_i e' ids hcreate
      cases run
      rw [Arena.create_refused hcreate he]
  | setField id name value => exact change (·.setField id name value) run
  | setAttribute id name value => exact change (·.setAttribute id name value) run
  | register schema =>
    exact change (fun a => (a.registry.register schema).map
      (fun (r : KindId × Registry) => { a with registry := r.2 })) run

theorem run_refused_left (run : op.run g = (.error e, g')) (he : e ≠ .idsExhausted) :
    g' = { g with arena := { g.arena with
      registry := g.arena.registry.extend (op.left g.arena.registry) } } := by
  cases op with
  | change edit =>
    rw [edit_refused run he, left, Registry.extend_nil]
  | addBuiltin =>
    unfold Operation.run at run
    dsimp only at run
    generalize hall : g.arena.registry.registerAll Kind.builtin = result at run
    obtain ⟨outcome, r⟩ := result
    cases run
    obtain ⟨rfl, -⟩ :=
      Registry.registerAll_error Kind.nodup_builtin Kind.builtin_unrepeated hall
    rfl
  | importTable table registry =>
    unfold Operation.run at run
    dsimp only at run
    split at run
    · cases run
    · cases run
      rw [left, Registry.extend_nil]

theorem left_eq_nil {r : Registry} :
    op.left r = [] ↔ (op = .addBuiltin → (r.named? Kind.function).isSome) := by
  cases op with
  | addBuiltin => exact Registry.ahead_cons_eq_nil.trans ⟨fun h _ => h, fun h => h rfl⟩
  | change _ | importTable _ _ => simp [left]

/-- A refused operation leaves nodes and ids as they were, and the kinds too unless it was to add
the built-in ones and could add the first of them. -/
theorem run_refused (run : op.run g = (.error e, g')) (he : e ≠ .idsExhausted) :
    g' = { g with arena := { g.arena with
      registry := g.arena.registry.extend (op.left g.arena.registry) } } ∧
    (g' = g ↔ op = .addBuiltin → (g.arena.registry.named? Kind.function).isSome) := by
  have hleft := run_refused_left run he
  refine ⟨hleft, ?_⟩
  rw [← left_eq_nil, ← Registry.extend_eq_self, hleft]
  constructor
  · intro h
    exact congrArg (fun g : Grove => g.arena.registry) h
  · intro h
    rw [h]

/-- Names are a kind that is there already. -/
def ownNames : Registry :=
  ⟨[⟨Kind.name, .identity, [⟨"text", .str⟩], []⟩]⟩

theorem registerAll_ownNames : ownNames.registerAll Kind.builtin =
    (.error (.schema Kind.name Reason.kindTaken), ownNames.extend (Kind.builtin.take 13)) := by
  rfl

/-- All kinds ahead of that for names are added, and stay. -/
theorem run_refused_name :
    let g : Grove := ⟨{ registry := ownNames }, {}⟩
    (Operation.addBuiltin.run g).1 = .error (.schema Kind.name Reason.kindTaken) ∧
    (Operation.addBuiltin.run g).2 ≠ g := by
  intro g
  have hrun : Operation.addBuiltin.run g = (.error (.schema Kind.name Reason.kindTaken),
      { g with arena := { g.arena with registry := ownNames.extend (Kind.builtin.take 13) } }) := by
    unfold Operation.run
    dsimp only [g]
    rw [registerAll_ownNames]
  rw [hrun]
  refine ⟨rfl, fun hsame => ?_⟩
  exact absurd ((run_refused hrun (by simp)).2.mp hsame rfl) (by decide)

end Operation

end TypedSsa

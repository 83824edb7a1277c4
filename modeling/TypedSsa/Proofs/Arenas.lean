import TypedSsa.Proofs.Cycles
import TypedSsa.Proofs.Keys
import TypedSsa.Proofs.Links
import TypedSsa.Tree.Equality
import TypedSsa.Tree.Kinds

/-!
What holds of an arena however it was made. Its nodes have rising ids, each fits its kind, and value
nodes form no cycle.
-/

namespace TypedSsa
open Relation

/-! Kinds. -/

theorem getElem?_of_findIdx? {α : Type} {p : α → Bool} {xs : List α} {i : Nat} {x : α}
    (hi : xs.findIdx? p = some i) (hx : xs.find? p = some x) : xs[i]? = some x := by
  obtain ⟨hlt, hp, hfirst⟩ := List.findIdx?_eq_some_iff_getElem.mp hi
  obtain ⟨hpx, j, hj, rfl, hbefore⟩ := List.find?_eq_some_iff_getElem.mp hx
  have hij : i = j := by
    rcases Nat.lt_trichotomy i j with h | h | h
    · simpa [hp] using hbefore i h
    · exact h
    · exact absurd hpx (hfirst j h)
  exact hij ▸ List.getElem?_eq_getElem hj

namespace Registry

variable {r r' : Registry} {k : KindId} {s : KindSchema}

/-- Kinds have different names. -/
def Distinct (r : Registry) : Prop :=
  (r.kinds.map (·.name)).Nodup

theorem schema?_of_kindId? {name : String} (hid : r.kindId? name = some k)
    (hs : r.named? name = some s) : r.schema? k = some s ∧ s.name = name := by
  obtain ⟨i, hi, rfl⟩ := Option.map_eq_some_iff.mp hid
  exact ⟨getElem?_of_findIdx? hi hs, by simpa using List.find?_some hs⟩

namespace Distinct

variable (h : r.Distinct) (hs : r.schema? k = some s)
include h hs

theorem named? : r.named? s.name = some s :=
  find?_of_nodup h (List.mem_of_getElem? hs)

theorem kindId? : r.kindId? s.name = some k := by
  obtain ⟨hlt, hget⟩ := List.getElem?_eq_some_iff.mp hs
  refine Option.map_eq_some_iff.mpr ⟨k.raw, ?_, rfl⟩
  refine List.findIdx?_eq_some_iff_getElem.mpr ⟨hlt, by simp [hget], fun j hj hname => ?_⟩
  have hk : k.raw < (r.kinds.map (·.name)).length := by simpa using hlt
  have hjlt : j < (r.kinds.map (·.name)).length := Nat.lt_trans hj hk
  have hsame : (r.kinds.map (·.name))[j] = (r.kinds.map (·.name))[k.raw] := by
    simpa [hget] using hname
  exact Nat.ne_of_lt hj ((List.Nodup.getElem_inj_iff h).mp hsame)

end Distinct

theorem register_ok (hr : r.Distinct) (run : r.register s = .ok (k, r')) :
    r'.Distinct ∧ ∀ id t, r.schema? id = some t → r'.schema? id = some t := by
  unfold register at run
  split at run
  · cases run
  · rename_i hnew
    split at run
    · cases run
    · cases run
      refine ⟨?_, fun id t ht => ?_⟩
      · rw [Distinct, List.map_append, List.map_singleton]
        refine List.Nodup.append hr (List.nodup_singleton _) (List.disjoint_singleton.mpr ?_)
        intro hmem
        obtain ⟨t, ht, hname⟩ := List.mem_map.mp hmem
        refine hnew (List.find?_isSome.mpr ⟨t, ht, ?_⟩)
        simpa using hname
      · obtain ⟨hlt, -⟩ := List.getElem?_eq_some_iff.mp ht
        exact (List.getElem?_append_left hlt).trans ht

/-- A registry that kinds were added to, one by one. -/
inductive Grown : Registry → Prop
  | empty : Grown {}
  | register {r r' : Registry} {s : KindSchema} {k : KindId} :
    Grown r → r.register s = .ok (k, r') → Grown r'

theorem Grown.distinct (h : Grown r) : r.Distinct := by
  induction h with
  | empty => exact List.nodup_nil
  | register _ run ih => exact (register_ok ih run).1

theorem Grown.registerAll : ∀ {kinds : List KindSchema} {r r' : Registry} {u : Except Fault Unit},
    Grown r → r.registerAll kinds = (u, r') → Grown r'
  | [], r, r', u, h, run => by
    cases run
    exact h
  | s :: kinds, r, r', u, h, run => by
    unfold Registry.registerAll at run
    split at run
    · rename_i hs
      exact Grown.registerAll (h.register hs) run
    · cases run
      exact h

theorem grown_builtin : Grown .builtin :=
  Grown.empty.registerAll (show Registry.registerAll {} Kind.builtin = (.ok (), .builtin) from rfl)

end Registry

/-! Lookups. -/

namespace Arena

variable {a a' : Arena} {n m : Node} {id : NodeId}

/-- The nodes stand in the order of their ids. -/
def Ordered (a : Arena) : Prop :=
  a.nodes.toList.Pairwise (·.id.raw < ·.id.raw)

namespace Ordered

theorem nodup (h : a.Ordered) : (a.nodes.toList.map (·.id)).Nodup :=
  List.pairwise_map.mpr (h.imp (fun hlt hid => absurd (hid ▸ hlt) (Nat.lt_irrefl _)))

theorem unique (h : a.Ordered) (hn : n ∈ a.nodes) (hm : m ∈ a.nodes) (hid : n.id = m.id) :
    n = m := by
  exact List.inj_on_of_nodup_map h.nodup hn.val hm.val hid

theorem find?_eq (h : a.Ordered) (id : NodeId) : a.find? id = a.nodes.find? (·.id == id) :=
  findNear?_eq_find? Node.id (a.place id) a.nodes id (fun _ hn _ hm => h.unique hn hm)

theorem find?_iff (h : a.Ordered) : a.find? id = some n ↔ n ∈ a.nodes ∧ n.id = id := by
  rw [h.find?_eq]
  constructor
  · intro hfind
    exact ⟨Array.mem_of_find?_eq_some hfind, by simpa using Array.find?_some hfind⟩
  · rintro ⟨hn, rfl⟩
    cases hfind : a.nodes.find? (·.id == n.id) with
    | none => exact absurd (beq_self_eq_true n.id) (Array.find?_eq_none.mp hfind n hn)
    | some m =>
      have hid : m.id = n.id := by simpa using Array.find?_some hfind
      rw [h.unique (Array.mem_of_find?_eq_some hfind) hn hid]

theorem find?_none (h : a.Ordered) : a.find? id = none ↔ ∀ n ∈ a.nodes, n.id ≠ id := by
  rw [h.find?_eq, Array.find?_eq_none]
  simp

end Ordered

/-! Adding a node. -/

theorem mem_insertNode {xs : List Node} (hnew : ∀ x ∈ xs, x.id ≠ n.id) :
    m ∈ insertNode n xs ↔ m = n ∨ m ∈ xs := by
  induction xs with
  | nil => simp [insertNode]
  | cons x xs ih =>
    obtain ⟨hx, hxs⟩ := List.forall_mem_cons.mp hnew
    unfold insertNode
    split
    · rw [List.mem_cons, ih hxs, List.mem_cons, or_left_comm]
    · split
      · rename_i hraw
        exact absurd (Ident.raw_inj _ _ hraw) hx
      · rw [List.mem_cons]

theorem pairwise_insertNode {xs : List Node} (h : xs.Pairwise (·.id.raw < ·.id.raw))
    (hnew : ∀ x ∈ xs, x.id ≠ n.id) : (insertNode n xs).Pairwise (·.id.raw < ·.id.raw) := by
  induction xs with
  | nil => exact List.pairwise_singleton _ _
  | cons x xs ih =>
    obtain ⟨hx, hxs⟩ := List.forall_mem_cons.mp hnew
    obtain ⟨hfirst, hrest⟩ := List.pairwise_cons.mp h
    unfold insertNode
    split
    · rename_i hlt
      refine List.pairwise_cons.mpr ⟨fun m hm => ?_, ih hrest hxs⟩
      rcases (mem_insertNode hxs).mp hm with rfl | hm
      · exact hlt
      · exact hfirst m hm
    · rename_i hle
      split
      · rename_i hraw
        exact absurd (Ident.raw_inj _ _ hraw) hx
      · rename_i hne
        refine List.pairwise_cons.mpr ⟨fun m hm => ?_, h⟩
        have hlt : n.id.raw < x.id.raw := by omega
        rcases List.mem_cons.mp hm with rfl | hm
        · exact hlt
        · exact Nat.lt_trans hlt (hfirst m hm)

theorem insert_last (h : ∀ m ∈ a.nodes, m.id.raw < n.id.raw) :
    a.insert n = { a with nodes := a.nodes.push n } := by
  unfold Arena.insert
  cases hback : a.nodes.back? with
  | none => rfl
  | some last => rw [Option.all_some, if_pos (by simpa using h last (Array.mem_of_back? hback))]

/-- A node with an id that is new takes its place among the others. -/
theorem Ordered.insert (h : a.Ordered) (hnew : a.find? n.id = none) :
    (a.insert n).Ordered ∧ ∀ m, m ∈ (a.insert n).nodes ↔ m = n ∨ m ∈ a.nodes := by
  have hnew := h.find?_none.mp hnew
  unfold Arena.insert
  split
  · rename_i hlast
    refine ⟨?_, fun m => by simp [or_comm]⟩
    rw [Ordered, Array.toList_push, List.pairwise_append]
    refine ⟨h, List.pairwise_singleton _ _, fun x hx y hy => ?_⟩
    rw [List.mem_singleton.mp hy]
    cases hback : a.nodes.back? with
    | none => simp [Array.back?_eq_none_iff.mp hback] at hx
    | some last =>
      rw [hback, Option.all_some, decide_eq_true_eq] at hlast
      rw [← Array.getLast?_toList, List.getLast?_eq_some_iff] at hback
      obtain ⟨init, hinit⟩ := hback
      rw [Ordered, hinit, List.pairwise_append] at h
      rw [hinit, List.mem_append, List.mem_singleton] at hx
      rcases hx with hx | rfl
      · exact Nat.lt_trans (h.2.2 x hx last (List.mem_singleton_self last)) hlast
      · exact hlast
  · have hnew' : ∀ x ∈ a.nodes.toList, x.id ≠ n.id := fun x hx => hnew x (by simpa using hx)
    exact ⟨pairwise_insertNode h hnew', fun m => by simp [mem_insertNode hnew']⟩

theorem Ordered.insert_find? (h : a.Ordered) (hnew : a.find? n.id = none) (id : NodeId) :
    (a.insert n).find? id = if id = n.id then some n else a.find? id := by
  obtain ⟨hordered, hmem⟩ := h.insert hnew
  split
  · rename_i hid
    exact hordered.find?_iff.mpr ⟨(hmem n).mpr (.inl rfl), hid.symm⟩
  · rename_i hid
    refine Option.ext (fun m => ?_)
    rw [hordered.find?_iff, h.find?_iff, hmem]
    refine and_congr_left (fun hm => or_iff_right ?_)
    rintro rfl
    exact hid hm.symm

/-! Changing nodes. -/

/-- A change of nodes that leaves them their ids. -/
theorem Ordered.map (h : a.Ordered) {change : Node → Node} (hchange : ∀ n, (change n).id = n.id) :
    Ordered { a with nodes := a.nodes.map change } ∧
      ∀ id, find? { a with nodes := a.nodes.map change } id = (a.find? id).map change := by
  have hordered : Ordered { a with nodes := a.nodes.map change } := by
    rw [Ordered, Array.toList_map, List.pairwise_map]
    exact h.imp (fun {x y} hlt => by rw [hchange, hchange]; exact hlt)
  refine ⟨hordered, fun id => Option.ext (fun m => ?_)⟩
  rw [hordered.find?_iff, Option.map_eq_some_iff, Array.mem_map]
  constructor
  · rintro ⟨⟨n, hn, rfl⟩, hid⟩
    exact ⟨n, h.find?_iff.mpr ⟨hn, (hchange n).symm.trans hid⟩, rfl⟩
  · rintro ⟨n, hn, rfl⟩
    obtain ⟨hmem, hid⟩ := h.find?_iff.mp hn
    exact ⟨⟨n, hmem, rfl⟩, (hchange n).trans hid⟩

theorem Ordered.update_eq (h : a.Ordered) (id : NodeId) (change : Node → Node) :
    a.update id change =
      { a with nodes := a.nodes.map (fun n => if n.id == id then change n else n) } := by
  refine congrArg (Arena.mk a.registry) ?_
  refine modifyNear_eq_map Node.id (a.place id) a.nodes id change (fun i j hi hj hni hnj => ?_)
  have hi : i < (a.nodes.toList.map (·.id)).length := by simpa using hi
  have hj : j < (a.nodes.toList.map (·.id)).length := by simpa using hj
  have hsame : (a.nodes.toList.map (·.id))[i] = (a.nodes.toList.map (·.id))[j] := by
    simpa using (eq_of_beq hni).trans (eq_of_beq hnj).symm
  exact (List.Nodup.getElem_inj_iff h.nodup).mp hsame

/-- A change of one node that leaves it its id. -/
theorem Ordered.update (h : a.Ordered) {change : Node → Node} (hchange : ∀ n, (change n).id = n.id)
    (id : NodeId) : (a.update id change).Ordered ∧ ∀ k, (a.update id change).find? k =
      if k = id then (a.find? k).map change else a.find? k := by
  rw [h.update_eq]
  obtain ⟨hordered, hfind⟩ := h.map
    (show ∀ n : Node, (if n.id == id then change n else n).id = n.id from
      fun n => by split <;> simp [hchange])
  refine ⟨hordered, fun k => (hfind k).trans ?_⟩
  cases hk : a.find? k with
  | none => simp
  | some n =>
    obtain rfl := (h.find?_iff.mp hk).2
    simp only [Option.map_some, beq_iff_eq]
    split <;> rfl

theorem Ordered.update_contains (h : a.Ordered) {change : Node → Node}
    (hchange : ∀ n, (change n).id = n.id) (id k : NodeId) :
    (a.update id change).contains k = a.contains k := by
  rw [contains, contains, (h.update hchange id).2]
  split
  · rw [Option.isSome_map]
  · rfl

/-! Values that fit. -/

/-- What is known of kinds and of the nodes' kinds stays known. -/
structure Keeps (a a' : Arena) : Prop where
  schema : ∀ k s, a.registry.schema? k = some s → a'.registry.schema? k = some s
  name : ∀ id k, a.kindName? id = some k → a'.kindName? id = some k

theorem Keeps.of_find? (hschema : ∀ k s, a.registry.schema? k = some s →
      a'.registry.schema? k = some s)
    (hfind : ∀ id n, a.find? id = some n → ∃ n', a'.find? id = some n' ∧ n'.kind = n.kind) :
    Keeps a a' := by
  refine ⟨hschema, fun id k hk => ?_⟩
  obtain ⟨n, hn, hk⟩ := Option.bind_eq_some_iff.mp hk
  obtain ⟨s, hs, rfl⟩ := Option.map_eq_some_iff.mp hk
  obtain ⟨n', hn', hkind⟩ := hfind id n hn
  rw [kindName?, hn', Option.bind_some, hkind, hschema _ _ hs, Option.map_some]

theorem checkValue_optional {t : FieldType} {v : FieldValue} :
    a.checkValue (.optional t) v = .ok () ↔ v = .absent ∨ a.checkValue t v = .ok () := by
  cases v <;> simp [Arena.checkValue]

theorem checkValue_list {t : FieldType} {v : FieldValue} : a.checkValue (.list t) v = .ok () ↔
    ∃ items, v = .list items ∧ ∀ x ∈ items, a.checkValue t x = .ok () := by
  cases v with
  | list items =>
    rw [Arena.checkValue]
    refine forM_ok_iff.trans ⟨fun h => ⟨items, rfl, h⟩, fun ⟨_, hitems, h⟩ => ?_⟩
    cases hitems
    exact h
  | _ => exact ⟨nofun, nofun⟩

theorem checkValue_node {kind : Option String} {v : FieldValue} :
    a.checkValue (.node kind) v = .ok () ↔
      ∃ id k, v = .node id ∧ a.kindName? id = some k ∧ ∀ e, kind = some e → e = k := by
  cases v with
  | node id =>
    rw [Arena.checkValue]
    cases hname : a.kindName? id with
    | none => simp [hname]
    | some k =>
      cases kind with
      | none => simp [hname]
      | some e => simp [hname, eq_comm]
  | _ => exact ⟨nofun, nofun⟩

theorem Keeps.checkValue (h : Keeps a a') {t : FieldType} : ∀ {v : FieldValue},
    a.checkValue t v = .ok () → a'.checkValue t v = .ok () := by
  induction t with
  | node kind =>
    intro v hv
    obtain ⟨id, k, rfl, hk, hkind⟩ := checkValue_node.mp hv
    exact checkValue_node.mpr ⟨id, k, rfl, h.name id k hk, hkind⟩
  | list item ih =>
    intro v hv
    obtain ⟨items, rfl, hitems⟩ := checkValue_list.mp hv
    exact checkValue_list.mpr ⟨items, rfl, fun x hx => ih (hitems x hx)⟩
  | optional item ih =>
    exact fun hv => checkValue_optional.mpr ((checkValue_optional.mp hv).imp_right ih)
  | _ =>
    intro v hv
    cases v <;> first | rfl | cases hv

theorem mem_referencesOf {vs : List FieldValue} :
    id ∈ FieldValue.referencesOf vs ↔ ∃ v ∈ vs, id ∈ v.references := by
  induction vs with
  | nil => simp [FieldValue.referencesOf]
  | cons v vs ih => simp [FieldValue.referencesOf, ih]

/-- What a value that fits refers to is there. -/
theorem known_of_checkValue {t : FieldType} : ∀ {v : FieldValue}, a.checkValue t v = .ok () →
    ∀ id ∈ v.references, ∃ k, a.kindName? id = some k := by
  induction t with
  | node kind =>
    intro v hv id hid
    obtain ⟨_, k, rfl, hk, -⟩ := checkValue_node.mp hv
    rw [FieldValue.references, List.mem_singleton] at hid
    exact ⟨k, hid ▸ hk⟩
  | list item ih =>
    intro v hv id hid
    obtain ⟨items, rfl, hitems⟩ := checkValue_list.mp hv
    rw [FieldValue.references] at hid
    obtain ⟨x, hx, hid⟩ := mem_referencesOf.mp hid
    exact ih (hitems x hx) id hid
  | optional item ih =>
    intro v hv
    rcases checkValue_optional.mp hv with rfl | hv
    · exact fun id hid => nomatch hid
    · exact ih hv
  | _ =>
    intro v hv id hid
    cases v <;> simp [Arena.checkValue, FieldValue.references] at hv hid

/-! Nodes that fit their kinds. -/

/-- A node is as its kind wants it. -/
structure Fits (a : Arena) (n : Node) (s : KindSchema) : Prop where
  schema : a.registry.schema? n.kind = some s
  mode : n.mode = s.mode
  length : n.fields.length = s.fields.length
  fields : ∀ (i : Nat) (spec : FieldSpec) (v : FieldValue), s.fields[i]? = some spec →
    n.fields[i]? = some v → a.checkValue spec.type v = .ok ()
  attributes : ∀ p ∈ n.attributes, ∃ spec, s.hidden? p.1 = some spec ∧
    a.checkValue spec.type p.2 = .ok ()
  once : (n.attributes.map Prod.fst).Nodup

theorem Fits.keep (h : Keeps a a') {s : KindSchema} (hn : a.Fits n s) : a'.Fits n s where
  schema := h.schema _ _ hn.schema
  mode := hn.mode
  length := hn.length
  fields := fun i spec v hspec hv => h.checkValue (hn.fields i spec v hspec hv)
  attributes := fun p hp => by
    obtain ⟨spec, hspec, hv⟩ := hn.attributes p hp
    exact ⟨spec, hspec, h.checkValue hv⟩
  once := hn.once

theorem Fits.known {s : KindSchema} (hn : a.Fits n s) (hid : id ∈ n.children) :
    ∃ k, a.kindName? id = some k := by
  obtain ⟨v, hv, hid⟩ := List.mem_flatMap.mp hid
  obtain ⟨i, hi, rfl⟩ := List.getElem_of_mem hv
  have hlt : i < s.fields.length := hn.length ▸ hi
  exact known_of_checkValue (hn.fields i _ _ (List.getElem?_eq_getElem hlt)
    (List.getElem?_eq_getElem hi)) id hid

/-- From a node to its value nodes. -/
def Refers (a : Arena) (u w : NodeId) : Prop :=
  w ∈ a.valueChildren u

theorem refers_iff {u w : NodeId} : a.Refers u w ↔
    ∃ n m, a.find? u = some n ∧ w ∈ n.children ∧ a.find? w = some m ∧ m.mode = .value := by
  unfold Refers valueChildren
  cases a.find? u with
  | none => simp
  | some n =>
    cases hw : a.find? w <;> simp [isValueNode, hw]

/-- What holds of an arena however it was made. -/
structure Formed (a : Arena) : Prop where
  kinds : a.registry.Distinct
  ordered : a.Ordered
  valid : ∀ n ∈ a.nodes, n.id.raw < Ident.invalidRaw
  fits : ∀ n ∈ a.nodes, ∃ s, a.Fits n s
  acyclic : ∀ id, ¬TransGen a.Refers id id

/-- Of what lies on a cycle, each is referred to. -/
theorem acyclic_of {R R' : NodeId → NodeId → Prop} (h : ∀ id, ¬TransGen R id id)
    (hsub : ∀ u v w, R' u v → R' v w → R v w) (id : NodeId) : ¬TransGen R' id id := by
  intro hcycle
  have hlast : ∃ u, R' u id := by
    cases hcycle with
    | single hedge => exact ⟨_, hedge⟩
    | tail _ hedge => exact ⟨_, hedge⟩
  refine h id ?_
  suffices ∀ u, TransGen R' u id → (∃ t, R' t u) → TransGen R u id from this id hcycle hlast
  intro u hu
  induction hu using TransGen.head_induction_on with
  | single hedge => exact fun ⟨t, ht⟩ => .single (hsub t _ _ ht hedge)
  | head hedge _ ih => exact fun ⟨t, ht⟩ => .head (hsub t _ _ ht hedge) (ih ⟨_, hedge⟩)

theorem node_ok : a.node id = .ok n ↔ a.find? id = some n := by
  unfold node
  cases a.find? id <;> simp

theorem schemaOf_ok {s : KindSchema} :
    a.schemaOf n = .ok s ↔ a.registry.schema? n.kind = some s := by
  unfold schemaOf
  cases a.registry.schema? n.kind <;> simp

theorem prepare_fits {kind : String} {fields : List FieldValue} {k : KindId}
    {mode : Comparison} (run : a.prepare kind fields = .ok (k, mode)) (id : NodeId) :
    ∃ s, a.Fits { id, kind := k, mode, fields } s := by
  unfold Arena.prepare at run
  split at run
  · rename_i k' s hk hs
    split at run
    · cases run
    · rename_i hlength
      unfold Except.map at run
      split at run
      · cases run
      · rename_i hchecked
        cases run
        refine ⟨s, (Registry.schema?_of_kindId? hk hs).1, rfl, by simpa using hlength,
          fun i spec v hspec hv => ?_, nofun, List.nodup_nil⟩
        exact except_mapError_ok.mp (forM_zip_ok_iff.mp hchecked i spec v hspec hv)
  · cases run

theorem create_ok {ids ids' : IdSupply .node} {kind : String} {fields : List FieldValue}
    (run : a.create ids kind fields = (.ok (id, a'), ids')) :
    ∃ kindId mode, a.prepare kind fields = .ok (kindId, mode) ∧
      ids.counter < Ident.invalidRaw ∧ ids'.counter = ids.counter + 1 ∧ id = ids.peek ∧
      a' = a.insert { id := ids.peek, kind := kindId, mode, fields } := by
  unfold Arena.create at run
  split at run
  · cases run
  · rename_i kindId mode hprepare
    split at run
    · rename_i next ids₁ hnext
      cases run
      unfold IdSupply.next at hnext
      split at hnext
      · cases hnext
      · rename_i hlt
        cases hnext
        exact ⟨kindId, mode, hprepare, Nat.lt_of_le_of_ne ids.counter_le hlt, rfl, rfl, rfl⟩
    · cases run

/-- An id is taken only if there is nothing to refuse. -/
theorem create_refused {ids ids' : IdSupply .node} {kind : String} {fields : List FieldValue}
    {e : Fault} (run : a.create ids kind fields = (.error e, ids')) (he : e ≠ .idsExhausted) :
    ids' = ids := by
  unfold Arena.create at run
  split at run
  · cases run
    rfl
  · split at run
    · cases run
    · cases run
      exact absurd rfl he

theorem setField_ok {name : String} {value : FieldValue}
    (run : a.setField id name value = .ok a') :
    ∃ n s index spec, a.node id = .ok n ∧ a.schemaOf n = .ok s ∧ n.mode ≠ .value ∧
      s.fieldIndex? name = some index ∧ s.field? name = some spec ∧
      a.checkValue spec.type value = .ok () ∧
      a' = a.update id (fun n => { n with fields := n.fields.set index value }) := by
  unfold Arena.setField at run
  obtain ⟨n, hn, run⟩ := except_bind_ok run
  obtain ⟨s, hs, run⟩ := except_bind_ok run
  split at run
  · cases run
  · rename_i hidentity
    split at run
    · rename_i index spec hindex hspec
      split at run
      · cases run
      · rename_i hvalue
        exact ⟨n, s, index, spec, hn, hs, hidentity, hindex, hspec, hvalue,
          (Except.ok.inj run).symm⟩
    · cases run

theorem setAttribute_ok {name : String} {value : FieldValue}
    (run : a.setAttribute id name value = .ok a') :
    ∃ n s spec, a.node id = .ok n ∧ a.schemaOf n = .ok s ∧ s.hidden? name = some spec ∧
      a.checkValue spec.type value = .ok () ∧
      a' = a.update id (fun n =>
        { n with attributes := putBy Prod.fst n.attributes (name, value) }) := by
  unfold Arena.setAttribute at run
  obtain ⟨n, hn, run⟩ := except_bind_ok run
  obtain ⟨s, hs, run⟩ := except_bind_ok run
  split at run
  · cases run
  · rename_i spec hspec
    split at run
    · cases run
    · rename_i hvalue
      exact ⟨n, s, spec, hn, hs, hspec, hvalue, (Except.ok.inj run).symm⟩

namespace Formed

theorem registered (h : a.Formed) (hn : a.find? id = some n) :
    ∃ s, a.Fits n s ∧ a.kindName? id = some s.name := by
  obtain ⟨s, hs⟩ := h.fits n (h.ordered.find?_iff.mp hn).1
  exact ⟨s, hs, by rw [kindName?, hn, Option.bind_some, hs.schema, Option.map_some]⟩

theorem register (h : a.Formed) {s : KindSchema} {k : KindId} {r : Registry}
    (run : a.registry.register s = .ok (k, r)) : Formed { a with registry := r } := by
  obtain ⟨hdistinct, hschema⟩ := Registry.register_ok h.kinds run
  have hkeeps : Keeps a { a with registry := r } :=
    .of_find? hschema (fun id n hn => ⟨n, hn, rfl⟩)
  exact {
    kinds := hdistinct
    ordered := h.ordered
    valid := h.valid
    fits := fun n hn => (h.fits n hn).imp (fun s hs => hs.keep hkeeps)
    acyclic := h.acyclic }

theorem insert (h : a.Formed) {s : KindSchema} (hvalid : n.id.raw < Ident.invalidRaw)
    (hnew : a.find? n.id = none) (hn : a.Fits n s) : (a.insert n).Formed := by
  obtain ⟨hordered, hmem⟩ := h.ordered.insert hnew
  have hregistry : (a.insert n).registry = a.registry := by
    unfold Arena.insert
    split <;> rfl
  have hfind := h.ordered.insert_find? hnew
  have hother : ∀ id m, a.find? id = some m → id ≠ n.id := by
    rintro id m hm rfl
    rw [hnew] at hm
    cases hm
  have hkeeps : Keeps a (a.insert n) := by
    refine .of_find? (fun k s hs => hregistry ▸ hs) (fun id m hm => ⟨m, ?_, rfl⟩)
    rw [hfind, if_neg (hother id m hm), hm]
  exact {
    kinds := hregistry ▸ h.kinds
    ordered := hordered
    valid := by
      intro m hm
      rcases (hmem m).mp hm with rfl | hm
      · exact hvalid
      · exact h.valid m hm
    fits := by
      intro m hm
      rcases (hmem m).mp hm with rfl | hm
      · exact ⟨s, hn.keep hkeeps⟩
      · exact (h.fits m hm).imp (fun s hs => hs.keep hkeeps)
    acyclic := by
      -- Nothing refers to the node that is new.
      have hold : ∀ {u w}, (a.insert n).Refers u w → ∃ m, a.find? w = some m ∧ m.mode = .value := by
        intro u w huw
        obtain ⟨x, m, hx, hw, hm, hmode⟩ := refers_iff.mp huw
        have hknown : ∃ k, a.kindName? w = some k := by
          rw [hfind] at hx
          split at hx
          · cases hx
            exact hn.known hw
          · obtain ⟨t, ht⟩ := h.fits x (h.ordered.find?_iff.mp hx).1
            exact ht.known hw
        obtain ⟨k, hk⟩ := hknown
        obtain ⟨m', hm', -⟩ := Option.bind_eq_some_iff.mp hk
        rw [hfind, if_neg (hother w m' hm'), hm'] at hm
        cases hm
        exact ⟨m, hm', hmode⟩
      refine acyclic_of h.acyclic (fun u v w huv hvw => ?_)
      obtain ⟨m, hm, -⟩ := hold huv
      obtain ⟨m', hm', hmode'⟩ := hold hvw
      obtain ⟨x, -, hx, hw, -, -⟩ := refers_iff.mp hvw
      rw [hfind, if_neg (hother v m hm)] at hx
      exact refers_iff.mpr ⟨x, m', hx, hw, hm', hmode'⟩ }

theorem update (h : a.Formed) {change : Node → Node} {s : KindSchema} (hn : a.find? id = some n)
    (hchange : ∀ m, (change m).id = m.id) (hfits : a.Fits (change n) s)
    (hkind : (change n).kind = n.kind) (hmode : (change n).mode = n.mode)
    (hfields : n.mode = .value → (change n).fields = n.fields) : (a.update id change).Formed := by
  obtain ⟨hordered, hfind⟩ := h.ordered.update hchange id
  have hcases : ∀ k m, (a.update id change).find? k = some m →
      k = id ∧ m = change n ∨ k ≠ id ∧ a.find? k = some m := by
    intro k m hm
    rw [hfind] at hm
    split at hm
    · rename_i hk
      subst hk
      rw [hn] at hm
      cases hm
      exact .inl ⟨rfl, rfl⟩
    · rename_i hk
      exact .inr ⟨hk, hm⟩
  have hkeeps : Keeps a (a.update id change) := by
    refine .of_find? (fun k s hs => hs) (fun k m hm => ?_)
    rw [hfind]
    split
    · rename_i hk
      subst hk
      rw [hn] at hm
      cases hm
      exact ⟨change n, by rw [hn, Option.map_some], hkind⟩
    · exact ⟨m, hm, rfl⟩
  have hmem : ∀ m ∈ (a.update id change).nodes, m = change n ∨ m ∈ a.nodes := by
    intro m hm
    rcases hcases m.id m (hordered.find?_iff.mpr ⟨hm, rfl⟩) with ⟨-, rfl⟩ | ⟨-, hm⟩
    · exact .inl rfl
    · exact .inr (h.ordered.find?_iff.mp hm).1
  exact {
    kinds := h.kinds
    ordered := hordered
    valid := by
      intro m hm
      rcases hmem m hm with rfl | hm
      · rw [hchange]
        exact h.valid n (h.ordered.find?_iff.mp hn).1
      · exact h.valid m hm
    fits := by
      intro m hm
      rcases hmem m hm with rfl | hm
      · exact ⟨s, hfits.keep hkeeps⟩
      · exact (h.fits m hm).imp (fun s hs => hs.keep hkeeps)
    acyclic := by
      -- Fields change in identity nodes only, so values refer to each other as before.
      have hvalue : ∀ k m, (a.update id change).find? k = some m → m.mode = .value →
          ∃ m', a.find? k = some m' ∧ m'.mode = .value ∧ m.fields = m'.fields := by
        intro k m hm hvalue
        rcases hcases k m hm with ⟨rfl, rfl⟩ | ⟨-, hm⟩
        · exact ⟨n, hn, hmode ▸ hvalue, hfields (hmode ▸ hvalue)⟩
        · exact ⟨m, hm, hvalue, rfl⟩
      refine acyclic_of h.acyclic (fun u v w huv hvw => ?_)
      obtain ⟨-, m, -, -, hm, hm_value⟩ := refers_iff.mp huv
      obtain ⟨x, m', hx, hw, hm', hm_value'⟩ := refers_iff.mp hvw
      obtain rfl := Option.some.inj (hm.symm.trans hx)
      obtain ⟨x', hx', -, hsame⟩ := hvalue v m hm hm_value
      obtain ⟨w', hw', hw_value, -⟩ := hvalue w m' hm' hm_value'
      rw [Node.children, hsame] at hw
      exact refers_iff.mpr ⟨x', w', hx', hw, hw', hw_value⟩ }

theorem fits_of (h : a.Formed) {s : KindSchema} (hn : a.node id = .ok n)
    (hs : a.schemaOf n = .ok s) : a.Fits n s := by
  obtain ⟨t, ht⟩ := h.fits n (h.ordered.find?_iff.mp (node_ok.mp hn)).1
  obtain rfl := Option.some.inj (ht.schema.symm.trans (schemaOf_ok.mp hs))
  exact ht

theorem new {r : Registry} (hr : r.Distinct) : Formed { registry := r } where
  kinds := hr
  ordered := List.Pairwise.nil
  valid := nofun
  fits := nofun
  acyclic := fun id hcycle => by
    have hnone : ∀ u w, ¬Refers { registry := r } u w := fun u w h => by
      obtain ⟨n, -, hn, -⟩ := refers_iff.mp h
      cases hn
    cases hcycle with
    | single h => exact hnone _ _ h
    | tail _ h => exact hnone _ _ h

theorem setField (h : a.Formed) {name : String} {value : FieldValue}
    (run : a.setField id name value = .ok a') :
    a'.Formed ∧ ∀ k, a'.contains k = a.contains k := by
  obtain ⟨n, s, index, spec, hn, hs, hidentity, hindex, hspec, hvalue, rfl⟩ := setField_ok run
  have hfits := h.fits_of hn hs
  refine ⟨h.update (s := s) (node_ok.mp hn) (fun _ => rfl) ?_ rfl rfl
    (fun hmode => absurd hmode hidentity), h.ordered.update_contains (by exact fun _ => rfl) id⟩
  refine { hfits with length := ?_, fields := fun i spec' v hspec' hv => ?_ }
  · rw [List.length_set, hfits.length]
  · rw [List.getElem?_set] at hv
    split at hv
    · rename_i hi
      subst hi
      obtain rfl := Option.some.inj (hspec'.symm.trans (getElem?_of_findIdx? hindex hspec))
      split at hv
      · cases hv
        exact hvalue
      · cases hv
    · exact hfits.fields i spec' v hspec' hv

theorem setAttribute (h : a.Formed) {name : String} {value : FieldValue}
    (run : a.setAttribute id name value = .ok a') :
    a'.Formed ∧ ∀ k, a'.contains k = a.contains k := by
  obtain ⟨n, s, spec, hn, hs, hspec, hvalue, rfl⟩ := setAttribute_ok run
  have hfits := h.fits_of hn hs
  refine ⟨h.update (s := s) (node_ok.mp hn) (fun _ => rfl) ?_ rfl rfl (fun _ => rfl),
    h.ordered.update_contains (by exact fun _ => rfl) id⟩
  refine { hfits with attributes := fun p hp => ?_, once := nodup_putBy _ hfits.once }
  rcases mem_putBy hp with rfl | hp
  · exact ⟨spec, hspec, hvalue⟩
  · exact hfits.attributes p hp

theorem create (h : a.Formed) {ids ids' : IdSupply .node} {kind : String}
    {fields : List FieldValue} (hnew : a.find? ids.peek = none)
    (run : a.create ids kind fields = (.ok (id, a'), ids')) :
    a'.Formed ∧ ids'.counter = ids.counter + 1 ∧
      ∀ k, a'.contains k = true → k = ids.peek ∨ a.contains k = true := by
  obtain ⟨kindId, mode, hprepare, hvalid, hcounter, -, rfl⟩ := create_ok run
  obtain ⟨s, hfits⟩ := prepare_fits hprepare ids.peek
  refine ⟨h.insert hvalid hnew hfits, hcounter, fun k hk => ?_⟩
  rw [contains, h.ordered.insert_find? hnew] at hk
  split at hk
  · rename_i hsame
    exact .inl hsame
  · exact .inr hk

end Formed

end Arena

end TypedSsa

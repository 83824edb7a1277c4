import TypedSsa.Digraph.Search
import TypedSsa.Fault.Basic

/-!
Dominator trees. Immediate dominators are found by passes over a reverse postorder until a pass
changes nothing; the tree, its preorder and the dominance frontiers follow from them. Blocks that
the entry does not reach dominate nothing and are not dominated.
-/

namespace TypedSsa

/-- `places` finds the positions of blocks in `order`. Parents and frontiers go by position; the
entry, at the first, is its own parent. A walk over the tree numbers the blocks as it enters and as
it leaves them, which is what dominance is read from. -/
structure DominatorTree where
  order : Array BlockId
  places : Std.HashMap BlockId Nat
  parents : Array Nat
  frontiers : Array (List Nat)
  preorder : List BlockId
  entered : Std.HashMap BlockId Nat
  left : Std.HashMap BlockId Nat
  passes : Nat
  edges : Nat
deriving Repr

namespace DominatorTree

/-! Positions in the order stand for blocks. -/

/-- Where two walks towards the entry meet. Parents stand at earlier positions, so each step takes
the later of the two up. -/
def meet (parents : Array (Option Nat)) : Nat → Nat → Nat → Nat
  | 0, a, _ => a
  | fuel + 1, a, b =>
    if a = b then a
    else if b < a then meet parents fuel ((parents.getD a none).getD 0) b
    else meet parents fuel a ((parents.getD b none).getD 0)

/-- The parent of a block is where its predecessors meet, of those that have a parent already. -/
def refine (predecessors : Array (List Nat)) (parents : Array (Option Nat)) (b : Nat) :
    Array (Option Nat) :=
  match (predecessors.getD b []).filter (fun p => (parents.getD p none).isSome) with
  | [] => parents
  | p :: ps => parents.setIfInBounds b (some (ps.foldl (fun a p => meet parents (a + p) a p) p))

def pass (predecessors : Array (List Nat)) (parents : Array (Option Nat)) : Array (Option Nat) :=
  (List.range parents.size).tail.foldl (refine predecessors) parents

/-- Passes until one changes nothing, and their number. -/
def settle (predecessors : Array (List Nat)) :
    Nat → Array (Option Nat) → Nat → Array (Option Nat) × Nat
  | 0, parents, passes => (parents, passes)
  | fuel + 1, parents, passes =>
    let next := pass predecessors parents
    if next = parents then (parents, passes + 1)
    else settle predecessors fuel next (passes + 1)

/-- From a block up to the entry. -/
def climb (parents : Array Nat) : Nat → Nat → List Nat
  | 0, b => [b]
  | fuel + 1, b => if b = 0 then [0] else b :: climb parents fuel (parents.getD b 0)

/-- From `b` up to the block before `stop`, or to the entry. -/
def climbBelow (parents : Array Nat) (b stop : Nat) : List Nat :=
  (climb parents b b).takeWhile (· != stop)

/-- The positions at or above a predecessor of `b`, yet not above `b` itself. -/
def belowParent (predecessors : Array (List Nat)) (parents : Array Nat) (b : Nat) :
    Std.HashSet Nat :=
  .ofList ((predecessors.getD b []).flatMap (fun p =>
    climbBelow parents p (parents.getD b 0)))

/-- The frontier of a position has the joins that it is below the parent of. -/
def frontiersOf (predecessors : Array (List Nat)) (parents : Array Nat) : Array (List Nat) :=
  let joins := ((List.range parents.size).filter (fun b =>
    2 ≤ (predecessors.getD b []).length)).map (fun b => (b, belowParent predecessors parents b))
  (Array.range parents.size).map (fun x =>
    (joins.filter (fun (_, below) => below.contains x)).map (·.1))

def childrenOf (parents : Array Nat) (b : Nat) : List Nat :=
  (List.range parents.size).filter (fun c => c != 0 && parents.getD c 0 == b)

/-! Iterated frontiers. -/

/-- The joins found so far, the positions that never waited for their turn, and those that wait,
the next one first. -/
structure Spread where
  joins : Std.HashSet Nat := {}
  fresh : Std.HashSet Nat
  waiting : List Nat

namespace Spread

def start (size : Nat) (seeds : List Nat) : Spread :=
  let queued : Std.HashSet Nat := .ofList seeds
  { fresh := .ofList ((List.range size).filter (fun i => !queued.contains i))
    waiting := seeds.reverse }

/-- A join that is new waits for its turn, unless it waits or had one already. -/
def find (s : Spread) (k : Nat) : Spread :=
  if k ∈ s.joins then s
  else if k ∈ s.fresh then
    { joins := s.joins.insert k, fresh := s.fresh.erase k, waiting := k :: s.waiting }
  else { s with joins := s.joins.insert k }

/-- The turns that may still come. -/
def pending (s : Spread) : Nat :=
  s.fresh.size + s.waiting.length

theorem pending_find (s : Spread) (k : Nat) : (s.find k).pending = s.pending := by
  unfold find
  split
  · rfl
  · split
    · rename_i hfresh
      have hless := Digraph.size_erase_lt hfresh
      rw [Std.HashSet.size_erase, if_pos hfresh] at hless
      simp only [pending, Std.HashSet.size_erase, if_pos hfresh, List.length_cons]
      omega
    · rfl

theorem pending_foldl_find (s : Spread) (ks : List Nat) :
    (ks.foldl find s).pending = s.pending := by
  induction ks generalizing s with
  | nil => rfl
  | cons k ks ih => rw [List.foldl_cons, ih, pending_find]

/-- Takes turns until nothing waits. -/
def run (frontier : Nat → List Nat) : Spread → Spread
  | ⟨joins, fresh, []⟩ => ⟨joins, fresh, []⟩
  | ⟨joins, fresh, i :: rest⟩ => run frontier ((frontier i).foldl find ⟨joins, fresh, rest⟩)
termination_by s => s.pending
decreasing_by
  rw [pending_foldl_find]
  simp [pending]

end Spread

/-- The walk over the tree from the entry. -/
def walk (parents : Array Nat) : Digraph.Search Nat :=
  Digraph.searchFrom (List.range parents.size) (childrenOf parents) [0]

/-- The place of each item in a list. -/
def numbered (blocks : List BlockId) : Std.HashMap BlockId Nat :=
  .ofList blocks.zipIdx

/-- At the start only the entry has a parent. -/
def started (size : Nat) : Array (Option Nat) :=
  (Array.replicate size none).setIfInBounds 0 (some 0)

/-- The tree of some parents. -/
def ofParents (order : Array BlockId) (positions : Array (List Nat)) (parents : Array Nat)
    (passes : Nat) : DominatorTree :=
  let preorder := (walk parents).seen.reverse.filterMap (order[·]?)
  let postorder := (walk parents).left.reverse.filterMap (order[·]?)
  { order
    places := numbered order.toList
    parents
    frontiers := frontiersOf positions parents
    preorder
    entered := numbered preorder
    left := numbered postorder
    passes
    edges := positions.toList.flatten.length }

/-- The tree for blocks in reverse postorder, the entry first. -/
def build (function : String) (order : Array BlockId) (predecessors : BlockId → List BlockId) :
    Except Fault DominatorTree :=
  let places := numbered order.toList
  let positions := order.map (fun b => (predecessors b).filterMap (places[·]?))
  let (parents, passes) := settle positions (order.size * order.size + 1) (started order.size) 0
  match (order.zip parents).find? (fun (_, p) => p.isNone) with
  | some (b, _) => .error (.malformedGraph function b Reason.withoutDominator)
  | none => .ok (ofParents order positions (parents.map (·.getD 0)) passes)

variable (t : DominatorTree)

def position? (b : BlockId) : Option Nat :=
  t.places[b]?

/-- The blocks at some positions. -/
def blocksAt (positions : List Nat) : List BlockId :=
  positions.filterMap (t.order[·]?)

def isReachable (b : BlockId) : Bool :=
  t.places.contains b

/-- A block and its dominators, the nearest first. -/
def dominators (b : BlockId) : List BlockId :=
  match t.position? b with
  | some i => t.blocksAt (climb t.parents i i)
  | none => []

def dominates (a b : BlockId) : Bool :=
  match t.entered[a]?, t.left[a]?, t.entered[b]?, t.left[b]? with
  | some enteredA, some leftA, some enteredB, some leftB => enteredA ≤ enteredB && leftB ≤ leftA
  | _, _, _, _ => false

def strictlyDominates (a b : BlockId) : Bool :=
  a != b && t.dominates a b

/-- None for the entry and for unreachable blocks. -/
def immediateDominator? (b : BlockId) : Option BlockId :=
  match t.position? b with
  | some 0 | none => none
  | some i => t.order[t.parents.getD i 0]?

def children (b : BlockId) : List BlockId :=
  match t.position? b with
  | some i => t.blocksAt (childrenOf t.parents i)
  | none => []

/-- The frontier of one position. -/
def frontierAt (i : Nat) : List Nat :=
  t.frontiers.getD i []

/-- In reverse postorder. -/
def frontier (b : BlockId) : List BlockId :=
  ((t.position? b).map (fun i => t.blocksAt (t.frontierAt i))).getD []

/-- The least set that holds the frontiers of the given blocks and of its own, in reverse
postorder. -/
def iteratedFrontier (blocks : List BlockId) : List BlockId :=
  let seeds := blocks.filterMap t.position?
  let joins := ((Spread.start t.order.size seeds).run t.frontierAt).joins
  t.blocksAt ((List.range t.order.size).filter joins.contains)

/-- The lowest block that dominates both. -/
def lowestCommon? (a b : BlockId) : Option BlockId :=
  if t.isReachable b then (t.dominators a).find? (fun x => t.dominates x b) else none

end DominatorTree

end TypedSsa

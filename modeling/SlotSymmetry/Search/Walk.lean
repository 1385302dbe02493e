import SlotSymmetry.Chain.Basic
import SlotSymmetry.Search.Budget

/-! # Backtrack search

    An element of a group is determined by the images of the base points.  The
    search walks the tree of these images depth first: a node fixes the images of
    the first base points, its children the image of the next one, in ascending
    order.  Elements come out in the lexicographic order of their base images.

    Two tests steer the walk.  `keep` is asked at every node and prunes the
    subtree that it refuses; `accept` is asked at every leaf.  Both may carry a
    memory from one call to the next. -/

namespace SlotSymmetry

/-- What a search asks at its nodes and at its leaves. -/
structure Tests (σ : Type) where
  keep : List Nat → σ → Bool × σ
  accept : SignedPerm → σ → Bool × σ

/-- Tests that carry no memory. -/
def Tests.plain (keep : List Nat → Bool) (accept : SignedPerm → Bool) : Tests Unit :=
  ⟨fun images _ => (keep images, ()), fun g _ => (accept g, ())⟩

/-- A node of the search tree that is still to be visited: the images of the leading base
    points, the product of the transversal elements above it, the orbit point chosen for
    the last of these base points, and the levels below. -/
structure Node where
  images : List Nat
  above : SignedPerm
  choice : Option (Level × Nat)
  below : List Level

namespace Node

/-- The top of the tree. -/
def root (degree : Nat) (levels : List Level) : Node := ⟨[], .id degree, none, levels⟩

/-- The product of the transversal elements chosen so far. -/
def element (node : Node) : SignedPerm :=
  match node.choice with
  | none => node.above
  | some (level, point) => node.above * level.carrier point

/-- The orbit points of a level with their images, in ascending order of these. -/
def candidates (g : SignedPerm) (level : Level) : List (Nat × Nat) :=
  (level.orbit.points.toList.map fun point => (g.act point, point)).mergeSort
    fun x y => decide (x.1 ≤ y.1)

/-- The choices for the next base point after `images`, with `g` above them. -/
def children (images : List Nat) (g : SignedPerm) (level : Level) (below : List Level) :
    List Node :=
  (candidates g level).map fun (image, point) =>
    ⟨images ++ [image], g, some (level, point), below⟩

/-- The number of nodes of a tree with these levels. -/
def treeSize : List Level → Nat
  | [] => 1
  | level :: below => 1 + level.orbit.length * treeSize below

/-- The number of nodes of the trees under these nodes. -/
def weight : List Node → Nat
  | [] => 0
  | node :: rest => treeSize node.below + weight rest

theorem treeSize_pos (levels : List Level) : 0 < treeSize levels := by
  cases levels with
  | nil => exact Nat.zero_lt_one
  | cons level below => rw [treeSize]; omega

theorem weight_append (xs ys : List Node) : weight (xs ++ ys) = weight xs + weight ys := by
  induction xs with
  | nil => simp [weight]
  | cons x xs ih => simp only [List.cons_append, weight, ih]; omega

theorem length_candidates (g : SignedPerm) (level : Level) :
    (candidates g level).length = level.orbit.length := by
  simp [candidates, Orbit.length]

theorem weight_map_choice (images : List Nat) (g : SignedPerm) (level : Level)
    (below : List Level) (choices : List (Nat × Nat)) :
    weight (choices.map fun (image, point) =>
      ⟨images ++ [image], g, some (level, point), below⟩)
      = choices.length * treeSize below := by
  induction choices with
  | nil => simp [weight]
  | cons c cs ih =>
    rw [List.map_cons, weight, ih, List.length_cons, Nat.succ_mul]
    exact Nat.add_comm _ _

/-- The children of a node weigh as much as its tree without the node itself. -/
theorem weight_children (images : List Nat) (g : SignedPerm) (level : Level)
    (below : List Level) :
    weight (children images g level below) = level.orbit.length * treeSize below := by
  rw [children, weight_map_choice, length_candidates]

end Node

/-- A search under way: the nodes still to be visited, next one first, the nodes counted,
    and the memory of the tests. -/
structure Search (σ : Type) where
  agenda : List Node
  meter : Meter
  memory : σ

namespace Search

variable {σ β : Type}

/-- The search of the group with these levels, before its first step. -/
def start (degree : Nat) (levels : List Level) (meter : Meter) (memory : σ) : Search σ :=
  ⟨[.root degree levels], meter, memory⟩

/-- Enters a node that was counted: asks the tests, and puts the children on the agenda. -/
def enter (t : Tests σ) (node : Node) (rest : List Node) (meter : Meter) (memory : σ) :
    Option SignedPerm × Search σ :=
  match t.keep node.images memory with
  | (false, memory) => (none, ⟨rest, meter, memory⟩)
  | (true, memory) =>
      let g := node.element
      match node.below with
      | [] =>
          match t.accept g memory with
          | (true, memory) => (some g, ⟨rest, meter, memory⟩)
          | (false, memory) => (none, ⟨rest, meter, memory⟩)
      | level :: below =>
          (none, ⟨Node.children node.images g level below ++ rest, meter, memory⟩)

/-- Visits the next node, if there is one.  When the budget runs out, nothing is left to
    be visited. -/
def step (t : Tests σ) (s : Search σ) : Option SignedPerm × Search σ :=
  match s.agenda with
  | [] => (none, s)
  | node :: rest =>
      let meter := s.meter.tick
      if meter.exhausted then (none, ⟨[], meter, s.memory⟩)
      else enter t node rest meter s.memory

theorem weight_enter_lt (t : Tests σ) (node : Node) (rest : List Node) (meter : Meter)
    (memory : σ) :
    Node.weight (enter t node rest meter memory).2.agenda < Node.weight (node :: rest) := by
  have hpos := Node.treeSize_pos node.below
  have hskip : Node.weight rest < Node.weight (node :: rest) := by rw [Node.weight]; omega
  unfold enter
  split
  · exact hskip
  · dsimp only
    split
    · split <;> exact hskip
    · rename_i level below hbelow
      show Node.weight (Node.children node.images node.element level below ++ rest) < _
      rw [Node.weight, Node.weight_append, Node.weight_children, hbelow, Node.treeSize]
      omega

/-- Every step takes a node off the tree that is left. -/
theorem weight_step_lt (t : Tests σ) (s : Search σ) (h : s.agenda ≠ []) :
    Node.weight (step t s).2.agenda < Node.weight s.agenda := by
  unfold step
  split
  · contradiction
  · rename_i node rest hagenda
    have hpos := Node.treeSize_pos node.below
    rw [hagenda]
    dsimp only
    split
    · rw [Node.weight, Node.weight]; omega
    · exact weight_enter_lt t node rest _ _

/-- Adds up the elements found, as long as more of them are wanted and nodes are left. -/
def foldWhile (t : Tests σ) (more : β → Bool) (add : β → SignedPerm → β) (found : β)
    (s : Search σ) : β × Search σ :=
  if more found then
    if _h : s.agenda = [] then (found, s)
    else
      let r := step t s
      foldWhile t more add (r.1.elim found (add found)) r.2
  else (found, s)
termination_by Node.weight s.agenda
decreasing_by exact weight_step_lt t s ‹_›

/-- The next element that the tests accept. -/
def next? (t : Tests σ) (s : Search σ) : Option SignedPerm × Search σ :=
  s.foldWhile t (·.isNone) (fun _ g => some g) none

/-- All elements that are left. -/
def all (t : Tests σ) (s : Search σ) : Array SignedPerm × Search σ :=
  s.foldWhile t (fun _ => true) (·.push ·) #[]

/-- The number of elements that are left. -/
def count (t : Tests σ) (s : Search σ) : Nat × Search σ :=
  s.foldWhile t (fun _ => true) (fun n _ => n + 1) 0

end Search

namespace Chain

variable {σ : Type}

/-- A search of the group, before its first step. -/
def search (c : Chain) (budget : Budget) (memory : σ) : Search σ :=
  .start c.degree c.levels (.start budget) memory

/-- The first element that the tests accept, and what they remember at the end. -/
def findFirst (c : Chain) (budget : Budget) (t : Tests σ) (memory : σ) :
    Outcome (Option SignedPerm) × σ :=
  let (found, last) := (c.search budget memory).next? t
  (last.meter.outcome found, last.memory)

/-- All elements that the tests accept, and what they remember at the end. -/
def findAll (c : Chain) (budget : Budget) (t : Tests σ) (memory : σ) :
    Outcome (List SignedPerm) × σ :=
  let (found, last) := (c.search budget memory).all t
  (last.meter.outcome found.toList, last.memory)

/-- The number of elements that the tests accept, and what they remember at the end. -/
def countMatching (c : Chain) (budget : Budget) (t : Tests σ) (memory : σ) :
    Outcome Nat × σ :=
  let (found, last) := (c.search budget memory).count t
  (last.meter.outcome found, last.memory)

end Chain

end SlotSymmetry

import SlotSymmetry.Group.Basic
import SlotSymmetry.Group.Draws

/-! # Enumeration and sampling

    Every element is a product of one transversal element per level, in one way.
    A list of indices, one per level, picks these by the places of their points
    in the orbits.  The enumeration counts the indices up, the one of the last
    level fastest, and keeps the products down to every level, so that only
    those below the last index that did not wrap around are worked out again.
    Drawing the indices, from whatever source, samples the elements. -/

namespace SlotSymmetry

namespace Chain

/-- The product of `g` and, for every level, the transversal element of the orbit point at
    the index of this level. -/
def productAt (g : SignedPerm) : List Level → List Nat → SignedPerm
  | level :: below, i :: is =>
      match level.orbit.points[i]? with
      | some point => productAt (g * level.carrier point) below is
      | none => g
  | _, _ => g

/-- The element that these indices pick. -/
def elementAt (c : Chain) (indices : List Nat) : SignedPerm :=
  productAt (.id c.degree) c.levels indices

/-- The lengths of the orbits. -/
def lengths (c : Chain) : List Nat := c.levels.map (·.orbit.length)

end Chain

/-- An enumeration of the elements of a group under way: the transversal of every level, an index
    into each of them, and the products of the elements at the indices down to every level. -/
structure Elements where
  transversals : List (List SignedPerm)
  counters : List Nat
  products : List SignedPerm
  identity : SignedPerm
  done : Bool

namespace Elements

/-- The products of `g` and the elements at the indices, down to each of the transversals. -/
def productsFrom (g : SignedPerm) : List (List SignedPerm) → List Nat → List SignedPerm
  | transversal :: below, i :: is =>
      match transversal[i]? with
      | some t => g * t :: productsFrom (g * t) below is
      | none => []
  | _, _ => []

/-- Works out the products again from this level on; the ones before it are kept. -/
def refreshFrom (e : Elements) (level : Nat) : Elements :=
  let kept := e.products.take level
  let below := productsFrom (kept.getLastD e.identity) (e.transversals.drop level)
    (e.counters.drop level)
  { e with products := kept ++ below }

/-- The enumeration before its first element. -/
def ofGroup (g : SignedGroup) : Elements :=
  let transversals := g.chain.levels.map fun level =>
    level.orbit.points.toList.filterMap level.transversal
  let start : Elements := ⟨transversals, transversals.map fun _ => 0, [], .id g.degree, false⟩
  start.refreshFrom 0

/-- The product down to the last level. -/
def current (e : Elements) : SignedPerm := e.products.getLastD e.identity

/-- Counts up at the last of the first `level` levels.  An index that wraps around carries to the
    level before, and a carry out of the first level ends the enumeration. -/
def advance : Nat → Elements → Elements
  | 0, e => { e with done := true }
  | level + 1, e =>
      let count := e.counters.getD level 0 + 1
      if count < (e.transversals.getD level []).length then
        { e with counters := e.counters.set level count }.refreshFrom level
      else advance level { e with counters := e.counters.set level 0 }

/-- The next element; nothing once all of them were returned. -/
def next? (e : Elements) : Option SignedPerm × Elements :=
  if e.done then (none, e) else (some e.current, advance e.counters.length e)

end Elements

/-! ## Sampling -/

namespace SignedGroup

/-- The element at one index per level, each drawn below the length of the orbit. -/
def sampleWith {m : Type → Type} [Monad m] (draw : Nat → m Nat) (g : SignedGroup) :
    m SignedPerm := do
  return g.chain.elementAt (← List.mapM draw g.chain.lengths)

/-- A random element, and the number of 64-bit words used to draw it. -/
def sample (g : SignedGroup) (words : List Nat) : SignedPerm × Nat :=
  let (p, rest) := (g.sampleWith Words.draw).run ⟨words, 0⟩
  (p, rest.used)

end SignedGroup

end SlotSymmetry

import SlotSymmetry.Search.Walk
import SlotSymmetry.Perm.Cycles

/-! # Search criteria

    A search takes any tests.  A program that is handed its input as data cannot
    be handed functions, so here are tests that can be written down and combined,
    and the journal that a search by them keeps.  Nothing else depends on them. -/

namespace SlotSymmetry

/-- A test on the images of the leading base points. -/
inductive ImageTest where
  | all
  | none
  /-- Every image is larger than the one before. -/
  | increasing
  /-- The images agree with the pattern as far as both go; a gap agrees with everything. -/
  | pattern (points : List (Option Nat))
  /-- Each image is in the set at its place, as far as both go. -/
  | allowed (sets : List (List Nat))
  /-- No image is one of these points. -/
  | avoids (points : List Nat)
  | lengthAtMost (n : Nat)
  | lengthNot (n : Nat)
  /-- Fewer than `n` nodes were tested before this one. -/
  | callsBelow (n : Nat)
  | and (a b : ImageTest)
  | or (a b : ImageTest)
  | not (a : ImageTest)

namespace ImageTest

/-- Every entry is larger than the one before. -/
def isIncreasing : List Nat → Bool
  | a :: b :: rest => a < b && isIncreasing (b :: rest)
  | _ => true

/-- The images pass the test after `calls` earlier calls. -/
def holds (calls : Nat) (images : List Nat) : ImageTest → Bool
  | all => true
  | none => false
  | increasing => isIncreasing images
  | pattern points => (points.zip images).all fun (want, image) => want.all (· == image)
  | allowed sets => (sets.zip images).all fun (set, image) => set.contains image
  | avoids points => images.all (!points.contains ·)
  | lengthAtMost n => images.length ≤ n
  | lengthNot n => images.length != n
  | callsBelow n => calls < n
  | and a b => a.holds calls images && b.holds calls images
  | or a b => a.holds calls images || b.holds calls images
  | not a => !a.holds calls images

end ImageTest

/-- A test on an element. -/
inductive ElementTest where
  | all
  | none
  /-- Every point is fixed. -/
  | identity
  /-- No point is fixed. -/
  | derangement
  | parity (wanted : Int)
  | flips (wanted : Bool)
  | order (n : Nat)
  /-- So many points are moved. -/
  | support (n : Nat)
  /-- The point is sent to this image. -/
  | maps (point image : Nat)
  | commutes (x : SignedPerm)
  | member (c : Chain)
  /-- The call has a number that `n` divides. -/
  | every (n : Nat)
  | and (a b : ElementTest)
  | or (a b : ElementTest)
  | not (a : ElementTest)

/-- The element passes the test at the call with this number, counted from one. -/
def ElementTest.holds (call : Nat) (g : SignedPerm) : ElementTest → Bool
  | all => true
  | none => false
  | identity => g.isIdentity
  | derangement => g.support.length == g.degree
  | parity wanted => g.parity == wanted
  | flips wanted => g.flips == wanted
  | order n => g.order == n
  | support n => g.support.length == n
  | maps point image => g.image[point]? == some image
  | commutes x => g.degree == x.degree && g * x == x * g
  | member c => c.contains g
  | every n => call % n == 0
  | and a b => a.holds call g && b.holds call g
  | or a b => a.holds call g || b.holds call g
  | not a => !a.holds call g

/-- The test multiplies the element with a permutation that sends a point out of range. -/
def ElementTest.overruns (call : Nat) (g : SignedPerm) : ElementTest → Bool
  | commutes x => g.degree == x.degree && !x.imageInRange
  | and a b => a.overruns call g || (a.holds call g && b.overruns call g)
  | or a b => a.overruns call g || (!a.holds call g && b.overruns call g)
  | not a => a.overruns call g
  | _ => false

/-- The images tested so far, in order, the number of elements tested, and whether one of
    these tests had no answer. -/
structure Journal where
  visits : Array (List Nat)
  leaves : Nat
  overrun : Bool

namespace Journal

/-- Nothing is tested yet. -/
def empty : Journal := ⟨#[], 0, false⟩

/-- The result of a search that kept this journal, if all of its tests had an answer. -/
def confirm {α : Type} (journal : Journal) (result : α) : Except PermError α :=
  if journal.overrun then .error .missingEntry else .ok result

end Journal

/-- The tests of a search by these criteria. -/
def Tests.ofCriteria (images : ImageTest) (element : ElementTest) : Tests Journal where
  keep w journal :=
    (images.holds journal.visits.size w, { journal with visits := journal.visits.push w })
  accept g journal :=
    let call := journal.leaves + 1
    (element.holds call g,
      { journal with leaves := call, overrun := journal.overrun || element.overruns call g })

end SlotSymmetry

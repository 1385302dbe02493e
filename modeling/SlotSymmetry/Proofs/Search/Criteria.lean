import SlotSymmetry.Proofs.Search.Calls
import SlotSymmetry.Search.Criteria

/-! # Searches by criteria

    A criterion is a syntax tree.  Criteria that do not look at the number of
    calls answer by the images or the element alone, so a search by them is the
    search with plain tests, and its journal is what can be read off the calls of
    these (`ofCriteria_seen`).  By induction on the tree, a criterion on images
    that is built by conjunctions and disjunctions from tests of every place
    keeps the start of whatever it keeps, and then only the images of the whole
    base matter to what the search lists. -/

namespace SlotSymmetry

/-! ## Criteria on images -/

namespace ImageTest

variable {t : ImageTest} {v w : List Nat}

/-- The criterion does not look at the number of calls. -/
def Uncounted : ImageTest → Prop
  | callsBelow _ => False
  | and a b => a.Uncounted ∧ b.Uncounted
  | or a b => a.Uncounted ∧ b.Uncounted
  | not a => a.Uncounted
  | _ => True

/-- The criterion is built by conjunctions and disjunctions from tests that keep the start of
    whatever they keep. -/
def Closed : ImageTest → Prop
  | callsBelow _ => False
  | lengthNot _ => False
  | not _ => False
  | and a b => a.Closed ∧ b.Closed
  | or a b => a.Closed ∧ b.Closed
  | _ => True

theorem Closed.uncounted (h : t.Closed) : t.Uncounted := by
  induction t with
  | and a b iha ihb => exact ⟨iha h.1, ihb h.2⟩
  | or a b iha ihb => exact ⟨iha h.1, ihb h.2⟩
  | callsBelow n => exact h
  | lengthNot n => exact h.elim
  | not a => exact h.elim
  | _ => trivial

theorem holds_of_uncounted (h : t.Uncounted) (calls : Nat) (images : List Nat) :
    t.holds calls images = t.holds 0 images := by
  induction t with
  | and a b iha ihb => rw [holds, holds, iha h.1, ihb h.2]
  | or a b iha ihb => rw [holds, holds, iha h.1, ihb h.2]
  | not a iha => rw [holds, holds, iha h]
  | callsBelow n => exact h.elim
  | _ => rfl

theorem isIncreasing_of_start : ∀ {v w : List Nat}, v <+: w → isIncreasing w = true →
    isIncreasing v = true
  | [], _, _, _ => rfl
  | [_], _, _, _ => rfl
  | a :: b :: v, w, hpre, hw => by
      obtain ⟨rest, rfl⟩ := hpre
      rw [List.cons_append, List.cons_append, isIncreasing, Bool.and_eq_true] at hw
      rw [isIncreasing, Bool.and_eq_true]
      exact ⟨hw.1, isIncreasing_of_start (List.prefix_append (b :: v) rest) hw.2⟩

theorem zip_subset_of_start {α : Type} (places : List α) (hpre : v <+: w) :
    places.zip v ⊆ places.zip w := by
  obtain ⟨rest, rfl⟩ := hpre
  induction places generalizing v with
  | nil => exact List.Subset.refl _
  | cons place places ih =>
      cases v with
      | nil => exact List.nil_subset _
      | cons image v => exact List.cons_subset_cons _ ih

/-- Such a criterion keeps the start of whatever it keeps. -/
theorem Closed.prefixClosed (h : t.Closed) : Chain.PrefixClosed (t.holds 0) := by
  intro v w hpre hw
  change t.holds 0 w = true at hw
  show t.holds 0 v = true
  induction t with
  | all => rfl
  | none => exact hw
  | increasing => exact isIncreasing_of_start hpre hw
  | pattern points =>
      have hall := List.all_eq_true.mp hw
      exact List.all_eq_true.mpr fun x hx => hall x (zip_subset_of_start points hpre hx)
  | allowed sets =>
      have hall := List.all_eq_true.mp hw
      exact List.all_eq_true.mpr fun x hx => hall x (zip_subset_of_start sets hpre hx)
  | avoids points =>
      have hall := List.all_eq_true.mp hw
      exact List.all_eq_true.mpr fun x hx => hall x (hpre.subset hx)
  | lengthAtMost n =>
      rw [holds, decide_eq_true_eq] at hw ⊢
      exact hpre.length_le.trans hw
  | lengthNot n => exact h.elim
  | callsBelow n => exact h.elim
  | not a => exact h.elim
  | and a b iha ihb =>
      rw [holds, Bool.and_eq_true] at hw ⊢
      exact ⟨iha h.1 hw.1, ihb h.2 hw.2⟩
  | or a b iha ihb =>
      rw [holds, Bool.or_eq_true] at hw ⊢
      exact hw.imp (iha h.1) (ihb h.2)

end ImageTest

/-! ## Criteria on elements -/

namespace ElementTest

variable {t : ElementTest}

/-- The criterion does not look at the number of calls. -/
def Uncounted : ElementTest → Prop
  | every _ => False
  | and a b => a.Uncounted ∧ b.Uncounted
  | or a b => a.Uncounted ∧ b.Uncounted
  | not a => a.Uncounted
  | _ => True

theorem holds_of_uncounted (h : t.Uncounted) (call : Nat) (g : SignedPerm) :
    t.holds call g = t.holds 0 g := by
  induction t with
  | and a b iha ihb => rw [holds, holds, iha h.1, ihb h.2]
  | or a b iha ihb => rw [holds, holds, iha h.1, ihb h.2]
  | not a iha => rw [holds, holds, iha h]
  | every n => exact h.elim
  | _ => rfl

theorem overruns_of_uncounted (h : t.Uncounted) (call : Nat) (g : SignedPerm) :
    t.overruns call g = t.overruns 0 g := by
  induction t with
  | and a b iha ihb =>
      rw [overruns, overruns, iha h.1, ihb h.2, holds_of_uncounted h.1]
  | or a b iha ihb =>
      rw [overruns, overruns, iha h.1, ihb h.2, holds_of_uncounted h.1]
  | not a iha => rw [overruns, overruns, iha h]
  | _ => rfl

end ElementTest

/-! ## The journal -/

/-- What the journal says of these calls. -/
def Journal.ofCalls (element : ElementTest) (calls : Calls) : Journal :=
  ⟨calls.images.toArray, calls.elements.length, calls.elements.any (element.overruns 0)⟩

variable {images : ImageTest} {element : ElementTest}

/-- Tests by criteria answer as plain tests do, and keep a journal of the calls. -/
theorem Tests.ofCriteria_seen (himages : images.Uncounted) (helement : element.Uncounted) :
    Tests.Seen (fun memory : Unit × Calls => Journal.ofCalls element memory.2)
      (Tests.plain (images.holds 0) (element.holds 0)).recorded
      (Tests.ofCriteria images element) := by
  refine ⟨fun w memory => ?_, fun g memory => ?_⟩
  · refine Prod.ext (ImageTest.holds_of_uncounted himages _ w) ?_
    simp [Tests.ofCriteria, Tests.recorded, Journal.ofCalls]
  · refine Prod.ext (ElementTest.holds_of_uncounted helement _ g) ?_
    simp [Tests.ofCriteria, Tests.recorded, Journal.ofCalls,
      ElementTest.overruns_of_uncounted helement]

namespace Chain

variable {n : Nat} {gens : List SignedPerm} {wanted : List Nat} {c : Chain}

/-- Without limits, a search by criteria that do not count lists what plain tests list, and its
    journal is that of the calls of these. -/
theorem findAll_ofCriteria (c : Chain) (himages : images.Uncounted)
    (helement : element.Uncounted) : c.findAll .unlimited (Tests.ofCriteria images element) .empty
      = ((c.findAll .unlimited (Tests.plain (images.holds 0) (element.holds 0)) ()).1,
        .ofCalls element (c.calls (images.holds 0))) := by
  have hseen := findAll_mapMemory (Tests.ofCriteria_seen himages helement) c .unlimited
    ((), Calls.none)
  rw [findAll_recorded] at hseen
  exact hseen

/-- A search by such criteria, of which the one on images keeps the start of whatever it keeps,
    lists the members whose base images and which themselves pass, each once and in ascending order
    of base images.  The journal has the questions that were asked on the way. -/
theorem criteria_exact (hvalid : ∀ g ∈ gens, g.Valid)
    (hc : buildWithBase n gens wanted = .ok c) (himages : images.Closed)
    (helement : element.Uncounted) : ∃ found calls,
      c.findAll .unlimited (Tests.ofCriteria images element) .empty
        = (.complete found, .ofCalls element calls)
      ∧ (∀ p : SignedPerm, p ∈ found ↔ (p.Valid ∧ c.contains p = true)
        ∧ images.holds 0 (c.base.map p.act) = true ∧ element.holds 0 p = true)
      ∧ found.Nodup ∧ (found.Pairwise fun p q => c.base.map p.act < c.base.map q.act)
      ∧ Asked c (images.holds 0) calls := by
  obtain ⟨hlt, hdegree⟩ := inputs_of_ok hc
  have hfinished := finished_of_ok (fun g hg => ⟨hvalid g hg, hdegree g hg⟩) hlt hc
  have hlists := hfinished.lists_harvest (images.holds 0) (element.holds 0)
  refine ⟨_, _, ?_, hlists.closed himages.prefixClosed, hlists.nodup, hlists.ascending,
    hfinished.asked _⟩
  rw [c.findAll_ofCriteria himages.uncounted helement, findAll_eq_harvest]

end Chain

end SlotSymmetry

import SlotSymmetry.Proofs.Search.Limits

/-! # Queries with a limit on their nodes

    A query may run many searches on one meter, each counting on from where the
    one before stopped (`foldWhile_after`).  If the ends of a query under any two
    budgets compare, it obeys the law of a limit on nodes (`Metered.limited`):
    the outcome depends on whether the nodes that the query counts without limits
    are within the limit. -/

namespace SlotSymmetry

/-- A limit on the nodes alone. -/
def Budget.ofNodes (m : Nat) : Budget := ⟨some m, none⟩

theorem Budget.within_ofNodes {m m' : Nat} (h : m ≤ m') : (ofNodes m).Within (ofNodes m') := by
  intro k hspent
  simp only [isSpentAt_iff, ofNodes, Option.some.injEq, exists_eq_left', reduceCtorEq, and_false,
    or_false] at hspent ⊢
  omega

/-! ## Counting on from another count -/

/-- A meter that has counted so many nodes before. -/
def Meter.after (before : Nat) (m : Meter) : Meter := { m with nodes := before + m.nodes }

theorem Meter.carried_after (before : Nat) : Meter.Carried Meter.Free (Meter.after before) := by
  refine ⟨fun m hm => hm.tick, fun m hm => hm, fun m hm _ => ?_⟩
  rw [tick_of_going hm.going, tick_of_going (show (m.after before).exhausted = false from hm.going),
    hm.budget_eq]
  show Meter.mk m.budget _ (m.budget.isSpentAt _) = Meter.mk _ _ _
  rw [hm.budget_eq, Budget.isSpentAt_unlimited, Budget.isSpentAt_unlimited]
  rfl

/-- Without limits, a run finds the same whatever was counted before, and counts on from there. -/
theorem Search.foldWhile_after {σ β : Type} (t : Tests σ) (more : β → Bool)
    (add : β → SignedPerm → β) (found : β) {s : Search σ} (hs : s.meter.Free) (before : Nat) :
    foldWhile t more add found (s.mapMeter (Meter.after before))
      = ((foldWhile t more add found s).1,
        (foldWhile t more add found s).2.mapMeter (Meter.after before)) :=
  foldWhile_mapMeter (Meter.carried_after before) hs (free_foldWhile hs).going

/-! ## The law -/

section Law

variable {α : Type} {le : α → α → Prop} {query : Budget → Except GroupError (Outcome α)}

/-- The law of a limit on the nodes of a query that, without limits, counts so many nodes and
    answers `whole`: it answers the same if the nodes are within the limit, and otherwise stops at
    the node after the limit, holding a part.  It holds the more, the wider the limit is. -/
structure Limited (le : α → α → Prop) (nodes : Nat)
    (query : Budget → Except GroupError (Outcome α)) (whole : α) (held : Nat → α) : Prop where
  free : query .unlimited = .ok (.complete whole)
  complete : ∀ m, nodes ≤ m → query (.ofNodes m) = .ok (.complete whole) ∧ held m = whole
  incomplete : ∀ m, m < nodes → query (.ofNodes m) = .ok (.incomplete (held m) (m + 1))
  part : ∀ m, le (held m) whole
  mono : ∀ m m', m ≤ m' → le (held m) (held m')

/-- A query that is answered by what it holds at its end and by its meter, and whose ends under
    any two budgets compare. -/
structure Metered (le : α → α → Prop) (query : Budget → Except GroupError (Outcome α))
    (value : Budget → α) (meter : Budget → Meter) : Prop where
  answer : ∀ budget, query budget = .ok ((meter budget).outcome (value budget))
  onward : ∀ budget, (Meter.start budget).Onward (meter budget)
  trails : ∀ budget wider, budget.Within wider →
    Trails le wider (value budget) (meter budget) (value wider) (meter wider)

theorem Metered.limited {value : Budget → α} {meter : Budget → Meter}
    (h : Metered le query value meter) (hrefl : ∀ v, le v v) :
    Limited le (meter .unlimited).nodes query (value .unlimited)
      (fun m => value (.ofNodes m)) := by
  have hfree : ∀ m, Trails le .unlimited (value (.ofNodes m)) (meter (.ofNodes m))
      (value .unlimited) (meter .unlimited) :=
    fun m => h.trails _ _ (Budget.ofNodes m).within_unlimited
  have hfirst : ∀ m, (Budget.ofNodes m).firstSpent = some (m + 1) := fun _ => rfl
  constructor
  · rw [h.answer, Meter.outcome_of_going]
    refine Bool.eq_false_iff.mpr fun hspent => ?_
    exact nomatch (h.onward _).exhausted_iff.mp hspent
  · intro m hle
    have hgoing := (hfree m).going_of_lt (h.onward _) (by simpa [hfirst] using hle)
    rw [h.answer, Meter.outcome_of_going hgoing, ((hfree m).going hgoing).1]
    exact ⟨rfl, rfl⟩
  · intro m hlt
    obtain ⟨hspent, hnodes⟩ := (hfree m).spent_of_le (h.onward _) (hfirst m) hlt
    rw [h.answer, Meter.outcome_of_exhausted hspent, hnodes]
  · exact fun m => (hfree m).value_le hrefl
  · exact fun m m' hle => (h.trails _ _ (Budget.within_ofNodes hle)).value_le hrefl

end Law

end SlotSymmetry

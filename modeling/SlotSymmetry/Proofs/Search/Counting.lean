import SlotSymmetry.Proofs.Search.Run

/-! # Counting nodes

    A budget is spent for the first time at a count of nodes that can be read
    off its limits.  A meter that counts from zero is exhausted exactly when it
    stands at this count, so the count at which a query ends tells whether the
    query was cut short.  Steps and runs of a search only ever count on, and
    once the meter is exhausted there is nothing left to visit. -/

namespace SlotSymmetry

/-! ## The first count at which a budget is spent -/

namespace Budget

/-- The first count of nodes at which the budget is spent, if there is one. -/
def firstSpent (budget : Budget) : Option Nat :=
  match budget.maxNodes, budget.deadline with
  | some m, some .passed => some (min (m + 1) 64)
  | some m, _ => some (m + 1)
  | none, some .passed => some 64
  | none, _ => none

variable {budget : Budget} {limit k : Nat}

theorem isSpentAt_iff : budget.isSpentAt k = true ↔
    (∃ m, budget.maxNodes = some m ∧ m < k) ∨ (k % 64 = 0 ∧ budget.deadline = some .passed) := by
  rw [isSpentAt, Bool.or_eq_true, Bool.and_eq_true, beq_iff_eq, beq_iff_eq]
  cases budget.maxNodes <;> simp

theorem isSpentAt_of_none (h : budget.firstSpent = none) (k : Nat) :
    budget.isSpentAt k = false := by
  obtain ⟨maxNodes, deadline⟩ := budget
  rw [Bool.eq_false_iff, ne_eq, isSpentAt_iff]
  rcases maxNodes with _ | m <;> rcases deadline with _ | _ | _ <;> simp [firstSpent] at h ⊢

/-- The budget is spent at the first count, and at none before. -/
theorem firstSpent_spec (h : budget.firstSpent = some limit) :
    0 < limit ∧ budget.isSpentAt limit = true
      ∧ ∀ k, 0 < k → k < limit → budget.isSpentAt k = false := by
  obtain ⟨maxNodes, deadline⟩ := budget
  simp only [Bool.eq_false_iff, ne_eq, isSpentAt_iff]
  rcases maxNodes with _ | m <;> rcases deadline with _ | _ | _ <;>
    simp only [firstSpent, Option.some.injEq, reduceCtorEq] at h <;> subst h <;> simp
  · exact fun k hpos hlt => by omega
  · exact ⟨by omega, fun k hpos hle hlt => by omega⟩

theorem firstSpent_eq_of_first (hlimit : 0 < limit) (hspent : budget.isSpentAt limit = true)
    (hbefore : ∀ k, 0 < k → k < limit → budget.isSpentAt k = false) :
    budget.firstSpent = some limit := by
  cases hfirst : budget.firstSpent with
  | none =>
      rw [isSpentAt_of_none hfirst] at hspent
      exact nomatch hspent
  | some first =>
      obtain ⟨hpos, hspent', hbefore'⟩ := firstSpent_spec hfirst
      rcases Nat.lt_trichotomy first limit with hlt | rfl | hlt
      · rw [hbefore first hpos hlt] at hspent'
        exact nomatch hspent'
      · rfl
      · rw [hbefore' limit hlimit hlt] at hspent
        exact nomatch hspent

end Budget

/-! ## Meters that count from zero -/

namespace Meter

/-- The budget was not spent at any count before, and the meter is exhausted if it is spent now. -/
structure Counted (m : Meter) : Prop where
  before : ∀ k, 0 < k → k < m.nodes → m.budget.isSpentAt k = false
  now : m.exhausted = true ↔ 0 < m.nodes ∧ m.budget.isSpentAt m.nodes = true

variable {m m' m'' : Meter}

theorem start_counted (budget : Budget) : (start budget).Counted :=
  ⟨fun k _ hk => absurd hk (Nat.not_lt_zero k), nofun, fun h => absurd h.1 (Nat.lt_irrefl 0)⟩

theorem tick_of_going (h : m.exhausted = false) :
    m.tick = ⟨m.budget, m.nodes + 1, m.budget.isSpentAt (m.nodes + 1)⟩ := by
  rw [tick, h]
  rfl

theorem tick_of_exhausted (h : m.exhausted = true) : m.tick = m := by
  rw [tick, if_pos h]

/-- A counted meter is exhausted exactly at the first count at which its budget is spent. -/
theorem Counted.exhausted_iff (h : m.Counted) :
    m.exhausted = true ↔ m.budget.firstSpent = some m.nodes := by
  rw [h.now]
  constructor
  · rintro ⟨hpos, hspent⟩
    exact Budget.firstSpent_eq_of_first hpos hspent h.before
  · intro hfirst
    obtain ⟨hpos, hspent, -⟩ := Budget.firstSpent_spec hfirst
    exact ⟨hpos, hspent⟩

/-- As long as a counted meter is going, it has not come to that count. -/
theorem Counted.lt_of_going (h : m.Counted) (hgoing : m.exhausted = false) {limit : Nat}
    (hlimit : m.budget.firstSpent = some limit) : m.nodes < limit := by
  obtain ⟨hpos, hspent, -⟩ := Budget.firstSpent_spec hlimit
  rcases Nat.lt_trichotomy m.nodes limit with hlt | heq | hlt
  · exact hlt
  · rw [← heq, ← h.exhausted_iff, hgoing] at hlimit
    exact nomatch hlimit
  · rw [h.before limit hpos hlt] at hspent
    exact nomatch hspent

/-- The second meter may be what the first one has become. -/
structure Onward (m m' : Meter) : Prop where
  budget_eq : m'.budget = m.budget
  nodes_le : m.nodes ≤ m'.nodes
  counted : m.Counted → m'.Counted

theorem Onward.refl (m : Meter) : m.Onward m := ⟨rfl, Nat.le_refl _, fun h => h⟩

theorem Onward.trans (h : m.Onward m') (h' : m'.Onward m'') : m.Onward m'' :=
  ⟨h'.budget_eq.trans h.budget_eq, Nat.le_trans h.nodes_le h'.nodes_le,
    fun hm => h'.counted (h.counted hm)⟩

theorem Counted.tick (h : m.Counted) : m.tick.Counted := by
  cases hm : m.exhausted with
  | true =>
      rw [tick_of_exhausted hm]
      exact h
  | false =>
      rw [tick_of_going hm]
      refine ⟨fun k hpos hk => ?_, ?_⟩
      · rcases Nat.lt_or_eq_of_le (Nat.le_of_lt_succ hk) with hlt | rfl
        · exact h.before k hpos hlt
        · -- the meter was going, so its budget was not spent where it stood
          refine Bool.eq_false_iff.mpr fun hspent => ?_
          exact nomatch hm.symm.trans (h.now.mpr ⟨hpos, hspent⟩)
      · exact ⟨fun hspent => ⟨Nat.succ_pos _, hspent⟩, fun hspent => hspent.2⟩

theorem tick_onward (m : Meter) : m.Onward m.tick := by
  refine ⟨?_, ?_, Counted.tick⟩
  · rw [tick]
    split <;> rfl
  · rw [tick]
    split
    · exact Nat.le_refl _
    · exact Nat.le_succ _

/-- A meter that was started under a budget is exhausted exactly at the first count at which this
    budget is spent. -/
theorem Onward.exhausted_iff {budget : Budget} (h : (start budget).Onward m) :
    m.exhausted = true ↔ budget.firstSpent = some m.nodes := by
  rw [(h.counted (start_counted budget)).exhausted_iff, h.budget_eq]
  rfl

theorem Onward.lt_of_going {budget : Budget} (h : (start budget).Onward m)
    (hgoing : m.exhausted = false) {limit : Nat} (hlimit : budget.firstSpent = some limit) :
    m.nodes < limit := by
  refine (h.counted (start_counted budget)).lt_of_going hgoing ?_
  rw [h.budget_eq]
  exact hlimit

end Meter

/-! ## Steps and runs -/

namespace Search

variable {σ β : Type}

/-- Nothing is left to visit once the meter is exhausted. -/
def Settled (s : Search σ) : Prop := s.meter.exhausted = true → s.agenda = []

/-- What every step keeps is kept by a run. -/
theorem foldWhile_keeps {t : Tests σ} {P : Search σ → Prop} (hstep : ∀ s, P s → P (step t s).2)
    {more : β → Bool} {add : β → SignedPerm → β} {found : β} {s : Search σ} (h : P s) :
    P (foldWhile t more add found s).2 := by
  induction found, s using foldWhile.induct t more add with
  | case1 found s hmore hdone =>
      rw [foldWhile_of_done t more add found hdone]
      exact h
  | case2 found s hmore hagenda r ih =>
      rw [foldWhile_of_more t add hmore hagenda]
      exact ih (hstep s h)
  | case3 found s hmore =>
      rw [foldWhile_of_enough t add s (Bool.eq_false_iff.mpr hmore)]
      exact h

theorem step_of_done {t : Tests σ} {s : Search σ} (h : s.agenda = []) : step t s = (none, s) := by
  rw [step, h]

/-- A step that has a node to visit counts it. -/
theorem meter_step {t : Tests σ} {s : Search σ} (h : s.agenda ≠ []) :
    (step t s).2.meter = s.meter.tick := by
  obtain ⟨node, rest, hs⟩ := List.exists_cons_of_ne_nil h
  cases hspent : s.meter.tick.exhausted with
  | true => rw [step_of_exhausted hs hspent]
  | false => rw [step_of_going hs hspent, meter_enter]

theorem step_onward (t : Tests σ) (s : Search σ) : s.meter.Onward (step t s).2.meter := by
  by_cases h : s.agenda = []
  · rw [step_of_done h]
    exact .refl _
  · rw [meter_step h]
    exact s.meter.tick_onward

theorem foldWhile_onward (t : Tests σ) (more : β → Bool) (add : β → SignedPerm → β) (found : β)
    (s : Search σ) : s.meter.Onward (foldWhile t more add found s).2.meter :=
  foldWhile_keeps (P := fun s' => s.meter.Onward s'.meter)
    (fun s' hs => hs.trans (step_onward t s')) (.refl _)

theorem next_onward (t : Tests σ) (s : Search σ) : s.meter.Onward (s.next? t).2.meter :=
  foldWhile_onward t _ _ none s

theorem settled_step (t : Tests σ) (s : Search σ) : (step t s).2.Settled := by
  intro hspent
  by_cases hagenda : s.agenda = []
  · rw [step_of_done hagenda]
    exact hagenda
  · rw [meter_step hagenda] at hspent
    obtain ⟨node, rest, hs⟩ := List.exists_cons_of_ne_nil hagenda
    rw [step_of_exhausted hs hspent]

theorem Settled.foldWhile {t : Tests σ} {more : β → Bool} {add : β → SignedPerm → β} {found : β}
    {s : Search σ} (h : s.Settled) : (foldWhile t more add found s).2.Settled :=
  foldWhile_keeps (fun s _ => settled_step t s) h

/-- Once the meter is exhausted, there is no next element, and nothing is visited any more. -/
theorem next_of_exhausted {t : Tests σ} {s : Search σ} (h : s.Settled)
    (hspent : s.meter.exhausted = true) : s.next? t = (none, s) :=
  foldWhile_of_done t _ _ none (h hspent)

end Search

end SlotSymmetry

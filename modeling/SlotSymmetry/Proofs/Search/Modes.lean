import SlotSymmetry.Proofs.Search.Limits

/-! # The modes of a search

    A search is asked for its first element, for all elements or for their
    number, or it is pulled element by element.  All these are runs of the same
    steps.  `Drains t s found last` says that the steps from `s` on yield the
    elements `found` until nothing is left to visit, at the search `last`.
    Every search drains, because a step takes weight off its agenda.  A pull
    goes as far as the first element (`Drains.next_of_cons`), so pulls bring the elements
    one after another; a run that always wants more adds up all of them
    (`Drains.foldWhile_eq`).  No mode asks the tests a question twice or leaves
    one out, so this also holds of tests whose answers depend on earlier calls. -/

namespace SlotSymmetry

theorem Meter.map_outcome {α β : Type} (m : Meter) (f : α → β) (value : α) :
    (m.outcome value).map f = m.outcome (f value) := by
  unfold outcome
  split <;> rfl

namespace Search

variable {σ β : Type}

/-- The steps from the first search on yield these elements until nothing is left to visit, at
    the second search. -/
inductive Drains (t : Tests σ) : Search σ → List SignedPerm → Search σ → Prop where
  | done {s : Search σ} : s.agenda = [] → Drains t s [] s
  | silent {s s' last : Search σ} {found : List SignedPerm} :
      s.agenda ≠ [] → step t s = (none, s') → Drains t s' found last → Drains t s found last
  | yield {s s' last : Search σ} {g : SignedPerm} {found : List SignedPerm} :
      s.agenda ≠ [] → step t s = (some g, s') → Drains t s' found last →
        Drains t s (g :: found) last

/-- The search after so many pulls. -/
def pulled (t : Tests σ) (pulls : Nat) (s : Search σ) : Search σ :=
  (fun s => (next? t s).2)^[pulls] s

variable {t : Tests σ} {s s' last : Search σ} {g : SignedPerm} {found : List SignedPerm}

/-- Every search drains. -/
theorem exists_drains (t : Tests σ) (s : Search σ) : ∃ found last, Drains t s found last := by
  induction hw : Node.weight s.agenda using Nat.strongRecOn generalizing s with
  | ind weight ih =>
      by_cases hagenda : s.agenda = []
      · exact ⟨[], s, .done hagenda⟩
      · have hlt : Node.weight (step t s).2.agenda < weight := hw ▸ weight_step_lt t s hagenda
        obtain ⟨found, last, hdrains⟩ := ih _ hlt (step t s).2 rfl
        cases hstep : (step t s).1 with
        | none => exact ⟨found, last, .silent hagenda (Prod.ext hstep rfl) hdrains⟩
        | some g => exact ⟨g :: found, last, .yield hagenda (Prod.ext hstep rfl) hdrains⟩

theorem Drains.agenda_eq (h : Drains t s found last) : last.agenda = [] := by
  induction h with
  | done hagenda => exact hagenda
  | silent _ _ _ ih => exact ih
  | yield _ _ _ ih => exact ih

/-- A run that always wants more adds up all elements. -/
theorem Drains.foldWhile_eq (h : Drains t s found last) (add : β → SignedPerm → β) (start : β) :
    foldWhile t (fun _ => true) add start s = (found.foldl add start, last) := by
  induction h generalizing start with
  | done hagenda => exact foldWhile_of_done t _ add start hagenda
  | silent hagenda hstep _ ih =>
      rw [foldWhile_of_more t add rfl hagenda, hstep]
      exact ih start
  | yield hagenda hstep _ ih =>
      rw [foldWhile_of_more t add rfl hagenda, hstep]
      exact ih (add start _)

theorem Drains.all_eq (h : Drains t s found last) : s.all t = (found.toArray, last) := by
  rw [all, h.foldWhile_eq]
  simp

/-! ## One pull -/

theorem next_of_done (h : s.agenda = []) : next? t s = (none, s) :=
  foldWhile_of_done t _ _ none h

theorem next_of_silent (hagenda : s.agenda ≠ []) (hstep : step t s = (none, s')) :
    next? t s = next? t s' := by
  rw [next?, foldWhile_of_more t _ rfl hagenda, hstep]
  rfl

theorem next_of_yield (hagenda : s.agenda ≠ []) (hstep : step t s = (some g, s')) :
    next? t s = (some g, s') := by
  rw [next?, foldWhile_of_more t _ rfl hagenda, hstep]
  exact foldWhile_of_enough t _ s' rfl

/-- An element comes only as long as the budget is not spent. -/
theorem going_of_yield (hagenda : s.agenda ≠ []) (hstep : step t s = (some g, s')) :
    s'.meter.exhausted = false := by
  obtain ⟨node, rest, hs⟩ := List.exists_cons_of_ne_nil hagenda
  cases hspent : s.meter.tick.exhausted with
  | true =>
      rw [step_of_exhausted hs hspent] at hstep
      exact nomatch congrArg Prod.fst hstep
  | false =>
      have hmeter : s'.meter = s.meter.tick := by rw [← meter_step hagenda, hstep]
      rw [hmeter, hspent]

/-- A pull goes as far as the first element, -/
theorem Drains.next_of_cons {rest : List SignedPerm} (h : Drains t s (g :: rest) last) :
    ∃ s', next? t s = (some g, s') ∧ s'.meter.exhausted = false ∧ Drains t s' rest last := by
  generalize hfound : g :: rest = found at h
  induction h with
  | done _ => exact nomatch hfound
  | silent hagenda hstep _ ih =>
      rw [next_of_silent hagenda hstep]
      exact ih hfound
  | yield hagenda hstep hrest _ =>
      obtain ⟨rfl, rfl⟩ := List.cons.inj hfound
      exact ⟨_, next_of_yield hagenda hstep, going_of_yield hagenda hstep, hrest⟩

/-- and if there is none, to the end. -/
theorem Drains.next_of_nil (h : Drains t s [] last) : next? t s = (none, last) := by
  generalize hfound : [] = found at h
  induction h with
  | done hagenda => exact next_of_done hagenda
  | silent hagenda hstep _ ih =>
      rw [next_of_silent hagenda hstep]
      exact ih hfound
  | yield _ _ _ _ => exact nomatch hfound

/-! ## Pull after pull -/

theorem pulled_succ (t : Tests σ) (k : Nat) (s : Search σ) :
    s.pulled t (k + 1) = ((next? t s).2).pulled t k :=
  Function.iterate_succ_apply _ k s

theorem pulled_of_done (h : s.agenda = []) (k : Nat) : s.pulled t k = s :=
  Function.iterate_fixed (congrArg Prod.snd (next_of_done h)) k

/-- Pulls bring the elements one after another, and then none. -/
theorem Drains.next_pulled (h : Drains t s found last) (k : Nat) :
    (next? t (s.pulled t k)).1 = found[k]? := by
  induction k generalizing s found with
  | zero =>
      show (next? t s).1 = found[0]?
      cases found with
      | nil =>
          rw [h.next_of_nil]
          rfl
      | cons g rest =>
          obtain ⟨s', hnext, -, -⟩ := h.next_of_cons
          rw [hnext]
          rfl
  | succ k ih =>
      rw [pulled_succ]
      cases found with
      | nil =>
          rw [h.next_of_nil]
          exact ih (.done h.agenda_eq)
      | cons g rest =>
          obtain ⟨s', hnext, -, hrest⟩ := h.next_of_cons
          rw [hnext]
          exact ih hrest

/-- With one more pull than there are elements the search has come to its end, where it stays. -/
theorem Drains.pulled_eq_last (h : Drains t s found last) (k : Nat) :
    s.pulled t (found.length + 1 + k) = last := by
  induction found generalizing s with
  | nil =>
      rw [List.length_nil, Nat.zero_add, Nat.add_comm, pulled_succ, h.next_of_nil]
      exact pulled_of_done h.agenda_eq k
  | cons g rest ih =>
      obtain ⟨s', hnext, -, hrest⟩ := h.next_of_cons
      have hpulls : (g :: rest).length + 1 + k = rest.length + 1 + k + 1 := by
        rw [List.length_cons]
        omega
      rw [hpulls, pulled_succ, hnext]
      exact ih hrest

end Search

namespace Chain

variable {σ : Type}

/-- All modes of a search that start from the same memory of the tests agree, under any budget.
    The first element is the first one of all, and complete; without elements the search for the
    first one comes to the same end as the search for all.  So does the search for the number,
    which is that of all elements.  Pulling brings all elements one after another and then none,
    and one pull past the elements the search is where the search for all ends. -/
theorem modes_agree (c : Chain) (t : Tests σ) (memory : σ) (budget : Budget) :
    let start := c.search budget memory
    let all := c.findAll budget t memory
    let found := all.1.value
    (match found with
      | [] => c.findFirst budget t memory = (all.1.map fun _ => none, all.2)
        ∧ (start.next? t).2 = (start.all t).2
      | g :: _ => (c.findFirst budget t memory).1 = .complete (some g))
      ∧ c.countMatching budget t memory = (all.1.map (·.length), all.2)
      ∧ (start.count t).2 = (start.all t).2
      ∧ (∀ k, ((start.pulled t k).next? t).1 = found[k]?)
      ∧ ∀ k, start.pulled t (found.length + 1 + k) = (start.all t).2 := by
  obtain ⟨found, last, hdrains⟩ := Search.exists_drains t (c.search budget memory)
  have hall : c.findAll budget t memory = (last.meter.outcome found, last.memory) := by
    rw [findAll, hdrains.all_eq]
  have hcount : (c.search budget memory).count t = (found.length, last) := by
    rw [Search.count, hdrains.foldWhile_eq]
    simp
  simp only [hall, Meter.value_outcome, hdrains.all_eq]
  refine ⟨?_, ?_, ?_, hdrains.next_pulled, hdrains.pulled_eq_last⟩
  · cases found with
    | nil =>
        have hnext := hdrains.next_of_nil
        rw [findFirst, hnext, Meter.map_outcome]
        exact ⟨rfl, rfl⟩
    | cons g rest =>
        obtain ⟨s', hnext, hgoing, -⟩ := hdrains.next_of_cons
        show (c.findFirst budget t memory).1 = .complete (some g)
        rw [findFirst, hnext]
        exact Meter.outcome_of_going hgoing (some g)
  · rw [countMatching, hcount, Meter.map_outcome]
  · rw [hcount]

end Chain

end SlotSymmetry

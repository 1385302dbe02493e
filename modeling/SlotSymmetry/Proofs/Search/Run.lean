import SlotSymmetry.Proofs.Search.Tree

/-! # Runs of a search

    A search whose tests carry no memory adds up the harvest of its agenda: a
    step either takes the first element off the harvest or leaves it as it is
    (`enter_harvest`), and by induction on the agenda the whole run gathers the
    harvest in its order (`foldWhile_gathered`).  A run that exhausts its meter
    has gathered the start of it.  Without limits no meter is ever exhausted. -/

namespace SlotSymmetry

/-! ## Meters -/

/-- The meter of a search without limits. -/
structure Meter.Free (m : Meter) : Prop where
  budget_eq : m.budget = .unlimited
  going : m.exhausted = false

theorem Meter.start_free : (Meter.start .unlimited).Free := ⟨rfl, rfl⟩

theorem Budget.isSpentAt_unlimited (nodes : Nat) : Budget.unlimited.isSpentAt nodes = false := by
  simp [Budget.isSpentAt, Budget.unlimited]

theorem Meter.Free.tick {m : Meter} (h : m.Free) : m.tick.Free := by
  rw [Meter.tick, h.going, if_neg Bool.false_ne_true]
  refine ⟨h.budget_eq, ?_⟩
  show m.budget.isSpentAt (m.nodes + 1) = false
  rw [h.budget_eq]
  exact Budget.isSpentAt_unlimited _

theorem Meter.Free.outcome {α : Type} {m : Meter} (h : m.Free) (value : α) :
    m.outcome value = .complete value := by
  rw [Meter.outcome, h.going]
  rfl

theorem Meter.value_outcome {α : Type} (m : Meter) (value : α) :
    (m.outcome value).value = value := by
  rw [Meter.outcome]
  split <;> rfl

/-! ## Adding up a list -/

section

variable {α β : Type}

/-- Adds up the members of a list, as long as more of them are wanted. -/
def gather (more : β → Bool) (add : β → α → β) : β → List α → β
  | b, [] => b
  | b, x :: xs => if more b then gather more add (add b x) xs else b

theorem gather_of_enough {more : β → Bool} (add : β → α → β) {b : β} (h : more b = false)
    (xs : List α) : gather more add b xs = b := by
  cases xs with
  | nil => rfl
  | cons x xs => rw [gather, if_neg (by rw [h]; exact Bool.false_ne_true)]

theorem gather_of_more {more : β → Bool} (add : β → α → β) {b : β} (h : more b = true) (x : α)
    (xs : List α) : gather more add b (x :: xs) = gather more add (add b x) xs := by
  rw [gather, if_pos h]

/-- All members up to some place are added up; it is the end of the list unless no more of them
    are wanted. -/
theorem exists_gather (more : β → Bool) (add : β → α → β) (xs : List α) : ∀ b : β,
    ∃ part rest, xs = part ++ rest ∧ gather more add b xs = part.foldl add b
      ∧ (rest = [] ∨ more (part.foldl add b) = false) := by
  induction xs with
  | nil => exact fun b => ⟨[], [], rfl, rfl, Or.inl rfl⟩
  | cons x xs ih =>
      intro b
      cases hmore : more b with
      | false => exact ⟨[], x :: xs, rfl, gather_of_enough add hmore _, Or.inr hmore⟩
      | true =>
          obtain ⟨part, rest, rfl, heq, hend⟩ := ih (add b x)
          refine ⟨x :: part, rest, rfl, ?_, hend⟩
          rw [gather_of_more add hmore, heq]
          rfl

end

namespace Search

variable {σ β : Type}

theorem foldWhile_of_enough (t : Tests σ) {more : β → Bool} (add : β → SignedPerm → β)
    {found : β} (s : Search σ) (h : more found = false) :
    foldWhile t more add found s = (found, s) := by
  rw [foldWhile, if_neg (by rw [h]; exact Bool.false_ne_true)]

theorem foldWhile_of_done (t : Tests σ) (more : β → Bool) (add : β → SignedPerm → β)
    (found : β) {s : Search σ} (h : s.agenda = []) :
    foldWhile t more add found s = (found, s) := by
  rw [foldWhile, dif_pos h, ite_self]

theorem foldWhile_of_more (t : Tests σ) {more : β → Bool} (add : β → SignedPerm → β)
    {found : β} {s : Search σ} (hmore : more found = true) (h : s.agenda ≠ []) :
    foldWhile t more add found s
      = foldWhile t more add ((step t s).1.elim found (add found)) (step t s).2 := by
  rw [foldWhile, if_pos hmore, dif_neg h]

/-! ## One step -/

theorem meter_enter (t : Tests σ) (node : Node) (rest : List Node) (meter : Meter)
    (memory : σ) : (enter t node rest meter memory).2.meter = meter := by
  unfold enter
  split
  · rfl
  · dsimp only
    split
    · split <;> rfl
    · rfl

theorem step_of_exhausted {t : Tests σ} {s : Search σ} {node : Node} {rest : List Node}
    (hs : s.agenda = node :: rest) (h : s.meter.tick.exhausted = true) :
    step t s = (none, ⟨[], s.meter.tick, s.memory⟩) := by
  rw [step, hs]
  simp only [h, if_true]

theorem step_of_going {t : Tests σ} {s : Search σ} {node : Node} {rest : List Node}
    (hs : s.agenda = node :: rest) (h : s.meter.tick.exhausted = false) :
    step t s = enter t node rest s.meter.tick s.memory := by
  rw [step, hs]
  simp only [h]
  rfl

theorem free_step {t : Tests σ} {s : Search σ} (h : s.meter.Free) : (step t s).2.meter.Free := by
  cases hs : s.agenda with
  | nil =>
      rw [step, hs]
      exact h
  | cons node rest =>
      rw [step_of_going hs h.tick.going, meter_enter]
      exact h.tick

/-- Without limits a run leaves a meter without limits. -/
theorem free_foldWhile {t : Tests σ} {more : β → Bool} {add : β → SignedPerm → β} {found : β}
    {s : Search σ} (h : s.meter.Free) : (foldWhile t more add found s).2.meter.Free := by
  induction found, s using foldWhile.induct t more add with
  | case1 found s hmore hdone =>
      rw [foldWhile_of_done t more add found hdone]
      exact h
  | case2 found s hmore hagenda r ih =>
      rw [foldWhile_of_more t add hmore hagenda]
      exact ih (free_step h)
  | case3 found s hmore =>
      rw [foldWhile_of_enough t add s (Bool.eq_false_iff.mpr hmore)]
      exact h

/-! ## The harvest of an agenda -/

section Plain

variable {keep : List Nat → Bool} {accept : SignedPerm → Bool} {more : β → Bool}
  {add : β → SignedPerm → β}

/-- The elements below the nodes of an agenda that pass the tests. -/
def agendaHarvest (keep : List Nat → Bool) (accept : SignedPerm → Bool) (agenda : List Node) :
    List SignedPerm :=
  agenda.flatMap fun node => harvest keep accept node.below node.images node.element

theorem agendaHarvest_cons (node : Node) (rest : List Node) :
    agendaHarvest keep accept (node :: rest)
      = harvest keep accept node.below node.images node.element
        ++ agendaHarvest keep accept rest :=
  List.flatMap_cons

theorem agendaHarvest_children (images : List Nat) (g : SignedPerm) (level : Level)
    (below : List Level) (rest : List Node) :
    agendaHarvest keep accept (Node.children images g level below ++ rest)
      = ((Node.candidates g level).flatMap fun choice =>
          harvest keep accept below (images ++ [choice.1]) (g * level.carrier choice.2))
        ++ agendaHarvest keep accept rest := by
  rw [agendaHarvest, List.flatMap_append, Node.children, List.flatMap_map]
  rfl

/-- Entering a node takes an element off the harvest, or leaves the harvest as it is. -/
theorem enter_harvest (node : Node) (rest : List Node) (meter : Meter) :
    (enter (Tests.plain keep accept) node rest meter ()).1.toList
      ++ agendaHarvest keep accept (enter (Tests.plain keep accept) node rest meter ()).2.agenda
      = agendaHarvest keep accept (node :: rest) := by
  rw [agendaHarvest_cons]
  obtain ⟨images, above, choice, below⟩ := node
  rw [enter, Tests.plain]
  cases hkeep : keep images with
  | false =>
      cases below with
      | nil => simp [harvest, hkeep]
      | cons level below => simp [harvest, hkeep]
  | true =>
      cases below with
      | nil =>
          cases haccept : accept (Node.mk images above choice []).element with
          | false => simp [harvest, hkeep, haccept]
          | true => simp [harvest, hkeep, haccept]
      | cons level below => simp [harvest, hkeep, agendaHarvest_children]

/-! ## The whole run -/

/-- A run that adds up the harvest: the start of it, and all of it (as far as more is wanted)
    unless the meter is exhausted. -/
structure Gathered (more : β → Bool) (add : β → SignedPerm → β) (found : β)
    (all : List SignedPerm) (result : β × Search Unit) : Prop where
  part : ∃ part, part <+: all ∧ result.1 = gather more add found part
  whole : result.2.meter.exhausted = false → result.1 = gather more add found all

theorem foldWhile_gathered (found : β) (s : Search Unit) :
    Gathered more add found (agendaHarvest keep accept s.agenda)
      (foldWhile (Tests.plain keep accept) more add found s) := by
  induction found, s using foldWhile.induct (Tests.plain keep accept) more add with
  | case1 found s hmore hdone =>
      rw [foldWhile_of_done _ more add found hdone, hdone]
      exact ⟨⟨[], List.nil_prefix, rfl⟩, fun _ => rfl⟩
  | case3 found s hmore =>
      have henough := Bool.eq_false_iff.mpr hmore
      rw [foldWhile_of_enough _ add s henough]
      exact ⟨⟨[], List.nil_prefix, rfl⟩, fun _ => (gather_of_enough add henough _).symm⟩
  | case2 found s hmore hagenda r ih =>
      rw [foldWhile_of_more _ add hmore hagenda]
      obtain ⟨node, rest, hs⟩ := List.exists_cons_of_ne_nil hagenda
      cases hspent : s.meter.tick.exhausted with
      | true =>
          -- the budget ran out: nothing is left on the agenda
          rw [step_of_exhausted hs hspent, foldWhile_of_done _ more add _ rfl]
          refine ⟨⟨[], List.nil_prefix, rfl⟩, fun hgoing => ?_⟩
          exact nomatch hspent.symm.trans hgoing
      | false =>
          have hstep : r = enter (Tests.plain keep accept) node rest s.meter.tick () :=
            step_of_going hs hspent
          have hharvest : r.1.toList ++ agendaHarvest keep accept r.2.agenda
              = agendaHarvest keep accept s.agenda := by
            rw [hstep, hs]
            exact enter_harvest node rest s.meter.tick
          show Gathered more add found _ (foldWhile _ more add (r.1.elim found (add found)) r.2)
          rw [← hharvest]
          generalize hr : r = result at ih ⊢
          obtain ⟨_ | g, next⟩ := result
          · exact ih
          · obtain ⟨part, hpart, heq⟩ := ih.part
            refine ⟨⟨g :: part, List.cons_prefix_cons.mpr ⟨rfl, hpart⟩, ?_⟩, fun hgoing => ?_⟩
            · rw [gather_of_more add hmore]
              exact heq
            · show _ = gather more add found (g :: _)
              rw [gather_of_more add hmore]
              exact ih.whole hgoing

/-- A run without limits adds up the whole harvest. -/
theorem foldWhile_eq_gather (found : β) {s : Search Unit} (h : s.meter.Free) :
    (foldWhile (Tests.plain keep accept) more add found s).1
      = gather more add found (agendaHarvest keep accept s.agenda) :=
  (foldWhile_gathered found s).whole (free_foldWhile h).going

/-! ## The next element -/

theorem agendaHarvest_start (n : Nat) (levels : List Level) (meter : Meter) :
    agendaHarvest keep accept (start n levels meter ()).agenda
      = harvest keep accept levels [] (SignedPerm.id n) :=
  List.append_nil _

theorem gather_next (xs : List SignedPerm) :
    gather (·.isNone) (fun _ g => some g) none xs = xs.head? := by
  cases xs with
  | nil => rfl
  | cons x xs =>
      rw [gather_of_more _ rfl, gather_of_enough _ rfl]
      rfl

/-- The next element is one of the harvest, -/
theorem mem_of_next {s : Search Unit} {p : SignedPerm}
    (h : (next? (Tests.plain keep accept) s).1 = some p) :
    p ∈ agendaHarvest keep accept s.agenda := by
  have hrun : Gathered (·.isNone) (fun _ g => some g) none (agendaHarvest keep accept s.agenda)
      (next? (Tests.plain keep accept) s) := foldWhile_gathered none s
  obtain ⟨part, hpart, heq⟩ := hrun.part
  rw [gather_next] at heq
  exact hpart.subset (List.mem_of_head? (heq.symm.trans h))

/-- and without limits it is the first one. -/
theorem next_eq_head {s : Search Unit} (h : s.meter.Free) :
    (next? (Tests.plain keep accept) s).1 = (agendaHarvest keep accept s.agenda).head? :=
  (foldWhile_eq_gather none h).trans (gather_next _)

end Plain

end Search

end SlotSymmetry

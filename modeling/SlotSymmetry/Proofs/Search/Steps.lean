import SlotSymmetry.Proofs.Search.Counting

/-! # The steps of a search

    A run of a search takes one step after another.  Here the steps are taken one
    by one and what they yield is collected, whatever a run would do with it
    (`advance`).  Without limits, every step visits one node as long as there are
    any, and a run comes to the first count of steps after which it has enough or
    no node is left (`EndsAfter`).  So what the meter of a run reads at its end is
    the number of nodes that were visited. -/

namespace SlotSymmetry

namespace Search

variable {σ β : Type} {t : Tests σ} {more : β → Bool} {add : β → SignedPerm → β} {found : β}
  {s : Search σ}

/-! ## Some steps -/

/-- What a search yields at its next `k` nodes, and the search after them. -/
def advance (t : Tests σ) : Nat → Search σ → List SignedPerm × Search σ
  | 0, s => ([], s)
  | k + 1, s =>
      let r := step t s
      let rest := advance t k r.2
      (r.1.toList ++ rest.1, rest.2)

theorem advance_of_done (h : s.agenda = []) (k : Nat) : advance t k s = ([], s) := by
  induction k with
  | zero => rfl
  | succ k ih =>
      rw [advance, step_of_done h, ih]
      rfl

/-- The first steps and one more. -/
theorem advance_succ (t : Tests σ) (k : Nat) : ∀ s : Search σ, advance t (k + 1) s
    = ((advance t k s).1 ++ (step t (advance t k s).2).1.toList, (step t (advance t k s).2).2) := by
  induction k with
  | zero => exact fun s => Prod.ext (List.append_nil _) rfl
  | succ k ih =>
      intro s
      rw [advance, ih, advance, List.append_assoc]

/-! ## Steps and runs -/

theorem foldl_toList {α : Type} (add : β → α → β) (found : β) (o : Option α) :
    o.toList.foldl add found = o.elim found (add found) := by
  cases o <;> rfl

/-- After so many steps, and not before, what they yielded is enough or no node is left to visit. -/
def EndsAfter (t : Tests σ) (enough : List SignedPerm → Prop) (s : Search σ) (nodes : Nat) : Prop :=
  IsLeast {k | enough (advance t k s).1 ∨ (advance t k s).2.agenda = []} nodes

variable {enough : List SignedPerm → Prop} {nodes : Nat}

/-- A run comes to the first count of nodes at which it does not want more or none are left. -/
theorem exists_endsAfter (t : Tests σ) (more : β → Bool) (add : β → SignedPerm → β) (found : β)
    (s : Search σ) : ∃ k, s.EndsAfter t (fun part => more (part.foldl add found) = false) k
      ∧ foldWhile t more add found s
        = ((advance t k s).1.foldl add found, (advance t k s).2) := by
  induction found, s using foldWhile.induct t more add with
  | case1 found s hmore hdone =>
      rw [foldWhile_of_done t more add found hdone]
      exact ⟨0, ⟨Or.inr hdone, fun k _ => Nat.zero_le k⟩, rfl⟩
  | case3 found s hmore =>
      have henough := Bool.eq_false_iff.mpr hmore
      rw [foldWhile_of_enough t add s henough]
      exact ⟨0, ⟨Or.inl henough, fun k _ => Nat.zero_le k⟩, rfl⟩
  | case2 found s hmore hagenda r ih =>
      obtain ⟨k, ⟨hend, hleast⟩, hrun⟩ := ih
      have hadd : ∀ j, (advance t (j + 1) s).1.foldl add found
          = (advance t j r.2).1.foldl add (r.1.elim found (add found)) := fun j => by
        rw [advance, List.foldl_append, foldl_toList]
      refine ⟨k + 1, ⟨?_, ?_⟩, ?_⟩
      · show more ((advance t (k + 1) s).1.foldl add found) = false ∨ _
        rw [hadd k]
        exact hend
      · rintro (_ | j) hj
        · -- here more is wanted and there is a node left
          rcases hj with henough | hdone
          · exact absurd (henough.symm.trans hmore) Bool.false_ne_true
          · exact absurd hdone hagenda
        · have hj' : more ((advance t (j + 1) s).1.foldl add found) = false
            ∨ (advance t j r.2).2.agenda = [] := hj
          rw [hadd j] at hj'
          exact Nat.succ_le_succ (hleast hj')
      · rw [foldWhile_of_more t add hmore hagenda, hadd k]
        exact hrun

/-- So a run adds up some of the elements. -/
theorem exists_added (t : Tests σ) (more : β → Bool) (add : β → SignedPerm → β) (found : β)
    (s : Search σ) : ∃ part : List SignedPerm,
      (foldWhile t more add found s).1 = part.foldl add found := by
  obtain ⟨k, -, hrun⟩ := s.exists_endsAfter t more add found
  exact ⟨_, congrArg Prod.fst hrun⟩

/-- A run that always wants more goes on from where the first `k` nodes lead. -/
theorem foldWhile_advance (t : Tests σ) (add : β → SignedPerm → β) (k : Nat) :
    ∀ (found : β) (s : Search σ), foldWhile t (fun _ => true) add found s
      = foldWhile t (fun _ => true) add ((advance t k s).1.foldl add found)
          (advance t k s).2 := by
  induction k with
  | zero => exact fun _ _ => rfl
  | succ k ih =>
      intro found s
      by_cases hagenda : s.agenda = []
      · rw [advance_of_done hagenda]
        rfl
      · rw [foldWhile_of_more t add rfl hagenda, ih, advance, List.foldl_append, foldl_toList]

/-- What the first nodes yield is the start of all that is yielded. -/
theorem advance_prefix_all (t : Tests σ) (k : Nat) (s : Search σ) :
    (advance t k s).1 <+: (s.all t).1.toList := by
  obtain ⟨part, hpart⟩ := exists_added t (fun _ => true) (·.push ·)
    ((advance t k s).1.foldl (·.push ·) #[]) (advance t k s).2
  rw [all, foldWhile_advance t _ k, hpart]
  simp

/-! ## Runs without limits -/

/-- A step that has a node to visit counts it. -/
theorem nodes_step (hs : s.meter.exhausted = false) (hagenda : s.agenda ≠ []) :
    (step t s).2.meter.nodes = s.meter.nodes + 1 := by
  rw [meter_step hagenda, Meter.tick_of_going hs]

/-- As long as nodes are left, every step of a search without limits visits one of them. -/
theorem nodes_advance (t : Tests σ) (k : Nat) : ∀ s : Search σ, s.meter.Free →
    (∀ j < k, (advance t j s).2.agenda ≠ []) →
      (advance t k s).2.meter.nodes = s.meter.nodes + k := by
  induction k with
  | zero => exact fun _ _ _ => rfl
  | succ k ih =>
      intro s hfree hleft
      have hnodes : (step t s).2.meter.nodes = s.meter.nodes + 1 :=
        nodes_step hfree.going (hleft 0 (Nat.succ_pos k))
      have hrest := ih (step t s).2 (free_step hfree) fun j hj =>
        hleft (j + 1) (Nat.succ_lt_succ hj)
      rw [advance, hrest, hnodes]
      omega

/-- Until then, every step visits one node. -/
theorem EndsAfter.nodes_eq (h : s.EndsAfter t enough nodes) (hs : s.meter.Free) {k : Nat}
    (hk : k ≤ nodes) : (advance t k s).2.meter.nodes = s.meter.nodes + k := by
  refine nodes_advance t k s hs fun j hj hdone => ?_
  exact absurd (h.2 (Or.inr hdone)) (Nat.not_le.mpr (Nat.lt_of_lt_of_le hj hk))

/-- The end is the same if what is enough is told otherwise. -/
theorem EndsAfter.congr {enough' : List SignedPerm → Prop} (h : s.EndsAfter t enough nodes)
    (hiff : ∀ part, enough part ↔ enough' part) : s.EndsAfter t enough' nodes := by
  rwa [EndsAfter, ← funext fun part => propext (hiff part)]

theorem EndsAfter.unique {nodes' : Nat} (h : s.EndsAfter t enough nodes)
    (h' : s.EndsAfter t enough nodes') : nodes = nodes' :=
  IsLeast.unique h h'

/-- A run that waits for an element ends with the first one that comes. -/
theorem EndsAfter.foldl_some (h : s.EndsAfter t (· ≠ []) nodes) :
    (advance t nodes s).1.foldl (fun _ g => some g) none = (advance t nodes s).1.head? := by
  cases nodes with
  | zero => rfl
  | succ k =>
      have hnone : (advance t k s).1 = [] := by
        by_contra hsome
        exact absurd (h.2 (Or.inl hsome)) (Nat.not_succ_le_self k)
      rw [advance_succ, hnone, List.nil_append]
      cases (step t (advance t k s).2).1 <;> rfl

/-- The nodes that a run without limits counts from zero on are those until its end, and it holds
    what they yielded. -/
theorem endsAfter_nodes (t : Tests σ) (more : β → Bool) (add : β → SignedPerm → β) (found : β)
    (hs : s.meter.Free) (hzero : s.meter.nodes = 0) :
    let run := foldWhile t more add found s
    s.EndsAfter t (fun part => more (part.foldl add found) = false) run.2.meter.nodes
      ∧ run.1 = (advance t run.2.meter.nodes s).1.foldl add found := by
  obtain ⟨k, hend, hrun⟩ := s.exists_endsAfter t more add found
  have hnodes : (advance t k s).2.meter.nodes = k := by
    rw [hend.nodes_eq hs (Nat.le_refl k), hzero, Nat.zero_add]
  rw [hrun]
  dsimp only
  rw [hnodes]
  exact ⟨hend, rfl⟩

/-- So the next element comes at the last node that is counted for it. -/
theorem endsAfter_next (t : Tests σ) (hs : s.meter.Free) (hzero : s.meter.nodes = 0) :
    s.EndsAfter t (· ≠ []) (s.next? t).2.meter.nodes := by
  refine (endsAfter_nodes t (·.isNone) (fun _ g => some g) none hs hzero).1.congr fun part => ?_
  cases part using List.reverseRecOn <;> simp

end Search

end SlotSymmetry

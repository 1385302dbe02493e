import SlotSymmetry.Group.Elements
import SlotSymmetry.Proofs.Chain.Stored
import SlotSymmetry.Proofs.Chain.Tail
import SlotSymmetry.Proofs.Search.Modes

/-! # What a chain returns

    A chain is `Sound` if its levels are: their generators are valid and their
    orbits are grown from them.  This alone, without completeness, makes every
    permutation valid that comes out of it, by a look at a level, by a sift or by
    a search.  All nodes on the agenda of a search have valid products above them
    and sound levels below (`step_sound`), so by induction on the run all that is
    added up is valid (`foldWhile_sound`), whatever the tests remember and
    wherever the budget runs out. -/

namespace SlotSymmetry

section Levels

variable {n : Nat} {level : Level} {levels : List Level}

theorem Level.Sound.carrier_on (h : level.Sound n) (q : Nat) : (level.carrier q).On n :=
  (h.transporter q).on

/-- A product of transversal elements, whatever the indices are. -/
theorem productAt_on (hlevels : ∀ level ∈ levels, level.Sound n) {g : SignedPerm} (hg : g.On n)
    (indices : List Nat) : (Chain.productAt g levels indices).On n := by
  induction levels generalizing g indices with
  | nil => exact hg
  | cons level below ih =>
      cases indices with
      | nil => exact hg
      | cons i indices =>
          obtain ⟨hlevel, hbelow⟩ := List.forall_mem_cons.mp hlevels
          rw [Chain.productAt]
          split
          · exact ih hbelow (hg.mul (hlevel.carrier_on _)) indices
          · exact hg

/-! ## Nodes -/

/-- The product above the node is valid, and the levels at it and below it are sound. -/
structure Node.Sound (n : Nat) (node : Node) : Prop where
  above : node.above.On n
  choice : ∀ chosen ∈ node.choice, chosen.1.Sound n
  below : ∀ level ∈ node.below, level.Sound n

variable {node child : Node}

theorem Node.root_sound (hlevels : ∀ level ∈ levels, level.Sound n) :
    (Node.root n levels).Sound n :=
  ⟨SignedPerm.id_on n, nofun, hlevels⟩

theorem Node.Sound.element_on (h : node.Sound n) : node.element.On n := by
  rw [Node.element]
  split
  · exact h.above
  · next level point hchoice => exact h.above.mul ((h.choice _ hchoice).carrier_on point)

theorem Node.Sound.child_sound (h : node.Sound n) {below : List Level}
    (hbelow : node.below = level :: below)
    (hchild : child ∈ Node.children node.images node.element level below) : child.Sound n := by
  have hlevels := h.below
  rw [hbelow] at hlevels
  obtain ⟨hlevel, hrest⟩ := List.forall_mem_cons.mp hlevels
  obtain ⟨⟨image, point⟩, -, rfl⟩ := List.mem_map.mp hchild
  exact ⟨h.element_on, fun chosen hchosen => Option.some.inj hchosen ▸ hlevel, hrest⟩

end Levels

/-! ## Searches -/

namespace Search

variable {σ β : Type} {n : Nat} {s : Search σ} {t : Tests σ}

/-- Every node that is still to be visited is sound. -/
def Sound (n : Nat) (s : Search σ) : Prop := ∀ node ∈ s.agenda, node.Sound n

theorem none_on : ∀ g ∈ (none : Option SignedPerm), g.On n := by
  intro g hg
  exact absurd hg (Option.not_mem_none g)

theorem enter_sound {node : Node} {rest : List Node} (hnode : node.Sound n)
    (hrest : ∀ node ∈ rest, node.Sound n) (meter : Meter) (memory : σ) :
    (∀ g ∈ (enter t node rest meter memory).1, g.On n)
      ∧ (enter t node rest meter memory).2.Sound n := by
  rw [enter]
  split
  · exact ⟨none_on, hrest⟩
  · dsimp only
    split
    · split
      · exact ⟨fun g hg => Option.some.inj hg ▸ hnode.element_on, hrest⟩
      · exact ⟨none_on, hrest⟩
    · next level below hbelow =>
        refine ⟨none_on, fun child hchild => ?_⟩
        rcases List.mem_append.mp hchild with hchild | hchild
        · exact hnode.child_sound hbelow hchild
        · exact hrest child hchild

/-- A step yields a valid permutation or none, and leaves sound nodes. -/
theorem step_sound (hs : s.Sound n) :
    (∀ g ∈ (step t s).1, g.On n) ∧ (step t s).2.Sound n := by
  rw [step]
  split
  · exact ⟨none_on, hs⟩
  · next node rest hagenda =>
      rw [Sound, hagenda] at hs
      obtain ⟨hnode, hrest⟩ := List.forall_mem_cons.mp hs
      dsimp only
      split
      · -- the budget ran out: nothing is left on the agenda
        exact ⟨none_on, fun node hnode => absurd hnode List.not_mem_nil⟩
      · exact enter_sound hnode hrest _ _

/-- What valid permutations do not spoil when they are added holds at the end of a run. -/
theorem foldWhile_sound {more : β → Bool} {add : β → SignedPerm → β} {P : β → Prop}
    (hadd : ∀ found g, P found → g.On n → P (add found g)) {found : β} (hfound : P found)
    (hs : s.Sound n) : P (foldWhile t more add found s).1 := by
  induction found, s using foldWhile.induct t more add with
  | case1 found s hmore hdone =>
      rw [foldWhile_of_done t more add found hdone]
      exact hfound
  | case2 found s hmore hagenda r ih =>
      rw [foldWhile_of_more t add hmore hagenda]
      refine ih ?_ (step_sound hs).2
      show P ((step t s).1.elim found (add found))
      cases hyield : (step t s).1 with
      | none => exact hfound
      | some g => exact hadd found g hfound ((step_sound hs).1 g hyield)
  | case3 found s hmore =>
      rw [foldWhile_of_enough t add s (Bool.eq_false_iff.mpr hmore)]
      exact hfound

theorem all_on (hs : s.Sound n) : ∀ g ∈ (s.all t).1, g.On n := by
  refine foldWhile_sound (P := fun found : Array SignedPerm => ∀ g ∈ found, g.On n) ?_ nofun hs
  exact fun found g hfound hg => Array.forall_mem_push.mpr ⟨hg, hfound⟩

theorem next_on (hs : s.Sound n) : ∀ g ∈ (s.next? t).1, g.On n := by
  refine foldWhile_sound (P := fun found : Option SignedPerm => ∀ g ∈ found, g.On n) ?_ none_on hs
  intro found g _ hg p hp
  exact Option.some.inj hp ▸ hg

theorem pulled_sound (hs : s.Sound n) (pulls : Nat) : (s.pulled t pulls).Sound n := by
  refine Function.Iterate.rec (Sound n) hs (fun s hs => ?_) pulls
  exact foldWhile_keeps (P := Sound n) (fun _ hs => (step_sound hs).2) hs

end Search

/-! ## Whatever a chain returns -/

namespace Chain

variable {n : Nat} {H : Subgroup (Signed n)} {wanted : List Nat} {c : Chain}
  {given : List SignedPerm} {p : SignedPerm}

theorem Finished.sound (hc : c.Finished n H wanted) : c.Sound := by
  intro level hlevel
  rw [hc.degree_eq]
  exact hc.stacked.sound level hlevel

theorem Sound.search (hc : c.Sound) {σ : Type} (budget : Budget) (memory : σ) :
    (c.search budget memory).Sound c.degree := by
  intro node hnode
  rw [List.mem_singleton.mp hnode]
  exact Node.root_sound hc

/-- The permutations that come out of a chain: what its levels hold, what a sift leaves of a given
    permutation of any degree, and what its searches find, all at once or one after another. -/
inductive Yields (c : Chain) : List SignedPerm → SignedPerm → Prop where
  | generator {level : Level} {p : SignedPerm} (held : level ∈ c.levels)
      (listed : p ∈ level.generators) : Yields c [] p
  | strongGenerator {p : SignedPerm} (listed : p ∈ c.strongGenerators) : Yields c [] p
  | transversal {level : Level} {q : Nat} {p : SignedPerm} (held : level ∈ c.levels)
      (made : level.transversal q = some p) : Yields c [] p
  | residue {p r : SignedPerm} {passed : Nat} (made : c.storedSift p = .ok (r, passed)) :
      Yields c [p] r
  | pulled {σ : Type} {t : Tests σ} {budget : Budget} {memory : σ} {pulls : Nat}
      {p : SignedPerm}
      (made : (((c.search budget memory).pulled t pulls).next? t).1 = some p) : Yields c [] p
  | first {σ : Type} {t : Tests σ} {budget : Budget} {memory : σ} {p : SignedPerm}
      (made : (c.findFirst budget t memory).1.value = some p) : Yields c [] p
  | found {σ : Type} {t : Tests σ} {budget : Budget} {memory : σ} {p : SignedPerm}
      (listed : p ∈ (c.findAll budget t memory).1.value) : Yields c [] p

theorem Yields.valid (h : c.Yields given p) (hc : c.Sound) (hgiven : ∀ q ∈ given, q.Valid) :
    p.Valid := by
  cases h with
  | generator held listed => exact ((hc _ held).on _ listed).valid
  | strongGenerator listed =>
      obtain ⟨level, held, listed⟩ := mem_strongGenerators.mp listed
      exact ((hc _ held).on _ listed).valid
  | transversal held made =>
      exact (Orbit.transversal_on (hc _ held).on (hc _ held).stage.degree_eq made).valid
  | residue made => exact hc.storedSift_valid (hgiven _ List.mem_cons_self) made
  | pulled made => exact (Search.next_on (Search.pulled_sound (hc.search _ _) _) _ made).valid
  | @first _ t budget memory _ made =>
      rw [findFirst, Meter.value_outcome] at made
      exact (Search.next_on (hc.search _ _) _ made).valid
  | found listed =>
      rw [findAll, Meter.value_outcome, Array.mem_toList_iff] at listed
      exact (Search.all_on (hc.search _ _) _ listed).valid

end Chain

end SlotSymmetry

import SlotSymmetry.Orbit.Schreier
import SlotSymmetry.Proofs.Orbit.Transversal

/-! # Words in the generators

    A word lists indices of generators, the first step first.  It leads from
    every point to another one (`wordEnd`) and has a product (`wordProduct`),
    with the last step on the left.  The walk from a point of an orbit back to
    the root spells a word backwards, the `word` of the point.  That word leads
    from the seed to the point, and its product is what the transversal holds
    and what unwinding takes off. -/

namespace SlotSymmetry

namespace Orbit

/-! ## Words -/

/-- Where a word leads from a point.  An index that is too large leads nowhere. -/
def wordEnd (gens : List SignedPerm) : Nat → List Nat → Option Nat
  | point, [] => some point
  | point, i :: word => do wordEnd gens ((← gens[i]?).act point) word

/-- The product of the generators of a word, the last step on the left. -/
def wordProduct (n : Nat) (gens : List SignedPerm) : List Nat → Option SignedPerm
  | [] => some (.id n)
  | i :: word => do
      let g ← gens[i]?
      let t ← wordProduct n gens word
      return t * g

theorem wordEnd_concat (gens : List SignedPerm) (point : Nat) (word : List Nat) (i : Nat) :
    wordEnd gens point (word ++ [i])
      = (wordEnd gens point word).bind fun q => gens[i]?.map (·.act q) := by
  induction word generalizing point with
  | nil =>
      cases hi : gens[i]? with
      | none => simp [wordEnd, hi]
      | some g => simp [wordEnd, hi]
  | cons j word ih =>
      cases hj : gens[j]? with
      | none => simp [wordEnd, hj]
      | some g => simpa [wordEnd, hj] using ih (g.act point)

/-- Multiplying along a way, generator after generator, makes the product of the word that
    the way spells backwards. -/
theorem wordProduct_reverse {n : Nat} {gens : List SignedPerm} {way : List (Nat × SignedPerm)}
    (hway : ∀ step ∈ way, gens[step.1]? = some step.2) :
    wordProduct n gens (way.map Prod.fst).reverse
      = some (way.foldl (fun t (_, g) => t * g) (.id n)) := by
  -- the last generator of the way belongs to the first step of the word
  induction way using List.reverseRecOn with
  | nil => rfl
  | append_singleton way step ih =>
      have hstep : gens[step.1]? = some step.2 := hway step (by simp)
      have hrest := ih fun step' hstep' => hway step' (List.mem_append_left _ hstep')
      rw [List.map_append, List.reverse_append, List.foldl_append]
      simp [wordProduct, hstep, hrest]

/-! ## The word of a point -/

section

variable {n : Nat} {gens : List SignedPerm} {seed : Nat} {o : Orbit}

/-- The indices of the generators on the way from the seed to a point. -/
def word (o : Orbit) (gens : List SignedPerm) (q : Nat) : List Nat :=
  ((o.wayBack gens q).map Prod.fst).reverse

theorem path_eq {q : Nat} (hq : o.contains q = true) : o.path gens q = some (o.word gens q) := by
  rw [path, if_pos hq]
  rfl

theorem Returns.getElem?_of_mem {q : Nat} {way : List (Nat × SignedPerm)}
    (h : Returns o gens q way) : ∀ step ∈ way, gens[step.1]? = some step.2 := by
  induction h with
  | root _ => exact fun step hstep => absurd hstep List.not_mem_nil
  | step _ hg _ ih => exact List.forall_mem_cons.mpr ⟨hg, ih⟩

theorem Stage.word_seed (h : Stage n gens seed o) : o.word gens seed = [] := by
  rw [word, wayBack, backward_of_root _ ((h.root_iff seed).mpr rfl)]
  rfl

/-- The word of a point is that of the point before, with the generator of its link. -/
theorem Stage.word_of_step (h : Stage n gens seed o) (hgens : ∀ g ∈ gens, g.On n) {q i : Nat}
    {g : SignedPerm} (hl : o.link q = some (.step i)) (hg : gens[i]? = some g) :
    o.word gens q = o.word gens (g.actInv q) ++ [i] := by
  have hq : o.contains q = true := by
    rw [← h.isSome_link q, hl]
    rfl
  obtain ⟨hwalk, hlength⟩ := h.returns_wayBack hgens hq
  rw [word, word]
  cases hway : o.wayBack gens q with
  | nil =>
      rw [hway] at hwalk
      cases hwalk with
      | root hroot => exact nomatch hroot.symm.trans hl
  | cons step way =>
      rw [hway] at hwalk hlength
      cases hwalk with
      | step hl' hg' hrest =>
          obtain rfl : i = _ := Link.step.inj (Option.some.inj (hl.symm.trans hl'))
          obtain rfl : g = _ := Option.some.inj (hg.symm.trans hg')
          -- the rest of the walk is the way back from the point before
          rw [List.length_cons] at hlength
          have hback : o.wayBack gens (g.actInv q) = way := hrest.backward_eq (by omega)
          rw [hback, List.map_cons, List.reverse_cons]

/-- The word of a point leads from the seed to it. -/
theorem Stage.wordEnd_word (h : Stage n gens seed o) (hgens : ∀ g ∈ gens, g.On n) {q : Nat}
    (hq : o.contains q = true) : wordEnd gens seed (o.word gens q) = some q := by
  obtain ⟨hwalk, -⟩ := h.returns_wayBack hgens hq
  rw [word]
  generalize o.wayBack gens q = way at hwalk
  induction hwalk with
  | @root q hl =>
      rw [(h.root_iff q).mp hl]
      rfl
  | @step q i g way hl hg hrest ih =>
      have hback : o.contains (g.actInv q) = true := by
        rw [← h.isSome_link]
        cases hrest with
        | root hl' => simp [hl']
        | step hl' _ _ => simp [hl']
      rw [List.map_cons, List.reverse_cons, wordEnd_concat, ih hback, hg]
      simp [(hgens g (List.mem_of_getElem? hg)).act_actInv q]

/-- The transversal holds the product of the word. -/
theorem Stage.wordProduct_word (h : Stage n gens seed o) (hgens : ∀ g ∈ gens, g.On n) {q : Nat}
    (hq : o.contains q = true) :
    wordProduct n gens (o.word gens q) = o.transversal gens q := by
  have hsteps := (h.returns_wayBack hgens hq).1.getElem?_of_mem
  rw [word, wordProduct_reverse hsteps, transversal, if_pos hq, carrier, h.degree_eq]

/-! ## The three walks -/

/-- From every point of an orbit the walk back ends at the root.  The word read off it, the
    transversal element multiplied along it, and what unwinding takes off along it belong
    together. -/
theorem walks_agree (hgens : ∀ g ∈ gens, g.On n) (hseed : seed < n) :
    ∃ o, ofSeed n gens seed = .ok o
      ∧ (∀ q, o.transversal gens q = none ↔ q ∉ o.points)
      ∧ ∀ q ∈ o.points,
        Returns o gens q (o.wayBack gens q)
          ∧ (o.wayBack gens q).length < o.length
          ∧ ∃ word t, o.path gens q = some word
            ∧ o.transversal gens q = some t
            ∧ wordProduct n gens word = some t
            ∧ t.On n
            ∧ t.act seed = q
            ∧ ∀ h : SignedPerm, h.On n → o.unwind gens q h = t.inverse * h := by
  have hstage := grow_stage gens hseed
  refine ⟨grow n gens seed, ofSeed_eq_grow hgens hseed, ?_, ?_⟩
  · intro q
    rw [← hstage.contains_iff q]
    cases hq : (grow n gens seed).contains q with
    | false => simp [transversal, hq]
    | true => simp [transversal, hq]
  · intro q hlisted
    have hq := (hstage.contains_iff q).mpr hlisted
    obtain ⟨hwalk, hlength⟩ := hstage.returns_wayBack hgens hq
    have htransversal := hstage.transversal_eq hgens hq
    refine ⟨hwalk, hlength, _, (hstage.transporter hgens q).val, path_eq hq, htransversal,
      (hstage.wordProduct_word hgens hq).trans htransversal,
      (hstage.transporter hgens q).on, hstage.transporter_smul hgens hq, ?_⟩
    intro h hh
    exact hstage.unwind_eq hgens q ⟨h, hh⟩

/-- The last point of the antisymmetric rotation of three points, two steps from the seed. -/
theorem walks_agree_rotation :
    ∃ o, ofSeed 3 [.ofImage #[1, 2, 0] true] 0 = .ok o
      ∧ o.path [.ofImage #[1, 2, 0] true] 2 = some [0, 0]
      ∧ ∀ h : SignedPerm, h.On 3 →
        o.unwind [.ofImage #[1, 2, 0] true] 2 h
          = (SignedPerm.ofImage #[2, 0, 1] false).inverse * h := by
  have hgens : ∀ g ∈ [SignedPerm.ofImage #[1, 2, 0] true], g.On 3 := by decide +kernel
  obtain ⟨o, ho, -, hwalks⟩ := walks_agree hgens (by decide : 0 < 3)
  have hgrow := eq_grow_of_ok hgens (by decide) ho
  have htransversal : o.transversal [.ofImage #[1, 2, 0] true] 2
      = some (.ofImage #[2, 0, 1] false) := by
    rw [hgrow]
    decide +kernel
  obtain ⟨-, -, _, t, -, ht, -, -, -, hunwind⟩ := hwalks 2 (by rw [hgrow]; decide +kernel)
  obtain rfl := Option.some.inj (ht.symm.trans htransversal)
  exact ⟨o, ho, by rw [hgrow]; decide +kernel, hunwind⟩

end

end Orbit

end SlotSymmetry

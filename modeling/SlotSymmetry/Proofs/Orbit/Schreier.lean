import SlotSymmetry.Orbit.Stored
import SlotSymmetry.Proofs.Orbit.Transversal

/-! # Schreier generators

    Going from the seed to a point `q` of a grown orbit, on by a generator, and
    back gives an element of the span that fixes the seed.  These loops generate
    all elements of the span that fix the seed: an element `x` is brought back
    to the seed by the transporter of its image, and every generator that is
    multiplied to it adds one more loop (`return_mem_span_loops`).  Dropping
    repetitions and identities changes nothing, unless a loop is the
    antisymmetric identity, which is then an element of the span.
    `schreier_lemma` puts this together. -/

namespace SlotSymmetry

/-! ## Lists without repetitions -/

theorem nodup_eraseDups {α : Type} [DecidableEq α] (l : List α) : l.eraseDups.Nodup := by
  match l with
  | [] => exact List.nodup_nil
  | a :: l =>
      rw [List.eraseDups_cons, List.nodup_cons]
      refine ⟨?_, nodup_eraseDups _⟩
      intro ha
      have := (List.mem_filter.mp (List.mem_eraseDups.mp ha)).2
      simp at this
termination_by l.length
decreasing_by exact Nat.lt_succ_of_le (List.length_filter_le _ l)

/-- Nothing is dropped from a list without repetitions. -/
theorem eraseDups_of_nodup {α : Type} [DecidableEq α] {l : List α} (h : l.Nodup) :
    l.eraseDups = l := by
  induction l with
  | nil => rfl
  | cons a l ih =>
      obtain ⟨ha, hl⟩ := List.nodup_cons.mp h
      have hfilter : l.filter (fun b => !b == a) = l := by
        refine List.filter_eq_self.mpr fun b hb => ?_
        have hne : b ≠ a := ne_of_mem_of_not_mem hb ha
        simpa using hne
      rw [List.eraseDups_cons, hfilter, ih hl]

namespace SignedPerm

theorem mem_distinct {ps : List SignedPerm} {p : SignedPerm} : p ∈ distinct ps ↔ p ∈ ps :=
  List.mem_eraseDups

theorem nodup_distinct (ps : List SignedPerm) : (distinct ps).Nodup := nodup_eraseDups ps

end SignedPerm

namespace Orbit

variable {n : Nat} {gens : List SignedPerm} {seed : Nat} {o : Orbit}

/-! ## Loops -/

/-- From the seed to `q`, on by `g`, and back to the seed. -/
def Stage.loopAt (h : Stage n gens seed o) (hgens : ∀ g ∈ gens, g.On n) (q : Nat)
    (g : Signed n) : Signed n :=
  (h.transporter hgens (g • q))⁻¹ * (g * h.transporter hgens q)

theorem Stage.loop_eq (h : Stage n gens seed o) (hgens : ∀ g ∈ gens, g.On n) (q : Nat)
    (g : Signed n) : o.loop gens q (o.carrier gens q) g.val = (h.loopAt hgens q g).val :=
  h.unwind_eq hgens (g • q) (g * h.transporter hgens q)

theorem Stage.mem_loops_iff (h : Stage n gens seed o) (hgens : ∀ g ∈ gens, g.On n)
    {s : SignedPerm} : s ∈ o.loops gens ↔ ∃ q, o.contains q = true ∧
      ∃ g : Signed n, g.val ∈ gens ∧ s = (h.loopAt hgens q g).val := by
  rw [loops, List.mem_flatMap]
  constructor
  · rintro ⟨q, hq, hs⟩
    obtain ⟨g, hg, rfl⟩ := List.mem_map.mp hs
    exact ⟨q, (h.contains_iff q).mpr (Array.mem_toList_iff.mp hq), ⟨g, hgens g hg⟩, hg,
      h.loop_eq hgens q ⟨g, hgens g hg⟩⟩
  · rintro ⟨q, hq, g, hg, rfl⟩
    refine ⟨q, Array.mem_toList_iff.mpr ((h.contains_iff q).mp hq), ?_⟩
    exact List.mem_map.mpr ⟨g.val, hg, h.loop_eq hgens q g⟩

theorem Stage.loopAt_mem (h : Stage n gens seed o) (hgens : ∀ g ∈ gens, g.On n) (q : Nat)
    {g : Signed n} (hg : g.val ∈ gens) : h.loopAt hgens q g ∈ Signed.span n gens := by
  have hgspan : g ∈ Signed.span n gens := mem_span_of_mem g.on hg
  exact (Signed.span n gens).mul_mem ((Signed.span n gens).inv_mem (h.transporter_mem hgens _))
    ((Signed.span n gens).mul_mem hgspan (h.transporter_mem hgens q))

theorem Stage.loopAt_smul (h : Stage n gens seed o) (hgens : ∀ g ∈ gens, g.On n) {q : Nat}
    {g : Signed n} (hq : o.contains q = true) (hgq : o.contains (g • q) = true) :
    h.loopAt hgens q g • seed = seed := by
  rw [loopAt, mul_smul, mul_smul, h.transporter_smul hgens hq, inv_smul_eq_iff,
    h.transporter_smul hgens hgq]

/-! ## The reduced list -/

theorem schreierGenerators_ok {ls : List SignedPerm}
    (hls : o.schreierGenerators gens = .ok ls) :
    (∀ s ∈ o.loops gens, s.isInconsistent = false)
      ∧ ls = SignedPerm.distinct ((o.loops gens).filter (!·.isIdentity)) := by
  rw [schreierGenerators] at hls
  split at hls
  · exact nomatch hls
  · rename_i hany
    refine ⟨?_, (Except.ok.inj hls).symm⟩
    intro s hs
    cases hbad : s.isInconsistent with
    | false => rfl
    | true => exact absurd (List.any_eq_true.mpr ⟨s, hs, hbad⟩) hany

theorem schreierGenerators_error_iff : o.schreierGenerators gens = .error .inconsistentGenerators
    ↔ ∃ s ∈ o.loops gens, s.isInconsistent = true := by
  rw [← List.any_eq_true, schreierGenerators]
  cases (o.loops gens).any (·.isInconsistent) with
  | false => simp
  | true => simp

/-- The only reason to fail is a loop that is the antisymmetric identity. -/
theorem exists_schreierGenerators
    (hne : o.schreierGenerators gens ≠ .error .inconsistentGenerators) :
    ∃ ls, o.schreierGenerators gens = .ok ls := by
  rw [schreierGenerators] at hne ⊢
  cases hany : (o.loops gens).any (·.isInconsistent) with
  | false => exact ⟨_, rfl⟩
  | true => simp [hany] at hne

theorem mem_schreierGenerators_iff {ls : List SignedPerm}
    (hls : o.schreierGenerators gens = .ok ls) {s : SignedPerm} :
    s ∈ ls ↔ s ∈ o.loops gens ∧ s.isIdentity = false := by
  rw [(schreierGenerators_ok hls).2, SignedPerm.mem_distinct, List.mem_filter]
  simp

/-! ## Schreier's lemma -/

section Grown

variable (hgens : ∀ g ∈ gens, g.On n) (hseed : seed < n)
include hgens hseed

theorem mem_of_mem_loops {s : SignedPerm} (hs : s ∈ (grow n gens seed).loops gens) :
    ∃ x : Signed n, x.val = s ∧ x ∈ Signed.span n gens ∧ x • seed = seed := by
  have h := grow_stage gens hseed
  obtain ⟨q, hq, g, hg, rfl⟩ := (h.mem_loops_iff hgens).mp hs
  have hgq := grow_closed hseed hq hg (g.smul_lt (h.lt_of_contains hq))
  exact ⟨_, rfl, h.loopAt_mem hgens q hg, h.loopAt_smul hgens hq hgq⟩

/-- Brought back to the seed, an element of the span is a product of the listed elements, if
    these include all loops. -/
theorem return_mem_span_loops {ls : List SignedPerm}
    (hall : ∀ q, (grow n gens seed).contains q = true → ∀ g : Signed n, g.val ∈ gens →
      (grow_stage gens hseed).loopAt hgens q g ∈ Signed.span n ls)
    {x : Signed n} (hx : x ∈ Signed.span n gens) :
    ((grow_stage gens hseed).transporter hgens (x • seed))⁻¹ * x ∈ Signed.span n ls := by
  have h := grow_stage gens hseed
  refine span_induction (P := fun x =>
    (h.transporter hgens (x • seed))⁻¹ * x ∈ Signed.span n ls) ?_ ?_ hx
  · rw [one_smul, h.transporter_seed hgens, inv_one, one_mul]
    exact (Signed.span n ls).one_mem
  · intro g y hg hy ih
    have hq : (grow n gens seed).contains (y • seed) = true :=
      (grow_contains_iff hgens hseed).mpr ⟨y, hy, rfl⟩
    have hloop := (Signed.span n ls).mul_mem (hall (y • seed) hq g hg) ih
    -- the way out and the way back between the two factors cancel
    have hcancel : h.loopAt hgens (y • seed) g * ((h.transporter hgens (y • seed))⁻¹ * y)
        = (h.transporter hgens ((g * y) • seed))⁻¹ * (g * y) := by
      rw [Stage.loopAt, mul_smul, mul_assoc, mul_assoc, mul_inv_cancel_left]
    rw [← hcancel]
    exact hloop

/-- The generators are inconsistent for a reason: the antisymmetric identity is a loop. -/
theorem flip_mem_of_schreierGenerators_error {e : GroupError}
    (he : (grow n gens seed).schreierGenerators gens = .error e) :
    e = .inconsistentGenerators ∧ Signed.flip n ∈ Signed.span n gens := by
  rw [schreierGenerators] at he
  split at he
  · rename_i hany
    obtain ⟨s, hs, hbad⟩ := List.any_eq_true.mp hany
    obtain ⟨x, rfl, hx, -⟩ := mem_of_mem_loops hgens hseed hs
    refine ⟨(Except.error.inj he).symm, ?_⟩
    rw [← x.isInconsistent_iff.mp hbad]
    exact hx
  · exact nomatch he

/-- The Schreier generators generate the stabilizer of the seed. -/
theorem span_schreierGenerators {ls : List SignedPerm}
    (hls : (grow n gens seed).schreierGenerators gens = .ok ls) :
    Signed.span n ls = Signed.span n gens ⊓ MulAction.stabilizer (Signed n) seed := by
  have h := grow_stage gens hseed
  refine le_antisymm (span_le.mpr ?_) ?_
  · intro g hg
    obtain ⟨x, hxg, hx, hfix⟩ :=
      mem_of_mem_loops hgens hseed ((mem_schreierGenerators_iff hls).mp hg).1
    obtain rfl : x = g := Signed.eq_of_val hxg
    exact ⟨hx, MulAction.mem_stabilizer_iff.mpr hfix⟩
  · rintro x ⟨hx, hfix⟩
    have hfix : x • seed = seed := MulAction.mem_stabilizer_iff.mp hfix
    have hall : ∀ q, (grow n gens seed).contains q = true → ∀ g : Signed n, g.val ∈ gens →
        h.loopAt hgens q g ∈ Signed.span n ls := by
      intro q hq g hg
      have hloop : (h.loopAt hgens q g).val ∈ (grow n gens seed).loops gens :=
        (h.mem_loops_iff hgens).mpr ⟨q, hq, g, hg, rfl⟩
      cases hid : (h.loopAt hgens q g).val.isIdentity with
      | false =>
          exact mem_span_of_mem (h.loopAt hgens q g).on
            ((mem_schreierGenerators_iff hls).mpr ⟨hloop, hid⟩)
      | true =>
          -- a dropped loop is the symmetric identity, as no loop is inconsistent
          have hgood := (schreierGenerators_ok hls).1 _ hloop
          have hsign : (h.loopAt hgens q g).val.flips = false := by
            rwa [SignedPerm.isInconsistent, hid, Bool.and_true] at hgood
          rw [Signed.eq_one_of_isIdentity hid hsign]
          exact (Signed.span n ls).one_mem
    have hreturn := return_mem_span_loops hgens hseed hall hx
    rwa [hfix, h.transporter_seed hgens, inv_one, one_mul] at hreturn

/-- Some loop is the antisymmetric identity, written with the transversal. -/
theorem loops_inconsistent_iff :
    (∃ s ∈ (grow n gens seed).loops gens, s.isInconsistent = true)
      ↔ ∃ q ∈ (grow n gens seed).points, ∃ g ∈ gens, ∃ t t',
        (grow n gens seed).transversal gens q = some t
          ∧ (grow n gens seed).transversal gens (g.act q) = some t'
          ∧ t'.inverse * (g * t) = (SignedPerm.id n).negated := by
  have h := grow_stage gens hseed
  have hcontains : ∀ {q : Nat} {g : SignedPerm}, (grow n gens seed).contains q = true → g ∈ gens →
      (grow n gens seed).contains (g.act q) = true := by
    intro q g hq hg
    exact grow_closed hseed hq hg ((hgens g hg).act_lt (h.lt_of_contains hq))
  constructor
  · rintro ⟨s, hs, hbad⟩
    obtain ⟨q, hq, g, hg, rfl⟩ := (h.mem_loops_iff hgens).mp hs
    have hflip := (Signed.isInconsistent_iff _).mp hbad
    exact ⟨q, (h.contains_iff q).mp hq, g.val, hg, _, _, h.transversal_eq hgens hq,
      h.transversal_eq hgens (hcontains hq hg), congrArg Signed.val hflip⟩
  · rintro ⟨q, hlisted, g, hg, t, t', ht, ht', hprod⟩
    have hq := (h.contains_iff q).mpr hlisted
    rw [h.transversal_eq hgens hq] at ht
    rw [h.transversal_eq hgens (hcontains hq hg)] at ht'
    obtain rfl := Option.some.inj ht
    obtain rfl := Option.some.inj ht'
    have hflip : h.loopAt hgens q ⟨g, hgens g hg⟩ = Signed.flip n := Signed.eq_of_val hprod
    refine ⟨_, (h.mem_loops_iff hgens).mpr ⟨q, hq, ⟨g, hgens g hg⟩, hg, rfl⟩, ?_⟩
    exact (Signed.isInconsistent_iff _).mpr hflip

theorem stabilizerGenerators_eq :
    stabilizerGenerators n gens seed = (grow n gens seed).schreierGenerators gens := by
  rw [stabilizerGenerators, ofSeed_eq_grow hgens hseed]
  rfl

/-- The Schreier generators fix the seed, move some point, differ from each other and generate
    the stabilizer of the seed, unless a loop is the antisymmetric identity. -/
theorem schreier_lemma :
    ∃ o, ofSeed n gens seed = .ok o
      ∧ stabilizerGenerators n gens seed = o.schreierGenerators gens
      ∧ (o.schreierGenerators gens = .error .inconsistentGenerators
        ↔ ∃ q ∈ o.points, ∃ g ∈ gens, ∃ t t', o.transversal gens q = some t
          ∧ o.transversal gens (g.act q) = some t'
          ∧ t'.inverse * (g * t) = (SignedPerm.id n).negated)
      ∧ (o.schreierGenerators gens ≠ .error .inconsistentGenerators →
        ∃ ls, o.schreierGenerators gens = .ok ls
          ∧ ls.Nodup
          ∧ (∀ s ∈ ls, s.isIdentity = false ∧ s.act seed = seed)
          ∧ ∀ p, SignedPerm.Generated n ls p ↔ SignedPerm.Generated n gens p ∧ p.act seed = seed) := by
  refine ⟨grow n gens seed, ofSeed_eq_grow hgens hseed, stabilizerGenerators_eq hgens hseed,
    schreierGenerators_error_iff.trans (loops_inconsistent_iff hgens hseed), ?_⟩
  intro hne
  obtain ⟨ls, hls⟩ := exists_schreierGenerators hne
  have hfrom : ∀ s ∈ ls, s.On n ∧ s.act seed = seed := by
    intro s hs
    obtain ⟨x, rfl, -, hfix⟩ :=
      mem_of_mem_loops hgens hseed ((mem_schreierGenerators_iff hls).mp hs).1
    exact ⟨x.on, hfix⟩
  refine ⟨ls, hls, ?_, ?_, ?_⟩
  · rw [(schreierGenerators_ok hls).2]
    exact SignedPerm.nodup_distinct _
  · intro s hs
    exact ⟨((mem_schreierGenerators_iff hls).mp hs).2, (hfrom s hs).2⟩
  · intro p
    rw [generated_iff fun s hs => (hfrom s hs).1, generated_iff hgens,
      span_schreierGenerators hgens hseed hls]
    constructor
    · rintro ⟨hp, hmem, hfix⟩
      exact ⟨⟨hp, hmem⟩, MulAction.mem_stabilizer_iff.mp hfix⟩
    · rintro ⟨⟨hp, hmem⟩, hfix⟩
      exact ⟨hp, hmem, MulAction.mem_stabilizer_iff.mpr hfix⟩

end Grown

/-- A rotation and a swap of three points, the swap with a sign. -/
theorem schreier_lemma_three :
    ∃ ls, stabilizerGenerators 3 [.ofImage #[1, 2, 0] false, .ofImage #[1, 0, 2] true] 0 = .ok ls
      ∧ ∀ p, SignedPerm.Generated 3 ls p
        ↔ SignedPerm.Generated 3 [.ofImage #[1, 2, 0] false, .ofImage #[1, 0, 2] true] p
          ∧ p.act 0 = 0 := by
  have hgens : ∀ g ∈ [SignedPerm.ofImage #[1, 2, 0] false, .ofImage #[1, 0, 2] true], g.On 3 := by
    decide +kernel
  obtain ⟨o, -, hstab, -, hok⟩ := schreier_lemma hgens (by decide : 0 < 3)
  have hne : stabilizerGenerators 3 [.ofImage #[1, 2, 0] false, .ofImage #[1, 0, 2] true] 0
      ≠ .error .inconsistentGenerators := by decide +kernel
  obtain ⟨ls, hls, -, -, hgenerated⟩ := hok (hstab ▸ hne)
  exact ⟨ls, hstab.trans hls, hgenerated⟩

/-! ## Tables that need no check -/

theorem storedSchreierGenerators_eq (hgens : ∀ g ∈ gens, g.On n) :
    o.storedSchreierGenerators gens = o.schreierGenerators gens := by
  have hall : gens.all (·.inRange) = true :=
    List.all_eq_true.mpr fun g hg => (hgens g hg).inRange
  rw [storedSchreierGenerators, if_pos hall]

end Orbit

end SlotSymmetry

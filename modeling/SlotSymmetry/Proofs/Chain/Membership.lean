import SlotSymmetry.Proofs.Chain.Built

/-! # Membership

    A finished chain accepts a valid permutation exactly if it is a finite
    product of the generators, and its tail at a depth exactly those products
    that fix the base points before.  Building a chain fails exactly if the
    antisymmetric identity is such a product. -/

namespace SlotSymmetry

open SignedPerm (Generated)

namespace Chain

variable {n : Nat} {H : Subgroup (Signed n)} {gens : List SignedPerm} {wanted : List Nat}
  {c : Chain}

/-! ## Acceptance -/

theorem contains_val (hdegree : c.degree = n) (x : Signed n) :
    c.contains x.val = siftsToIdentity c.levels x.val := by
  rw [contains, hdegree, x.on.degree_eq, beq_self_eq_true, Bool.true_and]

theorem on_of_contains (hdegree : c.degree = n) {p : SignedPerm} (hp : p.Valid)
    (h : c.contains p = true) : p.On n := by
  rw [contains, Bool.and_eq_true, beq_iff_eq, hdegree] at h
  exact ⟨hp, h.1⟩

/-- Complete levels accept the elements of the first group. -/
theorem contains_iff_of_complete (hdegree : c.degree = n) (hcomplete : Complete n c.levels)
    {p : SignedPerm} (hp : p.Valid) :
    c.contains p = true ↔ ∃ hon : p.On n, (⟨p, hon⟩ : Signed n) ∈ topGroup n c.levels := by
  constructor
  · intro h
    have hon := on_of_contains hdegree hp h
    refine ⟨hon, (hcomplete.siftsToIdentity_iff ⟨p, hon⟩).mp ?_⟩
    rwa [← contains_val hdegree ⟨p, hon⟩]
  · rintro ⟨hon, hmem⟩
    rw [contains_val hdegree ⟨p, hon⟩]
    exact (hcomplete.siftsToIdentity_iff ⟨p, hon⟩).mpr hmem

theorem Finished.tail_contains_iff (hc : c.Finished n H wanted) (depth : Nat) {p : SignedPerm}
    (hp : p.Valid) : (c.tail depth).contains p = true ↔
      ∃ hon : p.On n, (⟨p, hon⟩ : Signed n) ∈ topGroup n (c.levels.drop depth) :=
  contains_iff_of_complete (c := c.tail depth) hc.degree_eq (hc.complete.drop depth) hp

theorem Finished.contains_iff (hc : c.Finished n H wanted) {p : SignedPerm} (hp : p.Valid) :
    c.contains p = true ↔ ∃ hon : p.On n, (⟨p, hon⟩ : Signed n) ∈ H := by
  rw [← hc.stacked.top]
  exact contains_iff_of_complete hc.degree_eq hc.complete hp

/-- The elements of the group are the valid permutations that the chain accepts. -/
theorem Finished.exists_mem_iff (hc : c.Finished n H wanted) (P : SignedPerm → Prop) :
    (∃ x ∈ H, P x.val) ↔ ∃ p : SignedPerm, (p.Valid ∧ c.contains p = true) ∧ P p := by
  constructor
  · rintro ⟨x, hx, hP⟩
    exact ⟨x.val, ⟨x.on.valid, (hc.contains_iff x.on.valid).mpr ⟨x.on, hx⟩⟩, hP⟩
  · rintro ⟨p, ⟨hvalid, hmem⟩, hP⟩
    obtain ⟨hon, hx⟩ := (hc.contains_iff hvalid).mp hmem
    exact ⟨⟨p, hon⟩, hx, hP⟩

/-- A finished chain accepts the finite products of the generators. -/
theorem Finished.contains_iff_generated (hgens : ∀ g ∈ gens, g.On n)
    (hc : c.Finished n (Signed.span n gens) wanted) {p : SignedPerm} (hp : p.Valid) :
    c.contains p = true ↔ p.degree = n ∧ Generated n gens p := by
  rw [hc.contains_iff hp, generated_iff hgens]
  constructor
  · rintro ⟨hon, hmem⟩
    exact ⟨hon.degree_eq, hon, hmem⟩
  · rintro ⟨-, hmem⟩
    exact hmem

/-! ## Signs -/

/-- A finished chain has no room for the antisymmetric identity. -/
theorem Finished.flip_not_mem (hc : c.Finished n H wanted) : Signed.flip n ∉ H := by
  intro hmem
  rw [← hc.stacked.top] at hmem
  exact Signed.flip_ne_one (hc.complete.eq_one_of_fixes hmem fun _ _ => Signed.flip_smul _)

theorem unwind_negated (o : Orbit) (gens : List SignedPerm) (q : Nat) (h : SignedPerm) :
    o.unwind gens q h.negated = (o.unwind gens q h).negated := by
  rw [Orbit.unwind, Orbit.unwind]
  induction o.wayBack gens q generalizing h with
  | nil => rfl
  | cons step steps ih =>
      obtain ⟨i, g⟩ := step
      rw [List.foldl_cons, List.foldl_cons, ← ih, ← SignedPerm.invMul_negated]

/-- Sifting does not look at the sign and carries it along. -/
theorem sift_negated (levels : List Level) (h : SignedPerm) :
    SlotSymmetry.sift levels h.negated
      = ((SlotSymmetry.sift levels h).1.negated, (SlotSymmetry.sift levels h).2) := by
  induction levels generalizing h with
  | nil => rfl
  | cons level below ih =>
      have hact : h.negated.act level.basePoint = h.act level.basePoint := rfl
      rw [SlotSymmetry.sift, SlotSymmetry.sift, Level.strip, Level.strip, hact]
      cases hq : level.orbit.contains (h.act level.basePoint) with
      | false => simp
      | true => simp [unwind_negated, ih]

/-- No chain accepts a permutation with both signs. -/
theorem contains_negated {p : SignedPerm} (h : c.contains p = true) :
    c.contains p.negated = false := by
  have hflips : (SlotSymmetry.sift c.levels p).1.flips = false := by
    rw [contains, siftsToIdentity, Bool.and_eq_true, Bool.and_eq_true, Bool.not_eq_true'] at h
    exact h.2.2
  have hsign : (SlotSymmetry.sift c.levels p).1.negated.flips = true := by
    show (!(SlotSymmetry.sift c.levels p).1.flips) = true
    rw [hflips]
    rfl
  rw [contains, siftsToIdentity, sift_negated]
  simp [hsign]

/-! ## Groups -/

theorem generate_eq (n : Nat) (gens : List SignedPerm) :
    SignedGroup.generate n gens
      = (buildWithBase n gens []).map fun c => ⟨n, gens, c⟩ := by
  rw [SignedGroup.generate, build]
  cases buildWithBase n gens [] with
  | error e => rfl
  | ok c => rfl

theorem generate_ok_iff {G : SignedGroup} :
    SignedGroup.generate n gens = .ok G
      ↔ ∃ c, buildWithBase n gens [] = .ok c ∧ G = ⟨n, gens, c⟩ := by
  rw [generate_eq]
  cases buildWithBase n gens [] with
  | error e => simp [Except.map]
  | ok c => simp [Except.map, eq_comm]

theorem generate_error_iff {e : GroupError} :
    SignedGroup.generate n gens = .error e ↔ buildWithBase n gens [] = .error e := by
  rw [generate_eq]
  cases buildWithBase n gens [] with
  | error e' => simp [Except.map]
  | ok c => simp [Except.map]

/-! ## The two outcomes -/

theorem flip_generated_iff (hgens : ∀ g ∈ gens, g.On n) :
    Generated n gens (SignedPerm.id n).negated ↔ Signed.flip n ∈ Signed.span n gens := by
  rw [generated_iff hgens]
  constructor
  · rintro ⟨hon, hmem⟩
    exact hmem
  · intro hmem
    exact ⟨(Signed.flip n).on, hmem⟩

/-- Both signs of one permutation make the antisymmetric identity. -/
theorem flip_generated_of_negated (hgens : ∀ g ∈ gens, g.On n) {p : SignedPerm}
    (hp : Generated n gens p) (hneg : Generated n gens p.negated) :
    Generated n gens (SignedPerm.id n).negated := by
  obtain ⟨hon, hmem⟩ := (generated_iff hgens).mp hp
  obtain ⟨hon', hmem'⟩ := (generated_iff hgens).mp hneg
  have hprod : (⟨p.negated, hon'⟩ : Signed n) = .flip n * ⟨p, hon⟩ := Signed.negated_eq hon
  rw [hprod] at hmem'
  exact (flip_generated_iff hgens).mpr (((Signed.span n gens).mul_mem_cancel_right hmem).mp hmem')

section Outcomes

variable (hgens : ∀ g ∈ gens, g.On n) (hlt : ∀ b ∈ wanted, b < n)
include hgens hlt

theorem buildWithBase_cases :
    (buildWithBase n gens wanted = .error .inconsistentGenerators
        ∧ Generated n gens (SignedPerm.id n).negated)
      ∨ ∃ c, buildWithBase n gens wanted = .ok c
        ∧ c.Finished n (Signed.span n gens) wanted.eraseDups
        ∧ ¬ Generated n gens (SignedPerm.id n).negated := by
  have hbuilt := buildWithBase_built hgens hlt
  rw [flip_generated_iff hgens]
  generalize buildWithBase n gens wanted = result at hbuilt
  cases hbuilt with
  | clash hflip => exact Or.inl ⟨rfl, hflip⟩
  | chain hfinished => exact Or.inr ⟨_, rfl, hfinished, hfinished.flip_not_mem⟩

theorem finished_of_ok (hc : buildWithBase n gens wanted = .ok c) :
    c.Finished n (Signed.span n gens) wanted.eraseDups := by
  rcases buildWithBase_cases hgens hlt with ⟨herr, -⟩ | ⟨c', hc', hfinished, -⟩
  · exact nomatch hc.symm.trans herr
  · obtain rfl : c = c' := Except.ok.inj (hc.symm.trans hc')
    exact hfinished

theorem error_iff_generated : buildWithBase n gens wanted = .error .inconsistentGenerators
    ↔ Generated n gens (SignedPerm.id n).negated := by
  rcases buildWithBase_cases hgens hlt with ⟨herr, hflip⟩ | ⟨c, hc, -, hflip⟩
  · exact iff_of_true herr hflip
  · exact iff_of_false (fun herr => nomatch hc.symm.trans herr) hflip

theorem exists_ok (hflip : ¬ Generated n gens (SignedPerm.id n).negated) :
    ∃ c, buildWithBase n gens wanted = .ok c := by
  rcases buildWithBase_cases hgens hlt with ⟨-, hflip'⟩ | ⟨c, hc, -, -⟩
  · exact absurd hflip' hflip
  · exact ⟨c, hc⟩

end Outcomes

/-! ## The main results -/

theorem exists_of_isOk {α : Type} {result : Except GroupError α} (h : result.isOk = true) :
    ∃ a, result = .ok a := by
  cases result with
  | error e => exact nomatch h
  | ok a => exact ⟨a, rfl⟩

theorem exists_of_map_toOption {α β : Type} {result : Except GroupError α} {f : α → β} {b : β}
    (h : result.toOption.map f = some b) : ∃ a, result = .ok a ∧ f a = b := by
  cases result with
  | error e => exact nomatch h
  | ok a => exact ⟨a, rfl, Option.some.inj h⟩

/-- Chains and groups accept exactly the finite products of their generators. -/
theorem membership_exact (hgens : ∀ g ∈ gens, g.On n) (hlt : ∀ b ∈ wanted, b < n) :
    (∀ c, buildWithBase n gens wanted = .ok c → ∀ p : SignedPerm, p.Valid →
        (c.contains p = true ↔ p.degree = n ∧ Generated n gens p))
      ∧ ∀ G, SignedGroup.generate n gens = .ok G → ∀ p : SignedPerm, p.Valid →
        (G.contains p = true ↔ p.degree = n ∧ Generated n gens p) := by
  constructor
  · intro c hc p hp
    exact (finished_of_ok hgens hlt hc).contains_iff_generated hgens hp
  · intro G hG p hp
    obtain ⟨c, hc, rfl⟩ := generate_ok_iff.mp hG
    have hempty : ∀ b ∈ ([] : List Nat), b < n := nofun
    exact (finished_of_ok hgens hempty hc).contains_iff_generated hgens hp

theorem membership_exact_rotation :
    ∃ c, buildWithBase 3 [SignedGroup.rotation 3 false] [2] = .ok c
      ∧ (c.contains (SignedGroup.firstSwap 3 false) = true
        ↔ (SignedGroup.firstSwap 3 false).degree = 3
          ∧ Generated 3 [SignedGroup.rotation 3 false] (SignedGroup.firstSwap 3 false)) := by
  have hgens : ∀ g ∈ [SignedGroup.rotation 3 false], g.On 3 := by decide +kernel
  have hok : (buildWithBase 3 [SignedGroup.rotation 3 false] [2]).isOk = true := by
    decide +kernel
  obtain ⟨c, hc⟩ := exists_of_isOk hok
  exact ⟨c, hc, (membership_exact hgens (by decide)).1 c hc _ (by decide +kernel)⟩

/-- Building fails exactly if the antisymmetric identity is generated, and no group
    that is built holds a permutation with both signs. -/
theorem inconsistent_iff_flip_generated (hgens : ∀ g ∈ gens, g.On n)
    (hlt : ∀ b ∈ wanted, b < n) :
    (buildWithBase n gens wanted = .error .inconsistentGenerators
        ↔ Generated n gens (SignedPerm.id n).negated)
      ∧ (SignedGroup.generate n gens = .error .inconsistentGenerators
        ↔ Generated n gens (SignedPerm.id n).negated)
      ∧ (¬ Generated n gens (SignedPerm.id n).negated →
        (∃ c, buildWithBase n gens wanted = .ok c
            ∧ ∀ p, ¬ (c.contains p = true ∧ c.contains p.negated = true))
          ∧ (∃ G, SignedGroup.generate n gens = .ok G
            ∧ ∀ p, ¬ (G.contains p = true ∧ G.contains p.negated = true))
          ∧ ∀ p, ¬ (Generated n gens p ∧ Generated n gens p.negated)) := by
  have hempty : ∀ b ∈ ([] : List Nat), b < n := nofun
  have hboth : ∀ (c : Chain) (p : SignedPerm),
      ¬ (c.contains p = true ∧ c.contains p.negated = true) := by
    rintro c p ⟨hp, hneg⟩
    rw [contains_negated hp] at hneg
    exact nomatch hneg
  refine ⟨error_iff_generated hgens hlt, ?_, ?_⟩
  · rw [generate_error_iff]
    exact error_iff_generated hgens hempty
  · intro hflip
    obtain ⟨c, hc⟩ := exists_ok hgens hlt hflip
    obtain ⟨c', hc'⟩ := exists_ok hgens hempty hflip
    refine ⟨⟨c, hc, hboth c⟩, ⟨⟨n, gens, c'⟩, ?_, hboth c'⟩, ?_⟩
    · exact generate_ok_iff.mpr ⟨c', hc', rfl⟩
    · rintro p ⟨hp, hneg⟩
      exact hflip (flip_generated_of_negated hgens hp hneg)

/-- Three times the antisymmetric rotation of three points. -/
theorem inconsistent_rotation :
    buildWithBase 3 [SignedGroup.rotation 3 true] [2] = .error .inconsistentGenerators := by
  have hgens : ∀ g ∈ [SignedGroup.rotation 3 true], g.On 3 := by decide +kernel
  refine (inconsistent_iff_flip_generated hgens (by decide)).1.mpr ?_
  have hcube : (SignedPerm.id 3).negated
      = SignedGroup.rotation 3 true * (SignedGroup.rotation 3 true
        * (SignedGroup.rotation 3 true * SignedPerm.id 3)) := by decide +kernel
  rw [hcube]
  exact .mul List.mem_cons_self (.mul List.mem_cons_self (.mul List.mem_cons_self .one))

end Chain

end SlotSymmetry

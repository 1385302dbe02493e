import SlotSymmetry.Proofs.Group.Inclusion

/-! # Joins

    The union of two groups is generated from their lists of generators, one
    list after the other; the chains are not looked at.  The lists span the
    subgroups that the groups present, so together they span the join of these.
    Its elements are the finite products of members of both groups, in any
    order, and it clashes exactly if one of these is the antisymmetric identity.
    None of this depends on which group comes first. -/

namespace SlotSymmetry

theorem span_append (n : Nat) (gens gens' : List SignedPerm) :
    Signed.span n (gens ++ gens') = Signed.span n gens ⊔ Signed.span n gens' := by
  refine le_antisymm (span_le.mpr fun g hg => ?_) (sup_le ?_ ?_)
  · rcases List.mem_append.mp hg with hg | hg
    · exact Subgroup.mem_sup_left (mem_span_of_mem g.on hg)
    · exact Subgroup.mem_sup_right (mem_span_of_mem g.on hg)
  · exact span_mono fun _ hg => List.mem_append_left _ hg
  · exact span_mono fun _ hg => List.mem_append_right _ hg

namespace SignedGroup

/-- The finite products of members of the two groups. -/
inductive Mixed (A B : SignedGroup) : SignedPerm → Prop where
  | one : Mixed A B (.id A.degree)
  | mul {g p : SignedPerm} : g.Valid → A.contains g = true ∨ B.contains g = true → Mixed A B p →
      Mixed A B (g * p)

variable {n : Nat} {H K : Subgroup (Signed n)} {A B L : SignedGroup}

/-- The products are the elements of the join. -/
theorem Presents.mixed_iff (hA : A.Presents n H) (hB : B.Presents n K) {p : SignedPerm} :
    Mixed A B p ↔ ∃ hp : p.On n, (⟨p, hp⟩ : Signed n) ∈ H ⊔ K := by
  constructor
  · intro h
    induction h with
    | one =>
        rw [hA.degree_eq]
        exact ⟨SignedPerm.id_on n, (H ⊔ K).one_mem⟩
    | @mul g p hvalid hmem _ ih =>
        obtain ⟨hp, hrest⟩ := ih
        have hfirst : ∃ hg : g.On n, (⟨g, hg⟩ : Signed n) ∈ H ⊔ K := by
          rcases hmem with hmem | hmem
          · obtain ⟨hg, hgH⟩ := (hA.contains_iff hvalid).mp hmem
            exact ⟨hg, Subgroup.mem_sup_left hgH⟩
          · obtain ⟨hg, hgK⟩ := (hB.contains_iff hvalid).mp hmem
            exact ⟨hg, Subgroup.mem_sup_right hgK⟩
        obtain ⟨hg, hgmem⟩ := hfirst
        exact ⟨hg.mul hp, (H ⊔ K).mul_mem hgmem hrest⟩
  · rintro ⟨hp, hmem⟩
    rw [← hA.span_eq, ← hB.span_eq, ← span_append] at hmem
    refine span_induction (P := fun x => Mixed A B x.val) (hA.degree_eq ▸ .one) ?_ hmem
    intro g x hg _ ih
    -- a generator of one of the groups is a member of it
    refine .mul g.on.valid ?_ ih
    rw [hA.contains_val_iff, hB.contains_val_iff, ← hA.span_eq, ← hB.span_eq]
    exact (List.mem_append.mp hg).imp (mem_span_of_mem g.on) (mem_span_of_mem g.on)

/-- Equal sets of products, whichever group comes first. -/
theorem Presents.mixed_comm (hA : A.Presents n H) (hB : B.Presents n K) {p : SignedPerm} :
    Mixed A B p ↔ Mixed B A p := by
  rw [hA.mixed_iff hB, hB.mixed_iff hA, sup_comm]

/-! ## The two outcomes -/

theorem Presents.union_eq (hA : A.Presents n H) (hB : B.Presents n K) :
    A.union B = generate n (A.generators ++ B.generators) := by
  rw [union, sameDegree, if_pos (hA.degree_eq.trans hB.degree_eq.symm), hA.degree_eq]
  rfl

theorem Presents.span_union (hA : A.Presents n H) (hB : B.Presents n K) :
    Signed.span n (A.generators ++ B.generators) = H ⊔ K := by
  rw [span_append, hA.span_eq, hB.span_eq]

theorem Presents.union_clash (hA : A.Presents n H) (hB : B.Presents n K)
    (hflip : Signed.flip n ∈ H ⊔ K) : A.union B = .error .inconsistentGenerators := by
  have hon := List.forall_mem_append.mpr ⟨hA.on, hB.on⟩
  have hempty : ∀ b ∈ ([] : List Nat), b < n := nofun
  rw [hA.union_eq hB, Chain.generate_error_iff, Chain.error_iff_generated hon hempty,
    Chain.flip_generated_iff hon, hA.span_union hB]
  exact hflip

theorem Presents.exists_union (hA : A.Presents n H) (hB : B.Presents n K)
    (hflip : Signed.flip n ∉ H ⊔ K) : ∃ M, A.union B = .ok M ∧ M.Presents n (H ⊔ K) := by
  rw [← hA.span_union hB] at hflip ⊢
  rw [hA.union_eq hB]
  exact exists_generate (List.forall_mem_append.mpr ⟨hA.on, hB.on⟩) hflip

theorem Presents.mixed_flip_iff (hA : A.Presents n H) (hB : B.Presents n K) :
    Mixed A B (SignedPerm.id n).negated ↔ Signed.flip n ∈ H ⊔ K := by
  rw [hA.mixed_iff hB]
  exact ⟨fun ⟨_, hmem⟩ => hmem, fun hmem => ⟨(Signed.flip n).on, hmem⟩⟩

theorem Presents.mixed_of_union (hA : A.Presents n H) (hB : B.Presents n K) {M : SignedGroup}
    (hM : M.Presents n (H ⊔ K)) {p : SignedPerm} (hp : p.Valid) :
    M.contains p = true ↔ Mixed A B p := by
  rw [hM.contains_iff hp, hA.mixed_iff hB]

/-- A group that has the members of both operands has those of their join. -/
theorem Presents.join_le (hA : A.Presents n H) (hB : B.Presents n K) {M : SignedGroup}
    (hM : M.Presents n (H ⊔ K)) (hL : L.Reachable)
    (hAL : ∀ p : SignedPerm, p.Valid → A.contains p = true → L.contains p = true)
    (hBL : ∀ p : SignedPerm, p.Valid → B.contains p = true → L.contains p = true) :
    ∀ p : SignedPerm, p.Valid → M.contains p = true → L.contains p = true := by
  have hdegree := hA.degree_eq_of_contains hL.presents hAL
  have hL' := hL.presents.at_degree (hdegree.symm.trans hA.degree_eq)
  rw [← hA.le_iff_contains hL'] at hAL
  rw [← hB.le_iff_contains hL'] at hBL
  exact (hM.le_iff_contains hL').mp (sup_le hAL hBL)

/-- The union of two groups fails exactly if a finite product of members of both is the
    antisymmetric identity.  Otherwise its members are these products, and any group with the
    members of both operands has them all.  The order of the operands does not matter. -/
theorem union_exact (hA : A.Reachable) (hB : B.Reachable) (hdegree : A.degree = B.degree) :
    (A.union B = .error .inconsistentGenerators ↔ Mixed A B (SignedPerm.id A.degree).negated)
      ∧ (¬ Mixed A B (SignedPerm.id A.degree).negated → ∃ M, A.union B = .ok M
        ∧ (∀ p : SignedPerm, p.Valid → (M.contains p = true ↔ Mixed A B p))
        ∧ ∀ L : SignedGroup, L.Reachable →
          (∀ p : SignedPerm, p.Valid → A.contains p = true → L.contains p = true) →
          (∀ p : SignedPerm, p.Valid → B.contains p = true → L.contains p = true) →
          ∀ p : SignedPerm, p.Valid → M.contains p = true → L.contains p = true)
      ∧ (A.union B).isOk = (B.union A).isOk
      ∧ ∀ M M', A.union B = .ok M → B.union A = .ok M' →
        ∀ p : SignedPerm, p.Valid → M.contains p = M'.contains p := by
  have hpA := hA.presents
  have hpB := hB.presents.at_degree hdegree.symm
  rw [hpA.mixed_flip_iff hpB]
  by_cases hflip : Signed.flip A.degree ∈ A.subgroup ⊔ Signed.span A.degree B.generators
  · have hAB := hpA.union_clash hpB hflip
    have hBA := hpB.union_clash hpA (sup_comm A.subgroup _ ▸ hflip)
    rw [hAB, hBA]
    exact ⟨iff_of_true rfl hflip, fun h => absurd hflip h, rfl, nofun⟩
  · obtain ⟨M, hM, hpM⟩ := hpA.exists_union hpB hflip
    obtain ⟨M', hM', hpM'⟩ := hpB.exists_union hpA (sup_comm A.subgroup _ ▸ hflip)
    rw [hM, hM']
    refine ⟨iff_of_false nofun hflip, fun _ => ⟨M, rfl, ?_, ?_⟩, rfl, ?_⟩
    · exact fun p hp => hpA.mixed_of_union hpB hpM hp
    · exact fun L hL hAL hBL => hpA.join_le hpB hpM hL hAL hBL
    · rintro _ _ ⟨⟩ ⟨⟩ p hp
      rw [Bool.eq_iff_iff, hpA.mixed_of_union hpB hpM hp, hpB.mixed_of_union hpA hpM' hp,
        hpA.mixed_comm hpB]

/-- The symmetric swap of the first two of three points and the antisymmetric swap of the last two:
    three times their product is the antisymmetric identity. -/
theorem union_exact_swaps :
    ∃ A B, generate 3 [firstSwap 3 false] = .ok A
      ∧ generate 3 [.ofImage #[0, 2, 1] true] = .ok B
      ∧ A.union B = .error .inconsistentGenerators ∧ (B.union A).isOk = false := by
  have hvalid : ∀ g ∈ [firstSwap 3 false, .ofImage #[0, 2, 1] true], g.Valid := by
    decide +kernel
  have hmade : (generate 3 [firstSwap 3 false]).toOption.map (fun A =>
      (generate 3 [.ofImage #[0, 2, 1] true]).toOption.map fun B =>
        ((A.degree, B.degree), A.contains (firstSwap 3 false),
          B.contains (.ofImage #[0, 2, 1] true))) = some (some ((3, 3), true, true)) := by
    decide +kernel
  obtain ⟨A, hA, hmade⟩ := Chain.exists_of_map_toOption hmade
  obtain ⟨B, hB, hmade⟩ := Chain.exists_of_map_toOption hmade
  obtain ⟨hdegrees, hmembers⟩ := Prod.mk.inj hmade
  obtain ⟨hdegree, hdegree'⟩ := Prod.mk.inj hdegrees
  obtain ⟨hmemA, hmemB⟩ := Prod.mk.inj hmembers
  obtain ⟨hvalidA, hvalidB⟩ := List.forall_mem_cons.mp hvalid
  have hA' : A.Reachable := .generate (List.forall_mem_singleton.mpr hvalidA) hA
  have hB' : B.Reachable := .generate hvalidB hB
  obtain ⟨hclash, -, hsame, -⟩ := union_exact hA' hB' (hdegree.trans hdegree'.symm)
  have hround : ∀ {p}, Mixed A B p →
      Mixed A B (firstSwap 3 false * (.ofImage #[0, 2, 1] true * p)) := fun hp =>
    .mul hvalidA (.inl hmemA) (.mul (hvalidB _ List.mem_cons_self) (.inr hmemB) hp)
  have hcube : firstSwap 3 false * (.ofImage #[0, 2, 1] true * (firstSwap 3 false
      * (.ofImage #[0, 2, 1] true * (firstSwap 3 false * (.ofImage #[0, 2, 1] true
      * SignedPerm.id 3))))) = (SignedPerm.id 3).negated := by
    decide +kernel
  have hflip : Mixed A B (SignedPerm.id A.degree).negated := by
    have hrounds := hround (hround (hround .one))
    rw [hdegree] at hrounds ⊢
    rwa [hcube] at hrounds
  have hfails := hclash.mpr hflip
  refine ⟨A, B, hA, hB, hfails, ?_⟩
  rw [← hsame, hfails]
  rfl

end SignedGroup

end SlotSymmetry

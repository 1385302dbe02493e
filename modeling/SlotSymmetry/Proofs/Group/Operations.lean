import Mathlib.GroupTheory.GroupAction.FixingSubgroup
import SlotSymmetry.Group.SignKernel
import SlotSymmetry.Proofs.Group.Presents

/-! # What the operations make

    Whenever an operation makes a group out of lists of valid permutations or of
    groups that present subgroups, the result presents a subgroup again.  For
    the stabilizer of points this takes the shape of the rebuilt chain: the
    points lead its base, none of them comes after, and the levels below
    describe the elements that fix them.  The other operations here generate a
    group from a new list of permutations of the same degree. -/

namespace SlotSymmetry

namespace SignedGroup

variable {n : Nat} {H K : Subgroup (Signed n)} {G G' M : SignedGroup} {gens : List SignedPerm}

theorem generate_presents (hvalid : ∀ g ∈ gens, g.Valid) (hM : generate n gens = .ok M) :
    M.Presents n (Signed.span n gens) := by
  obtain ⟨c, hc, -⟩ := Chain.generate_ok_iff.mp hM
  have hdegree := (Chain.inputs_of_ok hc).2
  exact presents_of_generate (fun g hg => ⟨hvalid g hg, hdegree g hg⟩) hM

/-! ## Standard generators -/

theorem rotation_act (flips : Bool) {i : Nat} (hi : i < n) :
    (rotation n flips).act i = (i + 1) % n := by
  show ((Array.range n).map fun i => (i + 1) % n).getD i i = (i + 1) % n
  simp [Array.getD_eq_getD_getElem?, hi]

theorem rotation_on (hn : 0 < n) (flips : Bool) : (rotation n flips).On n := by
  refine SignedPerm.ofImage_on (by simp) ?_ ?_
  · intro i hi
    change (rotation n flips).act i < n
    rw [rotation_act flips hi]
    exact Nat.mod_lt _ hn
  · intro i j hi hj hij
    change (rotation n flips).act i = (rotation n flips).act j at hij
    rw [rotation_act flips hi, rotation_act flips hj] at hij
    -- only the last point wraps around
    rcases Nat.lt_or_ge (i + 1) n with hi' | hi' <;> rcases Nat.lt_or_ge (j + 1) n with hj' | hj'
    · rw [Nat.mod_eq_of_lt hi', Nat.mod_eq_of_lt hj'] at hij
      omega
    · rw [Nat.mod_eq_of_lt hi', show j + 1 = n by omega, Nat.mod_self] at hij
      omega
    · rw [Nat.mod_eq_of_lt hj', show i + 1 = n by omega, Nat.mod_self] at hij
      omega
    · omega

theorem firstSwap_act (hn : 2 ≤ n) (flips : Bool) {i : Nat} (hi : i < n) :
    (firstSwap n flips).act i = Equiv.swap 0 1 i := by
  show ((Array.range n).swapIfInBounds 0 1).getD i i = Equiv.swap 0 1 i
  have h0 : 0 < (Array.range n).size := by rw [Array.size_range]; omega
  have h1 : 1 < (Array.range n).size := by rw [Array.size_range]; omega
  rw [Array.getD_eq_getD_getElem?, Array.swapIfInBounds, dif_pos h0, dif_pos h1,
    Array.getElem?_swap, Equiv.swap_apply_def]
  grind

theorem firstSwap_on (hn : 2 ≤ n) (flips : Bool) : (firstSwap n flips).On n := by
  refine SignedPerm.ofImage_on (by simp) ?_ ?_
  · intro i hi
    change (firstSwap n flips).act i < n
    rw [firstSwap_act hn flips hi, Equiv.swap_apply_def]
    split <;> [skip; split] <;> omega
  · intro i j hi hj hij
    change (firstSwap n flips).act i = (firstSwap n flips).act j at hij
    rw [firstSwap_act hn flips hi, firstSwap_act hn flips hj] at hij
    exact (Equiv.swap 0 1).injective hij

theorem fullGenerators_on (hn : 2 ≤ n) (signed : Bool) : ∀ g ∈ fullGenerators n signed, g.On n := by
  intro g hg
  rw [fullGenerators] at hg
  split at hg
  · rw [List.mem_singleton.mp hg]
    exact firstSwap_on hn signed
  · rcases List.mem_cons.mp hg with rfl | hg
    · exact firstSwap_on hn signed
    · rw [List.mem_singleton.mp hg]
      exact rotation_on (by omega) _

theorem full_presents {signed : Bool} (hM : full n signed = .ok M) :
    ∃ L, M.Presents n L := by
  rw [full] at hM
  split at hM
  · rw [← Except.ok.inj hM]
    exact ⟨_, trivial_presents n⟩
  · exact ⟨_, presents_of_generate (fullGenerators_on (by omega) signed) hM⟩

theorem cyclic_presents (hM : cyclic n = .ok M) : ∃ L, M.Presents n L := by
  rw [cyclic] at hM
  split at hM
  · rw [← Except.ok.inj hM]
    exact ⟨_, trivial_presents n⟩
  · have hon : ∀ g ∈ [rotation n false], g.On n :=
      List.forall_mem_singleton.mpr (rotation_on (by omega) false)
    exact ⟨_, presents_of_generate hon hM⟩

/-! ## Stabilizers of points -/

/-- Past the points at its start, the base has none of them. -/
theorem takeWhile_base {base points : List Nat} (hnodup : base.Nodup)
    (hstarts : points.eraseDups <+: base) :
    base.takeWhile (points.contains ·) = points.eraseDups := by
  obtain ⟨rest, rfl⟩ := hstarts
  have hpoints : ∀ q ∈ points.eraseDups, points.contains q = true :=
    fun q hq => List.contains_iff_mem.mpr (List.mem_eraseDups.mp hq)
  rw [List.takeWhile_append_of_pos hpoints]
  cases rest with
  | nil => rw [List.takeWhile_nil, List.append_nil]
  | cons b rest =>
      have hb : ¬ points.contains b = true := by
        intro hb
        have hmem := List.mem_eraseDups.mpr (List.contains_iff_mem.mp hb)
        exact (List.nodup_append.mp hnodup).2.2 b hmem b List.mem_cons_self rfl
      rw [List.takeWhile_cons_of_neg hb, List.append_nil]

/-- The stabilizer of points that are points of the group. -/
theorem exists_stabilizer (hG : G.Presents n H) {points : List Nat} (hlt : ∀ b ∈ points, b < n) :
    ∃ M, G.stabilizer points = .ok M
      ∧ M.Presents n (H ⊓ fixingSubgroup (Signed n) {q | q ∈ points}) := by
  obtain ⟨c, hc, hfinished⟩ := hG.exists_rebased hlt
  have htake := takeWhile_base hfinished.nodup_base hfinished.starts
  have htail := hfinished.tail (Nat.le_refl _)
  have hgroup : topGroup n (c.levels.drop points.eraseDups.length)
      = H ⊓ fixingSubgroup (Signed n) {q | q ∈ points} := by
    ext x
    rw [hfinished.mem_top_drop_iff, ← List.prefix_iff_eq_take.mp hfinished.starts,
      Subgroup.mem_inf, mem_fixingSubgroup_iff]
    refine and_congr_right fun _ => forall_congr' fun q => ?_
    rw [List.mem_eraseDups]
    rfl
  rw [hgroup] at htail
  refine ⟨⟨n, (c.tail points.eraseDups.length).strongGenerators, c.tail points.eraseDups.length⟩,
    ?_, rfl, htail.strongGenerators_on, htail.span_strongGenerators, htail⟩
  rw [stabilizer, hG.degree_eq, hc]
  show Except.ok _ = _
  rw [htake]

theorem stabilizer_presents (hG : G.Presents n H) {points : List Nat}
    (hM : G.stabilizer points = .ok M) :
    M.Presents n (H ⊓ fixingSubgroup (Signed n) {q | q ∈ points}) := by
  obtain ⟨c, hc, -⟩ := exists_of_bind_ok hM
  rw [hG.degree_eq] at hc
  obtain ⟨M', hM', hpresents⟩ := exists_stabilizer hG (Chain.inputs_of_ok hc).1
  rwa [Except.ok.inj (hM.symm.trans hM')]

/-! ## Joins and signs -/

theorem degree_eq_of_sameDegree (h : sameDegree G G' = .ok ()) : G.degree = G'.degree := by
  by_contra hne
  rw [sameDegree, if_neg hne] at h
  exact nomatch h

theorem union_presents (hG : G.Presents n H) (hG' : G'.Presents n K) (hM : G.union G' = .ok M) :
    M.Presents n (Signed.span n (G.generators ++ G'.generators)) := by
  obtain ⟨-, hM⟩ := of_check_ok hM
  rw [hG.degree_eq] at hM
  exact presents_of_generate (List.forall_mem_append.mpr ⟨hG.on, hG'.on⟩) hM

theorem straighten_on {f x : SignedPerm} (hf : f.On n) (hx : x.On n) : (straighten f x).On n := by
  rw [straighten]
  split
  · exact hf.inverse.mul hx
  · exact hx

theorem kernelGenerators_on {f : SignedPerm} (hf : f.On n) (hgens : ∀ g ∈ gens, g.On n) :
    ∀ g ∈ kernelGenerators f gens, g.On n := by
  intro s hs
  rw [kernelGenerators, SignedPerm.mem_distinct, List.mem_filter, List.mem_flatMap] at hs
  obtain ⟨⟨g, hg, hs⟩, -⟩ := hs
  rcases List.mem_cons.mp hs with rfl | hs
  · exact straighten_on hf (hgens g hg)
  · rw [List.mem_singleton.mp hs]
    exact straighten_on hf ((hgens g hg).mul hf)

theorem signPreserving_presents (hG : G.Presents n H) (hM : G.signPreserving = .ok M) :
    ∃ L, M.Presents n L := by
  rw [signPreserving] at hM
  cases hfind : G.generators.find? (·.flips) with
  | none =>
      rw [hfind] at hM
      rw [← Except.ok.inj hM]
      exact ⟨H, hG⟩
  | some f =>
      rw [hfind, hG.degree_eq] at hM
      have hf := hG.on f (List.mem_of_find?_eq_some hfind)
      exact ⟨_, presents_of_generate (kernelGenerators_on hf hG.on) hM⟩

end SignedGroup

end SlotSymmetry

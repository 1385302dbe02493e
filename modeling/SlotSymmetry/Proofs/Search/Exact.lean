import SlotSymmetry.Proofs.Group.Reachable

/-! # What a search lists

    A search without limits, whose tests carry no memory, lists the harvest of
    its tree.  Over a finished chain these are the elements of the group that
    are kept at every node on their way and accepted at the end, each once, in
    ascending order of their base images.  If the test on images keeps the start
    of whatever it keeps, only the images of the whole base matter. -/

namespace SlotSymmetry

/-! ## All elements that are left -/

theorem gather_push {α : Type} (xs : List α) (found : Array α) :
    (gather (fun _ => true) (·.push ·) found xs).toList = found.toList ++ xs := by
  induction xs generalizing found with
  | nil => rw [gather, List.append_nil]
  | cons x xs ih => rw [gather_of_more _ rfl, ih, Array.toList_push, List.append_assoc]; rfl

theorem Search.all_eq_harvest {keep : List Nat → Bool} {accept : SignedPerm → Bool}
    {s : Search Unit} (h : s.meter.Free) :
    (s.all (Tests.plain keep accept)).1.toList = agendaHarvest keep accept s.agenda := by
  rw [all, foldWhile_eq_gather _ h, gather_push]
  rfl

namespace Chain

variable {n : Nat} {H : Subgroup (Signed n)} {wanted : List Nat} {c : Chain}
  {keep : List Nat → Bool} {accept : SignedPerm → Bool}

theorem findAll_eq_harvest (c : Chain) (keep : List Nat → Bool) (accept : SignedPerm → Bool) :
    c.findAll .unlimited (Tests.plain keep accept) ()
      = (.complete (harvest keep accept c.levels [] (.id c.degree)), ()) := by
  have hfree : (c.search .unlimited ()).meter.Free := Meter.start_free
  have hend : ((c.search .unlimited ()).all (Tests.plain keep accept)).2.meter.Free :=
    Search.free_foldWhile hfree
  have hall : ((c.search .unlimited ()).all (Tests.plain keep accept)).1.toList = _ :=
    Search.all_eq_harvest hfree
  rw [search, Search.agendaHarvest_start] at hall
  show (((c.search .unlimited ()).all (Tests.plain keep accept)).2.meter.outcome
    ((c.search .unlimited ()).all (Tests.plain keep accept)).1.toList, ()) = _
  rw [hend.outcome, search, hall]

/-! ## The elements that are listed -/

/-- The test keeps the start of whatever it keeps. -/
def PrefixClosed (keep : List Nat → Bool) : Prop :=
  ∀ v w, v <+: w → keep w = true → keep v = true

/-- The list has the elements of the chain whose base images are kept from the first to the last
    and that are accepted, each once, in ascending order of base images. -/
structure Lists (c : Chain) (keep : List Nat → Bool) (accept : SignedPerm → Bool)
    (found : List SignedPerm) : Prop where
  mem_iff : ∀ p : SignedPerm, p ∈ found ↔ (p.Valid ∧ c.contains p = true)
    ∧ (∀ w, w <+: c.base.map p.act → keep w = true) ∧ accept p = true
  nodup : found.Nodup
  ascending : found.Pairwise fun p q => c.base.map p.act < c.base.map q.act
  closed : PrefixClosed keep → ∀ p : SignedPerm, p ∈ found ↔ (p.Valid ∧ c.contains p = true)
    ∧ keep (c.base.map p.act) = true ∧ accept p = true

theorem PrefixClosed.forall_prefix_iff (h : PrefixClosed keep) (images : List Nat) :
    (∀ w, w <+: images → keep w = true) ↔ keep images = true :=
  ⟨fun hall => hall images List.prefix_rfl, fun hkeep w hw => h w images hw hkeep⟩

theorem baseImages_levels (c : Chain) (p : SignedPerm) :
    baseImages c.levels p = c.base.map p.act :=
  baseImages_drop c 0 p

theorem Finished.mem_harvest_iff (hc : c.Finished n H wanted) (p : SignedPerm) :
    p ∈ harvest keep accept c.levels [] (.id c.degree) ↔ (p.Valid ∧ c.contains p = true)
      ∧ (∀ w, w <+: c.base.map p.act → keep w = true) ∧ accept p = true := by
  rw [hc.degree_eq, mem_harvest_root_iff hc.complete, hc.stacked.top, baseImages_levels]
  refine (hc.exists_mem_iff fun q => p = q ∧ _).trans ?_
  constructor
  · rintro ⟨q, hq, rfl, htests⟩
    exact ⟨hq, htests⟩
  · rintro ⟨hp, htests⟩
    exact ⟨p, hp, rfl, htests⟩

theorem Finished.lists_harvest (hc : c.Finished n H wanted) (keep : List Nat → Bool)
    (accept : SignedPerm → Bool) :
    Lists c keep accept (harvest keep accept c.levels [] (.id c.degree)) := by
  have hmem : ∀ p, p ∈ harvest keep accept c.levels [] (.id c.degree) ↔ _ :=
    hc.mem_harvest_iff
  have hsorted : (harvest keep accept c.levels [] (.id c.degree)).Pairwise
      fun p q => c.base.map p.act < c.base.map q.act := by
    simp only [← baseImages_levels]
    rw [hc.degree_eq, ← Signed.val_one]
    exact pairwise_harvest hc.complete 1
  refine ⟨hmem, hsorted.imp ?_, hsorted, fun hclosed p => ?_⟩
  · rintro p _ hlt rfl
    exact List.lt_irrefl _ hlt
  · rw [hmem, hclosed.forall_prefix_iff]

/-- Without limits, a search of a reachable group, or of a chain built on valid permutations, is
    complete: it lists exactly the elements that pass the tests, in ascending order. -/
theorem search_exact (keep : List Nat → Bool) (accept : SignedPerm → Bool) :
    (∀ G : SignedGroup, G.Reachable → ∃ found,
        G.chain.findAll .unlimited (Tests.plain keep accept) () = (.complete found, ())
          ∧ Lists G.chain keep accept found)
      ∧ ∀ (n : Nat) (gens : List SignedPerm) (wanted : List Nat) (c : Chain),
        (∀ g ∈ gens, g.Valid) → buildWithBase n gens wanted = .ok c → ∃ found,
          c.findAll .unlimited (Tests.plain keep accept) () = (.complete found, ())
            ∧ Lists c keep accept found := by
  constructor
  · intro G hG
    exact ⟨_, findAll_eq_harvest G.chain keep accept,
      hG.presents.chain.lists_harvest keep accept⟩
  · intro n gens wanted c hvalid hc
    obtain ⟨hlt, hdegree⟩ := inputs_of_ok hc
    have hgens : ∀ g ∈ gens, g.On n := fun g hg => ⟨hvalid g hg, hdegree g hg⟩
    exact ⟨_, findAll_eq_harvest c keep accept,
      (finished_of_ok hgens hlt hc).lists_harvest keep accept⟩

/-- The permutations of three points that send the first base point to the second point. -/
theorem search_exact_three :
    ∃ G found, SignedGroup.generate 3 [SignedGroup.rotation 3 false,
        SignedGroup.firstSwap 3 false] = .ok G
      ∧ G.chain.findAll .unlimited (Tests.plain (·.head?.all (· == 1)) fun _ => true) ()
        = (.complete found, ())
      ∧ SignedGroup.rotation 3 false ∈ found ∧ SignedPerm.id 3 ∉ found := by
  have hvalid : ∀ g ∈ [SignedGroup.rotation 3 false, SignedGroup.firstSwap 3 false],
      g.Valid := by
    decide +kernel
  have hmade : (SignedGroup.generate 3 [SignedGroup.rotation 3 false,
      SignedGroup.firstSwap 3 false]).toOption.map
      (fun G => (G.base, G.contains (SignedGroup.rotation 3 false))) = some ([0, 1], true) := by
    decide +kernel
  obtain ⟨G, hG, heq⟩ := exists_of_map_toOption hmade
  obtain ⟨hbase, hrotation⟩ := Prod.mk.inj heq
  have hbase' : G.chain.base = [0, 1] := hbase
  have hclosed : PrefixClosed (·.head?.all (· == 1)) := by
    rintro v w ⟨rest, rfl⟩ hkeep
    cases v with
    | nil => rfl
    | cons image v => exact hkeep
  obtain ⟨found, hfound, hlists⟩ :=
    (search_exact (·.head?.all (· == 1)) fun _ => true).1 G (.generate hvalid hG)
  refine ⟨G, found, hG, hfound, (hlists.closed hclosed _).mpr ⟨⟨?_, hrotation⟩, ?_, rfl⟩, ?_⟩
  · exact hvalid _ List.mem_cons_self
  · rw [hbase']
    decide +kernel
  · rw [hlists.closed hclosed, hbase']
    rintro ⟨-, hkeep, -⟩
    exact absurd hkeep (by decide +kernel)

end Chain

end SlotSymmetry

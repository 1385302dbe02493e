import SlotSymmetry.Proofs.Group.LevelSearch
import SlotSymmetry.Proofs.Search.Sharing

/-! # The searches of a level search

    Without limits, a level search makes a list of searches, one after another
    on one meter (`searches`).  Under a budget it makes the same searches until
    the budget is spent, and from then on searches do nothing, so it comes to the
    same as making all of them (`levelSearch_eq_seekEach`).  What is known and
    the meter at its end under two budgets therefore compare as at the end of
    each search, and the nodes counted without limits are those of the searches,
    each counted by itself until its element comes or none are left. -/

namespace SlotSymmetry

namespace Chain

variable {c : Chain} {w : Wanted} {depth basePoint target : Nat} {f f' f'' : Finding}

/-! ## Lists of searches -/

/-- Makes one search after another: for each of them, the level and the target. -/
def seekEach (c : Chain) (w : Wanted) (searches : List (Nat × Nat)) (f : Finding) : Finding :=
  searches.foldl (fun f search => c.seek w search.1 f search.2) f

/-- The searches that are made for those of the targets that the subgroup does not reach. -/
def searchesAll (c : Chain) (w : Wanted) (depth basePoint : Nat) :
    List Nat → Orbit → Finding → List (Nat × Nat)
  | [], _, _ => []
  | target :: targets, reached, f =>
      if reached.contains target then c.searchesAll w depth basePoint targets reached f
      else
        let next := c.seek w depth f target
        let reached :=
          if next.known.length = f.known.length then reached
          else .grow c.degree next.known basePoint
        (depth, target) :: c.searchesAll w depth basePoint targets reached next

/-- The searches that complete the subgroup at one level. -/
def searchesAt (c : Chain) (w : Wanted) (f : Finding) (depth : Nat) : List (Nat × Nat) :=
  match c.levels[depth]? with
  | none => []
  | some level =>
      c.searchesAll w depth level.basePoint (level.orbit.points.toList.mergeSort (· ≤ ·))
        (.grow c.degree f.known level.basePoint) f

/-- The searches that complete it at these levels, one after another. -/
def searchesFrom (c : Chain) (w : Wanted) : List Nat → Finding → List (Nat × Nat)
  | [], _ => []
  | depth :: depths, f =>
      c.searchesAt w f depth ++ c.searchesFrom w depths (c.searchLevel w f depth)

/-- The searches of a level search without limits. -/
def searches (c : Chain) (w : Wanted) (upTo : Nat) (known : List SignedPerm) : List (Nat × Nat) :=
  c.searchesFrom w (List.range upTo).reverse ⟨known, .start .unlimited⟩

/-- The number of nodes that one search visits, counted by itself. -/
def seekNodes (c : Chain) (w : Wanted) (search : Nat × Nat) : Nat :=
  (c.seek w search.1 ⟨[], .start .unlimited⟩ search.2).meter.nodes

/-- The number of nodes that all searches visit without limits. -/
def levelSearchNodes (c : Chain) (w : Wanted) (upTo : Nat) (known : List SignedPerm) : Nat :=
  ((c.searches w upTo known).map (c.seekNodes w)).sum

/-! ## One search -/

/-- The run of one search. -/
def seekRun (c : Chain) (w : Wanted) (depth target : Nat) (m : Meter) :
    Option SignedPerm × Search Unit :=
  (Search.start c.degree (c.levels.drop depth) m ()).next?
    (Tests.plain (fun images => startsAt target images && w.keep depth images) w.accept)

theorem seek_of_exhausted (c : Chain) (w : Wanted) (depth target : Nat)
    (hf : f.meter.exhausted = true) : c.seek w depth f target = f := by
  rw [seek, if_pos hf]

theorem seek_of_going (hf : f.meter.exhausted = false) : c.seek w depth f target
    = ⟨f.known ++ (c.seekRun w depth target f.meter).1.toList,
      (c.seekRun w depth target f.meter).2.meter⟩ := by
  rw [seek, hf]
  rfl

/-- The second finding may be what the first one has become. -/
structure Finding.Onward (f next : Finding) : Prop where
  known : f.known <+: next.known
  meter : f.meter.Onward next.meter

theorem Finding.Onward.refl (f : Finding) : f.Onward f := ⟨List.prefix_rfl, .refl _⟩

theorem Finding.Onward.trans (h : f.Onward f') (h' : f'.Onward f'') : f.Onward f'' :=
  ⟨h.known.trans h'.known, h.meter.trans h'.meter⟩

theorem seek_onward (c : Chain) (w : Wanted) (depth : Nat) (f : Finding) (target : Nat) :
    f.Onward (c.seek w depth f target) := by
  cases hf : f.meter.exhausted with
  | true =>
      rw [seek_of_exhausted c w depth target hf]
      exact .refl f
  | false =>
      rw [seek_of_going hf]
      exact ⟨List.prefix_append _ _,
        Search.next_onward _ (.start c.degree (c.levels.drop depth) f.meter ())⟩

/-- Two findings of one level search, the second one under a wider budget. -/
def Finding.Trails (wider : Budget) (f f' : Finding) : Prop :=
  SlotSymmetry.Trails (· <+: ·) wider f.known f.meter f'.known f'.meter

/-- As long as its meter is going, a finding differs from the one under a wider budget by the
    budget alone. -/
theorem Finding.Trails.eq_of_going {wider : Budget} (h : Finding.Trails wider f f')
    (hf : f.meter.exhausted = false) : f' = ⟨f.known, f.meter.under wider⟩ := by
  obtain ⟨known, meter⟩ := f'
  obtain ⟨hknown, hmeter⟩ := h.going hf
  exact congrArg₂ Finding.mk hknown hmeter

theorem seek_trails {wider : Budget} (hwithin : f.meter.budget.Within wider)
    (h : Finding.Trails wider f f') :
    Finding.Trails wider (c.seek w depth f target) (c.seek w depth f' target) := by
  cases hf : f.meter.exhausted with
  | true =>
      obtain ⟨hnodes, hknown⟩ := h.spent hf
      rw [seek_of_exhausted c w depth target hf]
      have honward := seek_onward c w depth f' target
      refine Trails.mk (fun hgoing => nomatch hf.symm.trans hgoing) fun _ => ?_
      exact ⟨hnodes.trans honward.meter.nodes_le, hknown.trans honward.known⟩
  | false =>
      rw [h.eq_of_going hf, seek_of_going hf,
        seek_of_going (f := ⟨f.known, f.meter.under wider⟩) hf]
      -- a run that still wants more has found nothing
      refine Search.foldWhile_trails (fun o : Option SignedPerm => f.known ++ o.toList)
        (fun o part hmore => ?_) hwithin hf
      rw [Option.isNone_iff_eq_none.mp hmore, Option.toList_none, List.append_nil]
      exact List.prefix_append _ _

/-- Without limits, a search counts its own nodes on top of those counted before. -/
theorem seek_nodes (hf : f.meter.Free) :
    (c.seek w depth f target).meter.nodes = f.meter.nodes + c.seekNodes w (depth, target) := by
  obtain ⟨known, budget, nodes, exhausted⟩ := f
  obtain ⟨rfl, rfl⟩ := hf
  have hrun := Search.foldWhile_after
    (Tests.plain (fun images => startsAt target images && w.keep depth images) w.accept)
    (·.isNone) (fun _ g => some g) none
    (s := Search.start c.degree (c.levels.drop depth) (.start .unlimited) ()) Meter.start_free nodes
  rw [seekNodes, seek_of_going rfl, seek_of_going rfl]
  exact congrArg (fun run => run.2.meter.nodes) hrun

/-- A search by itself visits nodes until its element comes or none are left. -/
theorem seekNodes_endsAfter (c : Chain) (w : Wanted) (depth target : Nat) :
    (Search.start c.degree (c.levels.drop depth) (.start .unlimited) ()).EndsAfter
      (Tests.plain (fun images => startsAt target images && w.keep depth images) w.accept)
      (· ≠ []) (c.seekNodes w (depth, target)) := by
  rw [seekNodes, seek_of_going rfl]
  exact Search.endsAfter_next _ Meter.start_free rfl

/-! ## Many searches -/

theorem seekEach_of_exhausted (c : Chain) (w : Wanted) (searches : List (Nat × Nat))
    (hf : f.meter.exhausted = true) : c.seekEach w searches f = f := by
  induction searches with
  | nil => rfl
  | cons search searches ih =>
      rw [seekEach, List.foldl_cons, seek_of_exhausted c w search.1 search.2 hf]
      exact ih

theorem seekEach_onward (c : Chain) (w : Wanted) (searches : List (Nat × Nat)) :
    ∀ f : Finding, f.Onward (c.seekEach w searches f) := by
  induction searches with
  | nil => exact fun f => .refl f
  | cons search searches ih =>
      exact fun f => (seek_onward c w search.1 f search.2).trans (ih _)

theorem seekEach_trails {wider : Budget} (searches : List (Nat × Nat)) : ∀ f f' : Finding,
    f.meter.budget.Within wider → Finding.Trails wider f f' →
      Finding.Trails wider (c.seekEach w searches f) (c.seekEach w searches f') := by
  induction searches with
  | nil => exact fun _ _ _ h => h
  | cons search searches ih =>
      intro f f' hwithin h
      refine ih _ _ ?_ (seek_trails hwithin h)
      rw [(seek_onward c w search.1 f search.2).meter.budget_eq]
      exact hwithin

theorem seekEach_nodes (searches : List (Nat × Nat)) : ∀ f : Finding, f.meter.Free →
    (c.seekEach w searches f).meter.nodes
      = f.meter.nodes + (searches.map (c.seekNodes w)).sum := by
  induction searches with
  | nil => exact fun _ _ => rfl
  | cons search searches ih =>
      intro f hf
      have hfree : (c.seek w search.1 f search.2).meter.Free := by
        rw [seek_of_going hf.going]
        exact Search.free_foldWhile hf
      rw [seekEach, List.foldl_cons, List.map_cons, List.sum_cons, ← Nat.add_assoc,
        ← seek_nodes hf]
      exact ih _ hfree

/-! ## A level search makes its searches -/

theorem seekAll_of_exhausted (c : Chain) (w : Wanted) (depth basePoint : Nat)
    (targets : List Nat) (hf : f.meter.exhausted = true) : ∀ reached : Orbit,
    c.seekAll w depth basePoint targets reached f = f := by
  induction targets with
  | nil => exact fun _ => rfl
  | cons target targets ih =>
      intro reached
      rw [seekAll, seek_of_exhausted c w depth target hf]
      split
      · exact ih reached
      · exact ih _

theorem seekAll_eq_seekEach (targets : List Nat) : ∀ (reached : Orbit) (f f' : Finding),
    Finding.Trails .unlimited f f' →
      c.seekAll w depth basePoint targets reached f
        = c.seekEach w (c.searchesAll w depth basePoint targets reached f') f := by
  induction targets with
  | nil => exact fun _ _ _ _ => rfl
  | cons target targets ih =>
      intro reached f f' h
      cases hf : f.meter.exhausted with
      | true => rw [seekAll_of_exhausted c w depth basePoint _ hf, seekEach_of_exhausted c w _ hf]
      | false =>
          rw [seekAll, searchesAll]
          split
          · exact ih reached f f' h
          · have hnext : Finding.Trails .unlimited (c.seek w depth f target)
                (c.seek w depth f' target) := seek_trails f.meter.budget.within_unlimited h
            dsimp only
            rw [seekEach, List.foldl_cons]
            cases hspent : (c.seek w depth f target).meter.exhausted with
            | true =>
                rw [seekAll_of_exhausted c w depth basePoint _ hspent]
                exact (seekEach_of_exhausted c w _ hspent).symm
            | false =>
                -- the orbit is kept up to date in the same way
                rw [(hnext.going hspent).1, (h.going hf).1]
                exact ih _ _ _ hnext

theorem searchLevel_eq_seekEach (h : Finding.Trails .unlimited f f') :
    c.searchLevel w f depth = c.seekEach w (c.searchesAt w f' depth) f := by
  rw [searchLevel, searchesAt]
  cases hlevel : c.levels[depth]? with
  | none => rfl
  | some level =>
      dsimp only
      cases hf : f.meter.exhausted with
      | true =>
          rw [seekAll_of_exhausted c w depth _ _ hf, seekEach_of_exhausted c w _ hf]
      | false =>
          rw [(h.going hf).1]
          exact seekAll_eq_seekEach _ _ f f' h

theorem foldl_searchLevel_eq_seekEach (depths : List Nat) : ∀ f f' : Finding,
    f'.meter.budget = .unlimited → Finding.Trails .unlimited f f' →
      depths.foldl (c.searchLevel w) f = c.seekEach w (c.searchesFrom w depths f') f := by
  induction depths with
  | nil => exact fun _ _ _ _ => rfl
  | cons depth depths ih =>
      intro f f' hbudget h
      have hself : Finding.Trails .unlimited f' f' := by
        have hrefl := Trails.refl (fun known => List.prefix_refl known) f'.known f'.meter
        rwa [hbudget] at hrefl
      have hnext : c.searchLevel w f depth = c.seekEach w (c.searchesAt w f' depth) f :=
        searchLevel_eq_seekEach h
      have hnext' : c.searchLevel w f' depth = c.seekEach w (c.searchesAt w f' depth) f' :=
        searchLevel_eq_seekEach hself
      have htrails : Finding.Trails .unlimited (c.searchLevel w f depth)
          (c.searchLevel w f' depth) := by
        rw [hnext, hnext']
        exact seekEach_trails _ f f' f.meter.budget.within_unlimited h
      rw [List.foldl_cons, searchesFrom, seekEach, List.foldl_append]
      rw [ih _ _ ?_ htrails, hnext]
      · rfl
      · rw [hnext', (seekEach_onward c w _ f').meter.budget_eq, hbudget]

/-- Under any budget, a level search comes to the same as making the searches that it makes
    without limits. -/
theorem levelSearch_eq_seekEach (c : Chain) (w : Wanted) (upTo : Nat) (known : List SignedPerm)
    (budget : Budget) : c.levelSearch w upTo known (.start budget)
      = c.seekEach w (c.searches w upTo known) ⟨known, .start budget⟩ :=
  foldl_searchLevel_eq_seekEach _ _ _ rfl (Trails.start _ budget .unlimited known)

theorem levelSearch_onward (c : Chain) (w : Wanted) (upTo : Nat) (known : List SignedPerm)
    (budget : Budget) :
    Finding.Onward ⟨known, .start budget⟩ (c.levelSearch w upTo known (.start budget)) := by
  rw [levelSearch_eq_seekEach]
  exact seekEach_onward c w _ _

theorem levelSearch_trails (c : Chain) (w : Wanted) (upTo : Nat) (known : List SignedPerm)
    {budget wider : Budget} (hwithin : budget.Within wider) :
    Finding.Trails wider (c.levelSearch w upTo known (.start budget))
      (c.levelSearch w upTo known (.start wider)) := by
  rw [levelSearch_eq_seekEach, levelSearch_eq_seekEach]
  exact seekEach_trails _ _ _ hwithin (Trails.start _ budget wider known)

theorem levelSearch_nodes (c : Chain) (w : Wanted) (upTo : Nat) (known : List SignedPerm) :
    (c.levelSearch w upTo known (.start .unlimited)).meter.nodes
      = c.levelSearchNodes w upTo known := by
  rw [levelSearch_eq_seekEach, seekEach_nodes _ _ Meter.start_free, levelSearchNodes]
  exact Nat.zero_add _

/-- They are the nodes that its searches visit, each until its element comes or none are left. -/
theorem levelSearch_visits (c : Chain) (w : Wanted) (upTo : Nat) (known : List SignedPerm) :
    ∃ visited : List Nat, List.Forall₂ (fun search nodes =>
        (Search.start c.degree (c.levels.drop search.1) (.start .unlimited) ()).EndsAfter
          (Tests.plain (fun images => startsAt search.2 images && w.keep search.1 images) w.accept)
          (· ≠ []) nodes) (c.searches w upTo known) visited
      ∧ (c.levelSearch w upTo known (.start .unlimited)).meter.nodes = visited.sum := by
  refine ⟨(c.searches w upTo known).map (c.seekNodes w), ?_, levelSearch_nodes c w upTo known⟩
  rw [List.forall₂_map_right_iff, List.forall₂_same]
  exact fun search _ => seekNodes_endsAfter c w search.1 search.2

end Chain

end SlotSymmetry

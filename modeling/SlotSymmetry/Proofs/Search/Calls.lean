import SlotSymmetry.Proofs.Search.Exact
import SlotSymmetry.Proofs.Search.Modes
import SlotSymmetry.Proofs.Search.Visits

/-! # What the tests of a search are asked

    Any tests can write down what they are asked (`Tests.recorded`); a search
    with them takes the same way, as it does whenever only the view of the
    memory changes (`Tests.Seen`).  If the tests carry no other memory, then the
    calls written down so far, followed by those that the agenda holds in store,
    are the same after every step, and the meter counts the calls at nodes
    (`OnCourse`).  At the end the agenda is empty: all has been asked that was in
    store at the root, which is the list of its visits and the harvest of a
    search that accepts everything. -/

namespace SlotSymmetry

/-- What tests were asked: images at nodes and elements at leaves, both in order. -/
structure Calls where
  images : List (List Nat)
  elements : List SignedPerm

/-- Nothing is asked yet. -/
def Calls.none : Calls := ⟨[], []⟩

/-- The question at a node is written down. -/
def Calls.atNode (calls : Calls) (images : List Nat) : Calls :=
  { calls with images := calls.images ++ [images] }

/-- The question at a leaf is written down. -/
def Calls.atLeaf (calls : Calls) (g : SignedPerm) : Calls :=
  { calls with elements := calls.elements ++ [g] }

@[simp] theorem Calls.images_atNode (calls : Calls) (images : List Nat) :
    (calls.atNode images).images = calls.images ++ [images] := rfl

@[simp] theorem Calls.elements_atNode (calls : Calls) (images : List Nat) :
    (calls.atNode images).elements = calls.elements := rfl

@[simp] theorem Calls.images_atLeaf (calls : Calls) (g : SignedPerm) :
    (calls.atLeaf g).images = calls.images := rfl

@[simp] theorem Calls.elements_atLeaf (calls : Calls) (g : SignedPerm) :
    (calls.atLeaf g).elements = calls.elements ++ [g] := rfl

/-- These tests, with a memory of what they were asked. -/
def Tests.recorded {σ : Type} (t : Tests σ) : Tests (σ × Calls) where
  keep images memory :=
    let r := t.keep images memory.1
    (r.1, r.2, memory.2.atNode images)
  accept g memory :=
    let r := t.accept g memory.1
    (r.1, r.2, memory.2.atLeaf g)

/-- The second tests answer as the first ones do, and remember what `view` makes of the memory of
    these. -/
structure Tests.Seen {σ τ : Type} (view : σ → τ) (t : Tests σ) (t' : Tests τ) : Prop where
  keep : ∀ images memory, t'.keep images (view memory)
    = ((t.keep images memory).1, view (t.keep images memory).2)
  accept : ∀ g memory, t'.accept g (view memory)
    = ((t.accept g memory).1, view (t.accept g memory).2)

/-- Tests answer the same whether they write down what they are asked or not. -/
theorem Tests.recorded_seen {σ : Type} (t : Tests σ) : Tests.Seen Prod.fst t.recorded t :=
  ⟨fun _ _ => rfl, fun _ _ => rfl⟩

namespace Search

variable {σ τ β : Type} {view : σ → τ} {t : Tests σ} {t' : Tests τ}

/-- The same search with another view of its memory. -/
def mapMemory (view : σ → τ) (s : Search σ) : Search τ := { s with memory := view s.memory }

/-- The same search without the memory of its calls. -/
def forget (s : Search (σ × Calls)) : Search σ := s.mapMemory Prod.fst

/-! ## A view of the memory changes nothing -/

theorem enter_mapMemory (h : Tests.Seen view t t') (node : Node) (rest : List Node) (m : Meter)
    (memory : σ) : enter t' node rest m (view memory)
      = ((enter t node rest m memory).1, (enter t node rest m memory).2.mapMemory view) := by
  rw [enter, enter, h.keep]
  cases t.keep node.images memory with
  | mk kept memory' =>
      cases kept with
      | false => rfl
      | true =>
          dsimp only
          cases node.below with
          | cons level below => rfl
          | nil =>
              dsimp only
              rw [h.accept]
              cases t.accept node.element memory' with
              | mk accepted memory'' => cases accepted <;> rfl

theorem step_mapMemory (h : Tests.Seen view t t') (s : Search σ) :
    step t' (s.mapMemory view) = ((step t s).1, (step t s).2.mapMemory view) := by
  cases hs : s.agenda with
  | nil => rw [step_of_done hs, step_of_done (show (s.mapMemory view).agenda = [] from hs)]
  | cons node rest =>
      have hs' : (s.mapMemory view).agenda = node :: rest := hs
      cases hspent : s.meter.tick.exhausted with
      | true =>
          rw [step_of_exhausted hs hspent, step_of_exhausted hs' hspent]
          rfl
      | false =>
          rw [step_of_going hs hspent, step_of_going hs' hspent]
          exact enter_mapMemory h node rest _ s.memory

/-- A run takes the same way, whatever the memory is seen through. -/
theorem foldWhile_mapMemory (h : Tests.Seen view t t') (more : β → Bool)
    (add : β → SignedPerm → β) (found : β) (s : Search σ) :
    foldWhile t' more add found (s.mapMemory view)
      = ((foldWhile t more add found s).1, (foldWhile t more add found s).2.mapMemory view) := by
  induction found, s using foldWhile.induct t more add with
  | case1 found s hmore hdone =>
      rw [foldWhile_of_done t more add found hdone, foldWhile_of_done t' more add found]
      exact hdone
  | case2 found s hmore hagenda r ih =>
      rw [foldWhile_of_more t add hmore hagenda,
        foldWhile_of_more t' add hmore (show (s.mapMemory view).agenda ≠ [] from hagenda),
        step_mapMemory h]
      exact ih
  | case3 found s hmore =>
      have henough := Bool.eq_false_iff.mpr hmore
      rw [foldWhile_of_enough t add s henough, foldWhile_of_enough t' add _ henough]

theorem all_mapMemory (h : Tests.Seen view t t') (s : Search σ) :
    (s.mapMemory view).all t' = ((s.all t).1, (s.all t).2.mapMemory view) :=
  foldWhile_mapMemory h _ _ #[] s

/-- The question at a node is written down once. -/
theorem images_enter_recorded (t : Tests σ) (node : Node) (rest : List Node) (m : Meter)
    (memory : σ × Calls) : (enter t.recorded node rest m memory).2.memory.2.images
      = memory.2.images ++ [node.images] := by
  obtain ⟨memory, calls⟩ := memory
  cases hkeep : t.keep node.images memory with
  | mk kept memory' =>
      cases kept with
      | false => simp [enter, Tests.recorded, hkeep]
      | true =>
          cases hbelow : node.below with
          | cons level below => simp [enter, Tests.recorded, hkeep, hbelow]
          | nil =>
              cases haccept : t.accept node.element memory' with
              | mk accepted memory'' =>
                  cases accepted <;> simp [enter, Tests.recorded, hkeep, hbelow, haccept]

/-! ## The calls in store -/

variable {keep : List Nat → Bool} {accept : SignedPerm → Bool}

/-- The images at the nodes that are visited from an agenda on. -/
def agendaVisits (keep : List Nat → Bool) (agenda : List Node) : List (List Nat) :=
  agenda.flatMap fun node => visits keep node.below node.images node.element

theorem agendaVisits_cons (node : Node) (rest : List Node) :
    agendaVisits keep (node :: rest)
      = visits keep node.below node.images node.element ++ agendaVisits keep rest :=
  List.flatMap_cons

theorem agendaVisits_children (images : List Nat) (g : SignedPerm) (level : Level)
    (below : List Level) (rest : List Node) :
    agendaVisits keep (Node.children images g level below ++ rest)
      = ((Node.candidates g level).flatMap fun choice =>
          visits keep below (images ++ [choice.1]) (g * level.carrier choice.2))
        ++ agendaVisits keep rest := by
  rw [agendaVisits, List.flatMap_append, Node.children, List.flatMap_map]
  rfl

/-- The calls that were made, and those that the agenda holds in store. -/
def outlook (keep : List Nat → Bool) (s : Search (Unit × Calls)) : Calls :=
  ⟨s.memory.2.images ++ agendaVisits keep s.agenda,
    s.memory.2.elements ++ agendaHarvest keep (fun _ => true) s.agenda⟩

theorem outlook_of_done {s : Search (Unit × Calls)} (h : s.agenda = []) :
    s.outlook keep = s.memory.2 := by
  simp [outlook, h, agendaVisits, agendaHarvest]

/-- Entering a node makes the calls that the agenda holds in store for it. -/
theorem enter_outlook (node : Node) (rest : List Node) (m : Meter) (memory : Unit × Calls) :
    (enter (Tests.plain keep accept).recorded node rest m memory).2.outlook keep
      = outlook keep ⟨node :: rest, m, memory⟩ := by
  obtain ⟨images, above, choice, below⟩ := node
  rw [outlook, outlook, agendaVisits_cons, agendaHarvest_cons, enter, Tests.recorded, Tests.plain]
  cases hkeep : keep images with
  | false =>
      cases below with
      | nil => simp [visits, harvest, hkeep]
      | cons level below => simp [visits, harvest, hkeep]
  | true =>
      cases below with
      | nil =>
          cases haccept : accept (Node.mk images above choice []).element with
          | false => simp [visits, harvest, hkeep, haccept]
          | true => simp [visits, harvest, hkeep, haccept]
      | cons level below =>
          simp [visits, harvest, hkeep, agendaVisits_children, agendaHarvest_children]

/-- What every step of a search without limits keeps: the calls made and in store are these, and
    the nodes counted are the calls that were made at nodes. -/
structure OnCourse (keep : List Nat → Bool) (calls : Calls) (s : Search (Unit × Calls)) :
    Prop where
  free : s.meter.Free
  outlook_eq : s.outlook keep = calls
  nodes_eq : s.meter.nodes = s.memory.2.images.length

variable {calls : Calls} {s : Search (Unit × Calls)}

theorem OnCourse.step (h : s.OnCourse keep calls) (accept : SignedPerm → Bool) :
    (step (Tests.plain keep accept).recorded s).2.OnCourse keep calls := by
  cases hs : s.agenda with
  | nil =>
      rw [step_of_done hs]
      exact h
  | cons node rest =>
      obtain ⟨agenda, m, memory⟩ := s
      obtain rfl : agenda = node :: rest := hs
      rw [step_of_going rfl h.free.tick.going]
      refine ⟨?_, ?_, ?_⟩
      · rw [meter_enter]
        exact h.free.tick
      · rw [enter_outlook]
        exact h.outlook_eq
      · rw [meter_enter, images_enter_recorded, List.length_append,
          Meter.tick_of_going h.free.going]
        exact congrArg (· + 1) h.nodes_eq

theorem OnCourse.all (h : s.OnCourse keep calls) (accept : SignedPerm → Bool) :
    (s.all (Tests.plain keep accept).recorded).2.OnCourse keep calls :=
  foldWhile_keeps (fun _ hs => hs.step accept) h

/-- When nothing is left to visit, all calls have been made. -/
theorem OnCourse.done (h : s.OnCourse keep calls) (hdone : s.agenda = []) :
    s.memory = ((), calls) ∧ s.meter.nodes = calls.images.length := by
  have hcalls : s.memory.2 = calls := (outlook_of_done hdone).symm.trans h.outlook_eq
  exact ⟨Prod.ext rfl hcalls, hcalls ▸ h.nodes_eq⟩

end Search

namespace Chain

variable {n : Nat} {H : Subgroup (Signed n)} {wanted : List Nat} {c : Chain}
  {keep : List Nat → Bool}

/-- Under any budget, tests list the same whatever their memory is seen through. -/
theorem findAll_mapMemory {σ τ : Type} {view : σ → τ} {t : Tests σ} {t' : Tests τ}
    (h : Tests.Seen view t t') (c : Chain) (budget : Budget) (memory : σ) :
    c.findAll budget t' (view memory)
      = ((c.findAll budget t memory).1, view (c.findAll budget t memory).2) := by
  have hall : (c.search budget (view memory)).all t' = _ :=
    Search.all_mapMemory h (c.search budget memory)
  rw [findAll, hall]
  rfl

/-- The calls that the root of the tree holds in store. -/
def calls (c : Chain) (keep : List Nat → Bool) : Calls :=
  ⟨visits keep c.levels [] (.id c.degree),
    harvest keep (fun _ => true) c.levels [] (.id c.degree)⟩

theorem search_onCourse (c : Chain) (keep : List Nat → Bool) :
    (c.search .unlimited ((), Calls.none)).OnCourse keep (c.calls keep) := by
  refine ⟨Meter.start_free, ?_, rfl⟩
  exact congrArg₂ Calls.mk (List.append_nil _) (List.append_nil _)

/-- The calls of a search of the whole tree, as far as `keep` lets it.  `keep` is asked once about
    every start of the base images of an element before which it kept all starts, in
    lexicographic order from the empty list on.  Of the elements, those are asked about that a
    search would list which accepts everything. -/
structure Asked (c : Chain) (keep : List Nat → Bool) (calls : Calls) : Prop where
  mem_images_iff : ∀ w, w ∈ calls.images ↔
    (∃ p : SignedPerm, (p.Valid ∧ c.contains p = true) ∧ w <+: c.base.map p.act)
      ∧ ∀ u, u <+: w → u ≠ w → keep u = true
  images_nodup : calls.images.Nodup
  images_ascending : calls.images.Pairwise (· < ·)
  images_head : calls.images.head? = some []
  elements : Lists c keep (fun _ => true) calls.elements

theorem Finished.asked (hc : c.Finished n H wanted) (keep : List Nat → Bool) :
    Asked c keep (c.calls keep) := by
  have hsorted : (visits keep c.levels [] (.id c.degree)).Pairwise (· < ·) := by
    rw [hc.degree_eq, ← Signed.val_one]
    exact pairwise_visits hc.stacked.sound 1
  refine ⟨fun w => ?_, hsorted.imp ne_of_lt, hsorted, visits_head _, hc.lists_harvest keep _⟩
  rw [calls, hc.degree_eq, mem_visits_root_iff hc.complete, hc.stacked.top]
  simp only [baseImages_levels]
  exact and_congr_left' (hc.exists_mem_iff fun p => w <+: c.base.map p.act)

/-- At the end of a search that records its calls, all have been made that the root holds in store,
    and the search is the one that records nothing. -/
theorem exists_recorded_end (c : Chain) (keep : List Nat → Bool) (accept : SignedPerm → Bool) :
    ∃ found last, Search.Drains (Tests.plain keep accept).recorded
        (c.search .unlimited ((), .none)) found last
      ∧ last.memory = ((), c.calls keep) ∧ last.meter.nodes = (c.calls keep).images.length
      ∧ (c.search .unlimited ()).all (Tests.plain keep accept) = (found.toArray, last.forget) := by
  obtain ⟨found, last, hdrains⟩ := Search.exists_drains (Tests.plain keep accept).recorded
    (c.search .unlimited ((), .none))
  -- the end of the search is on course, and nothing is left to visit there
  have hall : (c.search .unlimited ((), .none)).all (Tests.plain keep accept).recorded
      = (found.toArray, last) := hdrains.all_eq
  have hcourse : last.OnCourse keep (c.calls keep) := by
    have := (c.search_onCourse keep).all accept
    rwa [hall] at this
  have hplain : (c.search .unlimited ()).all (Tests.plain keep accept)
      = (found.toArray, last.forget) := by
    have := Search.all_mapMemory (Tests.plain keep accept).recorded_seen
      (c.search .unlimited ((), .none))
    rwa [hall] at this
  obtain ⟨hmemory, hnodes⟩ := hcourse.done hdrains.agenda_eq
  exact ⟨found, last, hdrains, hmemory, hnodes, hplain⟩

theorem findAll_recorded (c : Chain) (keep : List Nat → Bool) (accept : SignedPerm → Bool) :
    c.findAll .unlimited (Tests.plain keep accept).recorded ((), .none)
      = ((c.findAll .unlimited (Tests.plain keep accept) ()).1, ((), c.calls keep)) := by
  obtain ⟨found, last, hdrains, hmemory, -, hplain⟩ := c.exists_recorded_end keep accept
  rw [findAll, findAll, hdrains.all_eq, hplain, ← hmemory]
  rfl

/-- A search without limits visits the tree of the base images as far as `keep` lets it.  At its
    end the tests have been asked exactly these questions, and as many nodes are counted as `keep`
    was asked about.  This holds of the search for all elements and when they are pulled one by
    one until no more come; the search does not depend on being recorded. -/
theorem search_calls_exact {gens : List SignedPerm} (hvalid : ∀ g ∈ gens, g.Valid)
    (hc : buildWithBase n gens wanted = .ok c) (keep : List Nat → Bool)
    (accept : SignedPerm → Bool) : ∃ calls, Asked c keep calls
      ∧ c.findAll .unlimited (Tests.plain keep accept).recorded ((), .none)
        = ((c.findAll .unlimited (Tests.plain keep accept) ()).1, ((), calls))
      ∧ ((c.search .unlimited ()).all (Tests.plain keep accept)).2.meter.nodes
        = calls.images.length
      ∧ ∀ k,
        let found := (c.findAll .unlimited (Tests.plain keep accept) ()).1.value
        let s := (c.search .unlimited ((), .none)).pulled (Tests.plain keep accept).recorded
          (found.length + 1 + k)
        s.memory = ((), calls) ∧ s.meter.nodes = calls.images.length := by
  obtain ⟨hlt, hdegree⟩ := inputs_of_ok hc
  have hgens : ∀ g ∈ gens, g.On n := fun g hg => ⟨hvalid g hg, hdegree g hg⟩
  refine ⟨c.calls keep, (finished_of_ok hgens hlt hc).asked keep, c.findAll_recorded keep accept,
    ?_⟩
  obtain ⟨found, last, hdrains, hmemory, hnodes, hplain⟩ := c.exists_recorded_end keep accept
  have hfound : (c.findAll .unlimited (Tests.plain keep accept) ()).1.value = found := by
    rw [findAll, hplain, Meter.value_outcome]
  refine ⟨?_, fun k => ?_⟩
  · rw [hplain]
    exact hnodes
  · simp only [hfound]
    rw [hdrains.pulled_eq_last]
    exact ⟨hmemory, hnodes⟩

/-- Permutations of three points.  A test that refuses the image 0 of the first base point is asked
    about it, but not about the images of both base points after that. -/
theorem search_calls_exact_three :
    ∃ c calls, buildWithBase 3 [SignedGroup.rotation 3 false, SignedGroup.firstSwap 3 false] []
        = .ok c
      ∧ (c.findAll .unlimited (Tests.plain (·.head? != some 0) fun _ => true).recorded
        ((), .none)).2 = ((), calls)
      ∧ [0] ∈ calls.images ∧ [0, 1] ∉ calls.images ∧ SignedPerm.id 3 ∉ calls.elements := by
  have hvalid : ∀ g ∈ [SignedGroup.rotation 3 false, SignedGroup.firstSwap 3 false],
      g.Valid := by
    decide +kernel
  have hmade : (buildWithBase 3 [SignedGroup.rotation 3 false,
      SignedGroup.firstSwap 3 false] []).toOption.map
      (fun c => (c.base, c.contains (SignedPerm.id 3))) = some ([0, 1], true) := by
    decide +kernel
  obtain ⟨c, hc, heq⟩ := exists_of_map_toOption hmade
  obtain ⟨hbase, hid⟩ := Prod.mk.inj heq
  obtain ⟨calls, hasked, hfound, -⟩ :=
    search_calls_exact hvalid hc (·.head? != some 0) fun _ => true
  refine ⟨c, calls, hc, congrArg Prod.snd hfound, ?_, ?_, ?_⟩
  · refine (hasked.mem_images_iff [0]).mpr ⟨⟨SignedPerm.id 3, ⟨by decide +kernel, hid⟩, ?_⟩, ?_⟩
    · rw [hbase]
      decide +kernel
    · rintro u hu hne
      rcases List.prefix_cons_iff.mp hu with rfl | ⟨v, rfl, hv⟩
      · rfl
      · exact absurd (List.prefix_nil.mp hv ▸ rfl) hne
  · intro hmem
    have hkept := ((hasked.mem_images_iff [0, 1]).mp hmem).2 [0] (by decide) (by decide)
    exact absurd hkept (by decide)
  · intro hmem
    have hkept := ((hasked.elements.mem_iff _).mp hmem).2.1 [0]
    rw [hbase] at hkept
    exact absurd (hkept (by decide +kernel)) (by decide)

end Chain

end SlotSymmetry

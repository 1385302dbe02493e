import SlotSymmetry.Proofs.Search.Steps

/-! # Searches under a budget

    A search under a budget is compared with the same search under a wider one.
    As long as the tighter budget is not spent, a step does the same under both
    (`step_under`), so a run that does not exhaust its meter is the same run
    (`foldWhile_under`).  A run that does has added up what the other one yields
    before the node at which the budget is spent, and the other one adds the
    rest (`Cut`).  So two ends of one query compare (`Trails`), and the count of
    nodes under the wider budget tells whether the tighter one is spent.
    Compared with the steps of the search without limits, this is the law of the
    budget. -/

namespace SlotSymmetry

/-- Whenever the second budget is spent, so is the first one. -/
def Budget.Within (budget wider : Budget) : Prop :=
  ∀ k, wider.isSpentAt k = true → budget.isSpentAt k = true

theorem Budget.within_unlimited (budget : Budget) : budget.Within .unlimited := by
  intro k hspent
  rw [isSpentAt_unlimited] at hspent
  exact nomatch hspent

theorem Meter.outcome_of_going {α : Type} {m : Meter} (h : m.exhausted = false) (value : α) :
    m.outcome value = .complete value := by
  rw [outcome, h]
  rfl

theorem Meter.outcome_of_exhausted {α : Type} {m : Meter} (h : m.exhausted = true) (value : α) :
    m.outcome value = .incomplete value m.nodes := by
  rw [outcome, if_pos h]

/-- The same meter with another budget. -/
def Meter.under (budget : Budget) (m : Meter) : Meter := { m with budget }

/-- A change of meters that a tick carries over, as long as the meter is going.  `P` says which
    meters are meant. -/
structure Meter.Carried (P : Meter → Prop) (change : Meter → Meter) : Prop where
  keep : ∀ m, P m → P m.tick
  going : ∀ m, m.exhausted = false → (change m).exhausted = false
  tick : ∀ m, P m → m.tick.exhausted = false → (change m).tick = change m.tick

theorem Meter.going_of_tick {m : Meter} (h : m.tick.exhausted = false) : m.exhausted = false := by
  refine Bool.eq_false_iff.mpr fun hspent => ?_
  rw [tick_of_exhausted hspent, hspent] at h
  exact nomatch h

/-- As long as a meter is going, it does the same under a wider budget. -/
theorem Meter.carried_under (wider : Budget) :
    Meter.Carried (fun m => m.budget.Within wider) (Meter.under wider) := by
  refine ⟨fun m hwithin => ?_, fun m hm => hm, fun m hwithin hgoing => ?_⟩
  · rw [m.tick_onward.budget_eq]
    exact hwithin
  · have hm := going_of_tick hgoing
    rw [tick_of_going hm] at hgoing ⊢
    have hwider : wider.isSpentAt (m.nodes + 1) = false :=
      Bool.eq_false_iff.mpr fun hspent => nomatch hgoing.symm.trans (hwithin _ hspent)
    rw [tick_of_going (show (m.under wider).exhausted = false from hm)]
    show Meter.mk wider (m.nodes + 1) (wider.isSpentAt (m.nodes + 1)) = ⟨wider, _, _⟩
    rw [hwider, hgoing]

/-! ## One query under two budgets -/

section Trails

variable {α α' : Type} {le : α → α → Prop} {wider : Budget} {v v' : α} {m m' : Meter}

/-- What a query holds at its end and its meter, beside the same under a wider budget.  As long as
    the meter is going, nothing differs but the budget. -/
structure Trails (le : α → α → Prop) (wider : Budget) (v : α) (m : Meter) (v' : α) (m' : Meter) :
    Prop where
  going : m.exhausted = false → v' = v ∧ m' = m.under wider
  spent : m.exhausted = true → m.nodes ≤ m'.nodes ∧ le v v'

theorem Trails.start (le : α → α → Prop) (budget wider : Budget) (v : α) :
    Trails le wider v (.start budget) v (.start wider) :=
  ⟨fun _ => ⟨rfl, rfl⟩, nofun⟩

/-- Under the budget that it has, a query does not differ from itself. -/
theorem Trails.refl (hrefl : ∀ v, le v v) (v : α) (m : Meter) : Trails le m.budget v m v m :=
  ⟨fun _ => ⟨rfl, rfl⟩, fun _ => ⟨Nat.le_refl _, hrefl v⟩⟩

theorem Trails.value_le (h : Trails le wider v m v' m') (hrefl : ∀ v, le v v) : le v v' := by
  cases hm : m.exhausted with
  | true => exact (h.spent hm).2
  | false =>
      rw [(h.going hm).1]
      exact hrefl v

/-- Holding values that are computed from these. -/
theorem Trails.map {le' : α' → α' → Prop} {w w' : α'} (h : Trails le wider v m v' m')
    (hsame : v' = v → w' = w) (hle : le v v' → le' w w') : Trails le' wider w m w' m' :=
  ⟨fun hm => ⟨hsame (h.going hm).1, (h.going hm).2⟩,
    fun hm => ⟨(h.spent hm).1, hle (h.spent hm).2⟩⟩

/-- If the query under the wider budget counts fewer nodes than spend this one, it is not spent, -/
theorem Trails.going_of_lt {budget : Budget} (h : Trails le wider v m v' m')
    (honward : (Meter.start budget).Onward m)
    (hlt : ∀ limit, budget.firstSpent = some limit → m'.nodes < limit) : m.exhausted = false := by
  refine Bool.eq_false_iff.mpr fun hspent => ?_
  exact absurd (h.spent hspent).1 (Nat.not_le.mpr (hlt _ (honward.exhausted_iff.mp hspent)))

/-- and if it counts as many, this one is spent right there. -/
theorem Trails.spent_of_le {budget : Budget} (h : Trails le wider v m v' m')
    (honward : (Meter.start budget).Onward m) {limit : Nat}
    (hlimit : budget.firstSpent = some limit) (hle : limit ≤ m'.nodes) :
    m.exhausted = true ∧ m.nodes = limit := by
  have hspent : m.exhausted = true := by
    by_contra hnot
    have hgoing := Bool.eq_false_iff.mpr hnot
    rw [(h.going hgoing).2] at hle
    exact absurd hle (Nat.not_le.mpr (honward.lt_of_going hgoing hlimit))
  exact ⟨hspent, Option.some.inj ((honward.exhausted_iff.mp hspent).symm.trans hlimit)⟩

end Trails

namespace Search

variable {σ α β : Type} {t : Tests σ} {more : β → Bool} {add : β → SignedPerm → β} {found : β}
  {s : Search σ} {wider : Budget} {P : Meter → Prop} {change : Meter → Meter}

/-- The same search with its meter changed. -/
def mapMeter (change : Meter → Meter) (s : Search σ) : Search σ :=
  { s with meter := change s.meter }

/-- The same search under another budget. -/
def under (budget : Budget) (s : Search σ) : Search σ := s.mapMeter (Meter.under budget)

/-! ## Searches with another meter -/

theorem enter_mapMeter (change : Meter → Meter) (node : Node) (rest : List Node) (m : Meter)
    (memory : σ) : enter t node rest (change m) memory
      = ((enter t node rest m memory).1, (enter t node rest m memory).2.mapMeter change) := by
  unfold enter
  split
  · rfl
  · dsimp only
    split
    · split <;> rfl
    · rfl

theorem step_mapMeter (hcarried : Meter.Carried P change) (hs : P s.meter)
    (hgoing : (step t s).2.meter.exhausted = false) :
    step t (s.mapMeter change) = ((step t s).1, (step t s).2.mapMeter change) := by
  cases hagenda : s.agenda with
  | nil =>
      rw [step_of_done hagenda, step_of_done (show (s.mapMeter change).agenda = [] from hagenda)]
  | cons node rest =>
      rw [meter_step (by simp [hagenda])] at hgoing
      have htick : (s.mapMeter change).meter.tick = change s.meter.tick :=
        hcarried.tick _ hs hgoing
      have hgoing' : (s.mapMeter change).meter.tick.exhausted = false := by
        rw [htick]
        exact hcarried.going _ hgoing
      rw [step_of_going hagenda hgoing,
        step_of_going (show (s.mapMeter change).agenda = _ from hagenda) hgoing', htick]
      exact enter_mapMeter change node rest _ _

/-- A run that ends with its meter going had it going before. -/
theorem going_of_foldWhile (hs : s.Settled)
    (hgoing : (foldWhile t more add found s).2.meter.exhausted = false) :
    s.meter.exhausted = false := by
  refine Bool.eq_false_iff.mpr fun hspent => ?_
  rw [foldWhile_of_done t more add found (hs hspent), hspent] at hgoing
  exact nomatch hgoing

/-- A run that does not exhaust its meter is the same with the other meter. -/
theorem foldWhile_mapMeter (hcarried : Meter.Carried P change) (hs : P s.meter)
    (hgoing : (foldWhile t more add found s).2.meter.exhausted = false) :
    foldWhile t more add found (s.mapMeter change)
      = ((foldWhile t more add found s).1, (foldWhile t more add found s).2.mapMeter change) := by
  induction found, s using foldWhile.induct t more add with
  | case1 found s hmore hdone =>
      rw [foldWhile_of_done t more add found hdone, foldWhile_of_done t more add found]
      exact hdone
  | case3 found s hmore =>
      have henough := Bool.eq_false_iff.mpr hmore
      rw [foldWhile_of_enough t add s henough, foldWhile_of_enough t add _ henough]
  | case2 found s hmore hagenda r ih =>
      rw [foldWhile_of_more t add hmore hagenda] at hgoing ⊢
      have hstep := going_of_foldWhile (settled_step t s) hgoing
      rw [foldWhile_of_more t add hmore (show (s.mapMeter change).agenda ≠ [] from hagenda),
        step_mapMeter hcarried hs hstep]
      refine ih ?_ hgoing
      rw [meter_step hagenda]
      exact hcarried.keep _ hs

theorem step_under (hwithin : s.meter.budget.Within wider)
    (hgoing : (step t s).2.meter.exhausted = false) :
    step t (s.under wider) = ((step t s).1, (step t s).2.under wider) :=
  step_mapMeter (Meter.carried_under wider) hwithin hgoing

theorem foldWhile_under (hwithin : s.meter.budget.Within wider)
    (hgoing : (foldWhile t more add found s).2.meter.exhausted = false) :
    foldWhile t more add found (s.under wider)
      = ((foldWhile t more add found s).1, (foldWhile t more add found s).2.under wider) :=
  foldWhile_mapMeter (Meter.carried_under wider) hwithin hgoing

/-! ## Runs that exhaust their meter -/

/-- A run that wants more and has a node to visit counts it. -/
theorem nodes_lt_foldWhile (hs : s.meter.exhausted = false) (hagenda : s.agenda ≠ [])
    (hmore : more found = true) :
    s.meter.nodes < (foldWhile t more add found s).2.meter.nodes := by
  rw [foldWhile_of_more t add hmore hagenda]
  have honward := foldWhile_onward t more add ((step t s).1.elim found (add found)) (step t s).2
  exact Nat.lt_of_succ_le ((nodes_step hs hagenda).symm.trans_le honward.nodes_le)

/-- A run that exhausted its meter, beside the same run under a wider budget: it has added up what
    the other one yields at its first `k` nodes, and the node after these spent the budget. -/
structure Cut (t : Tests σ) (more : β → Bool) (add : β → SignedPerm → β) (found : β)
    (s : Search σ) (result wide : β × Search σ) (k : Nat) : Prop where
  nodes_eq : result.2.meter.nodes = s.meter.nodes + k + 1
  value_eq : result.1 = (advance t k s).1.foldl add found
  wanting : more result.1 = true
  rest : ∃ part : List SignedPerm, wide.1 = part.foldl add result.1
  nodes_le : result.2.meter.nodes ≤ wide.2.meter.nodes

/-- A run that exhausts its meter is cut. -/
theorem exists_cut (hwithin : s.meter.budget.Within wider) (hs : s.meter.exhausted = false)
    (hspent : (foldWhile t more add found s).2.meter.exhausted = true) :
    ∃ k, Cut t more add found (s.under wider) (foldWhile t more add found s)
      (foldWhile t more add found (s.under wider)) k := by
  induction found, s using foldWhile.induct t more add with
  | case1 found s hmore hdone =>
      rw [foldWhile_of_done t more add found hdone, hs] at hspent
      exact absurd hspent Bool.false_ne_true
  | case3 found s hmore =>
      rw [foldWhile_of_enough t add s (Bool.eq_false_iff.mpr hmore), hs] at hspent
      exact absurd hspent Bool.false_ne_true
  | case2 found s hmore hagenda r ih =>
      cases hstep : r.2.meter.exhausted with
      | true =>
          -- the budget is spent at this node, which the other run visits
          obtain ⟨node, rest, hs'⟩ := List.exists_cons_of_ne_nil hagenda
          have htick : s.meter.tick.exhausted = true := by rw [← meter_step hagenda]; exact hstep
          have hrun : foldWhile t more add found s = (found, ⟨[], s.meter.tick, s.memory⟩) := by
            rw [foldWhile_of_more t add hmore hagenda, step_of_exhausted hs' htick]
            exact foldWhile_of_done t more add found rfl
          have hnodes : s.meter.tick.nodes = s.meter.nodes + 1 := by rw [Meter.tick_of_going hs]
          have hwide : s.meter.nodes
              < (foldWhile t more add found (s.under wider)).2.meter.nodes :=
            nodes_lt_foldWhile (show (s.under wider).meter.exhausted = false from hs) hagenda hmore
          rw [hrun]
          exact ⟨0, hnodes, rfl, hmore, exists_added t more add found _, hnodes.trans_le hwide⟩
      | false =>
          have hunder : step t (s.under wider) = (r.1, r.2.under wider) :=
            step_under hwithin hstep
          have hwithin' : r.2.meter.budget.Within wider := by
            rw [(step_onward t s).budget_eq]
            exact hwithin
          rw [foldWhile_of_more t add hmore hagenda] at hspent ⊢
          rw [foldWhile_of_more t add hmore (show (s.under wider).agenda ≠ [] from hagenda), hunder]
          obtain ⟨k, hcut⟩ := ih hwithin' hstep hspent
          refine ⟨k + 1, ?_, ?_, hcut.wanting, hcut.rest, hcut.nodes_le⟩
          · have hnodes : r.2.meter.nodes = s.meter.nodes + 1 := nodes_step hs hagenda
            have heq : _ = r.2.meter.nodes + k + 1 := hcut.nodes_eq
            show _ = s.meter.nodes + (k + 1) + 1
            rw [heq, hnodes]
            omega
          · rw [advance, hunder, List.foldl_append, foldl_toList]
            exact hcut.value_eq

/-- A run, read off by `read`: as long as more is wanted, what is read off only grows. -/
theorem foldWhile_trails (read : β → α) {le : α → α → Prop}
    (hle : ∀ (b : β) (part : List SignedPerm), more b = true → le (read b) (read (part.foldl add b)))
    (hwithin : s.meter.budget.Within wider) (hs : s.meter.exhausted = false) :
    Trails le wider (read (foldWhile t more add found s).1) (foldWhile t more add found s).2.meter
      (read (foldWhile t more add found (s.under wider)).1)
      (foldWhile t more add found (s.under wider)).2.meter := by
  constructor
  · intro hgoing
    rw [foldWhile_under hwithin hgoing]
    exact ⟨rfl, rfl⟩
  · intro hspent
    obtain ⟨k, hcut⟩ := exists_cut hwithin hs hspent
    obtain ⟨part, hpart⟩ := hcut.rest
    rw [hpart]
    exact ⟨hcut.nodes_le, hle _ part hcut.wanting⟩

end Search

/-! ## The law -/

/-- The outcome of a query under a budget, where the query without limits visits so many nodes and
    comes to the outcome `free`, and holds `upTo k` after its first `k` nodes. -/
structure Outcome.Obeys {α : Type} (budget : Budget) (nodes : Nat) (free : Outcome α)
    (upTo : Nat → α) (o : Outcome α) : Prop where
  complete : (∀ limit, budget.firstSpent = some limit → nodes < limit) →
    o = free ∧ o.isComplete = true
  incomplete : ∀ limit, budget.firstSpent = some limit → limit ≤ nodes →
    o = .incomplete (upTo (limit - 1)) limit

namespace Chain

variable {σ α β : Type}

/-- A run of a search, read off by `read`.  As long as more is wanted, `held` tells what is read
    off from the elements that were yielded. -/
theorem run_obeys (c : Chain) (t : Tests σ) (memory : σ) (budget : Budget) {more : β → Bool}
    {add : β → SignedPerm → β} {found : β} (read : β → α) (held : List SignedPerm → α)
    (hheld : ∀ part : List SignedPerm, more (part.foldl add found) = true →
      read (part.foldl add found) = held part) :
    Outcome.Obeys budget
      ((c.search .unlimited memory).foldWhile t more add found).2.meter.nodes
      (((c.search .unlimited memory).foldWhile t more add found).2.meter.outcome
        (read ((c.search .unlimited memory).foldWhile t more add found).1))
      (fun k => held ((c.search .unlimited memory).advance t k).1)
      (((c.search budget memory).foldWhile t more add found).2.meter.outcome
        (read ((c.search budget memory).foldWhile t more add found).1)) := by
  have hwithin : (c.search budget memory).meter.budget.Within .unlimited :=
    budget.within_unlimited
  have honward : (Meter.start budget).Onward
      ((c.search budget memory).foldWhile t more add found).2.meter :=
    Search.foldWhile_onward t more add found (c.search budget memory)
  have htrails : Trails (fun _ _ => True) .unlimited
      (read ((c.search budget memory).foldWhile t more add found).1)
      ((c.search budget memory).foldWhile t more add found).2.meter
      (read ((c.search .unlimited memory).foldWhile t more add found).1)
      ((c.search .unlimited memory).foldWhile t more add found).2.meter :=
    Search.foldWhile_trails read (fun _ _ _ => True.intro) hwithin rfl
  constructor
  · intro hlt
    have hgoing := htrails.going_of_lt honward hlt
    obtain ⟨hread, hmeter⟩ := htrails.going hgoing
    rw [hread, hmeter, Meter.outcome_of_going hgoing]
    exact ⟨(Meter.outcome_of_going hgoing _).symm, rfl⟩
  · intro limit hlimit hle
    obtain ⟨hspent, hnodes⟩ := htrails.spent_of_le honward hlimit hle
    obtain ⟨k, hcut⟩ := Search.exists_cut hwithin rfl hspent
    have hk : limit - 1 = k := by
      have hlast : limit = 0 + k + 1 := hnodes.symm.trans hcut.nodes_eq
      omega
    have hread := hheld ((c.search .unlimited memory).advance t k).1
      (hcut.value_eq ▸ hcut.wanting)
    rw [Meter.outcome_of_exhausted hspent, hnodes, hcut.value_eq, hk]
    exact congrArg (Outcome.incomplete · limit) hread

/-- A run without limits, read off by `read`: it is over after the nodes that it counts, and
    answers with what they yielded. -/
theorem free_run (c : Chain) (t : Tests σ) (memory : σ) (more : β → Bool)
    (add : β → SignedPerm → β) (found : β) (read : β → α) :
    let free := c.search .unlimited memory
    let run := free.foldWhile t more add found
    free.EndsAfter t (fun part => more (part.foldl add found) = false) run.2.meter.nodes
      ∧ run.2.meter.outcome (read run.1)
        = .complete (read ((free.advance t run.2.meter.nodes).1.foldl add found)) := by
  intro free run
  have hfree : free.meter.Free := Meter.start_free
  obtain ⟨hend, hheld⟩ := Search.endsAfter_nodes t more add found hfree rfl
  have hlast : run.2.meter.Free := Search.free_foldWhile hfree
  refine ⟨hend, (hlast.outcome _).trans ?_⟩
  rw [hheld]

/-- Pulling elements one by one only counts on, and once the budget has run out, no further pull
    changes the search. -/
theorem exhausted_pulls (c : Chain) (t : Tests σ) (memory : σ) (budget : Budget) (pulls : Nat) :
    let s := (fun s => (Search.next? t s).2)^[pulls] (c.search budget memory)
    s.meter.exhausted = true → budget.firstSpent = some s.meter.nodes ∧ s.next? t = (none, s) := by
  have hkept : ∀ pulls, let s := (fun s => (Search.next? t s).2)^[pulls] (c.search budget memory)
      (Meter.start budget).Onward s.meter ∧ s.Settled := by
    intro pulls
    induction pulls with
    | zero => exact ⟨.refl _, nofun⟩
    | succ pulls ih =>
        rw [Function.iterate_succ_apply']
        exact ⟨ih.1.trans (Search.next_onward t _), ih.2.foldWhile⟩
  intro s hspent
  obtain ⟨honward, hsettled⟩ := hkept pulls
  exact ⟨honward.exhausted_iff.mp hspent, Search.next_of_exhausted hsettled hspent⟩

/-- The law of a budget for the first element, for all elements and for their number.  Without
    limits, the query for the first element is over after the first node that yields one, and the
    other two when no node is left; so many steps from the start, each of which visits one node,
    give what these queries answer.  What the first nodes yield is the start of the list of all.
    When the budget of a search that is pulled element by element has run out, no further pull
    changes it. -/
theorem budget_law (c : Chain) (t : Tests σ) (memory : σ) (budget : Budget) :
    let free := c.search .unlimited memory
    ∃ first whole, free.EndsAfter t (· ≠ []) first ∧ free.EndsAfter t (fun _ => False) whole
      ∧ (c.findFirst .unlimited t memory).1 = .complete (free.advance t first).1.head?
      ∧ (c.findAll .unlimited t memory).1 = .complete (free.advance t whole).1
      ∧ (c.countMatching .unlimited t memory).1 = .complete (free.advance t whole).1.length
      ∧ Outcome.Obeys budget first
        (c.findFirst .unlimited t memory).1 (fun _ => none) (c.findFirst budget t memory).1
      ∧ Outcome.Obeys budget whole
        (c.findAll .unlimited t memory).1 (fun k => (free.advance t k).1)
        (c.findAll budget t memory).1
      ∧ Outcome.Obeys budget whole
        (c.countMatching .unlimited t memory).1 (fun k => (free.advance t k).1.length)
        (c.countMatching budget t memory).1
      ∧ (∀ k, (free.advance t k).1 <+: (c.findAll .unlimited t memory).1.value)
      ∧ (∀ k, k ≤ whole → (free.advance t k).2.meter.nodes = k)
      ∧ (free.next? t).2.meter.nodes = first ∧ (free.all t).2.meter.nodes = whole
      ∧ (free.count t).2.meter.nodes = whole
      ∧ ∀ pulls, let s := (fun s => (Search.next? t s).2)^[pulls] (c.search budget memory)
        s.meter.exhausted = true →
          budget.firstSpent = some s.meter.nodes ∧ s.next? t = (none, s) := by
  intro free
  obtain ⟨-, hanswer⟩ := c.free_run t memory (·.isNone) (fun _ g => some g) none
    fun found => found
  obtain ⟨hwhole, hanswer'⟩ := c.free_run t memory (fun _ => true) (·.push ·) #[]
    fun found => found.toList
  obtain ⟨hcount, hanswer''⟩ := c.free_run t memory (fun _ => true) (fun k _ => k + 1) 0
    fun found => found
  -- what each of the queries waits for, told of the elements that came
  have hfirst : free.EndsAfter t (· ≠ []) (free.next? t).2.meter.nodes :=
    Search.endsAfter_next t Meter.start_free rfl
  replace hwhole : free.EndsAfter t (fun _ => False) (free.all t).2.meter.nodes :=
    hwhole.congr fun part => by simp
  replace hcount : free.EndsAfter t (fun _ => False) (free.count t).2.meter.nodes :=
    hcount.congr fun part => by simp
  have hsame : (free.count t).2.meter.nodes = (free.all t).2.meter.nodes := hcount.unique hwhole
  refine ⟨_, _, hfirst, hwhole, hanswer.trans ?_, hanswer'.trans ?_, hanswer''.trans ?_,
    c.run_obeys t memory budget (fun found : Option SignedPerm => found) (fun _ => none)
      fun part hmore => Option.isNone_iff_eq_none.mp hmore,
    c.run_obeys t memory budget (fun found : Array SignedPerm => found.toList) (fun part => part)
      fun part _ => by simp,
    ?_, fun k => ?_, fun k hk => ?_, rfl, rfl, hsame,
    fun pulls => c.exhausted_pulls t memory budget pulls⟩
  · exact congrArg Outcome.complete hfirst.foldl_some
  · simp [Search.all, free]
  · rw [← hsame]
    simp [Search.count, free]
  · rw [← hsame]
    exact c.run_obeys t memory budget (fun found : Nat => found) (·.length) fun part _ => by simp
  · have hprefix := Search.advance_prefix_all t k free
    rwa [findAll, Meter.value_outcome]
  · exact (hwhole.nodes_eq Meter.start_free hk).trans (Nat.zero_add k)

/-- The permutations of three points make a tree of ten nodes, and the first of them comes at the
    third node.  With a limit of one node less, the last permutation is missing, or the first.  A
    deadline that is over is not looked at so early. -/
theorem budget_law_three :
    let t : Tests Unit := .plain (fun _ => true) fun _ => true
    ∃ c found part, buildWithBase 3 [⟨#[1, 2, 0], #[2, 0, 1], false⟩,
        ⟨#[1, 0, 2], #[1, 0, 2], false⟩] [] = .ok c
      ∧ (c.findAll ⟨some 10, none⟩ t ()).1 = .complete found
      ∧ (c.findAll ⟨some 9, none⟩ t ()).1 = .incomplete part 10
      ∧ (c.findAll ⟨none, some .passed⟩ t ()).1 = .complete found
      ∧ part <+: found ∧ found.length = 6 ∧ part.length = 5
      ∧ (c.findFirst ⟨some 3, none⟩ t ()).1 = .complete (some (.id 3))
      ∧ (c.findFirst ⟨some 2, none⟩ t ()).1 = .incomplete none 3 := by
  intro t
  have hmade : (buildWithBase 3 [⟨#[1, 2, 0], #[2, 0, 1], false⟩,
      ⟨#[1, 0, 2], #[1, 0, 2], false⟩] []).toOption.map (fun c =>
        let free := c.search .unlimited ()
        ((List.range 3).all fun k =>
            (free.advance t k).1.isEmpty && !(free.advance t k).2.agenda.isEmpty,
          (free.advance t 3).1.head?, (free.all t).2.meter.nodes, (free.advance t 10).1.length,
          (free.advance t 9).1.length)) = some (true, some (.id 3), 10, 6, 5) := by
    cbv
  obtain ⟨c, hc, heq⟩ := exists_of_map_toOption hmade
  simp only [Prod.mk.injEq] at heq
  obtain ⟨hbefore, hhead, hwhole, hall, hcut⟩ := heq
  have hthird : ∀ k, (c.search .unlimited ()).EndsAfter t (· ≠ []) k → k = 3 := by
    intro k hk
    refine Nat.le_antisymm (hk.2 (Or.inl fun hnone => ?_)) (Nat.not_lt.mp fun hlt => ?_)
    · rw [hnone] at hhead
      cases hhead
    · have hbusy := List.all_eq_true.mp hbefore k (List.mem_range.mpr hlt)
      rw [Bool.and_eq_true, List.isEmpty_iff, Bool.not_eq_true', List.isEmpty_eq_false_iff] at hbusy
      exact hk.1.elim (fun hsome => hsome hbusy.1) hbusy.2
  have hlaw : ∀ budget,
      Outcome.Obeys budget 3 (.complete (some (.id 3))) (fun _ => none) (c.findFirst budget t ()).1
        ∧ Outcome.Obeys budget 10 (.complete ((c.search .unlimited ()).advance t 10).1)
          (fun k => ((c.search .unlimited ()).advance t k).1) (c.findAll budget t ()).1
        ∧ ((c.search .unlimited ()).advance t 9).1
          <+: ((c.search .unlimited ()).advance t 10).1 := by
    intro budget
    obtain ⟨first, whole, hfirst, -, hone, hmany, -, hobeys, hobeys', -, hstart, -, -, hnodes, -⟩ :=
      c.budget_law t () budget
    obtain rfl : first = 3 := hthird first hfirst
    obtain rfl : whole = 10 := hnodes.symm.trans hwhole
    rw [hone, hhead] at hobeys
    rw [hmany] at hobeys' hstart
    exact ⟨hobeys, hobeys', hstart 9⟩
  obtain ⟨-, henough, hstart⟩ := hlaw ⟨some 10, none⟩
  refine ⟨c, _, _, hc, (henough.complete fun limit hlimit => ?_).1,
    (hlaw ⟨some 9, none⟩).2.1.incomplete 10 rfl (Nat.le_refl 10),
    ((hlaw ⟨none, some .passed⟩).2.1.complete fun limit hlimit => ?_).1, hstart, hall, hcut,
    ((hlaw ⟨some 3, none⟩).1.complete fun limit hlimit => ?_).1,
    (hlaw ⟨some 2, none⟩).1.incomplete 3 rfl (Nat.le_refl 3)⟩
  · obtain rfl : 11 = limit := Option.some.inj hlimit
    decide
  · obtain rfl : 64 = limit := Option.some.inj hlimit
    decide
  · obtain rfl : 4 = limit := Option.some.inj hlimit
    decide

end Chain

end SlotSymmetry

import SlotSymmetry.Proofs.Perm.DisjointCycles

/-! # Cycles one after another

    Cycles that share points are applied one after another, in one direction or
    the other.  A cycle that lists a point twice is refused, but only when no
    point of any cycle is out of range.  One step multiplies with one more cycle
    (`followedBy_of_nodup`), so the whole run moves the points like the product
    of the cycles (`ofCycles_eq_ok_iff`), and the laws of these permutations are
    laws of products. -/

namespace SlotSymmetry

namespace SignedPerm

variable {n : Nat} {p q : SignedPerm} {σ : Equiv.Perm Nat}
  {cycle : List Nat} {cycles ds : List (List Nat)} {order : CycleOrder}

/-! ## Runs that fail -/

/-- A run fails if one of its items does, and all those before pass and keep the invariant. -/
theorem foldlM_eq_error {β γ ε : Type} {f : β → γ → Except ε β} {e : ε} {items : List γ}
    {I : β → Prop} {good : γ → Prop}
    (hgood : ∀ c ∈ items, good c → ∀ b, I b → ∃ b', f b c = .ok b' ∧ I b')
    (hbad : ∀ c, ¬ good c → ∀ b, I b → f b c = .error e) :
    ∀ b, I b → (¬ ∀ c ∈ items, good c) → items.foldlM f b = .error e := by
  induction items with
  | nil => exact fun _ _ hfails => absurd (fun _ h => absurd h List.not_mem_nil) hfails
  | cons c items ih =>
      intro b hb hfails
      rw [List.forall_mem_cons] at hgood
      rw [List.forall_mem_cons, not_and] at hfails
      rw [List.foldlM_cons]
      by_cases hc : good c
      · obtain ⟨b', hstep, hb'⟩ := hgood.1 hc b hb
        rw [hstep]
        exact ih hgood.2 b' hb' (hfails hc)
      · rw [hbad c hc b hb]
        rfl

/-! ## One cycle more -/

theorem nodup_of_length_le_one (h : cycle.length ≤ 1) : cycle.Nodup := by
  match cycle, h with
  | [], _ => exact List.nodup_nil
  | [a], _ => exact List.nodup_singleton a

theorem followedBy_of_nodup (hp : p.ActsAs n σ) (hnodup : cycle.Nodup) (hlt : ∀ a ∈ cycle, a < n) :
    ∃ q, followedBy n p cycle = .ok q ∧ q.ActsAs n (cycle.formPerm * σ) := by
  rw [followedBy]
  by_cases hshort : cycle.length ≤ 1
  · -- no point is moved
    refine ⟨p, if_pos hshort, ?_⟩
    rwa [(List.formPerm_eq_one_iff cycle hnodup).mpr hshort, one_mul]
  · rw [if_neg hshort, if_pos hnodup]
    have htable : (ofImage (imageOfCycles n [cycle]) false).ActsAs n cycle.formPerm := by
      rw [← product_singleton]
      refine ofImage_actsAs ?_ ?_ <;> rwa [List.flatten_singleton]
    exact ⟨_, rfl, htable.mul hp⟩

theorem followedBy_of_not_nodup (p : SignedPerm) (hnodup : ¬ cycle.Nodup) :
    followedBy n p cycle = .error (.notBijective n) := by
  rw [followedBy, if_neg (mt nodup_of_length_le_one hnodup), if_neg hnodup]

/-! ## All cycles -/

theorem foldlM_followedBy (cycles : List (List Nat)) : ∀ {p : SignedPerm} {σ : Equiv.Perm Nat},
    p.ActsAs n σ → (∀ cycle ∈ cycles, cycle.Nodup) → (∀ a ∈ cycles.flatten, a < n) →
    ∃ q, cycles.foldlM (followedBy n) p = .ok q ∧ q.ActsAs n (product cycles.reverse * σ) := by
  induction cycles with
  | nil => exact fun {p σ} hp _ _ => ⟨p, rfl, hp⟩
  | cons cycle cycles ih =>
      intro p σ hp hnodup hlt
      rw [List.forall_mem_cons] at hnodup
      rw [List.flatten_cons, List.forall_mem_append] at hlt
      obtain ⟨q, hstep, hq⟩ := followedBy_of_nodup hp hnodup.1 hlt.1
      obtain ⟨r, hrun, hr⟩ := ih hq hnodup.2 hlt.2
      refine ⟨r, ?_, ?_⟩
      · rw [List.foldlM_cons, hstep]
        exact hrun
      · rwa [List.reverse_cons, product_append, product_singleton, mul_assoc]

/-- A repetition is found, whatever is applied before. -/
theorem foldlM_followedBy_of_not_nodup (hp : p.ActsAs n σ) (hlt : ∀ a ∈ cycles.flatten, a < n)
    (hrepeats : ¬ ∀ cycle ∈ cycles, cycle.Nodup) :
    cycles.foldlM (followedBy n) p = .error (.notBijective n) := by
  refine foldlM_eq_error (I := fun p => ∃ σ, p.ActsAs n σ) ?_ ?_ p ⟨σ, hp⟩ hrepeats
  · rintro cycle hcycle hnodup p ⟨σ, hp⟩
    obtain ⟨q, hstep, hq⟩ := followedBy_of_nodup hp hnodup fun a ha =>
      hlt a (List.mem_flatten.mpr ⟨cycle, hcycle, ha⟩)
    exact ⟨q, hstep, _, hq⟩
  · exact fun cycle hnodup p _ => followedBy_of_not_nodup p hnodup

theorem arrange_perm (order : CycleOrder) (cycles : List (List Nat)) :
    (order.arrange cycles).Perm cycles := by
  cases order with
  | lastFirst => exact List.reverse_perm cycles
  | firstFirst => exact List.Perm.refl cycles

theorem ofCycles_of_inRange (hlt : ∀ a ∈ cycles.flatten, a < n) (order : CycleOrder) :
    ofCycles n cycles order = (order.arrange cycles).foldlM (followedBy n) (id n) := by
  rw [ofCycles, find_outside_eq_none hlt]

theorem exists_ofCycles (hlt : ∀ a ∈ cycles.flatten, a < n) (hnodup : ∀ cycle ∈ cycles, cycle.Nodup)
    (order : CycleOrder) : ∃ p, ofCycles n cycles order = .ok p
      ∧ p.ActsAs n (product (order.arrange cycles).reverse) := by
  have hperm := arrange_perm order cycles
  obtain ⟨p, hrun, hp⟩ := foldlM_followedBy (order.arrange cycles) (id_actsAs n)
    (fun cycle hcycle => hnodup cycle (hperm.mem_iff.mp hcycle))
    (fun a ha => hlt a (hperm.flatten.mem_iff.mp ha))
  exact ⟨p, (ofCycles_of_inRange hlt order).trans hrun, mul_one (product _) ▸ hp⟩

theorem ofCycles_of_not_nodup (hlt : ∀ a ∈ cycles.flatten, a < n)
    (hnodup : ¬ ∀ cycle ∈ cycles, cycle.Nodup) (order : CycleOrder) :
    ofCycles n cycles order = .error (.notBijective n) := by
  have hperm := arrange_perm order cycles
  rw [ofCycles_of_inRange hlt]
  refine foldlM_followedBy_of_not_nodup (id_actsAs n)
    (fun a ha => hlt a (hperm.flatten.mem_iff.mp ha)) (mt (fun h cycle hcycle => ?_) hnodup)
  exact h cycle (hperm.mem_iff.mpr hcycle)

theorem ofCycles_of_outOfRange {before after : List Nat} {a : Nat}
    (hflatten : cycles.flatten = before ++ a :: after) (hbefore : ∀ b ∈ before, b < n)
    (ha : n ≤ a) (order : CycleOrder) : ofCycles n cycles order = .error (.outOfRange a n) := by
  rw [ofCycles, find_outside_eq hflatten hbefore ha]

/-- The ways in which applying the cycles ends. -/
theorem ofCycles_outcome (n : Nat) (cycles : List (List Nat)) (order : CycleOrder) :
    ((∀ a ∈ cycles.flatten, a < n) ∧ (∀ cycle ∈ cycles, cycle.Nodup)
        ∧ ∃ p, ofCycles n cycles order = .ok p
          ∧ p.ActsAs n (product (order.arrange cycles).reverse))
      ∨ ((∀ a ∈ cycles.flatten, a < n) ∧ (¬ ∀ cycle ∈ cycles, cycle.Nodup)
        ∧ ofCycles n cycles order = .error (.notBijective n))
      ∨ ∃ before a after, cycles.flatten = before ++ a :: after ∧ (∀ b ∈ before, b < n) ∧ n ≤ a
        ∧ ofCycles n cycles order = .error (.outOfRange a n) := by
  rcases exists_first_outside cycles.flatten n with hlt | ⟨before, a, after, hpoints, hbefore, ha⟩
  · by_cases hnodup : ∀ cycle ∈ cycles, cycle.Nodup
    · exact Or.inl ⟨hlt, hnodup, exists_ofCycles hlt hnodup order⟩
    · exact Or.inr (Or.inl ⟨hlt, hnodup, ofCycles_of_not_nodup hlt hnodup order⟩)
  · exact Or.inr (Or.inr ⟨before, a, after, hpoints, hbefore, ha,
      ofCycles_of_outOfRange hpoints hbefore ha order⟩)

/-- Cycles that repeat no point of their own are applied one after another. -/
theorem ofCycles_eq_ok_iff : ofCycles n cycles order = .ok p
    ↔ ((∀ a ∈ cycles.flatten, a < n) ∧ ∀ cycle ∈ cycles, cycle.Nodup)
      ∧ p.ActsAs n (product (order.arrange cycles).reverse) := by
  constructor
  · intro hok
    rcases ofCycles_outcome n cycles order with
      ⟨hlt, hnodup, q, hq, hacts⟩ | ⟨-, -, herror⟩ | ⟨_, _, _, -, -, -, herror⟩
    · obtain rfl : q = p := Except.ok.inj (hq.symm.trans hok)
      exact ⟨⟨hlt, hnodup⟩, hacts⟩
    · exact nomatch hok.symm.trans herror
    · exact nomatch hok.symm.trans herror
  · rintro ⟨⟨hlt, hnodup⟩, hp⟩
    obtain ⟨q, hq, hacts⟩ := exists_ofCycles hlt hnodup order
    rw [hq, hacts.eq hp]

/-- A point out of range is reported before a repetition is. -/
theorem ofCycles_eq_error_iff {e : PermError} : ofCycles n cycles order = .error e
    ↔ (∃ before a after, cycles.flatten = before ++ a :: after ∧ (∀ b ∈ before, b < n) ∧ n ≤ a
        ∧ e = .outOfRange a n)
      ∨ (∀ a ∈ cycles.flatten, a < n) ∧ (¬ ∀ cycle ∈ cycles, cycle.Nodup)
        ∧ e = .notBijective n := by
  constructor
  · intro he
    rcases ofCycles_outcome n cycles order with
      ⟨-, -, q, hq, -⟩ | ⟨hlt, hnodup, herror⟩ | ⟨before, a, after, hpoints, hbefore, ha, herror⟩
    · exact nomatch hq.symm.trans he
    · exact Or.inr ⟨hlt, hnodup, Except.error.inj (he.symm.trans herror)⟩
    · exact Or.inl ⟨before, a, after, hpoints, hbefore, ha,
        Except.error.inj (he.symm.trans herror)⟩
  · rintro (⟨before, a, after, hpoints, hbefore, ha, rfl⟩ | ⟨hlt, hnodup, rfl⟩)
    · exact ofCycles_of_outOfRange hpoints hbefore ha order
    · exact ofCycles_of_not_nodup hlt hnodup order

/-! ## Directions, products and disjoint cycles -/

theorem product_reverse_apply (cycles : List (List Nat)) (i : Nat) :
    product cycles.reverse i = cycles.foldl (fun i cycle => cycle.formPerm i) i := by
  rw [product_apply, List.foldr_reverse]

/-- Going through the cycles from the last one on is going through the reversed list from the first
    one on. -/
theorem ofCycles_reverse (hlt : ∀ a ∈ cycles.flatten, a < n) :
    ofCycles n cycles .lastFirst = ofCycles n cycles.reverse .firstFirst := by
  have hperm : cycles.reverse.flatten.Perm cycles.flatten := (List.reverse_perm cycles).flatten
  rw [ofCycles_of_inRange hlt, ofCycles_of_inRange fun a ha => hlt a (hperm.mem_iff.mp ha)]
  rfl

theorem ofCycles_append (hp : ofCycles n cycles .lastFirst = .ok p)
    (hq : ofCycles n ds .lastFirst = .ok q) :
    ofCycles n (cycles ++ ds) .lastFirst = p.compose q := by
  obtain ⟨⟨hlt, hnodup⟩, hpacts⟩ := ofCycles_eq_ok_iff.mp hp
  obtain ⟨⟨hlt', hnodup'⟩, hqacts⟩ := ofCycles_eq_ok_iff.mp hq
  rw [hpacts.on.compose_eq hqacts.on, ofCycles_eq_ok_iff, List.flatten_append,
    List.forall_mem_append, List.forall_mem_append]
  refine ⟨⟨⟨hlt, hlt'⟩, hnodup, hnodup'⟩, ?_⟩
  simp only [CycleOrder.arrange, List.reverse_reverse] at hpacts hqacts ⊢
  rw [product_append]
  exact hpacts.mul hqacts

/-- Disjoint cycles have one product in either direction. -/
theorem ofCycles_of_disjoint (hp : ofDisjointCycles n cycles = .ok p) (order : CycleOrder) :
    ofCycles n cycles order = .ok p := by
  obtain ⟨⟨hnodup, hlt⟩, hacts⟩ := ofDisjointCycles_eq_ok_iff.mp hp
  rw [ofCycles_eq_ok_iff]
  refine ⟨⟨hlt, (List.nodup_flatten.mp hnodup).1⟩, ?_⟩
  cases order with
  | lastFirst => rwa [CycleOrder.arrange, List.reverse_reverse]
  | firstFirst => rwa [CycleOrder.arrange, product_reverse hnodup]

/-- Cycles of points below `n` that repeat no point of their own are applied one after another,
    in either direction; otherwise the first point out of range is reported, or a repetition if
    there is none.  The permutation is symmetric and sends a point where it comes to by going
    through the cycles.  So one direction makes what the other one makes of the reversed list (of
    several points out of range each reports the first one of its own list), two lists in a row
    make the product, and disjoint cycles one permutation however they are read. -/
theorem overlapping_cycles (n : Nat) (cycles : List (List Nat)) :
    (∀ order,
      ((∃ p, ofCycles n cycles order = .ok p)
          ↔ (∀ a ∈ cycles.flatten, a < n) ∧ ∀ cycle ∈ cycles, cycle.Nodup)
        ∧ (∀ e, ofCycles n cycles order = .error e
          ↔ (∃ before a after, cycles.flatten = before ++ a :: after ∧ (∀ b ∈ before, b < n)
              ∧ n ≤ a ∧ e = .outOfRange a n)
            ∨ (∀ a ∈ cycles.flatten, a < n) ∧ (¬ ∀ cycle ∈ cycles, cycle.Nodup)
              ∧ e = .notBijective n)
        ∧ ∀ p, ofCycles n cycles order = .ok p → p.On n ∧ p.flips = false)
      ∧ (∀ p, ofCycles n cycles .lastFirst = .ok p →
        ∀ i, p.act i = cycles.foldr (fun cycle i => cycle.formPerm i) i)
      ∧ (∀ p, ofCycles n cycles .firstFirst = .ok p →
        ∀ i, p.act i = cycles.foldl (fun i cycle => cycle.formPerm i) i)
      ∧ (∀ p, ofCycles n cycles .lastFirst = .ok p
        ↔ ofCycles n cycles.reverse .firstFirst = .ok p)
      ∧ ((∀ a ∈ cycles.flatten, a < n) →
        ofCycles n cycles .lastFirst = ofCycles n cycles.reverse .firstFirst)
      ∧ (∀ ds p q, ofCycles n cycles .lastFirst = .ok p → ofCycles n ds .lastFirst = .ok q →
        ofCycles n (cycles ++ ds) .lastFirst = p.compose q)
      ∧ ∀ p, ofDisjointCycles n cycles = .ok p → ∀ order, ofCycles n cycles order = .ok p := by
  have hperm : cycles.reverse.flatten.Perm cycles.flatten := (List.reverse_perm cycles).flatten
  refine ⟨fun order => ⟨?_, fun e => ofCycles_eq_error_iff, fun p hp => ?_⟩, ?_, ?_, ?_,
    ofCycles_reverse, fun ds p q => ofCycles_append, fun p => ofCycles_of_disjoint⟩
  · constructor
    · rintro ⟨p, hp⟩
      exact (ofCycles_eq_ok_iff.mp hp).1
    · rintro ⟨hlt, hnodup⟩
      obtain ⟨p, hp, -⟩ := exists_ofCycles hlt hnodup order
      exact ⟨p, hp⟩
  · obtain ⟨-, hacts⟩ := ofCycles_eq_ok_iff.mp hp
    exact ⟨hacts.on, hacts.symmetric⟩
  · intro p hp i
    obtain ⟨-, hacts⟩ := ofCycles_eq_ok_iff.mp hp
    rw [hacts.act, CycleOrder.arrange, List.reverse_reverse, product_apply]
  · intro p hp i
    obtain ⟨-, hacts⟩ := ofCycles_eq_ok_iff.mp hp
    rw [hacts.act, CycleOrder.arrange, product_reverse_apply]
  · -- whichever of the two is given, its points are in range
    intro p
    constructor
    · intro hp
      rwa [← ofCycles_reverse (ofCycles_eq_ok_iff.mp hp).1.1]
    · intro hp
      rwa [ofCycles_reverse fun a ha => (ofCycles_eq_ok_iff.mp hp).1.1 a (hperm.mem_iff.mpr ha)]

/-- Two cycles that share two of three points, a repetition beside a point out of range, and a
    single cycle. -/
theorem overlapping_cycles_three :
    ∃ p q r, ofCycles 3 [[0, 1, 2], [1, 2]] .lastFirst = .ok p
      ∧ ofCycles 3 [[0, 1, 2], [1, 2]] .firstFirst = .ok q
      ∧ (p.act 0 = 1 ∧ p.act 1 = 0) ∧ (q.act 0 = 2 ∧ q.act 1 = 1)
      ∧ ofCycles 3 [[1, 2], [0, 1, 2]] .firstFirst = .ok p
      ∧ ofCycles 3 [[0, 1, 2], [1, 2], [0, 1, 2], [1, 2]] .lastFirst = p.compose p
      ∧ ofCycles 3 [[0, 0], [3]] .lastFirst = .error (.outOfRange 3 3)
      ∧ ofDisjointCycles 3 [[2, 1]] = .ok r ∧ ofCycles 3 [[2, 1]] .firstFirst = .ok r := by
  obtain ⟨heach, hlast, hfirst, hreverse, -, happend, -⟩ :=
    overlapping_cycles 3 [[0, 1, 2], [1, 2]]
  obtain ⟨p, hp⟩ := (heach .lastFirst).1.mpr (by decide)
  obtain ⟨q, hq⟩ := (heach .firstFirst).1.mpr (by decide)
  obtain ⟨r, hr⟩ := exists_ofDisjointCycles_iff.mpr
    (by decide : [[2, 1]].flatten.Nodup ∧ ∀ a ∈ [[2, 1]].flatten, a < 3)
  refine ⟨p, q, r, hp, hq, ⟨?_, ?_⟩, ⟨?_, ?_⟩, (hreverse p).mp hp, happend _ p p hp hp, ?_, hr, ?_⟩
  · exact (hlast p hp 0).trans (by decide)
  · exact (hlast p hp 1).trans (by decide)
  · exact (hfirst q hq 0).trans (by decide)
  · exact (hfirst q hq 1).trans (by decide)
  · refine (((overlapping_cycles 3 [[0, 0], [3]]).1 .lastFirst).2.1 _).mpr (Or.inl ?_)
    exact ⟨[0, 0], 3, [], rfl, by decide, by decide, rfl⟩
  · exact (overlapping_cycles 3 [[2, 1]]).2.2.2.2.2.2 r hr .firstFirst

end SignedPerm

end SlotSymmetry

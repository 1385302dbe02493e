import Mathlib.Algebra.BigOperators.Group.List.Basic
import Mathlib.Data.List.Induction
import SlotSymmetry.Group.Elements

/-! # Counting in a mixed radix

    The counters of an enumeration are the digits of the number of elements
    returned so far, in the radix of the lengths of the transversals.  A carry
    leaves zeros behind, and the products that are kept above the level where it
    stops are still those of the new counters: the digits up to a level are the
    digits of a quotient (`digits_concat`), and the products only depend on the
    counters before them (`productsFrom_append`). -/

namespace SlotSymmetry

/-! ## Digits -/

/-- The digits of `k` in the mixed radix of these lengths.  The last one varies fastest. -/
def digits : List Nat → Nat → List Nat
  | [], _ => []
  | _ :: lengths, k => k / lengths.prod :: digits lengths (k % lengths.prod)

theorem digits_zero (lengths : List Nat) : digits lengths 0 = lengths.map fun _ => 0 := by
  induction lengths with
  | nil => rfl
  | cons length lengths ih => rw [digits, Nat.zero_div, Nat.zero_mod, ih, List.map_cons]

/-- The last digit is a remainder, and the ones before are the digits of the quotient. -/
theorem digits_concat (lengths : List Nat) (n : Nat) : ∀ k, k < lengths.prod * n →
    digits (lengths ++ [n]) k = digits lengths (k / n) ++ [k % n] := by
  induction lengths with
  | nil =>
      intro k hk
      have hk' : k < n := by simpa using hk
      simp [digits, Nat.mod_eq_of_lt hk']
  | cons length lengths ih =>
      intro k hk
      have hpos : 0 < lengths.prod * n := by
        rw [List.prod_cons, Nat.mul_assoc] at hk
        exact Nat.pos_of_lt_mul_left hk
      have hhead : k / (lengths.prod * n) = k / n / lengths.prod := by
        rw [Nat.div_div_eq_div_mul, Nat.mul_comm]
      rw [List.cons_append, digits, digits, List.prod_append, List.prod_singleton, hhead,
        ih _ (Nat.mod_lt k hpos), Nat.mod_mul_left_div_self, Nat.mod_mul_left_mod]
      rfl

/-- The last digit of the next number, if it does not wrap around. -/
theorem succ_div_mod_of_lt {k n : Nat} (h : k % n + 1 < n) :
    (k + 1) / n = k / n ∧ (k + 1) % n = k % n + 1 := by
  refine (Nat.div_mod_unique (by omega)).mpr ⟨?_, h⟩
  have := Nat.mod_add_div k n
  omega

/-- The last digit of the next number, if it wraps around. -/
theorem succ_div_mod_of_le {k n : Nat} (hn : 0 < n) (h : n ≤ k % n + 1) :
    (k + 1) / n = k / n + 1 ∧ (k + 1) % n = 0 := by
  refine (Nat.div_mod_unique hn).mpr ⟨?_, hn⟩
  have hlt := Nat.mod_lt k hn
  have := Nat.mod_add_div k n
  rw [Nat.mul_succ]
  omega

theorem digits_lt (lengths : List Nat) : ∀ k, k < lengths.prod →
    List.Forall₂ (fun length i => i < length) lengths (digits lengths k) := by
  induction lengths with
  | nil => intro k _; exact .nil
  | cons length lengths ih =>
      intro k hk
      rw [List.prod_cons] at hk
      have hpos : 0 < lengths.prod := Nat.pos_of_lt_mul_left hk
      exact .cons (Nat.div_lt_of_lt_mul (Nat.mul_comm _ _ ▸ hk)) (ih _ (Nat.mod_lt k hpos))

/-- Every digit is an index into the thing of this length. -/
theorem digits_lt_map {α : Type} (length : α → Nat) (things : List α) {k : Nat}
    (hk : k < (things.map length).prod) :
    List.Forall₂ (fun thing i => i < length thing) things (digits (things.map length) k) :=
  List.forall₂_map_left_iff.mp (digits_lt _ k hk)

theorem digits_injective (lengths : List Nat) : ∀ j k, j < lengths.prod → k < lengths.prod →
    digits lengths j = digits lengths k → j = k := by
  induction lengths with
  | nil =>
      intro j k hj hk _
      rw [List.prod_nil] at hj hk
      omega
  | cons length lengths ih =>
      intro j k hj _ h
      rw [List.prod_cons] at hj
      have hpos : 0 < lengths.prod := Nat.pos_of_lt_mul_left hj
      obtain ⟨hdiv, hrest⟩ := List.cons.inj h
      have hmod := ih _ _ (Nat.mod_lt j hpos) (Nat.mod_lt k hpos) hrest
      rw [← Nat.div_add_mod j lengths.prod, hdiv, hmod, Nat.div_add_mod]

namespace Elements

/-! ## Products -/

section Products

variable {above below : List (List SignedPerm)} {is : List Nat}

theorem length_productsFrom (h : List.Forall₂ (fun t i => i < t.length) above is) :
    ∀ g, (productsFrom g above is).length = above.length := by
  induction h with
  | nil => intro g; rfl
  | cons hi _ ih => intro g; simp [productsFrom, List.getElem?_eq_getElem hi, ih]

/-- Further down, the products go on from the last one. -/
theorem productsFrom_append (h : List.Forall₂ (fun t i => i < t.length) above is)
    (js : List Nat) : ∀ g, productsFrom g (above ++ below) (is ++ js)
      = productsFrom g above is
        ++ productsFrom ((productsFrom g above is).getLastD g) below js := by
  induction h with
  | nil => intro g; rfl
  | cons hi _ ih =>
      intro g
      simp only [List.cons_append, productsFrom, List.getElem?_eq_getElem hi, ih,
        List.getLastD_cons]

end Products

/-! ## The loop over the levels -/

/-- No level is counted up yet. -/
def zeros (ts : List (List SignedPerm)) : List Nat := ts.map fun _ => 0

/-- The enumeration with these counters, and their products. -/
def turnTo (e : Elements) (counters : List Nat) : Elements :=
  { e with counters, products := productsFrom e.identity e.transversals counters }

/-- The levels `below` have wrapped around, and the ones `above` still stand at `k`. -/
structure Turning (e : Elements) (above below : List (List SignedPerm)) (k : Nat) : Prop where
  lt : k < (above.map List.length).prod
  transversals_eq : e.transversals = above ++ below
  counters_eq : e.counters = digits (above.map List.length) k ++ zeros below
  kept : e.products.take above.length
    = productsFrom e.identity above (digits (above.map List.length) k)

section Turning

variable {e : Elements} {above below : List (List SignedPerm)} {t : List SignedPerm} {k : Nat}

/-- Where counting stops, the products above are kept and the ones below are worked out from
    them. -/
theorem refreshFrom_eq {is js : List Nat} (hts : e.transversals = above ++ below)
    (his : List.Forall₂ (fun t i => i < t.length) above is)
    (hkept : e.products.take above.length = productsFrom e.identity above is) :
    { e with counters := is ++ js }.refreshFrom above.length = e.turnTo (is ++ js) := by
  have hplace : is.length = above.length := his.length_eq.symm
  have hbelow : (is ++ js).drop above.length = js := by rw [← hplace, List.drop_left]
  rw [turnTo, refreshFrom, hkept, hts, productsFrom_append his, List.drop_left, hbelow]

theorem Turning.quotient_lt (h : e.Turning (above ++ [t]) below k) :
    k < (above.map List.length).prod * t.length
      ∧ k / t.length < (above.map List.length).prod := by
  have hk := h.lt
  rw [List.map_append, List.map_singleton, List.prod_append, List.prod_singleton] at hk
  exact ⟨hk, Nat.div_lt_of_lt_mul (Nat.mul_comm _ _ ▸ hk)⟩

/-- The last of the levels above stands at the remainder. -/
theorem Turning.counters_concat (h : e.Turning (above ++ [t]) below k) :
    e.counters = digits (above.map List.length) (k / t.length) ++ k % t.length :: zeros below := by
  rw [h.counters_eq, List.map_append, List.map_singleton, digits_concat _ _ _ h.quotient_lt.1,
    List.append_assoc, List.singleton_append]

theorem Turning.kept_init (h : e.Turning (above ++ [t]) below k) :
    e.products.take above.length
      = productsFrom e.identity above (digits (above.map List.length) (k / t.length)) := by
  have hrange := digits_lt_map List.length above h.quotient_lt.2
  have hkept := congrArg (List.take above.length) h.kept
  rwa [List.map_append, List.map_singleton, digits_concat _ _ _ h.quotient_lt.1,
    productsFrom_append hrange, List.take_take, List.length_append,
    Nat.min_eq_left (Nat.le_add_right _ _), List.take_left' (length_productsFrom hrange _)] at hkept

theorem Turning.set_counters (h : e.Turning (above ++ [t]) below k) (count : Nat) :
    e.counters.set above.length count
      = digits (above.map List.length) (k / t.length) ++ count :: zeros below := by
  have hplace := (digits_lt_map List.length above h.quotient_lt.2).length_eq
  rw [h.counters_concat, hplace, List.set_append_right _ _ (Nat.le_refl _), Nat.sub_self,
    List.set_cons_zero]

/-- One round of the loop. -/
theorem Turning.advance_concat (h : e.Turning (above ++ [t]) below k) :
    advance (above ++ [t]).length e =
      if k % t.length + 1 < t.length then
        e.turnTo (digits (above.map List.length) (k / t.length)
          ++ (k % t.length + 1) :: zeros below)
      else advance above.length { e with counters := e.counters.set above.length 0 } := by
  have hrange := digits_lt_map List.length above h.quotient_lt.2
  have hts : e.transversals = above ++ t :: below := by
    rw [h.transversals_eq, List.append_assoc, List.singleton_append]
  have hcount : e.counters.getD above.length 0 = k % t.length := by
    simp [h.counters_concat, hrange.length_eq]
  have hsize : (e.transversals.getD above.length []).length = t.length := by
    simp [hts]
  rw [List.length_append, List.length_singleton, advance, hcount, hsize, h.set_counters,
    refreshFrom_eq hts hrange h.kept_init]

/-- After a carry, one more level has wrapped around, and the ones above stand at the quotient. -/
theorem Turning.carry (h : e.Turning (above ++ [t]) below k) :
    Turning { e with counters := e.counters.set above.length 0 } above (t :: below)
      (k / t.length) where
  lt := h.quotient_lt.2
  transversals_eq := by
    rw [← List.singleton_append, ← List.append_assoc]
    exact h.transversals_eq
  counters_eq := h.set_counters 0
  kept := h.kept_init

end Turning

theorem advance_eq (above : List (List SignedPerm)) : ∀ (e : Elements)
    (below : List (List SignedPerm)) (k : Nat), e.Turning above below k →
    advance above.length e =
      if k + 1 < (above.map List.length).prod then
        e.turnTo (digits (above.map List.length) (k + 1) ++ zeros below)
      else { e with counters := zeros e.transversals, done := true } := by
  -- the carry runs from the last of these levels to the first one
  induction above using List.reverseRecOn with
  | nil =>
      intro e below k h
      have hk := h.lt
      rw [List.map_nil, List.prod_nil] at hk
      have hzeros : zeros e.transversals = e.counters := by
        rw [h.transversals_eq, h.counters_eq]
        rfl
      rw [List.map_nil, List.prod_nil, if_neg (by omega), hzeros]
      rfl
  | append_singleton above t ih =>
      intro e below k h
      obtain ⟨hk, hquot⟩ := h.quotient_lt
      have hpos : 0 < t.length := Nat.pos_of_lt_mul_left hk
      rw [h.advance_concat, List.map_append, List.map_singleton, List.prod_append,
        List.prod_singleton]
      by_cases hstop : k % t.length + 1 < t.length
      · obtain ⟨hdiv, hmod⟩ := succ_div_mod_of_lt hstop
        have hnext : k + 1 < (above.map List.length).prod * t.length := by
          rwa [← Nat.div_lt_iff_lt_mul hpos, hdiv]
        rw [if_pos hstop, if_pos hnext, digits_concat _ _ _ hnext, hdiv, hmod, List.append_assoc,
          List.singleton_append]
      · obtain ⟨hdiv, hmod⟩ := succ_div_mod_of_le hpos (Nat.le_of_not_lt hstop)
        have hnext : k + 1 < (above.map List.length).prod * t.length
            ↔ k / t.length + 1 < (above.map List.length).prod := by
          rw [← Nat.div_lt_iff_lt_mul hpos, hdiv]
        rw [if_neg hstop, ih _ _ _ h.carry]
        by_cases hlast : k / t.length + 1 < (above.map List.length).prod
        · have hlast' := hnext.mpr hlast
          rw [if_pos hlast, if_pos hlast', digits_concat _ _ _ hlast', hdiv, hmod,
            List.append_assoc]
          rfl
        · rw [if_neg hlast, if_neg fun h => hlast (hnext.mp h)]

/-! ## Steps and runs -/

/-- The enumeration when `k` elements were returned, and there are more. -/
def standing (ts : List (List SignedPerm)) (one : SignedPerm) (k : Nat) : Elements :=
  ⟨ts, digits (ts.map List.length) k, productsFrom one ts (digits (ts.map List.length) k), one,
    false⟩

/-- The enumeration after so many requests. -/
def after (e : Elements) : Nat → Elements
  | 0 => e
  | k + 1 => (e.after k).next?.2

variable {ts : List (List SignedPerm)} {one : SignedPerm} {e : Elements} {k : Nat}

theorem turning_standing (hk : k < (ts.map List.length).prod) :
    (standing ts one k).Turning ts [] k where
  lt := hk
  transversals_eq := (List.append_nil ts).symm
  counters_eq := (List.append_nil _).symm
  kept := by
    rw [← length_productsFrom (digits_lt_map List.length ts hk) one]
    exact List.take_length

theorem next_standing (hk : k < (ts.map List.length).prod) :
    (standing ts one k).next?.2 = if k + 1 < (ts.map List.length).prod then standing ts one (k + 1)
      else { standing ts one k with counters := zeros ts, done := true } := by
  have hlength : (standing ts one k).counters.length = ts.length :=
    (digits_lt_map List.length ts hk).length_eq.symm
  show advance (standing ts one k).counters.length (standing ts one k) = _
  rw [hlength, advance_eq ts _ [] k (turning_standing hk)]
  simp only [zeros, List.map_nil, List.append_nil]
  rfl

/-- After every request but the last one, the enumeration stands at the number of requests. -/
theorem after_standing (hk : k < (ts.map List.length).prod) :
    (standing ts one 0).after k = standing ts one k := by
  induction k with
  | zero => rfl
  | succ k ih =>
      have hlt := Nat.lt_of_succ_lt hk
      rw [after, ih hlt, next_standing hlt, if_pos hk]

theorem done_after_succ (hdone : (e.after k).done = true) : (e.after (k + 1)).done = true := by
  rw [after, next?, if_pos hdone]
  exact hdone

/-- Once it is done, the enumeration stays so. -/
theorem done_after (hpos : 0 < (ts.map List.length).prod) (hk : (ts.map List.length).prod ≤ k) :
    ((standing ts one 0).after k).done = true := by
  obtain ⟨more, rfl⟩ := Nat.exists_eq_add_of_le hk
  induction more with
  | zero =>
      obtain ⟨last, hlast⟩ := Nat.exists_eq_succ_of_ne_zero (Nat.ne_of_gt hpos)
      have hlt : last < (ts.map List.length).prod := by omega
      rw [Nat.add_zero, hlast, after, after_standing hlt, next_standing hlt, if_neg (by omega)]
  | succ more ih => exact done_after_succ (ih (Nat.le_add_right _ _))

end Elements

end SlotSymmetry

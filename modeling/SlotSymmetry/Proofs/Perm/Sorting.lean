import Mathlib.Data.Prod.Lex
import Mathlib.Order.WellFounded
import SlotSymmetry.Perm.Sorting
import SlotSymmetry.Proofs.Orbit.Growth
import SlotSymmetry.Proofs.Perm.Slots

/-! # The permutation that sorts a list

    The positions are sorted together with what stands at them.  Entries that
    are equal keep their order (`filter_mergeSort`), so the pairs come in
    lexicographic order, and the position of an entry in this order is where the
    permutation sends it (`getElem?_sortedPairs`).  A permutation sorts the data
    and keeps the order of equal entries exactly if it puts the pairs in this
    order (`On.sorts_iff`), which leaves it no choice: two permutations that
    agree on which of two points is sent to the smaller one are equal. -/

namespace SlotSymmetry

namespace SignedPerm

/-! ## Ties -/

/-- Among entries that are not told apart, sorting changes nothing. -/
theorem filter_mergeSort {β : Type} {le : β → β → Bool} {among : β → Bool}
    (htrans : ∀ x y z, le x y = true → le y z = true → le x z = true)
    (htotal : ∀ x y, (le x y || le y x) = true)
    (hties : ∀ x y, among x = true → among y = true → le x y = true) (l : List β) :
    (l.mergeSort le).filter among = l.filter among := by
  have hpair : (l.filter among).Pairwise fun x y => le x y = true :=
    List.pairwise_of_forall_mem_list fun x hx y hy =>
      hties x y (List.of_mem_filter hx) (List.of_mem_filter hy)
  have hsub : (l.filter among).Sublist ((l.mergeSort le).filter among) := by
    have hkept := (List.sublist_mergeSort htrans htotal hpair List.filter_sublist).filter among
    rwa [List.filter_filter, funext fun x => Bool.and_self (among x)] at hkept
  exact (hsub.eq_of_length ((List.mergeSort_perm l le).filter among).length_eq.symm).symm

/-! ## Positions in order -/

section Positions

variable {α : Type} [LinearOrder α] {data : List α} {i : Nat} {a : α}

/-- The entries with their positions, in the order of the entries. -/
def sortedPairs (data : List α) : List (α × Nat) :=
  data.zipIdx.mergeSort fun x y => decide (x.1 ≤ y.1)

theorem ascending_eq (data : List α) : ascending data = (sortedPairs data).map Prod.snd := rfl

theorem mem_sortedPairs {x : α × Nat} : x ∈ sortedPairs data ↔ data[x.2]? = some x.1 := by
  rw [sortedPairs, List.mem_mergeSort, List.mem_zipIdx_iff_getElem?]

/-- Entries come in their order, and positions of equal entries in theirs. -/
theorem pairwise_sortedPairs (data : List α) :
    (sortedPairs data).Pairwise fun x y => toLex x < toLex y := by
  have htrans : ∀ x y z : α × Nat, decide (x.1 ≤ y.1) = true → decide (y.1 ≤ z.1) = true →
      decide (x.1 ≤ z.1) = true := by
    intro x y z hxy hyz
    exact decide_eq_true ((of_decide_eq_true hxy).trans (of_decide_eq_true hyz))
  have htotal : ∀ x y : α × Nat, (decide (x.1 ≤ y.1) || decide (y.1 ≤ x.1)) = true := by
    intro x y
    rw [Bool.or_eq_true, decide_eq_true_eq, decide_eq_true_eq]
    exact le_total x.1 y.1
  have hplaces : data.zipIdx.Pairwise fun x y => x.2 < y.2 := by
    rw [← List.pairwise_map (R := (· < ·)), List.zipIdx_map_snd]
    exact List.pairwise_lt_range'
  rw [List.pairwise_iff_forall_sublist]
  intro x y hxy
  have hle : x.1 ≤ y.1 := of_decide_eq_true
    (List.pairwise_iff_forall_sublist.mp (List.pairwise_mergeSort htrans htotal data.zipIdx) hxy)
  rw [Prod.Lex.toLex_lt_toLex]
  refine hle.lt_or_eq.imp_right fun heq => ⟨heq, ?_⟩
  -- both are among the pairs with this entry, which are still in the order of the data
  have hties : [x, y].Sublist (data.zipIdx.filter fun z => z.1 = x.1) := by
    have hkept := hxy.filter fun z => decide (z.1 = x.1)
    rw [sortedPairs, filter_mergeSort htrans htotal] at hkept
    · simpa [heq] using hkept
    · intro z w hz hw
      rw [of_decide_eq_true hz, of_decide_eq_true hw]
      exact decide_eq_true le_rfl
  exact List.pairwise_iff_forall_sublist.mp hplaces (hties.trans List.filter_sublist)

end Positions

theorem ascending_perm {α : Type} [LE α] [DecidableLE α] (data : List α) :
    (ascending data).Perm (List.range data.length) := by
  rw [List.range_eq_range', ← List.zipIdx_map_snd]
  exact (List.mergeSort_perm _ _).map Prod.snd

/-- Whatever the order on the entries is like, sorting makes a valid permutation. -/
theorem sorting_on {α : Type} [LE α] [DecidableLE α] (data : List α) :
    (sorting data).On data.length :=
  (ofImage_on_of_perm (ascending_perm data) false).inverse

/-! ## Permutations that sort -/

section Sorts

variable {α : Type} [LinearOrder α] {data : List α} {n : Nat} {p q : SignedPerm}

/-- An entry is sent to its place among the sorted pairs. -/
theorem getElem?_sortedPairs {i : Nat} {a : α} (ha : data[i]? = some a) :
    (sortedPairs data)[(sorting data).act i]? = some (a, i) := by
  have hon := sorting_on data
  have hi : (sorting data).act i < data.length :=
    hon.act_lt (List.getElem?_eq_some_iff.mp ha).1
  have hplace : (ascending data)[(sorting data).act i]? = some i := by
    have hlength : (sorting data).act i < (ascending data).toArray.size := by
      rwa [List.size_toArray, (ascending_perm data).length_eq, List.length_range]
    have hback : (sorting data).actInv ((sorting data).act i) = i := hon.actInv_act i
    rw [← List.getElem?_toArray, Array.getElem?_eq_getElem hlength, Array.getElem_eq_getD]
    exact congrArg some hback
  rw [ascending_eq, List.getElem?_map, Option.map_eq_some_iff] at hplace
  obtain ⟨⟨b, j⟩, hpair, rfl⟩ := hplace
  have hb : data[j]? = some b := mem_sortedPairs.mp (List.mem_of_getElem? hpair)
  rw [hpair, Option.some.inj (ha.symm.trans hb)]

/-- The copy of the data through the permutation ascends, and equal entries keep their order. -/
structure Sorts (data : List α) (p : SignedPerm) : Prop where
  ascends : ∃ copy, p.permuted data.toArray = .ok copy ∧ copy.toList.Pairwise (· ≤ ·)
  keeps : ∀ i j a, i < j → data[i]? = some a → data[j]? = some a → p.act i < p.act j

theorem On.exists_permuted {β : Type} (data : Array β) (hp : p.On data.size) :
    ∃ copy, p.permuted data = .ok copy ∧ copy.size = data.size
      ∧ ∀ i, copy[p.act i]? = data[i]? := by
  obtain ⟨copy, hcopy, hsize, hread⟩ := hp.inverse.pick_image (Nat.le_refl _)
  refine ⟨copy, hcopy, hsize, fun i => ?_⟩
  by_cases hi : i < data.size
  · rw [hread _ (hp.act_lt hi)]
    exact congrArg (data[·]?) (hp.actInv_act i)
  · rw [hp.act_of_le (by omega), Array.getElem?_eq_none (by omega),
      Array.getElem?_eq_none (by omega)]

theorem On.ascends_iff (hp : p.On data.length) :
    (∃ copy, p.permuted data.toArray = .ok copy ∧ copy.toList.Pairwise (· ≤ ·))
      ↔ ∀ i j a b, data[i]? = some a → data[j]? = some b → p.act i < p.act j → a ≤ b := by
  obtain ⟨copy, hcopy, -, hread⟩ := On.exists_permuted data.toArray hp
  have hentry (i : Nat) : copy.toList[p.act i]? = data[i]? := by
    rw [Array.getElem?_toList, hread, List.getElem?_toArray]
  constructor
  · rintro ⟨_, hother, hpair⟩ i j a b ha hb hlt
    obtain rfl := Except.ok.inj (hcopy.symm.trans hother)
    obtain ⟨hi, rfl⟩ := List.getElem?_eq_some_iff.mp ((hentry i).trans ha)
    obtain ⟨hj, rfl⟩ := List.getElem?_eq_some_iff.mp ((hentry j).trans hb)
    exact List.pairwise_iff_getElem.mp hpair _ _ hi hj hlt
  · intro hle
    refine ⟨copy, hcopy, pairwise_of_getElem? fun k m a b hkm ha hb => ?_⟩
    rw [← hp.act_actInv k, hentry] at ha
    rw [← hp.act_actInv m, hentry] at hb
    refine hle _ _ a b ha hb ?_
    rwa [hp.act_actInv, hp.act_actInv]

/-- Sorting and keeping the order of equal entries is putting the pairs of entry and position in
    lexicographic order. -/
theorem On.sorts_iff (hp : p.On data.length) :
    Sorts data p ↔ ∀ i j a b, data[i]? = some a → data[j]? = some b → p.act i < p.act j →
      toLex (a, i) < toLex (b, j) := by
  constructor
  · rintro ⟨hascends, hkeeps⟩ i j a b ha hb hlt
    rw [Prod.Lex.toLex_lt_toLex]
    refine (hp.ascends_iff.mp hascends i j a b ha hb hlt).lt_or_eq.imp_right ?_
    rintro rfl
    refine ⟨rfl, Nat.lt_of_le_of_ne (Nat.le_of_not_lt fun hji => ?_) ?_⟩
    · exact Nat.lt_asymm hlt (hkeeps j i a hji hb ha)
    · rintro rfl
      exact Nat.lt_irrefl _ hlt
  · intro hlex
    refine ⟨hp.ascends_iff.mpr fun i j a b ha hb hlt => ?_, fun i j a hij ha hb => ?_⟩
    · rcases Prod.Lex.toLex_lt_toLex.mp (hlex i j a b ha hb hlt) with hless | ⟨heq, -⟩
      · exact hless.le
      · exact heq.le
    · refine Nat.lt_of_le_of_ne (Nat.le_of_not_lt fun hlt => ?_) fun heq => ?_
      · have hji : toLex (a, j) < toLex (a, i) := hlex j i a a hb ha hlt
        exact lt_asymm hji (Prod.Lex.toLex_lt_toLex.mpr (Or.inr ⟨rfl, hij⟩))
      · exact Nat.ne_of_lt hij (hp.act_injective heq)

theorem sorting_sorts (data : List α) : Sorts data (sorting data) := by
  refine (sorting_on data).sorts_iff.mpr fun i j a b ha hb hlt => ?_
  obtain ⟨hi, hia⟩ := List.getElem?_eq_some_iff.mp (getElem?_sortedPairs ha)
  obtain ⟨hj, hjb⟩ := List.getElem?_eq_some_iff.mp (getElem?_sortedPairs hb)
  have hpair := List.pairwise_iff_getElem.mp (pairwise_sortedPairs data) _ _ hi hj hlt
  rwa [hia, hjb] at hpair

/-! ## There is only one -/

/-- If a point is sent below another one by the second permutation whenever it is by the first, no
    point is sent further down by the second. -/
theorem On.act_le_of_forall_lt (hp : p.On n) (hq : q.On n)
    (horder : ∀ i j, i < n → j < n → p.act i < p.act j → q.act i < q.act j) (i : Nat) :
    p.act i ≤ q.act i := by
  have hmono : StrictMono fun k => q.act (p.actInv k) := by
    intro k m hkm
    show q.act (p.actInv k) < q.act (p.actInv m)
    by_cases hm : m < n
    · refine horder _ _ (hp.actInv_lt (Nat.lt_trans hkm hm)) (hp.actInv_lt hm) ?_
      rwa [hp.act_actInv, hp.act_actInv]
    · -- past the degree both of them leave the points alone
      rw [hp.actInv_of_le (Nat.not_lt.mp hm), hq.act_of_le (Nat.not_lt.mp hm)]
      by_cases hk : k < n
      · exact Nat.lt_of_lt_of_le (hq.act_lt (hp.actInv_lt hk)) (Nat.not_lt.mp hm)
      · rwa [hp.actInv_of_le (Nat.not_lt.mp hk), hq.act_of_le (Nat.not_lt.mp hk)]
  have hle : p.act i ≤ q.act (p.actInv (p.act i)) := hmono.le_apply
  rwa [hp.actInv_act] at hle

theorem On.lt_of_sorts (hp : p.On data.length) (hq : q.On data.length) (hpsorts : Sorts data p)
    (hqsorts : Sorts data q) {i j : Nat} (hi : i < data.length) (hj : j < data.length)
    (hlt : p.act i < p.act j) : q.act i < q.act j := by
  have ha := List.getElem?_eq_getElem hi
  have hb := List.getElem?_eq_getElem hj
  have hlex := hp.sorts_iff.mp hpsorts i j _ _ ha hb hlt
  refine Nat.lt_of_le_of_ne (Nat.le_of_not_lt fun hback => ?_) fun heq => ?_
  · exact lt_asymm hlex (hq.sorts_iff.mp hqsorts j i _ _ hb ha hback)
  · rw [hq.act_injective heq] at hlt
    exact Nat.lt_irrefl _ hlt

theorem On.act_eq_of_sorts (hp : p.On data.length) (hq : q.On data.length)
    (hpsorts : Sorts data p) (hqsorts : Sorts data q) (i : Nat) : p.act i = q.act i := by
  refine Nat.le_antisymm ?_ ?_
  · exact hp.act_le_of_forall_lt hq (fun _ _ => hp.lt_of_sorts hq hpsorts hqsorts) i
  · exact hq.act_le_of_forall_lt hp (fun _ _ => hq.lt_of_sorts hp hqsorts hpsorts) i

theorem id_sorts_iff : Sorts data (id data.length) ↔ data.Pairwise (· ≤ ·) := by
  have hlex {i j : Nat} (hij : i < j) (a b : α) : toLex (a, i) < toLex (b, j) ↔ a ≤ b := by
    rw [Prod.Lex.toLex_lt_toLex, le_iff_lt_or_eq]
    exact or_congr_right (and_iff_left hij)
  rw [(id_on data.length).sorts_iff]
  constructor
  · intro hsorts
    refine pairwise_of_getElem? fun i j a b hij ha hb => (hlex hij a b).mp ?_
    refine hsorts i j a b ha hb ?_
    rwa [act_id, act_id]
  · intro hpair i j a b ha hb hlt
    rw [act_id, act_id] at hlt
    obtain ⟨hi, rfl⟩ := List.getElem?_eq_some_iff.mp ha
    obtain ⟨hj, rfl⟩ := List.getElem?_eq_some_iff.mp hb
    exact (hlex hlt _ _).mpr (List.pairwise_iff_getElem.mp hpair i j hi hj hlt)

end Sorts

/-- The sorting permutation of a list is a valid symmetric permutation of its positions that puts
    the entries in ascending order and keeps the order of equal ones, and but for the sign there is
    no other.  It is the identity exactly if the list ascends, and its inverse puts the sorted data
    back. -/
theorem sorting_exact {α : Type} [LinearOrder α] (data : List α) :
    (sorting data).Valid ∧ (sorting data).flips = false ∧ (sorting data).degree = data.length
      ∧ Sorts data (sorting data)
      ∧ (∀ q : SignedPerm, q.Valid → q.degree = data.length → Sorts data q →
        q.withFlips false = sorting data)
      ∧ (sorting data = id data.length ↔ data.Pairwise (· ≤ ·))
      ∧ ∃ copy, (sorting data).permuted data.toArray = .ok copy
        ∧ (sorting data).inverse.permuted copy = .ok data.toArray := by
  have hon := sorting_on data
  have hsorts := sorting_sorts data
  have hunique (q : SignedPerm) (hq : q.On data.length) (hsortsq : Sorts data q) :
      q.withFlips false = sorting data :=
    (hq.withFlips false).ext hon (fun i _ => hq.act_eq_of_sorts hon hsortsq hsorts i) rfl
  refine ⟨hon.valid, rfl, hon.degree_eq, hsorts, fun q hvalid hdegree => hunique q ⟨hvalid, hdegree⟩,
    ⟨fun hid => ?_, fun hpair => ?_⟩, ?_⟩
  · rw [hid] at hsorts
    exact id_sorts_iff.mp hsorts
  · exact (hunique _ (id_on _) (id_sorts_iff.mpr hpair)).symm
  · obtain ⟨copy, hcopy, hsize, hread⟩ := On.exists_permuted data.toArray hon
    obtain ⟨back, hback, hbacksize, hbackread⟩ := On.exists_permuted copy
      (p := (sorting data).inverse) (hsize ▸ hon.inverse)
    refine ⟨copy, hcopy, hback.trans (congrArg Except.ok (Array.ext_getElem? fun i => ?_))⟩
    have hthere := hbackread ((sorting data).act i)
    rw [hread] at hthere
    rwa [show (sorting data).inverse.act ((sorting data).act i) = i from hon.actInv_act i] at hthere

/-- Equal entries at both ends of the list, and a rotation that is not its own inverse: the
    antisymmetric table that sorts the list is the sorting permutation but for the sign. -/
theorem sorting_exact_four :
    (sorting [2, 3, 1, 2]).Valid ∧ ofImage #[1, 3, 0, 2] false = sorting [2, 3, 1, 2]
      ∧ sorting [2, 3, 1, 2] ≠ id 4
      ∧ ∃ copy, (sorting [2, 3, 1, 2]).permuted #[2, 3, 1, 2] = .ok copy
        ∧ (sorting [2, 3, 1, 2]).inverse.permuted copy = .ok #[2, 3, 1, 2] := by
  obtain ⟨hvalid, -, -, -, hunique, hid, hback⟩ := sorting_exact [2, 3, 1, 2]
  have hkeeps : ∀ i < 4, ∀ j < 4, i < j → [2, 3, 1, 2][i]? = [2, 3, 1, 2][j]? →
      (ofImage #[1, 3, 0, 2] true).act i < (ofImage #[1, 3, 0, 2] true).act j := by
    decide
  have hsorts : Sorts [2, 3, 1, 2] (ofImage #[1, 3, 0, 2] true) := by
    refine ⟨⟨#[1, 2, 2, 3], by decide +kernel, by decide⟩, fun i j a hij ha hb => ?_⟩
    have hi : i < 4 := (List.getElem?_eq_some_iff.mp ha).1
    have hj : j < 4 := (List.getElem?_eq_some_iff.mp hb).1
    exact hkeeps i hi j hj hij (ha.trans hb.symm)
  have htable := hunique (ofImage #[1, 3, 0, 2] true) (by decide) rfl hsorts
  exact ⟨hvalid, htable, fun heq => absurd (hid.mp heq) (by decide), hback⟩

end SignedPerm

end SlotSymmetry

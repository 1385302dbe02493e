import SlotSymmetry.Perm.Slots
import SlotSymmetry.Proofs.Perm.Tables
import SlotSymmetry.Proofs.Perm.Transpositions

/-! # Moving data in place and by copying

    The copying functions read every entry through a table, the ones in place
    exchange entries along the transpositions.  Either way the entry at a place
    of the result is the one that stood where a permutation of the points sends
    the place (`Rearranges`): one exchange is one transposition, and a run of
    exchanges their product (`foldlM_exchange_of_inside`).  The runs only touch
    the points that move, so the functions in place need less of the data than
    the ones that copy. -/

namespace SlotSymmetry

namespace SignedPerm

variable {α : Type} {data moved other : Array α} {σ τ : Equiv.Perm Nat}

/-! ## Data read through a permutation -/

/-- The entry at every place is the one that stood where `σ` sends the place. -/
structure Rearranges (σ : Equiv.Perm Nat) (data moved : Array α) : Prop where
  size_eq : moved.size = data.size
  getElem?_eq : ∀ i, moved[i]? = data[σ i]?

theorem Rearranges.refl (data : Array α) : Rearranges 1 data data := ⟨rfl, fun _ => rfl⟩

theorem Rearranges.trans (h : Rearranges σ data moved) (h' : Rearranges τ moved other) :
    Rearranges (σ * τ) data other where
  size_eq := h'.size_eq.trans h.size_eq
  getElem?_eq i := by rw [h'.getElem?_eq, h.getElem?_eq, Equiv.Perm.mul_apply]

theorem Rearranges.eq (h : Rearranges σ data moved) (h' : Rearranges σ data other) :
    moved = other :=
  Array.ext_getElem? fun i => (h.getElem?_eq i).trans (h'.getElem?_eq i).symm

/-! ## Exchanges -/

section Exchanges

variable {t : Nat × Nat} {ts : List (Nat × Nat)}

theorem exchange_of_inside (h : t.1 < data.size ∧ t.2 < data.size) :
    ∃ moved, exchange data t = .ok moved ∧ Rearranges [t.1, t.2].formPerm data moved := by
  refine ⟨data.swap t.1 t.2 h.1 h.2, dif_pos h, Array.size_swap, fun i => ?_⟩
  rw [List.formPerm_pair, Equiv.swap_apply_def, Array.getElem?_swap]
  rw [← Array.getElem?_eq_getElem h.1, ← Array.getElem?_eq_getElem h.2]
  by_cases hfst : i = t.1
  · subst hfst
    rw [if_pos rfl, if_pos rfl]
    split
    · next heq => rw [heq]
    · rfl
  · rw [if_neg hfst, if_neg (Ne.symm hfst), apply_ite (data[·]?)]
    exact if_congr eq_comm rfl rfl

theorem exchange_of_outside (h : ¬ (t.1 < data.size ∧ t.2 < data.size)) :
    exchange data t = .error .missingEntry :=
  dif_neg h

/-- Exchanges of places of the data read it through the product of the transpositions. -/
theorem foldlM_exchange_of_inside (ts : List (Nat × Nat)) : ∀ data : Array α,
    (∀ t ∈ ts, t.1 < data.size ∧ t.2 < data.size) →
    ∃ moved, ts.foldlM exchange data = .ok moved
      ∧ Rearranges (product (asCycles ts)) data moved := by
  induction ts with
  | nil => exact fun data _ => ⟨data, rfl, .refl data⟩
  | cons t ts ih =>
      intro data hinside
      rw [List.forall_mem_cons] at hinside
      obtain ⟨next, hstep, hnext⟩ := exchange_of_inside hinside.1
      obtain ⟨moved, hrun, hmoved⟩ := ih next (by simpa only [hnext.size_eq] using hinside.2)
      refine ⟨moved, ?_, hnext.trans hmoved⟩
      rw [List.foldlM_cons, hstep]
      exact hrun

theorem foldlM_exchange_of_outside (houtside : ¬ ∀ t ∈ ts, t.1 < data.size ∧ t.2 < data.size) :
    ts.foldlM exchange data = .error .missingEntry := by
  -- exchanges keep the size, so what is outside stays outside
  refine foldlM_eq_error (I := fun d => d.size = data.size) ?_ ?_ data rfl houtside
  · intro t _ hinside d hsize
    obtain ⟨next, hstep, hnext⟩ := exchange_of_inside (hsize.symm ▸ hinside)
    exact ⟨next, hstep, hnext.size_eq.trans hsize⟩
  · intro t hnot d hsize
    exact exchange_of_outside (hsize.symm ▸ hnot)

end Exchanges

/-! ## Copies -/

section Copies

variable {places : Array Nat}

theorem mapM_eq_some_iff {β γ : Type} {f : β → Option γ} {l : List β} : ∀ {r : List γ},
    l.mapM f = some r ↔ l.map f = r.map some := by
  induction l with
  | nil => rintro (_ | ⟨b, r⟩) <;> simp
  | cons a l ih =>
      intro r
      rw [List.mapM_cons]
      cases hfirst : f a <;> cases r <;> simp [hfirst, ← ih, Option.bind_eq_some_iff, and_comm]

theorem mapM_eq_none_iff {β γ : Type} {f : β → Option γ} {l : List β} :
    l.mapM f = none ↔ ∃ a ∈ l, f a = none := by
  induction l with
  | nil => simp
  | cons a l ih =>
      rw [List.mapM_cons]
      cases hfirst : f a <;> cases hrest : l.mapM f <;> simp_all

theorem pick_eq (places : Array Nat) (data : Array α) :
    pick places data
      = ((places.toList.mapM (data[·]?)).map List.toArray).elim (.error .missingEntry) .ok := by
  rw [pick, Array.mapM_eq_mapM_toList]
  rfl

theorem pick_of_inside (hinside : ∀ i (hi : i < places.size), places[i] < data.size) :
    ∃ moved, pick places data = .ok moved ∧ moved.size = places.size
      ∧ ∀ i (hi : i < places.size), moved[i]? = data[places[i]]? := by
  rw [pick_eq]
  cases hmoved : places.toList.mapM (data[·]?) with
  | none =>
      obtain ⟨a, ha, hnone⟩ := mapM_eq_none_iff.mp hmoved
      obtain ⟨i, hi, rfl⟩ := Array.getElem_of_mem (Array.mem_toList_iff.mp ha)
      exact absurd (hinside i hi) (Nat.not_lt.mpr (Array.getElem?_eq_none_iff.mp hnone))
  | some moved =>
      have hmap := mapM_eq_some_iff.mp hmoved
      refine ⟨moved.toArray, rfl, ?_, fun i hi => ?_⟩
      · simpa using (congrArg List.length hmap).symm
      · have hentry : ∃ a, moved[i]? = some a ∧ some a = data[places[i]]? := by
          simpa [hi] using congrArg (·[i]?) hmap
        obtain ⟨a, ha, hread⟩ := hentry
        rw [List.getElem?_toArray, ha, hread]

theorem pick_of_outside {i : Nat} (hi : i < places.size) (houtside : data.size ≤ places[i]) :
    pick places data = .error .missingEntry := by
  have hnone : places.toList.mapM (data[·]?) = none :=
    mapM_eq_none_iff.mpr ⟨places[i], Array.mem_toList_iff.mpr (Array.getElem_mem hi),
      Array.getElem?_eq_none houtside⟩
  rw [pick_eq, hnone]
  rfl

end Copies

/-! ## The four functions -/

section Functions

variable {n : Nat} {p q : SignedPerm}

/-- A copy reads the data through the images. -/
theorem On.pick_image (hq : q.On n) (hsize : n ≤ data.size) :
    ∃ moved, pick q.image data = .ok moved ∧ moved.size = n
      ∧ ∀ i, i < n → moved[i]? = data[q.act i]? := by
  have hdegree : q.image.size = n := hq.degree_eq
  have hinside : ∀ i (hi : i < q.image.size), q.image[i] < data.size := by
    intro i hi
    rw [getElem_image hi]
    exact Nat.lt_of_lt_of_le (hq.act_lt (hdegree ▸ hi)) hsize
  obtain ⟨moved, hpick, hmoved, hread⟩ := pick_of_inside hinside
  refine ⟨moved, hpick, hmoved.trans hdegree, fun i hi => ?_⟩
  rw [hread i (hdegree ▸ hi), getElem_image]

/-- A copy of data that is too short misses the point that is sent to the first missing place. -/
theorem On.pick_image_of_lt (hq : q.On n) (hsize : data.size < n) :
    pick q.image data = .error .missingEntry := by
  have hplace : q.actInv data.size < q.image.size := by
    show _ < q.degree
    rw [hq.degree_eq]
    exact hq.actInv_lt hsize
  refine pick_of_outside hplace ?_
  rw [getElem_image, hq.act_actInv]

/-- Data that is read through a permutation of its first `n` places is a copy of these with the rest
    behind it. -/
theorem Rearranges.eq_append (hq : q.On n) (hsize : n ≤ data.size)
    (h : Rearranges hq.points data other) (hmoved : moved.size = n)
    (hread : ∀ i, i < n → moved[i]? = data[q.act i]?) :
    other = moved ++ data.extract n data.size := by
  refine Array.ext_getElem? fun i => ?_
  have hpoint : hq.points i = q.act i := rfl
  rw [h.getElem?_eq, Array.getElem?_append, hmoved, hpoint]
  split
  · next hi => exact (hread i hi).symm
  · next hi =>
      rw [hq.act_of_le (by omega), Array.getElem?_extract]
      split
      · rw [Nat.add_sub_cancel' (by omega)]
      · exact Array.getElem?_eq_none (by omega)

/-- The exchanges stay inside the data if no point past its end moves. -/
theorem On.transpositions_inside_iff (hp : p.On n) :
    (∀ t ∈ p.transpositions, t.1 < data.size ∧ t.2 < data.size)
      ↔ ∀ q, data.size ≤ q → p.act q = q := by
  constructor
  · intro hinside q hq
    by_contra hmoved
    obtain ⟨t, ht, rfl | rfl⟩ := hp.exists_mem_transpositions_iff.mpr hmoved
    · exact Nat.not_lt.mpr hq (hinside t ht).1
    · exact Nat.not_lt.mpr hq (hinside t ht).2
  · intro hfixed t ht
    have hlt {q : Nat} (hq : t.1 = q ∨ t.2 = q) : q < data.size := by
      by_contra hge
      exact hp.exists_mem_transpositions_iff.mp ⟨t, ht, hq⟩ (hfixed q (Nat.not_lt.mp hge))
    exact ⟨hlt (Or.inl rfl), hlt (Or.inr rfl)⟩

/-- What a function in place answers that reads the data through `σ`: it only misses a place if a
    point past the end of the data moves. -/
def AnswersInPlace (p : SignedPerm) (σ : Equiv.Perm Nat) (data : Array α)
    (answer : Except PermError (Array α)) : Prop :=
  ((∀ q, data.size ≤ q → p.act q = q) ∧ ∃ moved, answer = .ok moved ∧ Rearranges σ data moved)
    ∨ ((∃ q, data.size ≤ q ∧ p.act q ≠ q) ∧ answer = .error .missingEntry)

theorem On.exchanges_answer (hp : p.On n) (data : Array α) {ts : List (Nat × Nat)}
    (hts : ∀ t, t ∈ ts ↔ t ∈ p.transpositions) :
    AnswersInPlace p (product (asCycles ts)) data (ts.foldlM exchange data) := by
  by_cases hfixed : ∀ q, data.size ≤ q → p.act q = q
  · refine Or.inl ⟨hfixed, foldlM_exchange_of_inside ts data fun t ht => ?_⟩
    exact hp.transpositions_inside_iff.mpr hfixed t ((hts t).mp ht)
  · refine Or.inr ⟨by push Not at hfixed; exact hfixed, foldlM_exchange_of_outside ?_⟩
    intro hinside
    exact hfixed (hp.transpositions_inside_iff.mp fun t ht => hinside t ((hts t).mpr ht))

theorem On.unpermuteInPlace_answers (hp : p.On n) (data : Array α) :
    AnswersInPlace p hp.points data (p.unpermuteInPlace data) := by
  rw [unpermuteInPlace, if_pos hp.imageInRange, ← hp.product_transpositions]
  exact hp.exchanges_answer data fun t => Iff.rfl

theorem On.permuteInPlace_answers (hp : p.On n) (data : Array α) :
    AnswersInPlace p hp.points⁻¹ data (p.permuteInPlace data) := by
  have hreverse : product (asCycles p.transpositions.reverse) = hp.points⁻¹ := by
    rw [asCycles, List.map_reverse, ← asCycles, product_reverse_asCycles, hp.product_transpositions]
  rw [permuteInPlace, if_pos hp.imageInRange, ← hreverse]
  exact hp.exchanges_answer data fun t => List.mem_reverse

variable {answer : Except PermError (Array α)}

theorem AnswersInPlace.error_iff (h : AnswersInPlace p σ data answer) :
    answer = .error .missingEntry ↔ ∃ q, data.size ≤ q ∧ p.act q ≠ q := by
  rcases h with ⟨hfixed, moved, rfl, -⟩ | ⟨hmoved, rfl⟩
  · exact iff_of_false nofun fun ⟨q, hq, hne⟩ => hne (hfixed q hq)
  · exact iff_of_true rfl hmoved

theorem AnswersInPlace.exists_of_fixed (h : AnswersInPlace p σ data answer)
    (hfixed : ∀ q, data.size ≤ q → p.act q = q) :
    ∃ moved, answer = .ok moved ∧ Rearranges σ data moved := by
  rcases h with ⟨-, hmoved⟩ | ⟨⟨q, hq, hne⟩, -⟩
  · exact hmoved
  · exact absurd (hfixed q hq) hne

/-- Reading in the other direction takes back what was done. -/
theorem AnswersInPlace.back (h : AnswersInPlace p σ data (.ok moved))
    (h' : AnswersInPlace p σ⁻¹ moved answer) : answer = .ok data := by
  rcases h with ⟨hfixed, there, hthere, hread⟩ | ⟨-, herror⟩
  · obtain rfl : moved = there := Except.ok.inj hthere
    obtain ⟨again, rfl, hagain⟩ := h'.exists_of_fixed (hread.size_eq.symm ▸ hfixed)
    have hround : Rearranges 1 data again := mul_inv_cancel σ ▸ hread.trans hagain
    rw [hround.eq (.refl data)]
  · exact nomatch herror

/-- On data that is long enough, permuting in place puts the copy in front of what is left over, in
    either direction, and each direction undoes the other one.  On shorter data there is no copy,
    while permuting in place only fails if a point at or past the end of the data moves, and
    otherwise moves the entries that are there. -/
theorem in_place_agrees {p : SignedPerm} (hp : p.Valid) (data : Array α) :
    (p.degree ≤ data.size →
      (∃ copy, p.permuted data = .ok copy ∧ copy.size = p.degree
          ∧ (∀ i, i < p.degree → copy[p.act i]? = data[i]?)
          ∧ p.permuteInPlace data = .ok (copy ++ data.extract p.degree data.size))
        ∧ ∃ copy, p.unpermuted data = .ok copy ∧ copy.size = p.degree
          ∧ (∀ i, i < p.degree → copy[i]? = data[p.act i]?)
          ∧ p.unpermuteInPlace data = .ok (copy ++ data.extract p.degree data.size))
      ∧ (∀ moved, p.permuteInPlace data = .ok moved → p.unpermuteInPlace moved = .ok data)
      ∧ (∀ moved, p.unpermuteInPlace data = .ok moved → p.permuteInPlace moved = .ok data)
      ∧ (data.size < p.degree →
        (p.permuted data = .error .missingEntry ∧ p.unpermuted data = .error .missingEntry)
          ∧ (p.permuteInPlace data = .error .missingEntry ↔ ∃ q, data.size ≤ q ∧ p.act q ≠ q)
          ∧ (p.unpermuteInPlace data = .error .missingEntry ↔ ∃ q, data.size ≤ q ∧ p.act q ≠ q)
          ∧ ((∀ q, data.size ≤ q → p.act q = q) →
            (∃ moved, p.permuteInPlace data = .ok moved ∧ moved.size = data.size
                ∧ ∀ i, moved[p.act i]? = data[i]?)
              ∧ ∃ moved, p.unpermuteInPlace data = .ok moved ∧ moved.size = data.size
                ∧ ∀ i, moved[i]? = data[p.act i]?)) := by
  have hon : p.On p.degree := ⟨hp, rfl⟩
  have hthere (data : Array α) := hon.permuteInPlace_answers data
  have hback (data : Array α) := hon.unpermuteInPlace_answers data
  have hbehind {data moved : Array α} (h : Rearranges hon.points⁻¹ data moved) (i : Nat) :
      moved[p.act i]? = data[i]? := by
    rw [h.getElem?_eq]
    exact congrArg (data[·]?) (hon.actInv_act i)
  refine ⟨fun hsize => ?_, fun moved hmoved => ?_, fun moved hmoved => ?_, fun hsize => ?_⟩
  · have hfixed : ∀ q, data.size ≤ q → p.act q = q :=
      fun q hq => act_of_degree_le (Nat.le_trans hsize hq)
    constructor
    · obtain ⟨copy, hcopy, hlength, hread⟩ := hon.inverse.pick_image hsize
      obtain ⟨moved, hmoved, hrearranged⟩ := (hthere data).exists_of_fixed hfixed
      refine ⟨copy, hcopy, hlength, fun i hi => ?_, ?_⟩
      · rw [hread _ (hon.act_lt hi)]
        exact congrArg (data[·]?) (hon.actInv_act i)
      · rw [hmoved, Rearranges.eq_append hon.inverse hsize hrearranged hlength hread]
    · obtain ⟨copy, hcopy, hlength, hread⟩ := hon.pick_image hsize
      obtain ⟨moved, hmoved, hrearranged⟩ := (hback data).exists_of_fixed hfixed
      refine ⟨copy, hcopy, hlength, hread, ?_⟩
      rw [hmoved, hrearranged.eq_append hon hsize hlength hread]
  · exact (hmoved ▸ hthere data).back ((inv_inv hon.points).symm ▸ hback moved)
  · exact (hmoved ▸ hback data).back (hthere moved)
  · refine ⟨⟨hon.inverse.pick_image_of_lt hsize, hon.pick_image_of_lt hsize⟩,
      (hthere data).error_iff, (hback data).error_iff, fun hfixed => ⟨?_, ?_⟩⟩
    · obtain ⟨moved, hmoved, hrearranged⟩ := (hthere data).exists_of_fixed hfixed
      exact ⟨moved, hmoved, hrearranged.size_eq, hbehind hrearranged⟩
    · obtain ⟨moved, hmoved, hrearranged⟩ := (hback data).exists_of_fixed hfixed
      exact ⟨moved, hmoved, hrearranged.size_eq, hrearranged.getElem?_eq⟩

/-- A rotation of three of five points, on data that is longer, long enough to hold the points that
    move, and too short. -/
theorem in_place_agrees_rotation :
    ∃ p, p = ofImage #[2, 0, 1, 3, 4] true
      ∧ (∃ copy, p.permuted #['a', 'b', 'c', 'd', 'e', 'f'] = .ok copy ∧ copy[2]? = some 'a'
        ∧ p.permuteInPlace #['a', 'b', 'c', 'd', 'e', 'f'] = .ok (copy ++ #['f']))
      ∧ (∃ moved, p.permuteInPlace #['a', 'b', 'c'] = .ok moved ∧ moved[2]? = some 'a'
        ∧ p.unpermuteInPlace moved = .ok #['a', 'b', 'c'])
      ∧ p.permuted #['a', 'b', 'c'] = .error .missingEntry
      ∧ p.permuteInPlace #['a', 'b'] = .error .missingEntry := by
  have hvalid : (ofImage #[2, 0, 1, 3, 4] true).Valid := by decide +kernel
  have hpoints : ∀ q, q < 5 → 3 ≤ q → (ofImage #[2, 0, 1, 3, 4] true).act q = q := by
    decide +kernel
  have hfixed : ∀ q, 3 ≤ q → (ofImage #[2, 0, 1, 3, 4] true).act q = q := by
    intro q hq
    by_cases hlt : q < 5
    · exact hpoints q hlt hq
    · exact act_of_degree_le (Nat.not_lt.mp hlt)
  obtain ⟨hlong, -⟩ := in_place_agrees hvalid #['a', 'b', 'c', 'd', 'e', 'f']
  obtain ⟨⟨copy, hcopy, -, hread, hplace⟩, -⟩ := hlong (by decide +kernel)
  obtain ⟨-, hundo, -, hshort⟩ := in_place_agrees hvalid #['a', 'b', 'c']
  obtain ⟨⟨hnone, -⟩, -, -, hpart⟩ := hshort (by decide +kernel)
  obtain ⟨⟨moved, hmoved, -, hentry⟩, -⟩ := hpart hfixed
  obtain ⟨-, -, -, hshorter⟩ := in_place_agrees hvalid #['a', 'b']
  obtain ⟨-, hmissing, -⟩ := hshorter (by decide +kernel)
  refine ⟨_, rfl, ⟨copy, hcopy, hread 0 (by decide +kernel), hplace⟩,
    ⟨moved, hmoved, hentry 0, hundo moved hmoved⟩, hnone, ?_⟩
  exact hmissing.mpr ⟨2, by decide +kernel, by decide +kernel⟩

end Functions

end SignedPerm

end SlotSymmetry

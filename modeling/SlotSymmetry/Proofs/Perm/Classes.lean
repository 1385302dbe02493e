import Mathlib.Data.List.Nodup
import Mathlib.Data.List.Perm.Subperm
import Mathlib.Data.Nat.Find

/-! # Listing classes

    Cycles and orbits are listed in the same way.  The points are gone through
    in order; a point that is marked is passed over, and of any other point the
    whole class is listed and marked.  The marked points are always those of
    whole classes, so a point is still unmarked when its turn comes exactly if
    no smaller one is in its class.  What is listed are therefore the classes of
    these points, in their order (`Classes.scan_eq`), and every point is in
    exactly one of them (`Classes.flatten_perm`). -/

namespace SlotSymmetry

/-- Every point below `n` lists its class, itself first and all of them once; two points of one
    class list the same points. -/
structure Classes (n : Nat) (cls : Nat → List Nat) : Prop where
  lt : ∀ {a q : Nat}, a < n → q ∈ cls a → q < n
  head : ∀ {a : Nat}, a < n → (cls a).head? = some a
  nodup : ∀ {a : Nat}, a < n → (cls a).Nodup
  symm : ∀ {a b : Nat}, a < n → b ∈ cls a → a ∈ cls b
  trans : ∀ {a b q : Nat}, a < n → b ∈ cls a → q ∈ cls b → q ∈ cls a

/-- The point is the smallest one of its class. -/
def leadsClass (cls : Nat → List Nat) (a : Nat) : Bool := (cls a).all (a ≤ ·)

/-- The points that are the smallest ones of their classes. -/
def leading (n : Nat) (cls : Nat → List Nat) : List Nat := (List.range n).filter (leadsClass cls)

/-- The classes, in the order of their smallest points. -/
def listed (n : Nat) (cls : Nat → List Nat) : List (List Nat) := (leading n cls).map cls

namespace Classes

variable {n : Nat} {cls : Nat → List Nat} {a b q : Nat}

/-! ## Smallest points -/

theorem leadsClass_iff : leadsClass cls a = true ↔ ∀ q ∈ cls a, a ≤ q := by
  rw [leadsClass, List.all_eq_true]
  simp

theorem mem_leading : a ∈ leading n cls ↔ a < n ∧ ∀ q ∈ cls a, a ≤ q := by
  rw [leading, List.mem_filter, List.mem_range, leadsClass_iff]

theorem mem_listed {c : List Nat} : c ∈ listed n cls ↔ ∃ a ∈ leading n cls, cls a = c :=
  List.mem_map

theorem self_mem (h : Classes n cls) (ha : a < n) : a ∈ cls a := List.mem_of_head? (h.head ha)

/-- The points of a class list the same points. -/
theorem mem_iff_of_mem (h : Classes n cls) (ha : a < n) (hb : b ∈ cls a) :
    q ∈ cls a ↔ q ∈ cls b :=
  ⟨fun hq => h.trans (h.lt ha hb) (h.symm ha hb) hq, fun hq => h.trans ha hb hq⟩

/-- Every point is in the class of a smallest one. -/
theorem exists_leading (h : Classes n cls) (hq : q < n) : ∃ a ∈ leading n cls, q ∈ cls a := by
  have hex : ∃ a, a < n ∧ q ∈ cls a := ⟨q, hq, h.self_mem hq⟩
  obtain ⟨hlt, hmem⟩ := Nat.find_spec hex
  refine ⟨Nat.find hex, mem_leading.mpr ⟨hlt, fun r hr => ?_⟩, hmem⟩
  have hback := (h.mem_iff_of_mem hlt hr).mp hmem
  exact Nat.find_min' hex ⟨h.lt hlt hr, hback⟩

/-- Two smallest points are in different classes. -/
theorem eq_of_leading (h : Classes n cls) (ha : a ∈ leading n cls) (hb : b ∈ leading n cls)
    (hmem : b ∈ cls a) : a = b := by
  obtain ⟨hlt, hleast⟩ := mem_leading.mp ha
  exact Nat.le_antisymm (hleast b hmem) ((mem_leading.mp hb).2 a (h.symm hlt hmem))

theorem nodup_leading (n : Nat) (cls : Nat → List Nat) : (leading n cls).Nodup :=
  List.nodup_range.filter _

/-- The smallest points ascend. -/
theorem pairwise_leading (n : Nat) (cls : Nat → List Nat) : (leading n cls).Pairwise (· < ·) :=
  List.pairwise_lt_range.filter _

/-! ## The list of the classes -/

/-- Every class starts with the smallest point that it is listed for. -/
theorem map_head_listed (h : Classes n cls) :
    (listed n cls).map List.head? = (leading n cls).map some := by
  rw [listed, List.map_map]
  exact List.map_congr_left fun a ha => h.head (mem_leading.mp ha).1

theorem head_eq_min (h : Classes n cls) {c : List Nat} (hc : c ∈ listed n cls) :
    c.head? = c.min? := by
  obtain ⟨a, ha, rfl⟩ := mem_listed.mp hc
  obtain ⟨hlt, hleast⟩ := mem_leading.mp ha
  rw [h.head hlt, eq_comm, List.min?_eq_some_iff]
  exact ⟨h.self_mem hlt, hleast⟩

/-- A class of the list is the class of any of its points. -/
theorem mem_iff_of_mem_listed (h : Classes n cls) {c : List Nat} (hc : c ∈ listed n cls)
    (ha : a ∈ c) : a < n ∧ (q ∈ c ↔ q ∈ cls a) := by
  obtain ⟨b, hb, rfl⟩ := mem_listed.mp hc
  have hlt := (mem_leading.mp hb).1
  exact ⟨h.lt hlt ha, h.mem_iff_of_mem hlt ha⟩

theorem exists_mem_listed (h : Classes n cls) (hq : q < n) : ∃ c ∈ listed n cls, q ∈ c := by
  obtain ⟨a, ha, hmem⟩ := h.exists_leading hq
  exact ⟨cls a, mem_listed.mpr ⟨a, ha, rfl⟩, hmem⟩

/-- Two points are listed together if one is in the class of the other. -/
theorem listed_together_iff (h : Classes n cls) (ha : a < n) :
    (∃ c ∈ listed n cls, a ∈ c ∧ b ∈ c) ↔ b ∈ cls a := by
  constructor
  · rintro ⟨c, hc, hac, hbc⟩
    exact (h.mem_iff_of_mem_listed hc hac).2.mp hbc
  · intro hb
    obtain ⟨c, hc, hac⟩ := h.exists_mem_listed ha
    exact ⟨c, hc, hac, (h.mem_iff_of_mem_listed hc hac).2.mpr hb⟩

theorem nodup_flatten_listed (h : Classes n cls) : (listed n cls).flatten.Nodup := by
  rw [List.nodup_flatten]
  constructor
  · intro c hc
    obtain ⟨a, ha, rfl⟩ := mem_listed.mp hc
    exact h.nodup (mem_leading.mp ha).1
  · rw [listed, List.pairwise_map]
    refine List.Pairwise.imp_of_mem ?_ (pairwise_leading n cls)
    intro a b ha hb hne q hqa hqb
    have hlt := fun {d : Nat} (hd : d ∈ leading n cls) => (mem_leading.mp hd).1
    have hmem : b ∈ cls a := h.trans (hlt ha) hqa (h.symm (hlt hb) hqb)
    exact Nat.ne_of_lt hne (h.eq_of_leading ha hb hmem)

/-- Every point is listed exactly once. -/
theorem flatten_perm (h : Classes n cls) : (listed n cls).flatten.Perm (List.range n) := by
  rw [List.perm_ext_iff_of_nodup h.nodup_flatten_listed List.nodup_range]
  intro q
  rw [List.mem_flatten, List.mem_range]
  constructor
  · rintro ⟨c, hc, hq⟩
    exact (h.mem_iff_of_mem_listed (q := q) hc hq).1
  · exact h.exists_mem_listed

theorem length_listed_le (n : Nat) (cls : Nat → List Nat) : (listed n cls).length ≤ n := by
  have hle := List.length_filter_le (leadsClass cls) (List.range n)
  rwa [List.length_range, ← List.length_map cls] at hle

/-- There is only one class if the first point lists all points. -/
theorem length_listed_le_one_iff (h : Classes n cls) (hn : 0 < n) :
    (listed n cls).length ≤ 1 ↔ (cls 0).length = n := by
  have hzero : 0 ∈ leading n cls := mem_leading.mpr ⟨hn, fun q _ => Nat.zero_le q⟩
  have hfirst : cls 0 ∈ listed n cls := mem_listed.mpr ⟨0, hzero, rfl⟩
  have htotal := h.flatten_perm.length_eq
  rw [List.length_range] at htotal
  constructor
  · intro hle
    obtain ⟨c, hc⟩ := List.length_eq_one_iff.mp
      (Nat.le_antisymm hle (List.length_pos_of_mem hfirst))
    rw [hc, List.mem_singleton] at hfirst
    rw [hc, List.flatten_singleton] at htotal
    rw [hfirst, htotal]
  · intro hall
    -- any smallest point is in the class of the first one, so it is the first one
    have hperm : (cls 0).Perm (List.range n) := by
      have hsub : cls 0 ⊆ List.range n := fun q hq => List.mem_range.mpr (h.lt hn hq)
      refine (List.subperm_of_subset (h.nodup hn) hsub).perm_of_length_le ?_
      rw [List.length_range, hall]
    have hsub : leading n cls ⊆ [0] := by
      intro a ha
      have hmem := hperm.mem_iff.mpr (List.mem_range.mpr (mem_leading.mp ha).1)
      exact List.mem_singleton.mpr (h.eq_of_leading hzero ha hmem).symm
    have hle := (nodup_leading n cls).length_le_of_subset hsub
    rwa [List.length_singleton, ← List.length_map cls] at hle

end Classes

namespace SignedPerm

/-! ## Marks -/

/-- The point is marked; points past the table count as marked. -/
def Marked (marks : Array Bool) (q : Nat) : Prop := marks.getD q true = true

theorem marked_set {marks : Array Bool} {a q : Nat} :
    Marked (marks.setIfInBounds a true) q ↔ Marked marks q ∨ q = a := by
  rw [Marked, Marked, Array.getD_eq_getD_getElem?, Array.getD_eq_getD_getElem?,
    Array.getElem?_setIfInBounds]
  grind

/-- Marking points one after another marks all of them. -/
theorem marked_foldl_set {q : Nat} (points : List Nat) : ∀ marks : Array Bool,
    Marked (points.foldl (fun marks a => marks.setIfInBounds a true) marks) q
      ↔ Marked marks q ∨ q ∈ points := by
  induction points with
  | nil => simp
  | cons a points ih =>
      intro marks
      rw [List.foldl_cons, ih, marked_set, List.mem_cons, or_assoc]

theorem not_marked_replicate {n q : Nat} (hq : q < n) : ¬ Marked (Array.replicate n false) q := by
  simp [Marked, Array.getD_eq_getD_getElem?, hq]

end SignedPerm

open SignedPerm (Marked)

/-- The function goes through points, passes over those that are marked and lists the classes of
    the others, marking their points. -/
structure Scans (n : Nat) (cls : Nat → List Nat)
    (scan : List Nat → Array Bool → List (List Nat)) : Prop where
  nil : ∀ marks, scan [] marks = []
  pass : ∀ {q : Nat} {marks : Array Bool} (points : List Nat), Marked marks q →
    scan (q :: points) marks = scan points marks
  list : ∀ {q : Nat} {marks : Array Bool} (points : List Nat), q < n → ¬ Marked marks q →
    (∀ r ∈ cls q, ¬ Marked marks r) →
    ∃ marks', scan (q :: points) marks = cls q :: scan points marks'
      ∧ ∀ r, Marked marks' r ↔ Marked marks r ∨ r ∈ cls q

namespace Classes

variable {n : Nat} {cls : Nat → List Nat} {scan : List Nat → Array Bool → List (List Nat)}

/-- The marked points are those of the classes of points before `k`. -/
def Covered (n : Nat) (cls : Nat → List Nat) (k : Nat) (marks : Array Bool) : Prop :=
  ∀ q, q < n → (Marked marks q ↔ ∃ b < k, q ∈ cls b)

/-- At its turn, a point is marked if it is not the smallest one of its class. -/
theorem Covered.marked_iff {k : Nat} {marks : Array Bool} (hcov : Covered n cls k marks)
    (h : Classes n cls) (hk : k < n) : Marked marks k ↔ ¬ ∀ q ∈ cls k, k ≤ q := by
  rw [hcov k hk]
  push Not
  constructor
  · rintro ⟨b, hb, hmem⟩
    exact ⟨b, h.symm (Nat.lt_trans hb hk) hmem, hb⟩
  · rintro ⟨b, hmem, hb⟩
    exact ⟨b, hb, h.symm hk hmem⟩

theorem Covered.pass {k : Nat} {marks : Array Bool} (hcov : Covered n cls k marks)
    (h : Classes n cls) (hk : k < n) (hmarked : Marked marks k) : Covered n cls (k + 1) marks := by
  intro q hq
  rw [hcov q hq]
  refine ⟨fun ⟨b, hb, hmem⟩ => ⟨b, by omega, hmem⟩, ?_⟩
  rintro ⟨b, hb, hmem⟩
  rcases Nat.lt_succ_iff_lt_or_eq.mp hb with hlt | rfl
  · exact ⟨b, hlt, hmem⟩
  · -- its class was listed for a point before
    obtain ⟨b', hb', hmem'⟩ := (hcov b hk).mp hmarked
    exact ⟨b', hb', h.trans (Nat.lt_trans hb' hk) hmem' hmem⟩

theorem Covered.list {k : Nat} {marks marks' : Array Bool} (hcov : Covered n cls k marks)
    (hmarks : ∀ r, Marked marks' r ↔ Marked marks r ∨ r ∈ cls k) :
    Covered n cls (k + 1) marks' := by
  intro q hq
  rw [hmarks q, hcov q hq]
  constructor
  · rintro (⟨b, hb, hmem⟩ | hmem)
    · exact ⟨b, by omega, hmem⟩
    · exact ⟨k, Nat.lt_succ_self k, hmem⟩
  · rintro ⟨b, hb, hmem⟩
    rcases Nat.lt_succ_iff_lt_or_eq.mp hb with hlt | rfl
    · exact Or.inl ⟨b, hlt, hmem⟩
    · exact Or.inr hmem

/-- From any point on, the scan lists the classes of the smallest points from there on. -/
theorem scan_range' (h : Classes n cls) (hscan : Scans n cls scan) (len : Nat) :
    ∀ (k : Nat) (marks : Array Bool), k + len = n → Covered n cls k marks →
      scan (List.range' k len) marks
        = ((List.range' k len).filter (leadsClass cls)).map cls := by
  induction len with
  | zero => exact fun _ marks _ _ => hscan.nil marks
  | succ len ih =>
      intro k marks hlen hcov
      have hk : k < n := by omega
      rw [List.range'_succ]
      by_cases hmarked : Marked marks k
      · have hnot := (hcov.marked_iff h hk).mp hmarked
        rw [hscan.pass _ hmarked, List.filter_cons_of_neg (mt leadsClass_iff.mp hnot),
          ih (k + 1) marks (by omega) (hcov.pass h hk hmarked)]
      · have hleast := not_not.mp (fun hnot => hmarked ((hcov.marked_iff h hk).mpr hnot))
        have hfree : ∀ q ∈ cls k, ¬ Marked marks q := by
          intro q hq hmark
          obtain ⟨b, hb, hmem⟩ := (hcov q (h.lt hk hq)).mp hmark
          have hb' := Nat.lt_trans hb hk
          exact hmarked ((hcov k hk).mpr ⟨b, hb, h.trans hb' hmem (h.symm hk hq)⟩)
        obtain ⟨marks', hlist, hmarks⟩ := hscan.list (List.range' (k + 1) len) hk hmarked hfree
        rw [hlist, List.filter_cons_of_pos (leadsClass_iff.mpr hleast), List.map_cons,
          ih (k + 1) marks' (by omega) (hcov.list hmarks)]

theorem scan_eq (h : Classes n cls) (hscan : Scans n cls scan) :
    scan (List.range n) (Array.replicate n false) = listed n cls := by
  rw [listed, leading, List.range_eq_range']
  refine h.scan_range' hscan n 0 _ (Nat.zero_add n) fun q hq => ?_
  simp [SignedPerm.not_marked_replicate hq]

end Classes

end SlotSymmetry

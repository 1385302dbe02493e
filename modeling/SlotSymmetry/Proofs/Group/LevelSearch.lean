import SlotSymmetry.Group.LevelSearch
import SlotSymmetry.Proofs.Chain.Shape
import SlotSymmetry.Proofs.Search.Run

/-! # Subgroups found level by level

    Let the tests of a level search single out the elements of a subgroup `K`
    (`Wanted.Selects`).  All that a search adds belongs to `K` and fixes the
    base points before its level, whatever the budget (`Grows`).  Without
    limits, the list that is known after a level generates all of `K` that fixes
    the base points before: an element of `K` sends the base point somewhere, the
    list reaches that point or a search found an element that does, and what is
    left fixes the base point too, so it was known before.  Going up the levels,
    the list comes to generate `K` itself. -/

namespace SlotSymmetry

open SignedPerm (Generated)

namespace Chain

/-- From a level on, the tests single out the elements of `K`. -/
def Wanted.Selects (w : Wanted) (c : Chain) {n : Nat} (K : Subgroup (Signed n)) (depth : Nat) :
    Prop :=
  ∀ x ∈ topGroup n (c.levels.drop depth),
    ((∀ v, v <+: baseImages (c.levels.drop depth) x.val → w.keep depth v = true)
        ∧ w.accept x.val = true)
      ↔ x ∈ K

/-- The elements of `K` that the levels from a depth on describe. -/
def part (c : Chain) {n : Nat} (K : Subgroup (Signed n)) (depth : Nat) : Subgroup (Signed n) :=
  K ⊓ topGroup n (c.levels.drop depth)

/-- The second finding knows what the first one knows and elements of `K`, and its meter has no
    limits if the first one has none. -/
structure Grows {n : Nat} (K : Subgroup (Signed n)) (f next : Finding) : Prop where
  known : ∃ added : List SignedPerm, next.known = f.known ++ added
    ∧ ∀ g ∈ added, ∃ x ∈ K, x.val = g
  free : f.meter.Free → next.meter.Free

section Grows

variable {n : Nat} {K L : Subgroup (Signed n)} {f next last : Finding}

theorem Grows.refl (f : Finding) : Grows K f f :=
  ⟨⟨[], (List.append_nil _).symm, nofun⟩, fun h => h⟩

theorem Grows.trans (h : Grows K f next) (h' : Grows K next last) : Grows K f last := by
  obtain ⟨added, hadded, hmem⟩ := h.known
  obtain ⟨added', hadded', hmem'⟩ := h'.known
  refine ⟨⟨added ++ added', ?_, ?_⟩, fun hfree => h'.free (h.free hfree)⟩
  · rw [hadded', hadded, List.append_assoc]
  · exact List.forall_mem_append.mpr ⟨hmem, hmem'⟩

theorem Grows.mono (h : Grows K f next) (hle : K ≤ L) : Grows L f next := by
  obtain ⟨added, hadded, hmem⟩ := h.known
  refine ⟨⟨added, hadded, fun g hg => ?_⟩, h.free⟩
  obtain ⟨x, hx, hval⟩ := hmem g hg
  exact ⟨x, hle hx, hval⟩

theorem Grows.subset (h : Grows K f next) : ∀ g ∈ f.known, g ∈ next.known := by
  obtain ⟨added, hadded, -⟩ := h.known
  intro g hg
  rw [hadded]
  exact List.mem_append_left _ hg

theorem Grows.on (h : Grows K f next) (hf : ∀ g ∈ f.known, g.On n) : ∀ g ∈ next.known, g.On n := by
  obtain ⟨added, hadded, hmem⟩ := h.known
  rw [hadded]
  refine List.forall_mem_append.mpr ⟨hf, fun g hg => ?_⟩
  obtain ⟨x, -, rfl⟩ := hmem g hg
  exact x.on

theorem Grows.span_le (h : Grows K f next) (hf : Signed.span n f.known ≤ K) :
    Signed.span n next.known ≤ K := by
  obtain ⟨added, hadded, hmem⟩ := h.known
  refine SlotSymmetry.span_le.mpr fun g hg => ?_
  rw [hadded] at hg
  rcases List.mem_append.mp hg with hg | hg
  · exact hf (mem_span_of_mem g.on hg)
  · obtain ⟨x, hx, hval⟩ := hmem g.val hg
    rwa [← Signed.eq_of_val hval]

end Grows

section Search

variable {n : Nat} {K : Subgroup (Signed n)} {c : Chain} {w : Wanted} {depth target : Nat}
  {level : Level} {f : Finding}

theorem part_le (c : Chain) (K : Subgroup (Signed n)) (depth : Nat) : c.part K depth ≤ K :=
  inf_le_left

/-! ## One search -/

/-- The first image is the target, and the rest of the tests pass. -/
theorem forall_prefix_startsAt {keep : List Nat → Bool} {image : Nat} {images : List Nat} :
    (∀ v, v <+: image :: images → (startsAt target v && keep v) = true)
      ↔ image = target ∧ ∀ v, v <+: image :: images → keep v = true := by
  constructor
  · intro h
    refine ⟨?_, fun v hv => (Bool.and_eq_true_iff.mp (h v hv)).2⟩
    have hfirst := (Bool.and_eq_true_iff.mp (h _ List.prefix_rfl)).1
    exact beq_iff_eq.mp hfirst
  · rintro ⟨rfl, hkeep⟩ v hv
    refine Bool.and_eq_true_iff.mpr ⟨?_, hkeep v hv⟩
    rcases List.prefix_cons_iff.mp hv with rfl | ⟨v', rfl, -⟩
    · rfl
    · exact beq_self_eq_true image

/-- The elements that a search at a level looks for. -/
theorem mem_sought_iff (hcomplete : Complete n c.levels) (hlevel : c.levels[depth]? = some level)
    (hw : w.Selects c K depth) {p : SignedPerm} :
    p ∈ harvest (fun images => startsAt target images && w.keep depth images) w.accept
        (c.levels.drop depth) [] (SignedPerm.id n)
      ↔ ∃ x ∈ c.part K depth, p = x.val ∧ x • level.basePoint = target := by
  obtain ⟨hd, rfl⟩ := List.getElem?_eq_some_iff.mp hlevel
  have hdrop := List.drop_eq_getElem_cons hd
  rw [mem_harvest_root_iff (hcomplete.drop depth)]
  constructor
  · rintro ⟨x, hx, rfl, hkeep, haccept⟩
    have hkeep' := hkeep
    rw [hdrop, baseImages_cons, forall_prefix_startsAt, ← baseImages_cons, ← hdrop] at hkeep'
    exact ⟨x, ⟨(hw x hx).mp ⟨hkeep'.2, haccept⟩, hx⟩, rfl, hkeep'.1⟩
  · rintro ⟨x, ⟨hK, hx⟩, rfl, htarget⟩
    obtain ⟨hkeep, haccept⟩ := (hw x hx).mpr hK
    refine ⟨x, hx, rfl, ?_, haccept⟩
    rw [hdrop, baseImages_cons, forall_prefix_startsAt, ← baseImages_cons, ← hdrop]
    exact ⟨htarget, hkeep⟩

variable (hdegree : c.degree = n) (hcomplete : Complete n c.levels)
  (hlevel : c.levels[depth]? = some level) (hw : w.Selects c K depth)
include hdegree hcomplete hlevel hw

theorem seek_grows : Grows (c.part K depth) f (c.seek w depth f target) := by
  rw [seek, hdegree]
  split
  · exact Grows.refl f
  · refine ⟨⟨_, rfl, fun g hg => ?_⟩, fun hfree => Search.free_foldWhile hfree⟩
    have hmem := Search.mem_of_next (Option.mem_toList.mp hg)
    rw [Search.agendaHarvest_start, mem_sought_iff hcomplete hlevel hw] at hmem
    obtain ⟨x, hx, hval, -⟩ := hmem
    exact ⟨x, hx, hval.symm⟩

/-- Without limits a search finds an element if there is one. -/
theorem seek_finds (hfree : f.meter.Free) {y : Signed n} (hy : y ∈ c.part K depth)
    (htarget : y • level.basePoint = target) :
    ∃ x : Signed n, x.val ∈ (c.seek w depth f target).known ∧ x • level.basePoint = target := by
  have hsought := (mem_sought_iff hcomplete hlevel hw).mpr ⟨y, hy, rfl, htarget⟩
  obtain ⟨p, hp⟩ := Option.isSome_iff_exists.mp
    (List.isSome_head?.mpr (List.ne_nil_of_mem hsought))
  obtain ⟨x, -, rfl, hx⟩ :=
    (mem_sought_iff hcomplete hlevel hw).mp (List.mem_of_head? hp)
  refine ⟨x, ?_, hx⟩
  rw [seek, hdegree, hfree.going, if_neg Bool.false_ne_true]
  refine List.mem_append_right _ (Option.mem_toList.mpr ?_)
  rw [Search.next_eq_head hfree, Search.agendaHarvest_start]
  exact hp

/-! ## All searches of a level -/

omit hcomplete hlevel hw in
/-- For a target that is not reached, a search is made and the orbit kept up to date. -/
theorem seekAll_of_unreached {basePoint : Nat} (targets : List Nat)
    (hseek : Grows K f (c.seek w depth f target))
    (hreached : (Orbit.grow n f.known basePoint).contains target = false) :
    c.seekAll w depth basePoint (target :: targets) (.grow n f.known basePoint) f
      = c.seekAll w depth basePoint targets
          (.grow n (c.seek w depth f target).known basePoint) (c.seek w depth f target) := by
  have horbit : (if (c.seek w depth f target).known.length = f.known.length then
        Orbit.grow n f.known basePoint
      else .grow c.degree (c.seek w depth f target).known basePoint)
      = .grow n (c.seek w depth f target).known basePoint := by
    obtain ⟨added, hadded, -⟩ := hseek.known
    rw [hdegree]
    split
    · rename_i hlength
      rw [hadded, List.length_append] at hlength
      have hnil : added = [] := List.length_eq_zero_iff.mp (by omega)
      rw [hadded, hnil, List.append_nil]
    · rfl
  rw [seekAll, hreached, if_neg Bool.false_ne_true]
  show c.seekAll w depth basePoint targets (if _ then _ else _) _ = _
  rw [horbit]

/-- Elements of `K` were added, so that all of these targets are reached that can be. -/
structure Reaches (K : Subgroup (Signed n)) (basePoint : Nat) (targets : List Nat)
    (f next : Finding) : Prop where
  grows : Grows K f next
  reach : f.meter.Free → ∀ y ∈ K, y • basePoint ∈ targets →
    ∃ x ∈ Signed.span n next.known, x • basePoint = y • basePoint

theorem seekAll_reaches (hs : level.Sound n) (targets : List Nat) : ∀ f : Finding,
    (∀ g ∈ f.known, g.On n) →
      Reaches (c.part K depth) level.basePoint targets f
        (c.seekAll w depth level.basePoint targets (.grow n f.known level.basePoint) f) := by
  induction targets with
  | nil => exact fun f _ => ⟨Grows.refl f, fun _ y _ hy => absurd hy List.not_mem_nil⟩
  | cons target targets ih =>
      intro f hf
      cases hreached : (Orbit.grow n f.known level.basePoint).contains target with
      | true =>
          obtain ⟨hgrows, hreach⟩ := ih f hf
          rw [seekAll, hreached, if_pos rfl]
          refine ⟨hgrows, fun hfree y hy hmem => ?_⟩
          rcases List.mem_cons.mp hmem with htarget | hmem
          · obtain ⟨x, hx, hact⟩ := (Orbit.grow_contains_iff hf hs.basePoint_lt).mp hreached
            exact ⟨x, span_mono hgrows.subset hx, hact.trans htarget.symm⟩
          · exact hreach hfree y hy hmem
      | false =>
          have hseek : Grows (c.part K depth) f (c.seek w depth f target) :=
            seek_grows hdegree hcomplete hlevel hw
          obtain ⟨hgrows, hreach⟩ := ih _ (hseek.on hf)
          rw [seekAll_of_unreached hdegree targets hseek hreached]
          refine ⟨hseek.trans hgrows, fun hfree y hy hmem => ?_⟩
          rcases List.mem_cons.mp hmem with htarget | hmem
          · obtain ⟨x, hx, hact⟩ := seek_finds hdegree hcomplete hlevel hw hfree hy htarget
            exact ⟨x, mem_span_of_mem x.on (hgrows.subset _ hx), hact.trans htarget.symm⟩
          · exact hreach (hseek.free hfree) y hy hmem

end Search

/-! ## Levels -/

section Levels

variable {n : Nat} {K : Subgroup (Signed n)} {c : Chain} {w : Wanted} {depth : Nat} {f : Finding}
variable (hdegree : c.degree = n) (hcomplete : Complete n c.levels) (hw : w.Selects c K depth)

omit hdegree hcomplete hw in
/-- Without a level at a depth, nothing is described from there on. -/
theorem part_of_no_level (hlevel : c.levels[depth]? = none) :
    c.part K depth = c.part K (depth + 1) := by
  have hlength := List.getElem?_eq_none_iff.mp hlevel
  rw [part, part, List.drop_eq_nil_of_le hlength, List.drop_eq_nil_of_le (by omega)]

include hcomplete in
/-- What fixes the base point of a level is described one level below. -/
theorem mem_part_succ_iff {level : Level} (hlevel : c.levels[depth]? = some level)
    {x : Signed n} : x ∈ c.part K (depth + 1)
      ↔ x ∈ c.part K depth ∧ x • level.basePoint = level.basePoint := by
  obtain ⟨hd, rfl⟩ := List.getElem?_eq_some_iff.mp hlevel
  have hdrop := List.drop_eq_getElem_cons hd
  have hat := hcomplete.drop depth
  rw [hdrop] at hat
  rw [part, part, Subgroup.mem_inf, Subgroup.mem_inf, hat.mem_top_below_iff, hdrop, and_assoc]
  rfl

include hcomplete in
theorem part_succ_le (K : Subgroup (Signed n)) (depth : Nat) :
    c.part K (depth + 1) ≤ c.part K depth := by
  cases hlevel : c.levels[depth]? with
  | none => exact le_of_eq (part_of_no_level hlevel).symm
  | some level => exact fun x hx => ((mem_part_succ_iff hcomplete hlevel).mp hx).1

include hcomplete in
theorem part_antitone (K : Subgroup (Signed n)) (depth : Nat) : c.part K depth ≤ c.part K 0 := by
  induction depth with
  | zero => exact le_refl _
  | succ depth ih => exact (part_succ_le hcomplete K depth).trans ih

include hdegree hcomplete hw

/-- At a level, all points of its orbit are targets. -/
theorem searchLevel_reaches {level : Level} (hlevel : c.levels[depth]? = some level)
    (hf : ∀ g ∈ f.known, g.On n) :
    Reaches (c.part K depth) level.basePoint (level.orbit.points.toList.mergeSort (· ≤ ·)) f
      (c.searchLevel w f depth) := by
  have hs := hcomplete.sound level (List.mem_of_getElem? hlevel)
  have hsearch : c.searchLevel w f depth
      = c.seekAll w depth level.basePoint (level.orbit.points.toList.mergeSort (· ≤ ·))
          (.grow n f.known level.basePoint) f := by
    rw [searchLevel, hlevel]
    dsimp only
    rw [hdegree]
  rw [hsearch]
  exact seekAll_reaches hdegree hcomplete hlevel hw hs _ f hf

theorem searchLevel_grows (hf : ∀ g ∈ f.known, g.On n) :
    Grows (c.part K depth) f (c.searchLevel w f depth) := by
  cases hlevel : c.levels[depth]? with
  | none =>
      rw [searchLevel, hlevel]
      exact Grows.refl f
  | some level => exact (searchLevel_reaches hdegree hcomplete hw hlevel hf).grows

/-- One level up: what is known generates all that the levels from there on describe. -/
theorem searchLevel_span (hf : ∀ g ∈ f.known, g.On n) (hfree : f.meter.Free)
    (hspan : Signed.span n f.known = c.part K (depth + 1)) :
    Signed.span n (c.searchLevel w f depth).known = c.part K depth := by
  have hgrows := searchLevel_grows hdegree hcomplete hw hf
  have hle : Signed.span n f.known ≤ c.part K depth := hspan ▸ part_succ_le hcomplete K depth
  refine le_antisymm (hgrows.span_le hle) ?_
  cases hlevel : c.levels[depth]? with
  | none =>
      rw [part_of_no_level hlevel, ← hspan]
      exact span_mono hgrows.subset
  | some level =>
      have hs := hcomplete.sound level (List.mem_of_getElem? hlevel)
      intro y hy
      -- the base point is sent to a point of the orbit
      have htarget : y • level.basePoint ∈ level.orbit.points.toList.mergeSort (· ≤ ·) := by
        have hmem := hy.2
        rw [topGroup_drop hlevel] at hmem
        rw [List.mem_mergeSort, Array.mem_toList_iff, ← hs.stage.contains_iff]
        exact hs.contains_smul hmem
      obtain ⟨x, hx, hact⟩ :=
        (searchLevel_reaches hdegree hcomplete hw hlevel hf).reach hfree y hy htarget
      -- what is left of `y` fixes the base point, so it was known before
      have hrest : x⁻¹ * y ∈ c.part K (depth + 1) := by
        refine (mem_part_succ_iff hcomplete hlevel).mpr ⟨?_, ?_⟩
        · exact (c.part K depth).mul_mem
            ((c.part K depth).inv_mem (hgrows.span_le hle hx)) hy
        · rw [mul_smul, inv_smul_eq_iff, hact]
      rw [← hspan] at hrest
      have hprod := (Signed.span n (c.searchLevel w f depth).known).mul_mem hx
        (span_mono hgrows.subset hrest)
      rwa [mul_inv_cancel_left] at hprod

end Levels

/-! ## The whole search -/

section Whole

variable {n : Nat} {K : Subgroup (Signed n)} {c : Chain} {w : Wanted}
variable (hdegree : c.degree = n) (hcomplete : Complete n c.levels)
include hdegree hcomplete

/-- Going up the levels from a depth. -/
theorem foldl_searchLevel (upTo : Nat) : ∀ f : Finding, (∀ depth, depth < upTo → w.Selects c K depth) →
    (∀ g ∈ f.known, g.On n) →
      Grows (c.part K 0) f ((List.range upTo).reverse.foldl (c.searchLevel w) f)
        ∧ (f.meter.Free → Signed.span n f.known = c.part K upTo →
          Signed.span n ((List.range upTo).reverse.foldl (c.searchLevel w) f).known
            = c.part K 0) := by
  induction upTo with
  | zero => exact fun f _ _ => ⟨Grows.refl f, fun _ hspan => hspan⟩
  | succ upTo ih =>
      -- the deepest level comes first
      intro f hw hf
      have hdeepest := hw upTo (Nat.lt_succ_self upTo)
      have hgrows := searchLevel_grows hdegree hcomplete hdeepest hf
      obtain ⟨hrest, hspan⟩ := ih (c.searchLevel w f upTo)
        (fun depth hlt => hw depth (Nat.lt_succ_of_lt hlt)) (hgrows.on hf)
      rw [List.range_succ, List.reverse_append, List.reverse_singleton, List.singleton_append,
        List.foldl_cons]
      refine ⟨(hgrows.mono (part_antitone hcomplete K upTo)).trans hrest, fun hfree hknown => ?_⟩
      exact hspan (hgrows.free hfree)
        (searchLevel_span hdegree hcomplete hdeepest hf hfree hknown)

variable {upTo : Nat} {known : List SignedPerm} {meter : Meter}
  (hw : ∀ depth, depth < upTo → w.Selects c K depth) (hknown : ∀ g ∈ known, g.On n)
include hw hknown

/-- Whatever the budget, only elements of `K` are added. -/
theorem levelSearch_grows :
    Grows (c.part K 0) ⟨known, meter⟩ (c.levelSearch w upTo known meter) :=
  (foldl_searchLevel hdegree hcomplete upTo ⟨known, meter⟩ hw hknown).1

/-- Without limits, what is found generates `K`. -/
theorem levelSearch_span (hle : K ≤ topGroup n c.levels) (hfree : meter.Free)
    (hspan : Signed.span n known = c.part K upTo) :
    Signed.span n (c.levelSearch w upTo known meter).known = K := by
  have hall := (foldl_searchLevel hdegree hcomplete upTo ⟨known, meter⟩ hw hknown).2 hfree hspan
  exact hall.trans (inf_eq_left.mpr hle)

end Whole

/-! ## Tests told by the base -/

section Base

variable {n : Nat} {K : Subgroup (Signed n)} {c : Chain} {w : Wanted} {upTo : Nat}
  {known : List SignedPerm} {meter : Meter}

theorem selects_iff_base (hcomplete : Complete n c.levels) (depth : Nat) :
    w.Selects c K depth ↔ ∀ x ∈ topGroup n c.levels, (∀ b ∈ c.base.take depth, x • b = b) →
      (((∀ v, v <+: (c.base.drop depth).map x.val.act → w.keep depth v = true)
        ∧ w.accept x.val = true) ↔ x ∈ K) := by
  rw [Wanted.Selects]
  refine forall_congr' fun x => ?_
  rw [hcomplete.mem_top_drop_iff, base, ← List.map_take, List.forall_mem_map, and_imp,
    baseImages_drop]
  rfl

theorem span_eq_part_iff (hcomplete : Complete n c.levels) (hle : K ≤ topGroup n c.levels)
    (hknown : ∀ g ∈ known, g.On n) (depth : Nat) :
    Signed.span n known = c.part K depth ↔ ∀ x : Signed n,
      Generated n known x.val ↔ x ∈ K ∧ ∀ b ∈ c.base.take depth, x • b = b := by
  rw [SetLike.ext_iff]
  refine forall_congr' fun x => ?_
  rw [generated_iff hknown, exists_prop_of_true x.on, part, Subgroup.mem_inf,
    hcomplete.mem_top_drop_iff, base, ← List.map_take, List.forall_mem_map]
  exact iff_congr Iff.rfl (and_congr_right fun hx => and_iff_right (hle hx))

/-- A level search of a group with complete levels comes to the whole of a subgroup `K`, without
    limits.  Let the list that it starts from generate the elements of `K` that fix the first base
    points, and let the tests of each of these levels tell the elements of `K` from the others that
    fix the base points before.  Then what is known at the end starts with this list, and its
    finite products are exactly the elements of `K`. -/
theorem levelSearch_exact (hdegree : c.degree = n) (hcomplete : Complete n c.levels)
    (hle : K ≤ topGroup n c.levels) (hon : ∀ g ∈ known, g.On n)
    (hknown : ∀ x : Signed n,
      Generated n known x.val ↔ x ∈ K ∧ ∀ b ∈ c.base.take upTo, x • b = b)
    (hw : ∀ depth, depth < upTo → ∀ x ∈ topGroup n c.levels,
      (∀ b ∈ c.base.take depth, x • b = b) →
        (((∀ v, v <+: (c.base.drop depth).map x.val.act → w.keep depth v = true)
          ∧ w.accept x.val = true) ↔ x ∈ K))
    (hfree : meter.Free) :
    known <+: (c.levelSearch w upTo known meter).known
      ∧ (c.levelSearch w upTo known meter).meter.exhausted = false
      ∧ ∀ p : SignedPerm, Generated n (c.levelSearch w upTo known meter).known p
        ↔ ∃ hp : p.On n, (⟨p, hp⟩ : Signed n) ∈ K := by
  have hselects : ∀ depth, depth < upTo → w.Selects c K depth :=
    fun depth hlt => (selects_iff_base hcomplete depth).mpr (hw depth hlt)
  have hspan := (span_eq_part_iff hcomplete hle hon upTo).mpr hknown
  have hgrows : Grows (c.part K 0) ⟨known, meter⟩ (c.levelSearch w upTo known meter) :=
    levelSearch_grows hdegree hcomplete hselects hon
  have hall := levelSearch_span hdegree hcomplete hselects hon hle hfree hspan
  obtain ⟨added, hadded, -⟩ := hgrows.known
  refine ⟨⟨added, hadded.symm⟩, (hgrows.free hfree).going, fun p => ?_⟩
  rw [generated_iff (hgrows.on hon), hall]

/-- The permutations of three points that fix the last one, found in the group of all of them.
    No other base point goes there. -/
theorem levelSearch_exact_last :
    ∃ c, buildWithBase 3 [SignedGroup.rotation 3 false, SignedGroup.firstSwap 3 false] [] = .ok c
      ∧ ∀ p : SignedPerm, Generated 3
          (c.levelSearch ⟨fun _ images => images.all (· != 2), fun p => p.act 2 == 2⟩ 2 []
            (.start .unlimited)).known p
        ↔ Generated 3 [SignedGroup.rotation 3 false, SignedGroup.firstSwap 3 false] p
          ∧ p.act 2 = 2 := by
  have hgens : ∀ g ∈ [SignedGroup.rotation 3 false, SignedGroup.firstSwap 3 false], g.On 3 := by
    decide +kernel
  have hmade : (buildWithBase 3 [SignedGroup.rotation 3 false, SignedGroup.firstSwap 3 false]
      []).toOption.map (·.base) = some [0, 1] := by decide +kernel
  obtain ⟨c, hc, hbase⟩ := exists_of_map_toOption hmade
  have hfinished := finished_of_ok hgens (by decide) hc
  have hcomplete := hfinished.complete
  refine ⟨c, hc, fun p => ?_⟩
  refine ((levelSearch_exact (K := topGroup 3 c.levels ⊓ MulAction.stabilizer (Signed 3) 2)
    hfinished.degree_eq hcomplete inf_le_left (by decide) (fun x => ?_) (fun depth _ x hx _ => ?_)
    Meter.start_free).2.2 p).trans ?_
  · -- nothing is known at first: only the identity fixes the whole base
    rw [generated_iff (by decide), exists_prop_of_true x.on, span_nil, Subgroup.mem_bot]
    constructor
    · intro hone
      obtain rfl : x = 1 := hone
      exact ⟨Subgroup.one_mem _, fun b _ => one_smul _ b⟩
    · rintro ⟨⟨hx, -⟩, hfix⟩
      refine hcomplete.eq_one_of_fixes hx fun level hlevel => hfix _ ?_
      have hall : c.base.take 2 = c.base := by rw [hbase, List.take_of_length_le (by decide)]
      rw [hall, base]
      exact List.mem_map_of_mem hlevel
  · rw [Subgroup.mem_inf, MulAction.mem_stabilizer_iff]
    refine ⟨fun htests => ⟨hx, beq_iff_eq.mp htests.2⟩, fun hmem => ?_⟩
    have hfix := hmem.2
    refine ⟨fun v hv => ?_, ?_⟩
    · -- the last point is the image of itself only, and no base point
      rw [List.all_eq_true]
      intro image himage
      obtain ⟨b, hb, rfl⟩ := List.mem_map.mp (hv.subset himage)
      refine bne_iff_ne.mpr fun hlast => ?_
      obtain rfl : b = 2 := smul_left_cancel x (Eq.trans hlast hfix.symm)
      have hbelow := List.mem_of_mem_drop hb
      rw [hbase] at hbelow
      exact absurd hbelow (by decide)
    · exact beq_iff_eq.mpr hfix
  · rw [generated_iff hgens, ← hfinished.stacked.top]
    constructor
    · rintro ⟨hp, hmem, hfix⟩
      exact ⟨⟨hp, hmem⟩, hfix⟩
    · rintro ⟨⟨hp, hmem⟩, hfix⟩
      exact ⟨hp, hmem, hfix⟩

end Base

end Chain

end SlotSymmetry

import Mathlib.Data.List.Shortlex
import Mathlib.Data.Prod.Lex
import SlotSymmetry.Proofs.Orbit.Words

/-! # The order of discovery

    The search tries the generators on the points found so far, place after
    place and at each place in the order of the list.  An attempt is the pair
    of its place and the index of its generator, and attempts are made in their
    lexicographic order.  `Logged` adds to a stage the log of the attempts that
    found something: it ascends, and no attempt so far leads to a point that a
    later one found.  One reach keeps this, hence so do an expansion, a sweep
    and the growth.

    The words of the points follow from the log.  A later attempt makes a later
    word, in the order that puts shorter words first and compares words of one
    length from their first step on, so the words ascend with the places.  By
    induction on any word that leads from the seed to a point, the word of the
    point is not after it. -/

namespace SlotSymmetry

/-! ## Words with one more step -/

theorem lex_append_of_length_eq {u v : List Nat} (h : List.Lex (· < ·) u v)
    (hlength : u.length = v.length) (x y : List Nat) :
    List.Lex (· < ·) (u ++ x) (v ++ y) := by
  induction h with
  | nil => simp at hlength
  | cons _ ih => exact .cons (ih (Nat.succ.inj hlength))
  | rel hlt => exact .rel hlt

theorem shortlex_concat {u v : List Nat} (h : List.Shortlex (· < ·) u v) (i j : Nat) :
    List.Shortlex (· < ·) (u ++ [i]) (v ++ [j]) := by
  rcases List.shortlex_def.mp h with hlt | ⟨heq, hlex⟩
  · exact .of_length_lt (by simpa using hlt)
  · exact .of_lex (by simpa using heq) (lex_append_of_length_eq hlex heq [i] [j])

theorem shortlex_trans {u v w : List Nat} (h : List.Shortlex (· < ·) u v)
    (h' : List.Shortlex (· < ·) v w) : List.Shortlex (· < ·) u w := by
  rcases List.shortlex_def.mp h with hlt | ⟨heq, hlex⟩
  · refine .of_length_lt (Nat.lt_of_lt_of_le hlt ?_)
    exact (List.shortlex_def.mp h').elim Nat.le_of_lt fun hv => Nat.le_of_eq hv.1
  · rcases List.shortlex_def.mp h' with hlt' | ⟨heq', hlex'⟩
    · exact .of_length_lt (heq ▸ hlt')
    · exact .of_lex (heq.trans heq') (List.lt_trans hlex hlex')

/-- The word of the earlier attempt comes first, if the words of the places do. -/
theorem shortlex_concat_of_lt {u v : List Nat} {a b i j : Nat} (h : toLex (a, i) < toLex (b, j))
    (hlt : a < b → List.Shortlex (· < ·) u v) (heq : a = b → u = v) :
    List.Shortlex (· < ·) (u ++ [i]) (v ++ [j]) := by
  rcases Prod.Lex.toLex_lt_toLex.mp h with hab | ⟨hab, hij⟩
  · exact shortlex_concat (hlt hab) i j
  · rw [heq hab]
    exact .append_left ((List.shortlex_singleton_iff i j).mpr hij) v

namespace Orbit

/-! ## Attempts -/

/-- The generator with index `i`, tried at place `a`, leads to the point. -/
def Hits (gens : List SignedPerm) (o : Orbit) (a i q : Nat) : Prop :=
  ∃ p g, o.points[a]? = some p ∧ gens[i]? = some g ∧ g.act p = q

section

variable {n : Nat} {gens : List SignedPerm} {seed : Nat} {o o' : Orbit}

theorem Hits.extend {a i q : Nat} (h : Hits gens o a i q) (hext : Extends o o') :
    Hits gens o' a i q := by
  obtain ⟨p, g, hp, hg, hact⟩ := h
  exact ⟨p, g, hext.points a p hp, hg, hact⟩

/-- At a place that the earlier orbit has, nothing new is hit. -/
theorem Hits.restrict {a i q : Nat} (h : Hits gens o' a i q) (hext : Extends o o')
    (ha : a < o.points.size) : Hits gens o a i q := by
  obtain ⟨p, g, hp, hg, hact⟩ := h
  obtain ⟨p', hp'⟩ : ∃ p', o.points[a]? = some p' := ⟨_, Array.getElem?_eq_getElem ha⟩
  obtain rfl : p' = p := Option.some.inj ((hext.points a p' hp').symm.trans hp)
  exact ⟨p', g, hp', hg, hact⟩

/-- The attempts before `now` have been made, and the log lists those that found a point, one
    for every place but the seed's. -/
structure Logged (gens : List SignedPerm) (seed : Nat) (o : Orbit) (log : List (Nat ×ₗ Nat))
    (now : Nat ×ₗ Nat) : Prop where
  size_eq : o.points.size = log.length + 1
  ascending : log.Pairwise (· < ·)
  past : ∀ t ∈ log, t < now
  found : ∀ k a i : Nat, log[k]? = some (toLex (a, i)) → a ≤ k ∧ ∃ q,
    o.points[k + 1]? = some q ∧ o.link q = some (.step i) ∧ Hits gens o a i q
  earliest : ∀ a i q : Nat, Hits gens o a i q → toLex (a, i) < now → q = seed ∨ ∃ k t,
    o.points[k + 1]? = some q ∧ log[k]? = some t ∧ t ≤ toLex (a, i)

variable {log : List (Nat ×ₗ Nat)} {now : Nat ×ₗ Nat}

/-- Time goes by without an attempt. -/
theorem Logged.wait (h : Logged gens seed o log now) {now' : Nat ×ₗ Nat} (hle : now ≤ now')
    (hidle : ∀ a i q, Hits gens o a i q → toLex (a, i) < now' → toLex (a, i) < now) :
    Logged gens seed o log now' :=
  ⟨h.size_eq, h.ascending, fun t ht => lt_of_lt_of_le (h.past t ht) hle, h.found,
    fun a i q hits hlt => h.earliest a i q hits (hidle a i q hits hlt)⟩

/-- Every attempt that was made led to a point of the orbit. -/
theorem Logged.contains (h : Logged gens seed o log now) (hstage : Stage n gens seed o)
    {a i q : Nat} (hits : Hits gens o a i q) (hlt : toLex (a, i) < now) :
    o.contains q = true := by
  rcases h.earliest a i q hits hlt with rfl | ⟨k, t, hq, -, -⟩
  · exact hstage.contains_seed
  · exact hstage.contains_of_getElem? hq

/-- Every place but the seed's has its entry in the log. -/
theorem Logged.exists_entry (h : Logged gens seed o log now) {k q : Nat}
    (hq : o.points[k + 1]? = some q) : ∃ a i, log[k]? = some (toLex (a, i)) := by
  have hk : k < log.length := by
    have hsize := (Array.getElem?_eq_some_iff.mp hq).1
    rw [h.size_eq] at hsize
    omega
  exact ⟨(ofLex log[k]).1, (ofLex log[k]).2, List.getElem?_eq_getElem hk⟩

/-! ## One attempt -/

theorem lt_succ_attempt {t : Nat ×ₗ Nat} {a i : Nat} :
    t < toLex (a, i + 1) ↔ t < toLex (a, i) ∨ t = toLex (a, i) := by
  rw [← le_iff_lt_or_eq, Prod.Lex.lt_iff, Prod.Lex.le_iff]
  simp

theorem Hits.unique {a i q q' : Nat} (h : Hits gens o a i q) (h' : Hits gens o a i q') :
    q = q' := by
  obtain ⟨p, g, hp, hg, rfl⟩ := h
  obtain ⟨p', g', hp', hg', rfl⟩ := h'
  rw [Option.some.inj (hp.symm.trans hp'), Option.some.inj (hg.symm.trans hg')]

theorem Hits.lt_size {a i q : Nat} (h : Hits gens o a i q) : a < o.points.size := by
  obtain ⟨p, g, hp, -, -⟩ := h
  exact (Array.getElem?_eq_some_iff.mp hp).1

/-- An attempt that leads to a point found before. -/
theorem Logged.reach_known {a i q : Nat} (h : Logged gens seed o log (toLex (a, i)))
    (hstage : Stage n gens seed o) (hits : Hits gens o a i q) (hq : o.contains q = true) :
    Logged gens seed o log (toLex (a, i + 1)) := by
  refine ⟨h.size_eq, h.ascending, ?_, h.found, ?_⟩
  · intro t ht
    exact lt_succ_attempt.mpr (.inl (h.past t ht))
  · intro a' i' q' hits' hlt
    rcases lt_succ_attempt.mp hlt with hlt | heq
    · exact h.earliest a' i' q' hits' hlt
    · obtain ⟨rfl, rfl⟩ : a' = a ∧ i' = i := by simpa using heq
      obtain rfl := hits.unique hits'
      obtain ⟨place, hplace⟩ := hstage.exists_place hq
      cases place with
      | zero => exact .inl (Option.some.inj (hplace.symm.trans hstage.first))
      | succ k =>
          -- what the point has in the log is older than this attempt
          obtain ⟨b, j, hk⟩ := h.exists_entry hplace
          exact .inr ⟨k, _, hplace, hk, le_of_lt (h.past _ (List.mem_of_getElem? hk))⟩

theorem Logged.last_point {q : Nat} (h : Logged gens seed o log now)
    (hnew : q < o.degree ∧ o.contains q = false) (i : Nat) :
    (o.reach q i).points[log.length + 1]? = some q := by
  rw [getElem?_points_reach_of_new hnew, if_pos h.size_eq.symm]

section Found

variable {a i q : Nat} (h : Logged gens seed o log (toLex (a, i)))
  (hstage : Stage n gens seed o) (hits : Hits gens o a i q)
  (hnew : q < o.degree ∧ o.contains q = false)
include h hstage hits hnew

/-- The entries of the longer log. -/
theorem Logged.found_concat {k b j : Nat}
    (hk : (log ++ [toLex (a, i)])[k]? = some (toLex (b, j))) : b ≤ k ∧ ∃ q',
      (o.reach q i).points[k + 1]? = some q' ∧ (o.reach q i).link q' = some (.step j)
        ∧ Hits gens (o.reach q i) b j q' := by
  have hext := hstage.reach_extends q i
  rcases Nat.lt_or_ge k log.length with hlt | hge
  · rw [List.getElem?_append_left hlt] at hk
    obtain ⟨hle, q', hq', hl, hits'⟩ := h.found k b j hk
    exact ⟨hle, q', hext.points _ _ hq', hext.link _ _ hl, hits'.extend hext⟩
  · -- the entry of the new point
    rw [List.getElem?_append_right hge, List.getElem?_singleton] at hk
    obtain rfl : k = log.length := by
      by_contra hne
      rw [if_neg (by omega)] at hk
      exact nomatch hk
    rw [if_pos (Nat.sub_self _)] at hk
    obtain ⟨rfl, rfl⟩ : a = b ∧ i = j := by simpa using hk
    have hlt := hits.lt_size
    rw [h.size_eq] at hlt
    refine ⟨Nat.le_of_lt_succ hlt, q, h.last_point hnew _, ?_, hits.extend hext⟩
    rw [hstage.link_reach_of_new hnew, if_pos rfl]

/-- The attempts made before did not lead to the new point. -/
theorem Logged.earliest_concat {b j q' : Nat} (hits' : Hits gens (o.reach q i) b j q')
    (hlt : toLex (b, j) < toLex (a, i + 1)) : q' = seed ∨ ∃ k t,
      (o.reach q i).points[k + 1]? = some q' ∧ (log ++ [toLex (a, i)])[k]? = some t
        ∧ t ≤ toLex (b, j) := by
  have hext := hstage.reach_extends q i
  rcases lt_succ_attempt.mp hlt with hlt | heq
  · have hba : b ≤ a := by
      rcases Prod.Lex.toLex_lt_toLex.mp hlt with hlt | ⟨heq, -⟩
      · exact Nat.le_of_lt hlt
      · exact Nat.le_of_eq heq
    have hold := hits'.restrict hext (Nat.lt_of_le_of_lt hba hits.lt_size)
    refine (h.earliest b j q' hold hlt).imp_right ?_
    rintro ⟨k, t, hk, ht, hle⟩
    refine ⟨k, t, hext.points _ _ hk, ?_, hle⟩
    rw [List.getElem?_append_left (List.getElem?_eq_some_iff.mp ht).1]
    exact ht
  · obtain ⟨rfl, rfl⟩ : b = a ∧ j = i := by simpa using heq
    obtain rfl := (hits.extend hext).unique hits'
    exact .inr ⟨log.length, _, h.last_point hnew _, by simp, le_refl _⟩

/-- An attempt that finds a point. -/
theorem Logged.reach_new :
    Logged gens seed (o.reach q i) (log ++ [toLex (a, i)]) (toLex (a, i + 1)) := by
  refine ⟨?_, ?_, ?_, fun k b j hk => h.found_concat hstage hits hnew hk,
    fun b j q' hits' hlt => h.earliest_concat hstage hits hnew hits' hlt⟩
  · rw [reach_of_new hnew, Array.size_push, h.size_eq, List.length_append, List.length_singleton]
  · refine List.pairwise_append.mpr ⟨h.ascending, List.pairwise_singleton _ _, ?_⟩
    intro t ht t' ht'
    rw [List.mem_singleton.mp ht']
    exact h.past t ht
  · intro t ht
    rcases List.mem_append.mp ht with ht | ht
    · exact lt_succ_attempt.mpr (.inl (h.past t ht))
    · exact lt_succ_attempt.mpr (.inr (List.mem_singleton.mp ht))

end Found

/-- What one attempt does. -/
theorem Logged.reach {a i q : Nat} (h : Logged gens seed o log (toLex (a, i)))
    (hstage : Stage n gens seed o) (hits : Hits gens o a i q) (hlt : q < n) :
    ∃ log', Logged gens seed (o.reach q i) log' (toLex (a, i + 1)) := by
  cases hq : o.contains q with
  | false =>
      exact ⟨_, h.reach_new hstage hits ⟨hstage.degree_eq.symm ▸ hlt, hq⟩⟩
  | true =>
      have hknown : ¬ (q < o.degree ∧ o.contains q = false) := by
        rintro ⟨-, hnew⟩
        exact Bool.noConfusion (hq.symm.trans hnew)
      rw [reach_of_known hknown]
      exact ⟨log, h.reach_known hstage hits hq⟩

/-! ## Expansion, sweeps, growth -/

/-- Trying the remaining generators at a place. -/
theorem Logged.expand (hgens : ∀ g ∈ gens, g.On n) {rest : List SignedPerm} {a p : Nat} :
    ∀ {o : Orbit} {log : List (Nat ×ₗ Nat)} {j : Nat}, gens.drop j = rest →
      Stage n gens seed o → o.points[a]? = some p → Logged gens seed o log (toLex (a, j)) →
      ∃ log', Logged gens seed (expand (rest.zipIdx j) o p) log' (toLex (a, j + rest.length)) := by
  induction rest with
  | nil => exact fun _ _ _ h => ⟨_, h⟩
  | cons g rest ih =>
      intro o log j hrest hstage hp h
      have hg : gens[j]? = some g := by
        rw [← Nat.add_zero j, ← List.getElem?_drop, hrest]
        rfl
      have hrest' : gens.drop (j + 1) = rest := by
        rw [← List.tail_drop, hrest]
        rfl
      have hlt : g.act p < n :=
        (hgens g (List.mem_of_getElem? hg)).act_lt
          (hstage.lt_of_contains (hstage.contains_of_getElem? hp))
      obtain ⟨log', hlog'⟩ := h.reach hstage ⟨p, g, hp, hg, rfl⟩ hlt
      have hpoints := (hstage.reach_extends (g.act p) j).points a p hp
      obtain ⟨log'', hlog''⟩ := ih hrest' (hstage.reach hg hp) hpoints hlog'
      have hlength : j + (g :: rest).length = j + 1 + rest.length := by
        rw [List.length_cons]
        omega
      rw [hlength]
      exact ⟨log'', hlog''⟩

theorem lt_next_place {a b i : Nat} : toLex (b, i) < toLex (a + 1, 0) ↔ b ≤ a := by
  rw [Prod.Lex.toLex_lt_toLex]
  simp

/-- What the sweep of a place does. -/
theorem Logged.sweep (hgens : ∀ g ∈ gens, g.On n) {a : Nat} (hstage : Stage n gens seed o)
    (h : Logged gens seed o log (toLex (a, 0))) :
    ∃ log', Logged gens seed (Orbit.sweep gens.zipIdx o a) log' (toLex (a + 1, 0)) := by
  cases hp : o.points[a]? with
  | none =>
      -- the queue has run dry: there is nothing to try at this place
      rw [sweep_of_none hp]
      refine ⟨log, h.wait (le_of_lt (lt_next_place.mpr (le_refl a))) ?_⟩
      intro b i q hits hlt
      have hle := lt_next_place.mp hlt
      have hsize := Array.getElem?_eq_none_iff.mp hp
      exact Prod.Lex.toLex_lt_toLex.mpr (.inl (Nat.lt_of_lt_of_le hits.lt_size hsize))
  | some p =>
      obtain ⟨log', hlog'⟩ := Logged.expand hgens (List.drop_zero) hstage hp h
      have hexpand : Orbit.sweep gens.zipIdx o a = Orbit.expand gens.zipIdx o p := by
        rw [Orbit.sweep, hp]
      rw [hexpand]
      rw [Nat.zero_add] at hlog'
      refine ⟨log', hlog'.wait (le_of_lt (lt_next_place.mpr (le_refl a))) ?_⟩
      intro b i q hits hlt
      obtain ⟨p', g, -, hg, -⟩ := hits
      have hi : i < gens.length := (List.getElem?_eq_some_iff.mp hg).1
      rw [Prod.Lex.toLex_lt_toLex]
      exact (Nat.lt_or_eq_of_le (lt_next_place.mp hlt)).imp_right fun heq => ⟨heq, hi⟩

theorem start_logged (gens : List SignedPerm) (n seed : Nat) :
    Logged gens seed (start n seed) [] (toLex (0, 0)) := by
  refine ⟨rfl, List.Pairwise.nil, nofun, nofun, ?_⟩
  intro a i q _ hlt
  rcases Prod.Lex.toLex_lt_toLex.mp hlt with hlt | ⟨-, hlt⟩
  · exact absurd hlt (Nat.not_lt_zero a)
  · exact absurd hlt (Nat.not_lt_zero i)

/-- The grown orbit has a log of all attempts. -/
theorem grow_logged (hgens : ∀ g ∈ gens, g.On n) (hseed : seed < n) :
    ∃ log, Logged gens seed (grow n gens seed) log (toLex (n, 0)) := by
  have hsweeps : ∀ k, ∃ log, Logged gens seed
      ((List.range k).foldl (Orbit.sweep gens.zipIdx) (start n seed)) log (toLex (k, 0)) := by
    intro k
    induction k with
    | zero => exact ⟨[], start_logged gens n seed⟩
    | succ k ih =>
        obtain ⟨log, hlog⟩ := ih
        rw [List.range_succ, List.foldl_append]
        exact hlog.sweep hgens (stage_sweeps gens hseed k).1
  exact hsweeps n

/-! ## The order of the words -/

/-- The word of a point is that of the point at the place of its attempt, with one step more. -/
theorem Logged.word_of_entry (h : Logged gens seed o log now) (hstage : Stage n gens seed o)
    (hgens : ∀ g ∈ gens, g.On n) {k a i q : Nat} (hk : log[k]? = some (toLex (a, i)))
    (hq : o.points[k + 1]? = some q) :
    a ≤ k ∧ ∃ p, o.points[a]? = some p ∧ o.word gens q = o.word gens p ++ [i] := by
  obtain ⟨hle, q', hq', hl, p, g, hp, hg, hact⟩ := h.found k a i hk
  obtain rfl : q' = q := Option.some.inj (hq'.symm.trans hq)
  refine ⟨hle, p, hp, ?_⟩
  have hback : g.actInv q' = p := by
    rw [← hact]
    exact (hgens g (List.mem_of_getElem? hg)).actInv_act p
  rw [hstage.word_of_step hgens hl hg, hback]

/-- The words ascend with the places. -/
theorem Logged.word_lt (h : Logged gens seed o log now) (hstage : Stage n gens seed o)
    (hgens : ∀ g ∈ gens, g.On n) (place' : Nat) : ∀ place q q' : Nat, place < place' →
      o.points[place]? = some q → o.points[place']? = some q' →
      List.Shortlex (· < ·) (o.word gens q) (o.word gens q') := by
  induction place' using Nat.strongRecOn with
  | ind place' ih =>
      intro place q q' hlt hq hq'
      obtain ⟨m, rfl⟩ : ∃ m, place' = m + 1 := ⟨place' - 1, by omega⟩
      obtain ⟨b, j, hm⟩ := h.exists_entry hq'
      obtain ⟨hb, p', hp', hword'⟩ := h.word_of_entry hstage hgens hm hq'
      cases place with
      | zero =>
          obtain rfl : q = seed := Option.some.inj (hq.symm.trans hstage.first)
          rw [hstage.word_seed, hword']
          exact .of_length_lt (by simp)
      | succ k =>
          obtain ⟨a, i, hk⟩ := h.exists_entry hq
          obtain ⟨ha, p, hp, hword⟩ := h.word_of_entry hstage hgens hk hq
          have hearlier : toLex (a, i) < toLex (b, j) := by
            obtain ⟨hk, hat⟩ := List.getElem?_eq_some_iff.mp hk
            obtain ⟨hm, hat'⟩ := List.getElem?_eq_some_iff.mp hm
            rw [← hat, ← hat']
            exact List.pairwise_iff_getElem.mp h.ascending k m hk hm (by omega)
          rw [hword, hword']
          refine shortlex_concat_of_lt hearlier ?_ ?_
          · exact fun hab => ih b (by omega) a p p' hab hp hp'
          · rintro rfl
            rw [Option.some.inj (hp.symm.trans hp')]

section Done

variable (h : Logged gens seed o log now) (hstage : Stage n gens seed o)
  (hgens : ∀ g ∈ gens, g.On n)
include h hstage hgens

/-- The word of a point does not come after that of an attempt that leads to it. -/
theorem Logged.word_le_of_hits {a i p q : Nat} (ha : o.points[a]? = some p)
    (hits : Hits gens o a i q) (hlt : toLex (a, i) < now) :
    o.word gens q = o.word gens p ++ [i]
      ∨ List.Shortlex (· < ·) (o.word gens q) (o.word gens p ++ [i]) := by
  rcases h.earliest a i q hits hlt with rfl | ⟨k, t, hk, ht, hle⟩
  · rw [hstage.word_seed]
    exact .inr (.of_length_lt (by simp))
  · obtain ⟨b, j, ht'⟩ := h.exists_entry hk
    obtain rfl : toLex (b, j) = t := Option.some.inj (ht'.symm.trans ht)
    obtain ⟨-, p', hp', hword⟩ := h.word_of_entry hstage hgens ht hk
    have hsame : b = a → p' = p := by
      rintro rfl
      exact Option.some.inj (hp'.symm.trans ha)
    rw [hword]
    rcases hle.lt_or_eq with hlt | heq
    · refine .inr (shortlex_concat_of_lt hlt ?_ ?_)
      · exact fun hba => h.word_lt hstage hgens a b p' p hba hp' ha
      · exact fun hba => congrArg (o.word gens) (hsame hba)
    · obtain ⟨hba, rfl⟩ : b = a ∧ j = i := by simpa using heq
      rw [hsame hba]
      exact .inl rfl

/-- Once all attempts are made, no word that leads from the seed to a point comes before the
    word of the point. -/
theorem Logged.word_le (hall : ∀ a i q, Hits gens o a i q → toLex (a, i) < now)
    (w : List Nat) : ∀ q : Nat, wordEnd gens seed w = some q →
      o.contains q = true ∧ (o.word gens q = w ∨ List.Shortlex (· < ·) (o.word gens q) w) := by
  -- the last step of the word is an attempt at the place of the point before
  induction w using List.reverseRecOn with
  | nil =>
      intro q hq
      obtain rfl : seed = q := Option.some.inj hq
      exact ⟨hstage.contains_seed, .inl hstage.word_seed⟩
  | append_singleton w i ih =>
      intro q hq
      rw [wordEnd_concat, Option.bind_eq_some_iff] at hq
      obtain ⟨p, hp, hlast⟩ := hq
      obtain ⟨g, hg, hact⟩ := Option.map_eq_some_iff.mp hlast
      obtain ⟨hcontains, hle⟩ := ih p hp
      obtain ⟨a, ha⟩ := hstage.exists_place hcontains
      have hits : Hits gens o a i q := ⟨p, g, ha, hg, hact⟩
      refine ⟨h.contains hstage hits (hall a i q hits), ?_⟩
      have hstep := h.word_le_of_hits hstage hgens ha hits (hall a i q hits)
      rcases hle with heq | hlt
      · rwa [heq] at hstep
      · have hlt' := shortlex_concat hlt i i
        rcases hstep with heq | hstep
        · rw [heq]
          exact .inr hlt'
        · exact .inr (shortlex_trans hstep hlt')

end Done

/-! ## The orbit -/

/-- An orbit lists the images of its seed under the group, each once, in the order of the
    least words that lead to them, and the word of each point is the least one. -/
theorem breadth_first (hgens : ∀ g ∈ gens, g.On n) (hseed : seed < n) :
    ∃ o, ofSeed n gens seed = .ok o
      ∧ o.points.toList.Nodup
      ∧ (∀ q, q ∈ o.points ↔ ∃ p, SignedPerm.Generated n gens p ∧ p.act seed = q)
      ∧ (∀ q, (o.contains q = true ↔ q ∈ o.points) ∧ (o.link q ≠ none ↔ q ∈ o.points)
        ∧ (o.link q = some .root ↔ q = seed))
      ∧ (∀ q ∈ o.points, ∃ w, o.path gens q = some w ∧ wordEnd gens seed w = some q
        ∧ ∀ w', wordEnd gens seed w' = some q → w' = w ∨ List.Shortlex (· < ·) w w')
      ∧ o.points.toList.Pairwise fun q q' => ∃ w w', o.path gens q = some w
        ∧ o.path gens q' = some w' ∧ List.Shortlex (· < ·) w w' := by
  have hstage := grow_stage gens hseed
  obtain ⟨log, hlog⟩ := grow_logged hgens hseed
  have hall : ∀ a i q, Hits gens (grow n gens seed) a i q → toLex (a, i) < toLex (n, 0) := by
    intro a i q hits
    have hlt : a < n := Nat.lt_of_lt_of_le hits.lt_size hstage.length_le
    exact Prod.Lex.toLex_lt_toLex.mpr (.inl hlt)
  refine ⟨grow n gens seed, ofSeed_eq_grow hgens hseed, hstage.nodup, ?_, ?_, ?_, ?_⟩
  · intro q
    rw [← hstage.contains_iff q, grow_contains_iff hgens hseed]
    constructor
    · rintro ⟨x, hx, hq⟩
      exact ⟨x.val, (generated_iff hgens).mpr ⟨x.on, hx⟩, hq⟩
    · rintro ⟨p, hp, hq⟩
      obtain ⟨hon, hmem⟩ := (generated_iff hgens).mp hp
      exact ⟨⟨p, hon⟩, hmem, hq⟩
  · intro q
    refine ⟨hstage.contains_iff q, ?_, hstage.root_iff q⟩
    rw [← Option.isSome_iff_ne_none, hstage.linked_iff q]
  · intro q hlisted
    have hq := (hstage.contains_iff q).mpr hlisted
    refine ⟨_, path_eq hq, hstage.wordEnd_word hgens hq, ?_⟩
    intro w' hw'
    exact (hlog.word_le hstage hgens hall w' q hw').2.imp_left Eq.symm
  · refine pairwise_of_getElem? ?_
    intro place place' q q' hlt hq hq'
    rw [Array.getElem?_toList] at hq hq'
    exact ⟨_, _, path_eq (hstage.contains_of_getElem? hq),
      path_eq (hstage.contains_of_getElem? hq'),
      hlog.word_lt hstage hgens place' place q q' hlt hq hq'⟩

/-- Two swaps of neighbours among three points, the first one listed twice. -/
theorem breadth_first_swaps :
    ∃ o, ofSeed 3 [.ofImage #[1, 0, 2] false, .ofImage #[1, 0, 2] false, .ofImage #[0, 2, 1] true]
        0 = .ok o
      ∧ o.points = #[0, 1, 2]
      ∧ ∀ w', wordEnd [.ofImage #[1, 0, 2] false, .ofImage #[1, 0, 2] false,
          .ofImage #[0, 2, 1] true] 0 w' = some 2 →
        w' = [0, 2] ∨ List.Shortlex (· < ·) [0, 2] w' := by
  have hgens : ∀ g ∈ [SignedPerm.ofImage #[1, 0, 2] false, .ofImage #[1, 0, 2] false,
      .ofImage #[0, 2, 1] true], g.On 3 := by decide +kernel
  obtain ⟨o, ho, -, -, -, hleast, -⟩ := breadth_first hgens (by decide : 0 < 3)
  have hgrow := eq_grow_of_ok hgens (by decide) ho
  have hpath : o.path [.ofImage #[1, 0, 2] false, .ofImage #[1, 0, 2] false,
      .ofImage #[0, 2, 1] true] 2 = some [0, 2] := by
    rw [hgrow]
    decide +kernel
  obtain ⟨w, hw, -, hall⟩ := hleast 2 (by rw [hgrow]; decide +kernel)
  obtain rfl : [0, 2] = w := Option.some.inj (hpath.symm.trans hw)
  exact ⟨o, ho, by rw [hgrow]; decide +kernel, hall⟩

end

end Orbit

end SlotSymmetry

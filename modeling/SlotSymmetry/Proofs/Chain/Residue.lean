import SlotSymmetry.Proofs.Chain.Stack

/-! # Failing residues

    Looking at a level has three outcomes (`Looked`).  A residue that flips the
    sign and fixes every point is the antisymmetric identity, found among the
    elements of the level.  If all Schreier generators sift to the identity, the
    levels below hold the whole stabilizer of the base point.  Otherwise some
    element of the level fixes its base point and those of the levels passed,
    and is new below. -/

namespace SlotSymmetry

open Chain

/-! ## Sifting a list -/

/-- What sifting a list of elements through levels comes to. -/
inductive Tried (n : Nat) (below : List Level) (ls : List SignedPerm) :
    Except GroupError (Option (SignedPerm × Nat)) → Prop where
  | clash {s : Signed n} {k : Nat} (mem : s.val ∈ ls) (run : Sifts n below s (.flip n) k) :
      Tried n below ls (.error .inconsistentGenerators)
  | through (all : ∀ s ∈ ls, siftsToIdentity below s = true) : Tried n below ls (.ok none)
  | residue {s r : Signed n} {k : Nat} (mem : s.val ∈ ls) (run : Sifts n below s r k)
      (left : k < below.length ∨ r.val.isIdentity = false) :
      Tried n below ls (.ok (some (r.val, k)))

section

variable {n : Nat} {level : Level} {below : List Level}

theorem Tried.cons {ls : List SignedPerm} {x : SignedPerm}
    {result : Except GroupError (Option (SignedPerm × Nat))}
    (hx : siftsToIdentity below x = true) (h : Tried n below ls result) :
    Tried n below (x :: ls) result := by
  cases h with
  | clash hmem hrun => exact .clash (List.mem_cons_of_mem _ hmem) hrun
  | through hall => exact .through (List.forall_mem_cons.mpr ⟨hx, hall⟩)
  | residue hmem hrun hleft => exact .residue (List.mem_cons_of_mem _ hmem) hrun hleft

theorem firstResidue_tried (hsound : ∀ l ∈ below, l.Sound n) (ls : List SignedPerm)
    (hls : ∀ s ∈ ls, s.On n) : Tried n below ls (firstResidue below ls) := by
  induction ls with
  | nil => exact .through nofun
  | cons s rest ih =>
      obtain ⟨hs, hrest⟩ := List.forall_mem_cons.mp hls
      obtain ⟨r, k, hsift, hrun⟩ := exists_sifts hsound ⟨s, hs⟩
      have hsift' : SlotSymmetry.sift below s = (r.val, k) := hsift
      have hle := hrun.passed_le
      simp only [firstResidue, hsift']
      by_cases hleft : k < below.length ∨ r.val.isIdentity = false
      · rw [if_pos (by simpa using hleft)]
        exact .residue (s := ⟨s, hs⟩) List.mem_cons_self hrun hleft
      · -- passed all levels and fixes every point: only the sign can tell
        rw [if_neg (by simpa using hleft)]
        obtain ⟨hpassed, hfix⟩ := not_or.mp hleft
        have hfix' : r.val.isIdentity = true := by simpa using hfix
        cases hsign : r.val.flips with
        | true =>
            obtain rfl := Signed.eq_flip_of_isIdentity hfix' hsign
            exact .clash (s := ⟨s, hs⟩) List.mem_cons_self hrun
        | false =>
            refine (ih hrest).cons ?_
            have hk : k = below.length := by omega
            simp [siftsToIdentity, hsift', hk, hfix', hsign]

/-! ## Looking at a level -/

/-- What looking at a level above complete ones comes to. -/
inductive Looked (n : Nat) (level : Level) (below : List Level) :
    Except GroupError (Option (SignedPerm × Nat)) → Prop where
  | clash (mem : Signed.flip n ∈ level.group n) :
      Looked n level below (.error .inconsistentGenerators)
  | complete (done : Complete n (level :: below)) : Looked n level below (.ok none)
  | residue {r : Signed n} {k : Nat} (mem : r ∈ level.group n)
      (fixes : ∀ l ∈ level :: below.take k, r • l.basePoint = l.basePoint)
      (stops : ∀ l, below[k]? = some l → l.orbit.contains (r • l.basePoint) = false)
      (passed : k ≤ below.length) (left : k < below.length ∨ r.val.isIdentity = false) :
      Looked n level below (.ok (some (r.val, k)))

theorem failingResidue_looked (hsound : ∀ l ∈ level :: below, l.Sound n)
    (habove : (level :: below).Pairwise (Level.Above n)) (hbelow : Complete n below) :
    Looked n level below (failingResidue (level :: below)) := by
  obtain ⟨hs, hsbelow⟩ := List.forall_mem_cons.mp hsound
  obtain ⟨hlevel, hpair⟩ := List.pairwise_cons.mp habove
  rw [failingResidue, Orbit.storedSchreierGenerators_eq hs.on, hs.orbit_eq]
  cases hls : (Orbit.grow n level.generators level.basePoint).schreierGenerators
      level.generators with
  | error e =>
      obtain ⟨rfl, hflip⟩ :=
        Orbit.flip_mem_of_schreierGenerators_error hs.on hs.basePoint_lt hls
      exact .clash hflip
  | ok ls =>
      have hspan : Signed.span n ls
          = level.group n ⊓ MulAction.stabilizer (Signed n) level.basePoint :=
        Orbit.span_schreierGenerators hs.on hs.basePoint_lt hls
      -- the Schreier generators fix the base point and belong to the level
      have hmem : ∀ s : Signed n, s.val ∈ ls →
          s ∈ level.group n ⊓ MulAction.stabilizer (Signed n) level.basePoint := by
        intro s hs
        rw [← hspan]
        exact mem_span_of_mem s.on hs
      have hon : ∀ s ∈ ls, s.On n := by
        intro s hmem
        obtain ⟨x, hx, -⟩ := Orbit.mem_of_mem_loops hs.on hs.basePoint_lt
          ((Orbit.mem_schreierGenerators_iff hls).mp hmem).1
        exact hx ▸ x.on
      -- so does everything below, and sifting does not lead out of it
      have hle : ∀ l ∈ below,
          l.group n ≤ level.group n ⊓ MulAction.stabilizer (Signed n) level.basePoint :=
        fun l hl => le_inf (hlevel l hl).le (hlevel l hl).fixes
      have htried := firstResidue_tried hsbelow ls hon
      show Looked n level below (firstResidue below ls)
      generalize firstResidue below ls = result at htried ⊢
      cases htried with
      | clash hs hrun => exact .clash ((hrun.mem_iff hle).mpr (hmem _ hs)).1
      | through hall =>
          refine .complete (hbelow.cons hs hle ?_ hall)
          rw [hs.orbit_eq]
          exact hls
      | residue hs hrun hleft =>
          obtain ⟨hr, hfix⟩ := (hrun.mem_iff hle).mpr (hmem _ hs)
          refine .residue hr (List.forall_mem_cons.mpr ⟨?_, hrun.fixes hpair⟩) ?_
            hrun.passed_le hleft
          · exact MulAction.mem_stabilizer_iff.mp hfix
          · exact fun l hl => hrun.not_contains hl

end

end SlotSymmetry

import SlotSymmetry.Group.Cosets
import SlotSymmetry.Proofs.Group.Enumeration
import SlotSymmetry.Proofs.Group.Reachable
import SlotSymmetry.Proofs.Perm.Made
import SlotSymmetry.Proofs.Search.Yields

/-! # Sessions

    A session is any finite sequence of calls of the constructors and operations,
    each on values that earlier calls returned; only reading a record is left
    out, which takes the tables as they are.  A call on sound values returns a
    sound value (`Call.sound`): a valid permutation, a chain of sound levels or a
    reachable group.  By induction on the session every permutation that comes up
    in it is valid. -/

namespace SlotSymmetry

/-! ## Whatever a group returns -/

namespace SignedGroup

variable {G : SignedGroup} {p : SignedPerm}

/-- The permutations that come out of a group, one by one or as a list. -/
inductive Yields (G : SignedGroup) : SignedPerm → Prop where
  | generator {p : SignedPerm} (listed : p ∈ G.generators) : Yields G p
  | strongGenerator {p : SignedPerm} (listed : p ∈ G.strongGenerators) : Yields G p
  | item {k : Nat} {p : SignedPerm} (made : G.item k = some p) : Yields G p
  | sample (words : List Nat) : Yields G (G.sample words).1
  | rightCoset {G' : SignedGroup} {budget : Budget} {o : Outcome (List SignedPerm)}
      {p : SignedPerm} (made : G.rightCosets G' budget = .ok o) (listed : p ∈ o.value) : Yields G p
  | leftCoset {G' : SignedGroup} {budget : Budget} {o : Outcome (List SignedPerm)}
      {p : SignedPerm} (made : G.leftCosets G' budget = .ok o) (listed : p ∈ o.value) : Yields G p

theorem Reachable.sound (hG : G.Reachable) : G.chain.Sound := hG.presents.chain.sound

theorem elementAt_on (hc : G.chain.Sound) (indices : List Nat) :
    (G.chain.elementAt indices).On G.chain.degree :=
  productAt_on hc (SignedPerm.id_on _) indices

theorem rightCosets_on (hc : G.chain.Sound) {G' : SignedGroup} {budget : Budget}
    {o : Outcome (List SignedPerm)} (ho : G.rightCosets G' budget = .ok o) :
    ∀ p ∈ o.value, p.On G.chain.degree := by
  obtain ⟨-, ho⟩ := of_check_ok ho
  have hchosen : ∀ p ∈ (representRightCosets G G' budget).1.chosen, p.On G.chain.degree := by
    refine Search.foldWhile_sound
      (P := fun r : Representatives => ∀ p ∈ r.chosen, p.On G.chain.degree) ?_ nofun
      (hc.search budget ())
    intro r g hr hg p hp
    rw [Representatives.offer] at hp
    split at hp
    · exact hr p hp
    · exact Array.forall_mem_push.mpr ⟨hg, hr⟩ p hp
  intro p hp
  rw [← Except.ok.inj ho, Meter.value_outcome, Array.mem_toList_iff] at hp
  exact hchosen p hp

theorem leftCosets_on (hc : G.chain.Sound) {G' : SignedGroup} {budget : Budget}
    {o : Outcome (List SignedPerm)} (ho : G.leftCosets G' budget = .ok o) :
    ∀ p ∈ o.value, p.On G.chain.degree := by
  obtain ⟨right, hright, ho⟩ := exists_of_bind_ok ho
  intro p hp
  have hvalue : o.value = right.value.map (·.inverse) := by
    rw [← Except.ok.inj ho]
    cases right <;> rfl
  rw [hvalue] at hp
  obtain ⟨q, hq, rfl⟩ := List.mem_map.mp hp
  exact (rightCosets_on hc hright q hq).inverse

theorem Yields.valid (h : G.Yields p) (hG : G.Reachable) : p.Valid := by
  have hp := hG.presents
  have hc := hG.sound
  cases h with
  | generator listed => exact (hp.on p listed).valid
  | strongGenerator listed => exact (hp.strongGenerators_on p listed).valid
  | @item k _ made =>
      rcases Nat.lt_or_ge k G.order with hk | hk
      · rw [hp.item_eq hk] at made
        exact Option.some.inj made ▸ (elementAt_on hc _).valid
      · rw [hp.item_of_le hk] at made
        exact nomatch made
  | sample words => exact (elementAt_on hc _).valid
  | rightCoset made listed => exact (rightCosets_on hc made p listed).valid
  | leftCoset made listed => exact (leftCosets_on hc made p listed).valid

end SignedGroup

/-! ## Calls -/

/-- The values that calls return.  Orbits are not among them: they hold no permutations, and what
    comes out of an orbit is made from the generators that it is given. -/
inductive Value where
  | perm (p : SignedPerm)
  | chain (c : Chain)
  | group (G : SignedGroup)

/-- A call on the values of the list returns the value. -/
inductive Call : List Value → Value → Prop where
  | perm {given : List SignedPerm} {p : SignedPerm} (made : SignedPerm.Made given p) :
      Call (given.map .perm) (.perm p)
  | ofOrbit {gens : List SignedPerm} {p : SignedPerm} (made : Orbit.Yields gens p) :
      Call (gens.map .perm) (.perm p)
  | ofChain {c : Chain} {given : List SignedPerm} {p : SignedPerm} (made : c.Yields given p) :
      Call (.chain c :: given.map .perm) (.perm p)
  | ofGroup {G : SignedGroup} {p : SignedPerm} (made : G.Yields p) : Call [.group G] (.perm p)
  | trivialChain (degree : Nat) : Call [] (.chain (.trivial degree))
  | builtChain {degree : Nat} {gens : List SignedPerm} {wanted : List Nat} {c : Chain}
      (made : Chain.buildWithBase degree gens wanted = .ok c) : Call (gens.map .perm) (.chain c)
  | tail (c : Chain) (depth : Nat) : Call [.chain c] (.chain (c.tail depth))
  | chainOf (G : SignedGroup) : Call [.group G] (.chain G.chain)
  | generate {degree : Nat} {gens : List SignedPerm} {G : SignedGroup}
      (made : SignedGroup.generate degree gens = .ok G) : Call (gens.map .perm) (.group G)
  | ofGenerators {gens : List SignedPerm} {G : SignedGroup}
      (made : SignedGroup.ofGenerators gens = .ok G) : Call (gens.map .perm) (.group G)
  | trivialGroup (degree : Nat) : Call [] (.group (.trivial degree))
  | symmetric {degree : Nat} {G : SignedGroup} (made : SignedGroup.symmetric degree = .ok G) :
      Call [] (.group G)
  | antisymmetric {degree : Nat} {G : SignedGroup}
      (made : SignedGroup.antisymmetric degree = .ok G) : Call [] (.group G)
  | cyclic {degree : Nat} {G : SignedGroup} (made : SignedGroup.cyclic degree = .ok G) :
      Call [] (.group G)
  | stabilizer {G M : SignedGroup} {points : List Nat} (made : G.stabilizer points = .ok M) :
      Call [.group G] (.group M)
  | union {G G' M : SignedGroup} (made : G.union G' = .ok M) : Call [.group G, .group G'] (.group M)
  | intersection {G G' : SignedGroup} {budget : Budget} {o : Outcome SignedGroup}
      (made : G.intersection G' budget = .ok o) : Call [.group G, .group G'] (.group o.value)
  | setwiseStabilizer {G : SignedGroup} {points : List Nat} {budget : Budget}
      {o : Outcome SignedGroup} (made : G.setwiseStabilizer points budget = .ok o) :
      Call [.group G] (.group o.value)
  | signPreserving {G M : SignedGroup} (made : G.signPreserving = .ok M) :
      Call [.group G] (.group M)

/-- What is kept of every value. -/
def Value.Sound : Value → Prop
  | .perm p => p.Valid
  | .chain c => c.Sound
  | .group G => G.Reachable

variable {given values : List Value} {v : Value}

theorem forall_sound_perms {ps : List SignedPerm} :
    (∀ u ∈ ps.map Value.perm, u.Sound) ↔ ∀ p ∈ ps, p.Valid :=
  List.forall_mem_map

theorem buildWithBase_sound {degree : Nat} {gens : List SignedPerm} {wanted : List Nat}
    {c : Chain} (hgens : ∀ g ∈ gens, g.Valid) (hc : Chain.buildWithBase degree gens wanted = .ok c) :
    c.Sound := by
  obtain ⟨hwanted, hdegrees⟩ := Chain.inputs_of_ok hc
  exact (Chain.finished_of_ok (fun g hg => ⟨hgens g hg, hdegrees g hg⟩) hwanted hc).sound

/-- Every call keeps what is known of the values. -/
theorem Call.sound (h : Call given v) (hgiven : ∀ u ∈ given, u.Sound) : v.Sound := by
  cases h with
  | perm made => exact made.valid (forall_sound_perms.mp hgiven)
  | ofOrbit made => exact made.valid (forall_sound_perms.mp hgiven)
  | ofChain made =>
      obtain ⟨hc, hperms⟩ := List.forall_mem_cons.mp hgiven
      exact made.valid hc (forall_sound_perms.mp hperms)
  | @ofGroup G _ made => exact made.valid (hgiven (.group G) List.mem_cons_self)
  | trivialChain degree => exact nofun
  | builtChain made => exact buildWithBase_sound (forall_sound_perms.mp hgiven) made
  | tail c depth =>
      have hc : c.Sound := hgiven (.chain c) List.mem_cons_self
      exact fun level hlevel => hc level (List.mem_of_mem_drop hlevel)
  | chainOf G =>
      have hG : G.Reachable := hgiven (.group G) List.mem_cons_self
      exact hG.sound
  | generate made => exact .generate (forall_sound_perms.mp hgiven) made
  | ofGenerators made => exact .ofGenerators (forall_sound_perms.mp hgiven) made
  | trivialGroup degree => exact .trivial degree
  | symmetric made => exact .symmetric made
  | antisymmetric made => exact .antisymmetric made
  | cyclic made => exact .cyclic made
  | @stabilizer G _ _ made => exact .stabilizer (hgiven (.group G) List.mem_cons_self) made
  | @union G G' _ made =>
      obtain ⟨hG, hG'⟩ := List.forall_mem_cons.mp hgiven
      exact .union hG (hG' (.group G') List.mem_cons_self) made
  | @intersection G G' _ _ made =>
      obtain ⟨hG, hG'⟩ := List.forall_mem_cons.mp hgiven
      exact .intersection hG (hG' (.group G') List.mem_cons_self) made
  | @setwiseStabilizer G _ _ _ made =>
      exact .setwiseStabilizer (hgiven (.group G) List.mem_cons_self) made
  | @signPreserving G _ made => exact .signPreserving (hgiven (.group G) List.mem_cons_self) made

/-! ## Sessions -/

/-- The values at hand after some calls, the last one first. -/
inductive Session : List Value → Prop where
  | start : Session []
  | call {values given : List Value} {v : Value} (before : Session values)
      (hand : given ⊆ values) (made : Call given v) : Session (v :: values)

theorem Session.sound (h : Session values) : ∀ v ∈ values, v.Sound := by
  induction h with
  | start => exact nofun
  | call _ hand made ih =>
      exact List.forall_mem_cons.mpr ⟨made.sound fun u hu => ih u (hand hu), ih⟩

/-- Every permutation that comes up in a session has a bijection of its points and the inverse of
    it for its tables.  A table of images is accepted exactly if it is a rearrangement of the
    points, and then becomes the images of a symmetric permutation.  Valid permutations of the same
    points obey the laws of a group. -/
theorem session_valid :
    (∀ values, Session values → ∀ p, .perm p ∈ values → p.Valid)
      ∧ (∀ image : Array Nat,
        ((∃ p, SignedPerm.ofImage? image = .ok p) ↔ image.toList.Perm (List.range image.size))
        ∧ (∀ p, SignedPerm.ofImage? image = .ok p →
          p.image = image ∧ p.flips = false ∧ p.On image.size)
        ∧ (¬ image.toList.Perm (List.range image.size) →
          SignedPerm.ofImage? image = .error (.notBijective image.size)))
      ∧ ∀ n, SignedPerm.CompositionLaws n := by
  refine ⟨fun values h p hp => h.sound _ hp, fun image => ⟨?_, ?_, ?_⟩,
    SignedPerm.composition_laws⟩
  · simp only [SignedPerm.ofImage?_eq_ok_iff, exists_and_left, exists_eq, and_true]
  · intro p hp
    obtain ⟨hperm, rfl⟩ := SignedPerm.ofImage?_eq_ok_iff.mp hp
    exact ⟨rfl, rfl, SignedPerm.ofImage_on_of_perm hperm false⟩
  · exact SignedPerm.ofImage?_eq_error

/-- A session of nine calls: an element of the group that a rotation and an antisymmetric swap
    generate, and its inverse; then what is left of the swap of two points, sifted through the
    chain of the swap on three points. -/
theorem session_valid_three :
    ∃ G p c, SignedGroup.generate 3 [.ofImage #[1, 2, 0] false, .ofImage #[1, 0, 2] true] = .ok G
      ∧ G.item 4 = some p
      ∧ Chain.buildWithBase 3 [.ofImage #[1, 0, 2] false] [] = .ok c
      ∧ Session [.perm (.id 2), .chain c, .perm (.ofImage #[1, 0] false), .perm p.inverse, .perm p,
        .group G, .perm (.ofImage #[1, 0, 2] true), .perm (.ofImage #[1, 0, 2] false),
        .perm (.ofImage #[1, 2, 0] false)]
      ∧ p.inverse.Valid ∧ (SignedPerm.id 2).Valid := by
  have hmade : (SignedGroup.generate 3 [.ofImage #[1, 2, 0] false,
      .ofImage #[1, 0, 2] true]).toOption.map (fun G => (G.item 4).isSome) = some true := by
    decide +kernel
  have hbuilt : (Chain.buildWithBase 3 [.ofImage #[1, 0, 2] false] []).toOption.map
      (fun c => c.storedSift (.ofImage #[1, 0] false)) = some (.ok (.id 2, 1)) := by
    decide +kernel
  obtain ⟨G, hG, hsome⟩ := Chain.exists_of_map_toOption hmade
  obtain ⟨p, hp⟩ := Option.isSome_iff_exists.mp hsome
  obtain ⟨c, hc, hsift⟩ := Chain.exists_of_map_toOption hbuilt
  have hrotation : Call [] (.perm (.ofImage #[1, 2, 0] false)) :=
    .perm (.image (show SignedPerm.ofImage? #[1, 2, 0] = .ok _ by decide +kernel))
  have hswap : Call [] (.perm (.ofImage #[1, 0, 2] false)) :=
    .perm (.transposition (show SignedPerm.transposition 3 0 1 = .ok _ by decide +kernel))
  have hsigned : Call [.perm (.ofImage #[1, 0, 2] false)] (.perm (.ofImage #[1, 0, 2] true)) :=
    .perm (.negated _)
  have hgroup : Call [.perm (.ofImage #[1, 2, 0] false), .perm (.ofImage #[1, 0, 2] true)]
      (.group G) := .generate hG
  have hitem : Call [.group G] (.perm p) := .ofGroup (.item hp)
  have hinverse : Call [.perm p] (.perm p.inverse) := .perm (.inverse p)
  have hshort : Call [] (.perm (.ofImage #[1, 0] false)) :=
    .perm (.image (show SignedPerm.ofImage? #[1, 0] = .ok _ by decide +kernel))
  have hchain : Call [.perm (.ofImage #[1, 0, 2] false)] (.chain c) := .builtChain hc
  have hresidue : Call [.chain c, .perm (.ofImage #[1, 0] false)] (.perm (.id 2)) :=
    .ofChain (.residue hsift)
  have hsession := Session.start.call (List.nil_subset _) hrotation
    |>.call (List.nil_subset _) hswap |>.call (by simp) hsigned |>.call (by simp) hgroup
    |>.call (by simp) hitem |>.call (by simp) hinverse |>.call (List.nil_subset _) hshort
    |>.call (by simp) hchain |>.call (by simp) hresidue
  have hvalid := session_valid.1 _ hsession
  exact ⟨G, p, c, hG, hp, hc, hsession, hvalid _ (by simp), hvalid _ List.mem_cons_self⟩

end SlotSymmetry

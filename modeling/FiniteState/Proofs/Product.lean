import FiniteState.Automaton.Product
import FiniteState.Proofs.Membership
import FiniteState.Proofs.Run

/-!
# Products

A run of the product is a run of each automaton such that the second one reads what the first one
writes. So the product of transducers composes their relations, and the product of acceptors accepts
what both accept.

* `runs_of_product`, `runs_product`: the runs of the product, from it and to it.
* `relates_compose_iff`, `relates_intersection_iff`: the two operations.
* `transduces_compose_iff`: which pairs of words the composition transduces.
-/

namespace FiniteState

namespace Automaton

variable {A B C : Automaton} {S : Alphabet}

/-! ## Requirements -/

/-- Nothing is missing if the alphabet admits as many states. -/
theorem requireRoom_of_le {operation : Operation} {n : Nat} (h : n ≤ S.stateLimit) :
    requireRoom operation S n = .ok () :=
  if_pos h

/-- Two automata are compatible, or both lists of symbols are reported. -/
theorem requireCompatible_cases (operation : Operation) (A B : Automaton) :
    (A.alphabet.symbols = B.alphabet.symbols ∧ requireCompatible operation A B = .ok ())
      ∨ (A.alphabet.symbols ≠ B.alphabet.symbols ∧ requireCompatible operation A B
          = .error (.alphabetMismatch operation A.alphabet.symbols B.alphabet.symbols)) := by
  by_cases hsymbols : A.alphabet.symbols = B.alphabet.symbols
  · exact .inl ⟨hsymbols, if_pos (beq_iff_eq.2 hsymbols)⟩
  · exact .inr ⟨hsymbols, if_neg fun h => hsymbols (eq_of_beq h)⟩

/-- Automata over the same symbols are compatible. -/
theorem requireCompatible_of_eq {operation : Operation}
    (h : A.alphabet.symbols = B.alphabet.symbols) : requireCompatible operation A B = .ok () := by
  rcases requireCompatible_cases operation A B with ⟨-, hok⟩ | ⟨hne, -⟩
  · exact hok
  · exact absurd h hne

/-! ## Arcs of pairs -/

/-- The first automaton moves alone if it writes nothing, and with the second one if that reads
what is written. -/
theorem mem_leftArcs_iff {q : Nat} {t : Transition} {a : Arc StatePair} :
    a ∈ B.leftArcs q t
      ↔ (t.output = .epsilon ∧ a = ⟨t.input, .epsilon, ⟨t.target, q⟩⟩)
        ∨ ∃ s, t.output = .symbol s ∧ ∃ u ∈ B.transitions q, u.input = .symbol s
            ∧ a = ⟨t.input, u.output, ⟨t.target, u.target⟩⟩ := by
  unfold leftArcs
  cases houtput : t.output with
  | epsilon => simp [Label.isEpsilon]
  | symbol s =>
    simp only [Label.isEpsilon, Bool.false_eq_true, if_false, List.mem_map, List.mem_filter,
      beq_iff_eq, reduceCtorEq, false_and, false_or, Label.symbol.injEq, exists_eq_left']
    constructor
    · rintro ⟨u, ⟨hu, hinput⟩, rfl⟩
      exact ⟨u, hu, hinput, rfl⟩
    · rintro ⟨u, hu, hinput, rfl⟩
      exact ⟨u, ⟨hu, hinput⟩, rfl⟩

/-- The second automaton moves alone if it reads nothing. -/
theorem mem_rightArcs_iff {p q : Nat} {a : Arc StatePair} :
    a ∈ B.rightArcs p q
      ↔ ∃ u ∈ B.transitions q, u.input = .epsilon ∧ a = ⟨.epsilon, u.output, ⟨p, u.target⟩⟩ := by
  unfold rightArcs
  rw [List.mem_map]
  constructor
  · rintro ⟨u, hu, rfl⟩
    obtain ⟨hu, hinput⟩ := List.mem_filter.1 hu
    cases h : u.input with
    | epsilon => exact ⟨u, hu, h, rfl⟩
    | symbol s =>
      rw [h] at hinput
      cases hinput
  · rintro ⟨u, hu, hinput, rfl⟩
    exact ⟨u, List.mem_filter.2 ⟨hu, by rw [hinput]; rfl⟩, rfl⟩

/-- A pair of states has the arcs of both kinds. -/
theorem mem_arcs_product_iff {k : StatePair} {a : Arc StatePair} :
    a ∈ (A.product B).arcs k
      ↔ (∃ t ∈ A.transitions k.left, a ∈ B.leftArcs k.right t)
        ∨ a ∈ B.rightArcs k.left k.right := by
  show a ∈ (A.transitions k.left).flatMap (B.leftArcs k.right) ++ B.rightArcs k.left k.right ↔ _
  rw [List.mem_append, List.mem_flatMap]

/-- An arc in the product of acceptors is silent, or each acceptor has a transition with its labels
between the states of the pairs. -/
theorem arc_product_of_acceptors (hA : A.isAcceptor = true) (hB : B.isAcceptor = true)
    {k : StatePair} {a : Arc StatePair} (ha : a ∈ (A.product B).arcs k) :
    (a.input = .epsilon ∧ a.output = .epsilon)
      ∨ (∃ t ∈ A.transitions k.left, t.labels = a.labels ∧ t.target = a.target.left)
        ∧ ∃ u ∈ B.transitions k.right, u.labels = a.labels ∧ u.target = a.target.right := by
  rw [isAcceptor_iff] at hA hB
  rcases mem_arcs_product_iff.1 ha with ⟨t, ht, hleft⟩ | hright
  · have htcopies : t.input = t.output := hA k.left t ht
    rcases mem_leftArcs_iff.1 hleft with ⟨houtput, rfl⟩ | ⟨s, houtput, u, hu, hinput, rfl⟩
    · exact .inl ⟨htcopies.trans houtput, rfl⟩
    · -- both labels of either transition are the symbol in the middle
      have hucopies : u.input = u.output := hB k.right u hu
      have hmiddle : t.output = u.input := houtput.trans hinput.symm
      refine .inr ⟨⟨t, ht, ?_, rfl⟩, u, hu, ?_, rfl⟩
      · exact Prod.ext rfl (hmiddle.trans hucopies)
      · exact Prod.ext (htcopies.trans hmiddle).symm rfl
  · obtain ⟨u, hu, hinput, rfl⟩ := mem_rightArcs_iff.1 hright
    exact .inl ⟨rfl, (hB k.right u hu).symm.trans hinput⟩

/-! ## Runs of the product

A run of the product comes apart into runs with a common word between them. Conversely two such runs
are put together by induction on the first one: where it writes nothing the second one waits, and
where it writes a symbol the second one takes steps of its own until it reads that symbol. -/

/-- A run of the product is a run of either automaton, with a word in between. -/
theorem runs_of_product {k l : StatePair} {x z : Word} (h : (A.product B).Runs k x z l) :
    ∃ y, A.system.Runs k.left x y l.left ∧ B.system.Runs k.right y z l.right := by
  -- by induction on the run: each kind of arc is a step of one automaton or of both
  induction h with
  | nil k => exact ⟨[], .nil _, .nil _⟩
  | @cons k l a x z ha _ ih =>
    obtain ⟨y, hA, hB⟩ := ih
    rcases mem_arcs_product_iff.1 ha with ⟨t, ht, ha⟩ | ha
    · have htA : t ∈ A.system.arcs k.left := ht
      rcases mem_leftArcs_iff.1 ha with ⟨houtput, rfl⟩ | ⟨s, houtput, u, hu, hinput, rfl⟩
      · refine ⟨y, ?_, hB⟩
        have hrun := TransitionSystem.Runs.cons htA hA
        rwa [houtput] at hrun
      · refine ⟨s :: y, ?_, ?_⟩
        · have hrun := TransitionSystem.Runs.cons htA hA
          rwa [houtput] at hrun
        · have huB : u ∈ B.system.arcs k.right := hu
          have hrun := TransitionSystem.Runs.cons huB hB
          rwa [hinput] at hrun
    · obtain ⟨u, hu, hinput, rfl⟩ := mem_rightArcs_iff.1 ha
      have huB : u ∈ B.system.arcs k.right := hu
      have hrun := TransitionSystem.Runs.cons huB hB
      rw [hinput] at hrun
      exact ⟨y, hA, hrun⟩

/-- The second automaton may take steps that read nothing while the first one waits. -/
theorem runs_product_of_silent {p q q' : Nat} {y z : Word} (hy : y = [])
    (h : B.system.Runs q y z q') : (A.product B).Runs ⟨p, q⟩ [] z ⟨p, q'⟩ := by
  induction h with
  | nil q => exact .nil _
  | @cons q q' u y z hu _ ih =>
    obtain ⟨hinput, hrest⟩ := List.append_eq_nil_iff.1 hy
    have hu' : u ∈ B.transitions q := hu
    have harc : (⟨.epsilon, u.output, ⟨p, u.target⟩⟩ : Arc StatePair)
        ∈ (A.product B).arcs ⟨p, q⟩ := by
      refine mem_arcs_product_iff.2 (.inr (mem_rightArcs_iff.2 ⟨u, hu', ?_, rfl⟩))
      cases hlabel : u.input with
      | epsilon => rfl
      | symbol s =>
        rw [hlabel] at hinput
        cases hinput
    exact .cons harc (ih hrest)

/-- Two runs with the same word in between give a run of the product. -/
theorem runs_product {p p' q q' : Nat} {x y z : Word} (hA : A.system.Runs p x y p')
    (hB : B.system.Runs q y z q') : (A.product B).Runs ⟨p, q⟩ x z ⟨p', q'⟩ := by
  -- by induction on the run of the first automaton, which the second one has to follow
  induction hA generalizing q z with
  | nil p => exact runs_product_of_silent rfl hB
  | @cons p p' t x y ht _ ih =>
    have ht' : t ∈ A.transitions p := ht
    cases houtput : t.output with
    | epsilon =>
      rw [houtput] at hB
      have harc : (⟨t.input, .epsilon, ⟨t.target, q⟩⟩ : Arc StatePair)
          ∈ (A.product B).arcs ⟨p, q⟩ :=
        mem_arcs_product_iff.2 (.inl ⟨t, ht', mem_leftArcs_iff.2 (.inl ⟨houtput, rfl⟩)⟩)
      exact .cons harc (ih hB)
    | symbol s =>
      rw [houtput] at hB
      -- the second automaton catches up, then both take a step
      obtain ⟨r, z₁, z₂, u, hu, hsilent, hinput, hrest, rfl⟩ := hB.exists_of_cons
      have hu' : u ∈ B.transitions r := hu
      have harc : (⟨t.input, u.output, ⟨t.target, u.target⟩⟩ : Arc StatePair)
          ∈ (A.product B).arcs ⟨p, r⟩ :=
        mem_arcs_product_iff.2
          (.inl ⟨t, ht', mem_leftArcs_iff.2 (.inr ⟨s, houtput, u, hu', hinput, rfl⟩)⟩)
      exact (runs_product_of_silent rfl hsilent).append (.cons harc (ih hrest))

/-- The product relates what the two automata relate through some word. -/
theorem maps_product_iff {x z : Word} :
    (A.product B).Maps x z ↔ ∃ y, A.Relates x y ∧ B.Relates y z := by
  simp only [relates_iff_maps]
  constructor
  · rintro ⟨l, hrun, hl⟩
    obtain ⟨hleft, hright⟩ := Bool.and_eq_true_iff.1 hl
    obtain ⟨y, hA, hB⟩ := runs_of_product hrun
    exact ⟨y, ⟨_, hA, hleft⟩, _, hB, hright⟩
  · rintro ⟨y, ⟨p, hA, hp⟩, q, hB, hq⟩
    exact ⟨⟨p, q⟩, runs_product hA hB, Bool.and_eq_true_iff.2 ⟨hp, hq⟩⟩

/-! ## Composition and intersection -/

/-- Composition composes the relations. -/
theorem relates_compose_iff (h : A.compose B = .ok C) {x z : Word} :
    C.Relates x z ↔ ∃ y, A.Relates x y ∧ B.Relates y z := by
  obtain ⟨-, -, h⟩ := Except.bind_eq_ok.1 h
  obtain ⟨P, hP, h⟩ := Except.bind_eq_ok.1 h
  rw [← Except.pure_eq_ok.1 h, relates_trim_iff, relates_explore_iff hP, maps_product_iff]

/-- A composition is over the alphabet of the first automaton. -/
@[grind →] theorem alphabet_compose (h : A.compose B = .ok C) : C.alphabet = A.alphabet := by
  obtain ⟨-, -, h⟩ := Except.bind_eq_ok.1 h
  obtain ⟨P, hP, h⟩ := Except.bind_eq_ok.1 h
  simp [← Except.pure_eq_ok.1 h, TransitionSystem.alphabet_explore hP]

/-- An acceptor accepts the words that it relates to themselves. -/
theorem accepts_iff_relates_self (hA : A.isAcceptor = true) {w : Word} :
    A.accepts w = true ↔ A.Relates w w := by
  rw [relates_iff_accepts hA]
  exact (and_iff_right rfl).symm

/-- An intersection is the trimmed product of two acceptors. -/
theorem intersection_eq_ok (h : A.intersection B = .ok C) :
    A.isAcceptor = true ∧ B.isAcceptor = true
      ∧ ∃ P, (A.product B).explore A.alphabet .intersection = .ok P ∧ C = P.trim := by
  obtain ⟨-, -, h⟩ := Except.bind_eq_ok.1 h
  split at h
  next hacceptors =>
    obtain ⟨P, hP, h⟩ := Except.bind_eq_ok.1 h
    obtain ⟨hA, hB⟩ := Bool.and_eq_true_iff.1 hacceptors
    exact ⟨hA, hB, P, hP, (Except.pure_eq_ok.1 h).symm⟩
  · cases h

/-- Intersection accepts what both acceptors accept. -/
theorem relates_intersection_iff (h : A.intersection B = .ok C) {x y : Word} :
    C.Relates x y ↔ x = y ∧ A.accepts x = true ∧ B.accepts x = true := by
  obtain ⟨hA, hB, P, hP, rfl⟩ := intersection_eq_ok h
  rw [relates_trim_iff, relates_explore_iff hP, maps_product_iff, accepts_iff_relates_self hA,
    accepts_iff_relates_self hB]
  constructor
  · rintro ⟨z, hxz, hzy⟩
    obtain rfl := eq_of_relates hA hxz
    obtain rfl := eq_of_relates hB hzy
    exact ⟨rfl, hxz, hzy⟩
  · rintro ⟨rfl, hx, hx'⟩
    exact ⟨x, hx, hx'⟩

/-- The intersection accepts what both acceptors accept. -/
theorem accepts_intersection_iff (h : A.intersection B = .ok C) {w : Word} :
    C.accepts w = true ↔ A.accepts w = true ∧ B.accepts w = true :=
  accepts_iff_of_copies fun _ _ => relates_intersection_iff h

/-- An intersection is an acceptor. -/
theorem isAcceptor_intersection (h : A.intersection B = .ok C) : C.isAcceptor = true := by
  obtain ⟨hA, hB, P, hP, rfl⟩ := intersection_eq_ok h
  rw [isAcceptor_iff]
  intro q t ht
  obtain ⟨p, u, hu, hlabels⟩ := exists_transition_of_trim ht
  obtain ⟨k, a, ha, halabels⟩ := TransitionSystem.exists_arc_of_mem_explore hP hu
  have hacopies : a.input = a.output := by
    rcases arc_product_of_acceptors hA hB ha with ⟨hinput, houtput⟩ | ⟨⟨v, hv, hvlabels, -⟩, -⟩
    · exact hinput.trans houtput.symm
    · have hvcopies : v.input = v.output := isAcceptor_iff.1 hA k.left v hv
      rw [← (Prod.mk.inj hvlabels).1, ← (Prod.mk.inj hvlabels).2, hvcopies]
  have htlabels : a.labels = t.labels := halabels.trans hlabels
  rw [← (Prod.mk.inj htlabels).1, ← (Prod.mk.inj htlabels).2, hacopies]

/-- An intersection is over the alphabet of the first acceptor. -/
@[grind →]
theorem alphabet_intersection (h : A.intersection B = .ok C) : C.alphabet = A.alphabet := by
  obtain ⟨-, -, P, hP, rfl⟩ := intersection_eq_ok h
  simp [TransitionSystem.alphabet_explore hP]

/-! ## Composition of what is transduced

The word in the middle may be of any length: the first automaton may write without reading, and the
second may read without writing. -/

/-- The composition maps `x` to `z` if the first automaton maps `x` to some word that the second one
maps to `z`. -/
theorem transduces_compose_iff (A B C : Automaton) (h : A.compose B = .ok C) (x z : Word) :
    C.transduces x z = true ↔ ∃ y, A.transduces x y = true ∧ B.transduces y z = true := by
  have hcomposed : C.Relates x z ↔ ∃ y, A.Relates x y ∧ B.Relates y z := relates_compose_iff h
  simp only [transduces_iff_relates]
  exact hcomposed

/-- Reads an a and writes any number of b, with a silent cycle before the a. -/
def scattering : Automaton where
  alphabet := .abcd
  states := #[
    { transitions := [⟨.epsilon, .epsilon, 0⟩, ⟨.symbol ⟨0⟩, .epsilon, 1⟩] },
    { accepting := true, transitions := [⟨.epsilon, .symbol ⟨1⟩, 1⟩] }]
  start := 0
  start_lt := by decide
  target_lt := by decide

/-- Reads any number of b and writes c at least once. -/
def gathering : Automaton where
  alphabet := .abcd
  states := #[
    { transitions := [⟨.symbol ⟨1⟩, .epsilon, 0⟩, ⟨.epsilon, .symbol ⟨2⟩, 1⟩] },
    { accepting := true, transitions := [⟨.epsilon, .epsilon, 0⟩] }]
  start := 0
  start_lt := by decide
  target_lt := by decide

/-- Reads an a and writes c at least once; the silent loops are what is left of the b. -/
def gatheringScattered : Automaton where
  alphabet := .abcd
  states := #[
    { transitions := [⟨.epsilon, .epsilon, 0⟩, ⟨.symbol ⟨0⟩, .epsilon, 1⟩,
        ⟨.epsilon, .symbol ⟨2⟩, 2⟩] },
    { transitions := [⟨.epsilon, .epsilon, 1⟩, ⟨.epsilon, .symbol ⟨2⟩, 3⟩] },
    { transitions := [⟨.epsilon, .epsilon, 2⟩, ⟨.symbol ⟨0⟩, .epsilon, 3⟩,
        ⟨.epsilon, .epsilon, 0⟩] },
    { accepting := true, transitions := [⟨.epsilon, .epsilon, 1⟩] }]
  start := 0
  start_lt := by decide
  target_lt := by decide

/-- The composition of the example, as it is computed. -/
theorem compose_scattering : scattering.compose gathering = .ok gatheringScattered := by cbv

/-- An a becomes cc by way of bb, among other words. -/
theorem transduces_gatheringScattered :
    scattering.compose gathering = .ok gatheringScattered
      ∧ gatheringScattered.transduces [⟨0⟩] [⟨2⟩, ⟨2⟩] = true := by
  have hfirst : scattering.transduces [⟨0⟩] [⟨1⟩, ⟨1⟩] = true := by cbv
  have hsecond : gathering.transduces [⟨1⟩, ⟨1⟩] [⟨2⟩, ⟨2⟩] = true := by cbv
  refine ⟨compose_scattering, ?_⟩
  apply (transduces_compose_iff scattering gathering gatheringScattered compose_scattering _ _).2
  exact ⟨[⟨1⟩, ⟨1⟩], hfirst, hsecond⟩

end Automaton

end FiniteState

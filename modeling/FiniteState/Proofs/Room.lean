import FiniteState.Proofs.Canonical
import FiniteState.Proofs.Memory
import FiniteState.Proofs.Occurrence

/-!
# Room for states

How many states a construction needs is bounded by what its operands remember of a word. For
deterministic operands that is a state of each of them, so unions, intersections and complements of
small deterministic automata are small again, and a limit that admits them leaves nothing that can
fail.

* `exists_minimize_of_remembers`: an automaton that remembers little can be minimized.
* `Fits`: a deterministic automaton over letters of a bounded size.
* `Fits.exists_union`, `Fits.intersection`, `Fits.complement`: operations on such automata.
-/

namespace FiniteState

namespace Automaton

variable {A B C : Automaton} {S : Alphabet}

/-! ## Minimization

A deterministic automaton is minimized as it is. Otherwise it has to be determinized, so it must not
remember too much. -/

/-- Minimizing a deterministic automaton explores nothing, and it adds no state. -/
theorem exists_minimize_of_deterministic (hA : A.system.Deterministic) :
    ∃ C, A.minimize = .ok C ∧ C.size ≤ A.size := by
  have hdeterministic := isDeterministic_iff.2 hA
  have htrimmed : A.trimmedDeterministic = .ok A.trim := if_pos hdeterministic
  obtain ⟨C, hC⟩ : ∃ C, A.minimize = .ok C := ⟨_, Except.bind_eq_ok.2 ⟨A.trim, htrimmed, rfl⟩⟩
  exact ⟨C, hC, size_minimize_le hC hdeterministic fun _ => Iff.rfl⟩

/-- Minimization needs no more room than determinization does. -/
theorem exists_minimize_of_determinize {D : Automaton} (hD : A.determinize = .ok D) :
    ∃ C, A.minimize = .ok C ∧ C.size ≤ D.size := by
  obtain ⟨E, hE⟩ : ∃ E, A.trimmedDeterministic = .ok E := by
    unfold trimmedDeterministic
    split
    · exact ⟨A.trim, rfl⟩
    · exact ⟨D.trim, Except.bind_eq_ok.2 ⟨D, hD, rfl⟩⟩
  obtain ⟨C, hC⟩ : ∃ C, A.minimize = .ok C := ⟨_, Except.bind_eq_ok.2 ⟨E, hE, rfl⟩⟩
  have hdeterministic := isDeterministic_iff.2 (deterministic_determinize hD)
  exact ⟨C, hC, size_minimize_le hC hdeterministic fun _ => hasLabels_determinize_iff hD⟩

/-- Determinization gives at most as many states as there are summaries of words. -/
theorem Remembers.exists_determinize {κ : Type} [Fintype κ] {f : Word → κ} (h : A.Remembers S f)
    (hA : A.Proper S) (hroom : Fintype.card κ ≤ A.alphabet.stateLimit) :
    ∃ D, A.determinize = .ok D ∧ D.size ≤ Fintype.card κ := by
  have hfew := h.encard_le hA
  obtain ⟨D, hD⟩ := A.needs_determinize.exists_ok (hfew.trans (Nat.cast_le.2 hroom))
  rw [encard_reachableSet hD] at hfew
  exact ⟨D, hD, Nat.cast_le.1 hfew⟩

/-! ## Automata of bounded size

One lemma for each operation: if the limit admits what is explored on the way, the result exists,
and how large it is can be told from the sizes of the operands. -/

/-- An automaton that copies letters or is silent, with at most so many states. -/
structure Small (S : Alphabet) (n : Nat) (A : Automaton) : Prop where
  alphabet : A.alphabet = S
  plain : A.AllLabels (Plain S)
  size_le : A.size ≤ n

/-- A small automaton that is deterministic. -/
structure Fits (S : Alphabet) (n : Nat) (A : Automaton) : Prop extends A.Small S n where
  deterministic : A.system.Deterministic

namespace Small

variable {m n : Nat}

theorem proper (hA : A.Small S n) : A.Proper S := ⟨congrArg Alphabet.symbols hA.alphabet, hA.plain⟩

theorem mono (hA : A.Small S m) (h : m ≤ n) : A.Small S n :=
  ⟨hA.alphabet, hA.plain, hA.size_le.trans h⟩

/-- The automaton of the empty word has one state. -/
theorem epsilon (S : Alphabet) : (Automaton.epsilon S).Small S 1 :=
  ⟨rfl, allLabels_epsilon S, Nat.le_refl 1⟩

theorem symbol {s : Symbol} (hs : S.contains s = true) : (Automaton.symbol S s).Small S 2 :=
  ⟨rfl, allLabels_symbol (plain_letter hs), Nat.le_refl 2⟩

/-- A concatenation has the states of both operands. -/
theorem concat (hA : A.Small S m) (hB : B.Small S n) (hroom : m + n ≤ S.stateLimit) :
    A.concat B = .ok (A.sequence B false) ∧ (A.sequence B false).Small S (m + n) := by
  have hsize : A.size + B.size ≤ m + n := Nat.add_le_add hA.size_le hB.size_le
  have hC : A.concat B = .ok (A.sequence B false) := by
    unfold Automaton.concat concatWith
    rw [requireCompatible_of_eq (hA.proper.symbols.trans hB.proper.symbols.symm), hA.alphabet,
      requireRoom_of_le (hsize.trans hroom)]
    rfl
  refine ⟨hC, hA.alphabet, hA.plain.concatWith hB.plain (plain_silent S) hC, ?_⟩
  simpa using hsize

/-- Appending copies adds the states of each copy. -/
theorem appendCopies (hA : A.Small S n) (k : Nat) {acc : Automaton} (hacc : acc.Small S m)
    (hroom : m + k * n ≤ S.stateLimit) :
    ∃ C, A.appendCopies false k acc = .ok C ∧ C.Small S (m + k * n) := by
  induction k generalizing acc m with
  | zero => exact ⟨acc, rfl, hacc.mono (Nat.le_add_right _ _)⟩
  | succ k ih =>
    have hsum : m + (k + 1) * n = m + n + k * n := by
      rw [Nat.succ_mul]
      omega
    rw [hsum] at hroom ⊢
    obtain ⟨hD, hDsmall⟩ := hacc.concat hA (Nat.le_trans (Nat.le_add_right _ _) hroom)
    obtain ⟨C, hC, hCsmall⟩ := ih hDsmall hroom
    exact ⟨C, Except.bind_eq_ok.2 ⟨_, hD, hC⟩, hCsmall⟩

end Small

/-- An automaton that fits is deterministic and proper, so that its labels are letters. -/
theorem Fits.lettered {n : Nat} (hA : A.Fits S n) : A.Lettered S :=
  hA.proper.lettered hA.deterministic

/-- A deterministic automaton over letters fits if it is small enough. -/
theorem Fits.of_lettered {n : Nat} (halphabet : A.alphabet = S) (hA : A.Lettered S)
    (hdeterministic : A.system.Deterministic) (hsize : A.size ≤ n) : A.Fits S n :=
  ⟨⟨halphabet, hA.allLabels fun _ hs => plain_letter hs, hsize⟩, hdeterministic⟩

/-- A minimal automaton is deterministic, so a bound on its size is all that is left to show. -/
theorem Fits.of_minimize {n : Nat} (halphabet : A.alphabet = S) (hA : A.AllLabels (Plain S))
    (hC : A.minimize = .ok C) (hsize : C.size ≤ n) : C.Fits S n :=
  ⟨⟨(alphabet_minimize hC).trans halphabet, hA.minimize hC, hsize⟩,
    (ordered_minimize hC).deterministic⟩

/-- An automaton that remembers little is minimized to a small one. -/
theorem exists_minimize_of_remembers {κ : Type} [Fintype κ] {f : Word → κ} {n : Nat}
    (hf : A.Remembers S f) (halphabet : A.alphabet = S) (hA : A.AllLabels (Plain S))
    (hcard : Fintype.card κ ≤ n) (hroom : n ≤ S.stateLimit) :
    ∃ C, A.minimize = .ok C ∧ C.Fits S n := by
  have hproper : A.Proper S := ⟨congrArg Alphabet.symbols halphabet, hA⟩
  obtain ⟨D, hD, hsize⟩ := hf.exists_determinize hproper (halphabet ▸ hcard.trans hroom)
  obtain ⟨C, hC, hsize'⟩ := exists_minimize_of_determinize hD
  exact ⟨C, hC, .of_minimize halphabet hA hC (hsize'.trans (hsize.trans hcard))⟩

namespace Fits

variable {m n : Nat}

theorem sigmaStar (S : Alphabet) : (Automaton.sigmaStar S).Fits S 1 := by
  have hlettered := lettered_sigmaStar S
  refine .of_lettered rfl hlettered (hlettered.deterministic fun q hq => ?_) (Nat.le_refl 1)
  obtain rfl : q = 0 := Nat.lt_one_iff.1 hq
  have hlabels : (transitions (Automaton.sigmaStar S) 0).map Arc.labels = S.sigma.map letter :=
    List.map_map
  rw [hlabels]
  exact S.nodup_sigma.map letter_injective

theorem minimize (hA : A.Fits S n) : ∃ C, A.minimize = .ok C ∧ C.Fits S n := by
  obtain ⟨C, hC, hsize⟩ := exists_minimize_of_deterministic hA.deterministic
  exact ⟨C, hC, .of_minimize hA.alphabet hA.plain hC (hsize.trans hA.size_le)⟩

theorem exists_minimize (hA : A.Fits S n) : ∃ C, A.minimize = .ok C := by
  obtain ⟨C, hC, -⟩ := hA.minimize
  exact ⟨C, hC⟩

/-- A union is not deterministic, but remembers a state of each operand at most. -/
theorem exists_union (hA : A.Fits S m) (hB : B.Fits S n)
    (hroom : 2 * ((m + 1) * (n + 1)) ≤ S.stateLimit) :
    ∃ C D, A.union B = .ok C ∧ C.minimize = .ok D := by
  obtain ⟨f, hf⟩ := hA.lettered.exists_remembers hA.deterministic
  obtain ⟨g, hg⟩ := hB.lettered.exists_remembers hB.deterministic
  have hpairs : (A.size + 1) * (B.size + 1) ≤ (m + 1) * (n + 1) :=
    Nat.mul_le_mul (Nat.succ_le_succ hA.size_le) (Nat.succ_le_succ hB.size_le)
  have hsize : 1 + A.size + B.size ≤ (A.size + 1) * (B.size + 1) := by
    rw [Nat.succ_mul_succ]
    omega
  have hC : A.union B = .ok (A.sum B) := by
    unfold Automaton.union
    rw [requireCompatible_of_eq (hA.proper.symbols.trans hB.proper.symbols.symm), hA.alphabet,
      requireRoom_of_le (by omega)]
    rfl
  have hplain := hA.plain.union hB.plain (plain_silent S) hC
  obtain ⟨D, hD, -⟩ := exists_minimize_of_remembers (hf.sum hg) hA.alphabet hplain
    (n := 2 * ((m + 1) * (n + 1))) (by simpa using hpairs) hroom
  exact ⟨_, D, hC, hD⟩

end Fits

/-! ## Intersections and complements -/

/-- There are no more reachable pairs than pairs. -/
theorem encard_reachablePair_le (A B : Automaton) :
    {k | A.ReachablePair B k}.encard ≤ (A.size * B.size : ℕ) := by
  let pair (k : Fin A.size × Fin B.size) : StatePair := ⟨k.1, k.2⟩
  have hsubset : {k | A.ReachablePair B k} ⊆ Set.range pair := by
    intro k hk
    obtain ⟨hleft, hright⟩ : k.left < A.size ∧ k.right < B.size := by
      induction hk with
      | start => exact ⟨A.start_lt_size, B.start_lt_size⟩
      | left _ ht _ ih => exact ⟨target_lt_size ht, ih.2⟩
      | right _ hu _ ih => exact ⟨ih.1, target_lt_size hu⟩
      | both _ ht hu _ _ _ => exact ⟨target_lt_size ht, target_lt_size hu⟩
    exact ⟨(⟨k.left, hleft⟩, ⟨k.right, hright⟩), rfl⟩
  calc {k | A.ReachablePair B k}.encard
      ≤ (Set.range pair).encard := Set.encard_le_encard hsubset
    _ ≤ (Fintype.card (Fin A.size × Fin B.size) : ℕ∞) := encard_range_le pair
    _ = (A.size * B.size : ℕ) := by rw [Fintype.card_prod, Fintype.card_fin, Fintype.card_fin]

/-- Over letters, a transition goes with those of the other automaton that have its labels. -/
theorem labels_arcs_product (hA : A.Lettered S) (hB : B.Lettered S) (k : StatePair) :
    ((A.product B).arcs k).map Arc.labels
      = (A.transitions k.left).flatMap fun t =>
          ((B.transitions k.right).map Arc.labels).filter (· = t.labels) := by
  have hright : B.rightArcs k.left k.right = [] := by
    refine List.eq_nil_iff_forall_not_mem.2 fun a ha => ?_
    obtain ⟨u, hu, hinput, -⟩ := mem_rightArcs_iff.1 ha
    obtain ⟨s, -, hlabels⟩ := hB _ u hu
    cases hinput.symm.trans (Prod.mk.inj hlabels).1
  show ((A.transitions k.left).flatMap (B.leftArcs k.right)
    ++ B.rightArcs k.left k.right).map Arc.labels = _
  rw [hright, List.append_nil, List.map_flatMap]
  refine List.flatMap_congr fun t ht => ?_
  obtain ⟨s, -, hlabels⟩ := hA _ t ht
  obtain ⟨hinput, houtput⟩ : t.input = .symbol s ∧ t.output = .symbol s := Prod.mk.inj hlabels
  have hsame : ∀ u ∈ B.transitions k.right,
      (u.input == t.output) = decide (u.labels = t.labels) := by
    intro u hu
    obtain ⟨r, -, hulabels⟩ := hB _ u hu
    rw [hulabels, hlabels, houtput, (Prod.mk.inj hulabels).1, beq_eq_decide]
    exact decide_eq_decide.2 ⟨fun h => congrArg letter (Label.symbol.inj h), congrArg Prod.fst⟩
  have haudible : ¬ t.output.isEpsilon = true := by
    rw [houtput]
    exact Bool.false_ne_true
  rw [leftArcs, if_neg haudible, List.filter_map, List.map_map, List.filter_congr hsame]
  refine List.map_congr_left fun u hu => ?_
  have hulabels : u.labels = t.labels := of_decide_eq_true (List.mem_filter.1 hu).2
  exact Prod.ext (Prod.mk.inj hulabels).1.symm rfl

/-- The product of deterministic automata over letters is deterministic, since both read the same
letter. -/
theorem deterministic_product (hA : A.Lettered S) (hB : B.Lettered S)
    (hAdeterministic : A.system.Deterministic) (hBdeterministic : B.system.Deterministic) :
    (A.product B).Deterministic := by
  constructor
  · intro k a ha
    have hlabels := List.mem_map_of_mem (f := Arc.labels) ha
    rw [labels_arcs_product hA hB] at hlabels
    obtain ⟨t, ht, hfilter⟩ := List.mem_flatMap.1 hlabels
    rw [isSilent_of_labels_eq (of_decide_eq_true (List.mem_filter.1 hfilter).2)]
    exact hAdeterministic.isSilent_eq_false k.left t ht
  · intro k
    rw [labels_arcs_product hA hB, List.nodup_flatMap]
    refine ⟨fun t _ => (hBdeterministic.nodup k.right).filter _, ?_⟩
    have hpairwise := List.pairwise_map.1 (hAdeterministic.nodup k.left)
    refine hpairwise.imp fun hne l hl hl' => hne ?_
    exact (of_decide_eq_true (List.mem_filter.1 hl).2).symm.trans
      (of_decide_eq_true (List.mem_filter.1 hl').2)

namespace Fits

variable {m n : Nat}

/-- An intersection takes pairs of states, and is deterministic again. -/
theorem intersection (hA : A.Fits S m) (hB : B.Fits S n) (hroom : m * n ≤ S.stateLimit) :
    ∃ C, A.intersection B = .ok C ∧ C.Fits S (m * n) := by
  have hpairs : A.size * B.size ≤ m * n := Nat.mul_le_mul hA.size_le hB.size_le
  have hfew := (encard_reachablePair_le A B).trans (Nat.cast_le.2 hpairs)
  rw [← reached_product] at hfew
  obtain ⟨P, hP⟩ := ((A.product B).needs_explore S .intersection).exists_ok
    (hfew.trans (Nat.cast_le.2 hroom))
  rw [TransitionSystem.size_of_explore hP] at hfew
  have hC : A.intersection B = .ok P.trim := by
    unfold Automaton.intersection
    rw [requireCompatible_of_eq (hA.proper.symbols.trans hB.proper.symbols.symm),
      hA.proper.isAcceptor, hB.proper.isAcceptor, hA.alphabet, hP]
    rfl
  have halphabet := (alphabet_intersection hC).trans hA.alphabet
  have hproduct := deterministic_product hA.lettered hB.lettered hA.deterministic hB.deterministic
  exact ⟨_, hC, ⟨halphabet, hA.plain.intersection_left (plain_silent S) hC,
    P.size_trim_le.trans (Nat.cast_le.1 hfew)⟩, deterministic_trim (hproduct.explore hP)⟩

/-- A complement takes the states, the empty set and a sink at most. -/
theorem complement (hA : A.Fits S n) (hS : S.symbols ≠ []) (hroom : n + 2 ≤ S.stateLimit) :
    ∃ C, A.complement = .ok C ∧ C.Fits S (n + 2) := by
  obtain ⟨f, hf⟩ := hA.lettered.exists_remembers hA.deterministic
  have hover := hA.proper.overAlphabet
  have hsize := hA.size_le
  have halphabet := hA.alphabet
  -- a word leads to one of the states or to none, which makes a set more
  obtain ⟨D, hD, hDsize⟩ := hf.exists_determinize hA.proper
    (by rw [Fintype.card_option, Fintype.card_fin, halphabet]; omega)
  rw [Fintype.card_option, Fintype.card_fin] at hDsize
  have hlettered := lettered_determinize hover hD
  rw [← alphabet_determinize hD] at hlettered
  -- completion adds the sink, unless nothing is missing
  obtain ⟨E, hE, hEsize⟩ : ∃ E, D.complete = .ok E ∧ E.size ≤ D.size + 1 := by
    unfold complete
    split
    · exact ⟨D, rfl, Nat.le_succ _⟩
    · rw [requireRoom_of_le (by rw [alphabet_determinize hD, halphabet]; omega)]
      exact ⟨D.withSink, rfl, D.size_withSink.le⟩
  have hC : A.complement = .ok E.flip := by
    unfold Automaton.complement
    rw [requireComplementable_of_overAlphabet hover (halphabet ▸ hS), hD]
    show D.complete >>= (fun E => pure E.flip) = .ok E.flip
    rw [hE]
    rfl
  obtain ⟨-, hEdeterministic, -⟩ := complete_eq_ok hlettered (deterministic_determinize hD) hE
  refine ⟨_, hC, .of_lettered ((alphabet_complement hC).trans halphabet)
    (halphabet ▸ lettered_complement hC) (deterministic_flip hEdeterministic) ?_⟩
  rw [size_flip]
  omega

/-- A difference has the pairs of one operand with the complement of the other. -/
theorem difference (hA : A.Fits S m) (hB : B.Fits S n) (hS : S.symbols ≠ [])
    (hroom : n + 2 ≤ S.stateLimit) (hroom' : m * (n + 2) ≤ S.stateLimit) :
    ∃ C, A.difference B = .ok C ∧ C.Fits S (m * (n + 2)) := by
  obtain ⟨D, hD, hDfits⟩ := hB.complement hS hroom
  obtain ⟨C, hC, hCfits⟩ := hA.intersection hDfits hroom'
  refine ⟨C, ?_, hCfits⟩
  unfold Automaton.difference
  rw [requireCompatible_of_eq (hA.proper.symbols.trans hB.proper.symbols.symm), hD]
  exact hC

end Fits

end Automaton

end FiniteState

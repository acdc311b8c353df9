import FiniteState.Proofs.Labels
import FiniteState.Proofs.Walk

/-!
# How long accepting paths are

A walk that may take as many steps as the longest accepting path has transitions is sure to find a
word. The length of accepting paths is bounded by the words that they spell where every transition
reads a symbol. Operations raise the bound by the silent transitions that they add: a union adds one
to each path, and an intersection with an acceptor that reads a symbol at each step adds none.

* `Spans.union`, `Spans.intersection`, `Spans.difference`: how operations raise the bound.
* `Sampler.pick_spec`: with enough steps, a word is drawn if there is any.
-/

namespace FiniteState

namespace Automaton

variable {A B C : Automaton} {S : Alphabet} {m n : Nat}

/-- Every transition reads a symbol. -/
def Reading (A : Automaton) : Prop := ∀ q, ∀ t ∈ A.transitions q, t.input ≠ .epsilon

theorem spans_empty (S : Alphabet) (n : Nat) : (empty S).Spans n := fun _ hls =>
  absurd (relates_iff_carries.2 ⟨_, hls, rfl, rfl⟩) not_relates_empty

/-! ## Acceptors that read at every step -/

/-- A deterministic acceptor has no silent transition, so it reads at every step. -/
theorem reading_of_deterministic (hA : A.isAcceptor = true)
    (hdeterministic : A.system.Deterministic) : A.Reading := by
  intro q t ht hinput
  have hsilent : t.isSilent = false := hdeterministic.isSilent_eq_false q t ht
  rw [Arc.isSilent, ← isAcceptor_iff.1 hA q t ht, hinput] at hsilent
  cases hsilent

/-- An automaton over letters reads one at every step. -/
theorem Lettered.reading (hA : A.Lettered S) : A.Reading := by
  intro q t ht hinput
  obtain ⟨s, -, hlabels⟩ := hA q t ht
  cases hinput.symm.trans (Prod.mk.inj hlabels).1

/-- A trace is no longer than what it reads. -/
theorem Reading.length_le_of_trace (hA : A.Reading) {p q : Nat} {ls : List (Label × Label)}
    (h : A.system.Trace p ls q) : ls.length ≤ (spellLabels .input ls).length := by
  induction h with
  | nil => exact Nat.le_refl 0
  | @cons k _ t ls ht _ ih =>
    rw [spellLabels_cons, List.length_append, List.length_cons]
    have hread : 1 ≤ t.input.toWord.length := by
      cases hinput : t.input with
      | epsilon => exact absurd hinput (hA k t ht)
      | symbol s => exact Nat.le_refl 1
    show _ ≤ t.input.toWord.length + _
    omega

/-- A path is no longer than the word that it reads. -/
theorem Reading.spans (hA : A.Reading) (h : ∀ w, A.accepts w = true → w.length ≤ n) :
    A.Spans n := by
  intro ls hls
  obtain ⟨q, htrace, -⟩ := id hls
  refine (hA.length_le_of_trace htrace).trans (h _ ?_)
  exact accepts_iff_exists_relates.2 ⟨_, relates_iff_carries.2 ⟨ls, hls, rfl, rfl⟩⟩

/-! ## Operations

Bounds on accepting paths are handed on: a product is bounded by its left operand if the right one
never moves alone, and a union adds one step at its start. -/

/-- A path of a product takes a step of the left automaton at a time, if the right one never moves
alone. -/
theorem Reading.exists_trace_left (hB : B.Reading) {k l : StatePair} {ls : List (Label × Label)}
    (h : (A.product B).Trace k ls l) :
    ∃ ms, ms.length = ls.length ∧ A.system.Trace k.left ms l.left := by
  induction h with
  | nil k => exact ⟨[], rfl, .nil _⟩
  | cons ha _ ih =>
    obtain ⟨ms, hlength, htrace⟩ := ih
    rcases mem_arcs_product_iff.1 ha with ⟨t, ht, ha⟩ | ha
    · refine ⟨t.labels :: ms, congrArg (· + 1) hlength, ?_⟩
      rcases mem_leftArcs_iff.1 ha with ⟨-, rfl⟩ | ⟨s, -, u, -, -, rfl⟩ <;> exact .cons ht htrace
    · obtain ⟨u, hu, hinput, -⟩ := mem_rightArcs_iff.1 ha
      exact absurd hinput (hB _ u hu)

/-- An acceptor that reads at every step makes the paths of an intersection no longer. -/
theorem Spans.intersection (hA : A.Spans n) (hB : B.Reading) (hC : A.intersection B = .ok C) :
    C.Spans n := by
  obtain ⟨-, -, P, hP, rfl⟩ := intersection_eq_ok hC
  intro ls hls
  obtain ⟨l, htrace, haccepts⟩ :=
    (TransitionSystem.carries_explore_iff hP).1 (carries_trim_iff.1 hls)
  obtain ⟨ms, hlength, hleft⟩ := hB.exists_trace_left htrace
  rw [← hlength]
  exact hA ms ⟨l.left, hleft, (Bool.and_eq_true_iff.1 haccepts).1⟩

/-- A complement reads at every step, so a difference makes paths no longer either. -/
theorem Spans.difference (hA : A.Spans n) (hC : A.difference B = .ok C) : C.Spans n := by
  obtain ⟨D, hD, hC⟩ := difference_eq_ok hC
  exact hA.intersection (lettered_complement hD).reading hC

/-- A path of a copy is a path of the automaton. -/
theorem HasCopy.length_le {D : Automaton} {k l : Nat} (h : C.HasCopy D k) (hD : D.Spans n)
    {ls : List (Label × Label)} (htrace : C.system.Trace (D.start + k) ls l)
    (hl : C.isFinal l = true) : ls.length ≤ n := by
  obtain ⟨q, hq, rfl, hcopy⟩ := h.exists_trace D.start_lt_size htrace
  rw [h.isFinal hq] at hl
  exact hD ls ⟨q, hcopy, hl⟩

/-- The new start of a union adds one transition. -/
theorem spans_sum (hA : A.Spans n) (hB : B.Spans n) : (A.sum B).Spans (n + 1) := by
  rintro ls ⟨l, htrace, hl⟩
  have hlinks : (A.sum B).system.arcs (A.sum B).start
      = [.silent (A.start + 1), .silent (B.start + (A.size + 1))] :=
    congrArg State.transitions (A.state_sum_zero B)
  cases htrace with
  | nil => exact Nat.zero_le _
  | cons ha htrace =>
    rw [hlinks] at ha
    refine Nat.succ_le_succ ?_
    rcases List.mem_pair.1 ha with rfl | rfl
    · exact (A.hasCopy_sum_left B).length_le hA htrace hl
    · exact (A.hasCopy_sum_right B).length_le hB htrace hl

theorem Spans.union (hA : A.Spans n) (hB : B.Spans n) (hC : A.union B = .ok C) :
    C.Spans (n + 1) := by
  obtain ⟨-, -, h⟩ := Except.bind_eq_ok.1 hC
  obtain ⟨-, -, h⟩ := Except.bind_eq_ok.1 h
  exact Except.pure_eq_ok.1 h ▸ spans_sum hA hB

end Automaton

/-! ## Drawing a word -/

namespace Sampler

variable {ρ : Type} [RandomSource ρ] {A : Automaton} {s s' : Sampler ρ}

/-- A word that is drawn is accepted, and if none is drawn, there is none. -/
theorem pick_spec {found : Option Word} (hA : A.Spans s.maxLength) (h : pick A s = (found, s')) :
    (∀ w, found = some w → ∃ x, A.Relates x w) ∧ (found = none → ∀ x y, ¬ A.Relates x y) := by
  constructor
  · rintro w rfl
    exact relates_of_pick h
  · rintro rfl x y hxy
    obtain ⟨ls, hls, -⟩ := Automaton.relates_iff_carries.1 hxy
    obtain ⟨w, t, hsome⟩ := exists_pick ⟨ls, hls⟩ hA
    cases hsome.symm.trans h

end Sampler

end FiniteState

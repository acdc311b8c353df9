import FiniteState.Proofs.Canonical
import FiniteState.Proofs.Run

/-!
# Trimmed automata

A trimmed automaton is a part of the automaton: its states stand for the start and the useful
states, in their order, and each has the transitions to states that are left, in their order. Since
every state but the start is useful in what is left, trimming once more changes nothing.

* `partOf_trim`: the states and transitions that are left.
* `trim_trim`: trimming twice.
* `isEmpty_iff_not_transduces`: the test for emptiness.
* `trim_exact`: all that trimming does.
-/

namespace FiniteState

namespace Automaton

variable {A : Automaton}

/-! ## The part that is left -/

/-- The states of `B` stand for states of `A`, in their order, and have all transitions of these
among them, in their order. -/
structure PartOf (B A : Automaton) (origin : Nat → Nat) : Prop where
  alphabet : B.alphabet = A.alphabet
  start : origin B.start = A.start
  lt : ∀ i j, i < j → j < B.size → origin i < origin j
  isFinal : ∀ i < B.size, B.isFinal i = A.isFinal (origin i)
  transitions : ∀ i < B.size,
    (B.transitions i).map (fun t => t.withTarget (origin t.target))
      = (A.transitions (origin i)).filter fun t => decide (∃ j < B.size, origin j = t.target)

/-- The trimmed automaton is a part of the automaton. -/
theorem partOf_trim (A : Automaton) : A.trim.PartOf A A.origin where
  alphabet := A.alphabet_trim
  start := A.origin_start
  lt := fun _ _ => origin_lt_origin
  isFinal := fun _ => isFinal_trim
  transitions := fun _ => map_transitions_trim

/-! ## What becomes of the part -/

theorem transduces_trim (A : Automaton) (x y : Word) :
    A.trim.transduces x y = A.transduces x y :=
  transduces_congr (fun _ _ => relates_trim_iff) x y

/-- A trimmed automaton is left as it is. -/
theorem trim_trim (A : Automaton) : A.trim.trim = A.trim := by
  apply trim_eq_self
  intro q hq
  by_cases hstart : q = A.trim.start
  · exact .inl hstart
  · exact .inr (useful_trim_of_ne_start hq hstart)

/-- An automaton is found empty if it transduces nothing. -/
theorem isEmpty_iff_not_transduces :
    A.isEmpty = true ↔ ∀ x y, A.transduces x y = false := by
  simp only [isEmpty_iff_not_relates, ← Bool.not_eq_true, transduces_iff_relates]

/-- A state of the trimmed automaton is useless only if it is the start and no words are related. -/
theorem useful_trim_of_transduces {q : Nat} (hq : q < A.trim.size)
    (h : q ≠ A.trim.start ∨ ∃ x y, A.transduces x y = true) : A.trim.Useful q := by
  rcases h with hne | hrelated
  · exact useful_trim_of_ne_start hq hne
  · simp only [transduces_iff_relates] at hrelated
    exact useful_trim (exists_carries_iff_relates.2 hrelated) hq

/-- Trimming keeps the words that are related. Of the states it keeps the start and those on a path
from there to an accepting state, in their order, with the transitions between them. In the trimmed
automaton, all states but the start are on such a path, and so is the start if any words are
related. Trimming once more changes nothing. An automaton is empty if no words are related. -/
theorem trim_exact (A : Automaton) :
    (∀ x y, A.trim.transduces x y = A.transduces x y)
      ∧ (∀ q < A.trim.size, q ≠ A.trim.start ∨ (∃ x y, A.transduces x y = true) →
          (∃ ts, A.trim.Path A.trim.start ts q)
            ∧ ∃ ts f, A.trim.Path q ts f ∧ A.trim.isFinal f = true)
      ∧ (∃ origin, A.trim.PartOf A origin ∧ ∀ q, (∃ i < A.trim.size, origin i = q)
          ↔ q = A.start
            ∨ (∃ ts, A.Path A.start ts q) ∧ ∃ ts f, A.Path q ts f ∧ A.isFinal f = true)
      ∧ A.trim.trim = A.trim
      ∧ (A.isEmpty = true ↔ ∀ x y, A.transduces x y = false) := by
  refine ⟨A.transduces_trim, fun q hq h => ?_, ⟨A.origin, A.partOf_trim, fun q => ?_⟩,
    A.trim_trim, isEmpty_iff_not_transduces⟩
  · exact useful_iff_path.1 (useful_trim_of_transduces hq h)
  · rw [exists_origin_eq_iff, useful_iff_path]

/-- Reads an a and writes a b or nothing, as often as it likes, with a d in between. The first state
is not reached, and the third is a dead end. -/
def straying : Automaton where
  alphabet := .abcd
  states := #[
    { accepting := true, transitions := [⟨.symbol ⟨0⟩, .symbol ⟨0⟩, 3⟩] },
    { transitions := [⟨.symbol ⟨0⟩, .symbol ⟨0⟩, 2⟩, ⟨.symbol ⟨0⟩, .symbol ⟨1⟩, 3⟩,
        ⟨.epsilon, .symbol ⟨2⟩, 2⟩, ⟨.symbol ⟨0⟩, .epsilon, 3⟩] },
    { transitions := [⟨.symbol ⟨1⟩, .symbol ⟨1⟩, 2⟩] },
    { accepting := true, transitions := [⟨.symbol ⟨2⟩, .symbol ⟨2⟩, 2⟩,
        ⟨.epsilon, .symbol ⟨3⟩, 1⟩] }]
  start := 1
  start_lt := by decide
  target_lt := by decide

/-- What is left of it once it is trimmed. -/
def strayingTrimmed : Automaton where
  alphabet := .abcd
  states := #[
    { transitions := [⟨.symbol ⟨0⟩, .symbol ⟨1⟩, 1⟩, ⟨.symbol ⟨0⟩, .epsilon, 1⟩] },
    { accepting := true, transitions := [⟨.epsilon, .symbol ⟨3⟩, 0⟩] }]
  start := 0
  start_lt := by decide
  target_lt := by decide

/-- The automaton still relates aa to bd when it is trimmed, its start is on an accepting path, and
nothing else can be trimmed. -/
theorem trim_straying :
    (straying.trim = strayingTrimmed ∧ straying.transduces [⟨0⟩, ⟨0⟩] [⟨1⟩, ⟨3⟩] = true)
      ∧ strayingTrimmed.transduces [⟨0⟩, ⟨0⟩] [⟨1⟩, ⟨3⟩] = true
      ∧ (∃ ts f, strayingTrimmed.Path 0 ts f ∧ strayingTrimmed.isFinal f = true)
      ∧ strayingTrimmed.trim = strayingTrimmed ∧ straying.isEmpty = false := by
  have htrim : straying.trim = strayingTrimmed := by cbv
  have hrelated : straying.transduces [⟨0⟩, ⟨0⟩] [⟨1⟩, ⟨3⟩] = true := by cbv
  obtain ⟨hsame, huseful, -, htwice, hempty⟩ := trim_exact straying
  rw [htrim] at hsame huseful htwice
  refine ⟨⟨htrim, hrelated⟩, (hsame _ _).trans hrelated, ?_, htwice, ?_⟩
  · exact (huseful 0 (by decide) (.inr ⟨_, _, hrelated⟩)).2
  · rw [Bool.eq_false_iff, ne_eq, hempty]
    intro hnone
    rw [hnone] at hrelated
    cases hrelated

end Automaton

end FiniteState

import FiniteState.Proofs.Boolean
import FiniteState.Proofs.Labels

/-!
# Differences

A difference is an intersection with a complement, and there are only words over Σ in a complement.
So of the words of the first acceptor that the second one rejects, those over Σ are left. The second
one must have labels of Σ to be complemented; nothing is asked of the first one, and its words with
other symbols are lost.

* `accepts_difference_iff`: the words of a difference.
* `over_alphabet_iff`: when an acceptor has words over Σ only.
* `difference_exact`: when the difference is that of the languages.
-/

namespace FiniteState

namespace Automaton

variable {A B C : Automaton} {w : Word}

/-- The difference holds the words over Σ that only the first operand accepts. -/
theorem accepts_difference_iff (h : A.difference B = .ok C) :
    C.accepts w = true ↔ A.accepts w = true ∧ w.Over A.alphabet ∧ B.accepts w = false := by
  obtain ⟨D, hD, hC⟩ := difference_eq_ok h
  rw [accepts_intersection_iff hC, accepts_complement_iff hD,
    Word.over_congr (difference_compatible h)]

/-- What is taken away must have a complement, so it has words over Σ only. -/
theorem over_of_difference (h : A.difference B = .ok C) (hw : B.accepts w = true) :
    w.Over A.alphabet := by
  obtain ⟨D, hD, -⟩ := difference_eq_ok h
  obtain ⟨-, hover, -⟩ := complement_eq_ok hD
  exact (Word.over_congr (difference_compatible h)).2 (hover.over_of_accepts hw)

/-- A difference is defined for acceptors only. -/
theorem isAcceptor_of_difference (h : A.difference B = .ok C) : A.isAcceptor = true := by
  obtain ⟨D, -, hC⟩ := difference_eq_ok h
  exact (intersection_eq_ok hC).1

/-! ## Words over Σ -/

/-- A transition between useful states reads a symbol of an accepted word. -/
theorem exists_accepts_of_useful {q : Nat} {t : Transition} {s : Symbol} (hq : A.Useful q)
    (ht : t ∈ A.transitions q) (htarget : A.Useful t.target) (hinput : t.input = .symbol s) :
    ∃ w, A.accepts w = true ∧ s ∈ w := by
  obtain ⟨⟨us, hus⟩, -⟩ := hq
  obtain ⟨-, vs, f, hvs, hf⟩ := htarget
  have hcarries : A.Carries (us ++ t.labels :: vs) := ⟨f, hus.append (.cons ht hvs), hf⟩
  refine ⟨_, accepts_iff_exists_relates.2 ⟨_, relates_iff_carries.2 ⟨_, hcarries, rfl, rfl⟩⟩, ?_⟩
  refine List.mem_flatMap.2 ⟨t.labels, List.mem_append_right _ List.mem_cons_self, ?_⟩
  show s ∈ t.input.toWord
  rw [hinput]
  exact List.mem_singleton_self s

/-- An acceptor has words over Σ only if it has none at all, or if what trimming leaves of it has
labels of Σ only. -/
theorem over_alphabet_iff (hA : A.isAcceptor = true) :
    (∀ w, A.accepts w = true → w.Over A.alphabet) ↔ A.isEmpty = true ∨ A.trim.OverAlphabet := by
  constructor
  · intro h
    by_cases hempty : A.isEmpty = true
    · exact .inl hempty
    refine .inr ⟨isAcceptor_iff.1 (allLabels_copying_iff.1 (allLabels_copying_iff.2 hA).trim), ?_⟩
    have hne := exists_carries_of_not_isEmpty hempty
    intro q t ht s hinput
    -- every transition that is left is on the way to an accepting state
    obtain ⟨w, hw, hs⟩ := exists_accepts_of_useful (useful_trim hne (lt_size_of_mem_transitions ht))
      ht (useful_trim hne (target_lt_size ht)) hinput
    exact h w (A.accepts_trim w ▸ hw) s hs
  · rintro (hempty | hover) w hw
    · rw [isEmpty_iff_rejects.1 hempty] at hw
      cases hw
    · exact hover.over_of_accepts ((A.accepts_trim w).trans hw)

/-! ## The difference of languages -/

/-- A difference has the words over Σ that the first acceptor accepts and the second rejects. The
words with other symbols that the first accepts are lost, so the difference is that of the languages
exactly if there are no such words: if the first acceptor is empty, or trimming leaves letters of Σ
only. -/
theorem difference_exact (A B C : Automaton) (h : A.difference B = .ok C) :
    (∀ w, C.accepts w = true ↔ A.accepts w = true ∧ w.Over A.alphabet ∧ B.accepts w = false)
      ∧ (∀ w, (A.accepts w = true ∧ B.accepts w = false ∧ C.accepts w = false)
          ↔ A.accepts w = true ∧ ¬ w.Over A.alphabet)
      ∧ ((∀ w, C.accepts w = true ↔ A.accepts w = true ∧ B.accepts w = false)
          ↔ A.isEmpty = true ∨ A.trim.OverAlphabet) := by
  -- a word outside Σ that is accepted is lost, as the second operand has letters of Σ only
  have hlost : ∀ w, (A.accepts w = true ∧ B.accepts w = false ∧ C.accepts w = false)
      ↔ A.accepts w = true ∧ ¬ w.Over A.alphabet := by
    intro w
    rw [← Bool.not_eq_true (C.accepts w), accepts_difference_iff h]
    constructor
    · rintro ⟨hA, hB, hC⟩
      exact ⟨hA, fun hover => hC ⟨hA, hover, hB⟩⟩
    · rintro ⟨hA, hover⟩
      have hB : B.accepts w = false :=
        Bool.eq_false_iff.2 fun hB => hover (over_of_difference h hB)
      exact ⟨hA, hB, fun hC => hover hC.2.1⟩
  refine ⟨fun w => accepts_difference_iff h, hlost, ?_⟩
  rw [← over_alphabet_iff (isAcceptor_of_difference h)]
  constructor
  · intro hexact w hw
    -- an accepted word with other symbols would be lost
    by_contra hover
    obtain ⟨hA, hB, hC⟩ := (hlost w).2 ⟨hw, hover⟩
    rw [(hexact w).2 ⟨hA, hB⟩] at hC
    cases hC
  · intro hover w
    rw [accepts_difference_iff h]
    exact ⟨fun hw => ⟨hw.1, hw.2.2⟩, fun hw => ⟨hw.1, hover w hw.1, hw.2⟩⟩

/-- The words that end in a, without the word a itself. -/
theorem difference_exact_finallyA :
    ∃ C, finallyA.difference (symbol .abcd ⟨0⟩) = .ok C
      ∧ (∀ w, C.accepts w = true
          ↔ finallyA.accepts w = true ∧ (symbol .abcd ⟨0⟩).accepts w = false)
      ∧ C.accepts [⟨1⟩, ⟨0⟩] = true ∧ C.accepts [⟨0⟩] = false := by
  have ha : (symbol .abcd ⟨0⟩).accepts [⟨0⟩] = true := by cbv
  have hba : finallyA.accepts [⟨1⟩, ⟨0⟩] = true ∧ (symbol .abcd ⟨0⟩).accepts [⟨1⟩, ⟨0⟩] = false :=
    ⟨by cbv, by cbv⟩
  have hok : (finallyA.difference (symbol .abcd ⟨0⟩)).isOk = true := by cbv
  obtain ⟨C, hC⟩ := Except.exists_eq_ok hok
  have hexact := (difference_exact _ _ C hC).2.2.2 (.inr (by decide +kernel))
  refine ⟨C, hC, hexact, (hexact _).2 hba, Bool.eq_false_iff.2 fun hword => ?_⟩
  exact Bool.eq_false_iff.1 ((hexact _).1 hword).2 ha

/-- The mark of an insertion, with nothing taken away from it, is lost. -/
theorem difference_drops_marker :
    (symbol .abcd ⟨4⟩).difference (empty .abcd) = .ok (empty .abcd)
      ∧ (symbol .abcd ⟨4⟩).accepts [⟨4⟩] = true ∧ (empty .abcd).accepts [⟨4⟩] = false :=
  ⟨by cbv, by cbv, by cbv⟩

end Automaton

end FiniteState

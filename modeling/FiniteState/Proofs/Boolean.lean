import Mathlib
import FiniteState.Proofs.Complement

/-!
# Boolean operations

What can come of an intersection or a complement: an operand is refused, the limit on the number of
states is exceeded, or the result has exactly the words that it should have.

* `intersection_cases`, `complement_cases`: every outcome with the condition under which it arises.
* `intersection_complement_exact`: the results that succeed, and when an operand is refused.
-/

namespace FiniteState

/-- Whether the error refuses an operand, as undeclared in its symbols or as a transducer. -/
def Error.isRefusal : Error → Bool
  | undeclaredAlphabet .. => true
  | notAnAcceptor .. => true
  | _ => false

namespace Automaton

variable {A B C : Automaton}

/-! ## Outcomes -/

/-- Every outcome of an intersection: incompatible alphabets come before transducers, and only then
are pairs of states counted. -/
theorem intersection_cases (A B : Automaton) :
    (A.alphabet.symbols ≠ B.alphabet.symbols ∧ A.intersection B
        = .error (.alphabetMismatch .intersection A.alphabet.symbols B.alphabet.symbols))
      ∨ (A.alphabet.symbols = B.alphabet.symbols ∧ (A.Rewrites ∨ B.Rewrites)
          ∧ A.intersection B = .error (.notAnAcceptor .intersection))
      ∨ (A.alphabet.symbols = B.alphabet.symbols ∧ ¬ A.Rewrites ∧ ¬ B.Rewrites
          ∧ (A.intersection B = .error (.stateExplosion .intersection A.alphabet.stateLimit)
            ∨ ∃ C, A.intersection B = .ok C)) := by
  rcases requireCompatible_cases .intersection A B with ⟨hsymbols, hrequire⟩ | ⟨hsymbols, hrequire⟩
  case inr => exact .inl ⟨hsymbols, Except.bind_eq_error.2 (.inl hrequire)⟩
  case inl =>
    -- what is left to do once the alphabets have been compared
    have hrest : A.intersection B
        = if A.isAcceptor && B.isAcceptor
          then (A.product B).explore A.alphabet .intersection >>= fun P => pure P.trim
          else throw (.notAnAcceptor .intersection) := by
      unfold intersection
      rw [hrequire]
      rfl
    simp only [rewrites_iff, Bool.not_eq_false]
    rw [hrest]
    by_cases hacceptors : (A.isAcceptor && B.isAcceptor) = true
    · rw [if_pos hacceptors]
      obtain ⟨hA, hB⟩ := Bool.and_eq_true_iff.1 hacceptors
      refine .inr (.inr ⟨hsymbols, hA, hB, ?_⟩)
      cases hP : (A.product B).explore A.alphabet .intersection with
      | error e => exact .inl (congrArg Except.error (TransitionSystem.explore_eq_error hP))
      | ok P => exact .inr ⟨P.trim, rfl⟩
    · rw [if_neg hacceptors]
      refine .inr (.inl ⟨hsymbols, ?_, rfl⟩)
      rwa [Bool.not_eq_true, Bool.and_eq_false_iff] at hacceptors

/-- Completion fails for lack of room only. -/
theorem complete_cases (A : Automaton) :
    A.complete = .error (.stateExplosion .complement A.alphabet.stateLimit)
      ∨ ∃ C, A.complete = .ok C := by
  unfold complete requireRoom
  split
  · exact .inr ⟨A, rfl⟩
  · split
    · exact .inr ⟨A.withSink, rfl⟩
    · exact .inl rfl

/-- Every outcome of a complement. -/
theorem complement_cases (A : Automaton) :
    (A.alphabet.symbols = []
        ∧ A.complement = .error (.undeclaredAlphabet .complement .noSymbols))
      ∨ (A.alphabet.symbols ≠ [] ∧ A.Rewrites ∧ A.complement = .error (.notAnAcceptor .complement))
      ∨ (A.alphabet.symbols ≠ [] ∧ ¬ A.Rewrites ∧ A.Strays ∧ ∃ name,
          A.complement = .error (.undeclaredAlphabet .complement (.outside name)))
      ∨ (A.alphabet.symbols ≠ [] ∧ A.OverAlphabet
          ∧ ((∃ operation, A.complement = .error (.stateExplosion operation A.alphabet.stateLimit))
            ∨ ∃ C, A.complement = .ok C)) := by
  -- what is reported about the requirements is reported about the complement
  have hrefused : ∀ {e : Error}, A.requireComplementable = .error e → A.complement = .error e :=
    fun h => Except.bind_eq_error.2 (.inl h)
  rcases A.requireComplementable_cases with ⟨hempty, h⟩ | ⟨hsymbols, hrewrites, h⟩
    | ⟨hsymbols, hcopies, hstrays, name, h⟩ | ⟨hsymbols, hover, h⟩
  · exact .inl ⟨hempty, hrefused h⟩
  · exact .inr (.inl ⟨hsymbols, hrewrites, hrefused h⟩)
  · exact .inr (.inr (.inl ⟨hsymbols, hcopies, hstrays, name, hrefused h⟩))
  refine .inr (.inr (.inr ⟨hsymbols, hover, ?_⟩))
  have hrest : A.complement
      = A.determinize >>= fun D => D.complete >>= fun E => pure E.flip := by
    unfold complement
    rw [h]
    rfl
  rw [hrest]
  cases hD : A.determinize with
  | error e =>
    have he : e = .stateExplosion .determinize A.alphabet.stateLimit :=
      TransitionSystem.explore_eq_error hD
    exact .inl ⟨.determinize, congrArg Except.error he⟩
  | ok D =>
    -- determinization keeps the alphabet, and with it the limit
    rw [← alphabet_determinize hD]
    show (∃ operation, D.complete >>= _ = _) ∨ ∃ C, D.complete >>= _ = _
    -- the sink may be one state too many
    rcases D.complete_cases with hlimit | ⟨E, hE⟩
    · exact .inl ⟨.complement, Except.bind_eq_error.2 (.inl hlimit)⟩
    · exact .inr ⟨E.flip, Except.bind_eq_ok.2 ⟨E, hE, rfl⟩⟩

/-- A complement is refused exactly for an alphabet without letters, a transducer, or a symbol
outside of Σ. -/
theorem complement_refused_iff :
    (∃ e, A.complement = .error e ∧ e.isRefusal = true)
      ↔ A.alphabet.symbols = [] ∨ A.Rewrites ∨ A.Strays := by
  rcases A.complement_cases with ⟨hempty, h⟩ | ⟨-, hrewrites, h⟩ | ⟨-, -, hstrays, name, h⟩
    | ⟨hsymbols, hover, h⟩
  · exact iff_of_true ⟨_, h, rfl⟩ (.inl hempty)
  · exact iff_of_true ⟨_, h, rfl⟩ (.inr (.inl hrewrites))
  · exact iff_of_true ⟨_, h, rfl⟩ (.inr (.inr hstrays))
  · obtain ⟨hcopies, hdeclared⟩ := overAlphabet_iff.1 hover
    refine iff_of_false ?_ (by simp [hsymbols, hcopies, hdeclared])
    rintro ⟨e, he, hrefusal⟩
    rcases h with ⟨operation, hlimit⟩ | ⟨C, hC⟩
    · cases hlimit.symm.trans he
      cases hrefusal
    · cases hC.symm.trans he

/-- An intersection is refused exactly for a transducer over a compatible alphabet. -/
theorem intersection_refused_iff :
    (∃ operation, A.intersection B = .error (.notAnAcceptor operation))
      ↔ A.alphabet.symbols = B.alphabet.symbols ∧ (A.Rewrites ∨ B.Rewrites) := by
  rcases intersection_cases A B with ⟨hsymbols, h⟩ | ⟨hsymbols, hrewrites, h⟩
    | ⟨hsymbols, hA, hB, h⟩
  · refine iff_of_false ?_ fun hcompatible => hsymbols hcompatible.1
    rintro ⟨operation, he⟩
    cases h.symm.trans he
  · exact iff_of_true ⟨_, h⟩ ⟨hsymbols, hrewrites⟩
  · refine iff_of_false ?_ (by simp [hA, hB])
    rintro ⟨operation, he⟩
    rcases h with hlimit | ⟨C, hC⟩
    · cases hlimit.symm.trans he
    · cases hC.symm.trans he

/-! ## Both operations -/

/-- An intersection accepts what both acceptors accept, and a complement the words over Σ that are
rejected. A complement is refused for an alphabet without letters, a transducer or a symbol outside
of Σ, and an intersection for a transducer over a compatible alphabet. -/
theorem intersection_complement_exact (A B : Automaton) :
    (∀ C, A.intersection B = .ok C →
        ∀ w, C.accepts w = true ↔ A.accepts w = true ∧ B.accepts w = true)
      ∧ (∀ C, A.complement = .ok C →
          ∀ w, C.accepts w = true ↔ w.Over A.alphabet ∧ A.accepts w = false)
      ∧ ((∃ e, A.complement = .error e ∧ e.isRefusal = true)
          ↔ A.alphabet.symbols = [] ∨ A.Rewrites ∨ A.Strays)
      ∧ ((∃ operation, A.intersection B = .error (.notAnAcceptor operation))
          ↔ A.alphabet.symbols = B.alphabet.symbols ∧ (A.Rewrites ∨ B.Rewrites)) :=
  ⟨fun _ hC _ => accepts_intersection_iff hC, fun _ hC _ => accepts_complement_iff hC,
    complement_refused_iff, intersection_refused_iff⟩

/-- Accepts the words over a and b that end in a, with a silent cycle before the last letter. -/
def finallyA : Automaton where
  alphabet := .abcd
  states := #[
    { transitions := [⟨.symbol ⟨0⟩, .symbol ⟨0⟩, 0⟩, ⟨.symbol ⟨1⟩, .symbol ⟨1⟩, 0⟩,
        ⟨.epsilon, .epsilon, 1⟩] },
    { transitions := [⟨.symbol ⟨0⟩, .symbol ⟨0⟩, 2⟩, ⟨.epsilon, .epsilon, 0⟩] },
    { accepting := true }]
  start := 0
  start_lt := by decide
  target_lt := by decide

/-- Accepts a, and the mark of an insertion. -/
def aOrInsertion : Automaton where
  alphabet := .abcd
  states := #[
    { transitions := [⟨.symbol ⟨0⟩, .symbol ⟨0⟩, 1⟩, ⟨.symbol ⟨4⟩, .symbol ⟨4⟩, 1⟩] },
    { accepting := true }]
  start := 0
  start_lt := by decide
  target_lt := by decide

/-- Accepts a; the silent cycle is still there. -/
def finallyOnlyA : Automaton where
  alphabet := .abcd
  states := #[
    { transitions := [⟨.epsilon, .epsilon, 1⟩] },
    { transitions := [⟨.symbol ⟨0⟩, .symbol ⟨0⟩, 2⟩, ⟨.epsilon, .epsilon, 0⟩] },
    { accepting := true }]
  start := 0
  start_lt := by decide
  target_lt := by decide

/-- Accepts the words that have another letter than a and b or do not end in a: the last state is
the sink. -/
def notFinallyA : Automaton where
  alphabet := .abcd
  states := #[
    { accepting := true
      transitions := [⟨.symbol ⟨0⟩, .symbol ⟨0⟩, 1⟩, ⟨.symbol ⟨1⟩, .symbol ⟨1⟩, 0⟩,
        ⟨.symbol ⟨2⟩, .symbol ⟨2⟩, 2⟩, ⟨.symbol ⟨3⟩, .symbol ⟨3⟩, 2⟩] },
    { transitions := [⟨.symbol ⟨0⟩, .symbol ⟨0⟩, 1⟩, ⟨.symbol ⟨1⟩, .symbol ⟨1⟩, 0⟩,
        ⟨.symbol ⟨2⟩, .symbol ⟨2⟩, 2⟩, ⟨.symbol ⟨3⟩, .symbol ⟨3⟩, 2⟩] },
    { accepting := true
      transitions := [⟨.symbol ⟨0⟩, .symbol ⟨0⟩, 2⟩, ⟨.symbol ⟨1⟩, .symbol ⟨1⟩, 2⟩,
        ⟨.symbol ⟨2⟩, .symbol ⟨2⟩, 2⟩, ⟨.symbol ⟨3⟩, .symbol ⟨3⟩, 2⟩] }]
  start := 0
  start_lt := by decide
  target_lt := by decide

theorem intersection_finallyA : finallyA.intersection aOrInsertion = .ok finallyOnlyA := by cbv

theorem complement_finallyA : finallyA.complement = .ok notFinallyA := by cbv

/-- Both operations on automata over abcd: ac is in the complement and the mark of an insertion is
not; the automaton that reads the mark has no complement. -/
theorem accepts_notFinallyA :
    finallyA.intersection aOrInsertion = .ok finallyOnlyA ∧ finallyOnlyA.accepts [⟨0⟩] = true
      ∧ finallyA.complement = .ok notFinallyA ∧ notFinallyA.accepts [⟨0⟩, ⟨2⟩] = true
      ∧ notFinallyA.accepts [⟨4⟩] ≠ true
      ∧ ∃ e, aOrInsertion.complement = .error e ∧ e.isRefusal = true := by
  obtain ⟨hboth, hnot, -, -⟩ := intersection_complement_exact finallyA aOrInsertion
  obtain ⟨-, -, hrefused, -⟩ := intersection_complement_exact aOrInsertion finallyA
  refine ⟨intersection_finallyA, ?_, complement_finallyA, ?_, ?_, ?_⟩
  · apply (hboth _ intersection_finallyA _).2
    exact ⟨by cbv, by cbv⟩
  · have hover : ∀ s ∈ [(⟨0⟩ : Symbol), ⟨2⟩], Alphabet.abcd.contains s = true := by decide
    apply (hnot _ complement_finallyA _).2
    exact ⟨hover, by cbv⟩
  · intro h
    have hover : Word.Over Alphabet.abcd [⟨4⟩] := ((hnot _ complement_finallyA _).1 h).1
    exact absurd (hover ⟨4⟩ List.mem_cons_self) (by decide)
  · apply hrefused.2
    -- the transition of the mark
    exact .inr (.inr ⟨0, ⟨.symbol ⟨4⟩, .symbol ⟨4⟩, 1⟩, by decide, .input, ⟨4⟩, rfl, by decide⟩)

end Automaton

end FiniteState

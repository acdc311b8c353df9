import FiniteState.Automaton.Determinize
import FiniteState.Automaton.Product

/-!
# Complement and difference

The complement of an acceptor is taken relative to all words over Σ. The determinized acceptor is
completed by a sink, a state that no path leaves, wherever a letter of Σ is missing; then acceptance
is flipped. The difference is an intersection with a complement.
-/

namespace FiniteState

namespace Automaton

/-- The symbols on the input tape, in the order of the states and their transitions. -/
def inputSymbols (A : Automaton) : List Symbol :=
  A.stateNumbers.flatMap fun q => (A.transitions q).filterMap (·.input.symbol?)

/-- The letters of Σ that no transition of the state reads. -/
def missingLetters (S : Alphabet) (s : State) : List Symbol :=
  S.sigma.filter fun c => !s.transitions.any (·.input == .symbol c)

/-- Whether every state reads every letter of Σ. -/
def isComplete (A : Automaton) : Bool :=
  A.states.all fun s => (missingLetters A.alphabet s).isEmpty

/-- The states with acceptance flipped. -/
def flip (A : Automaton) : Automaton where
  alphabet := A.alphabet
  states := A.states.map fun s => { s with accepting := !s.accepting }
  start := A.start
  start_lt := by simpa using A.start_lt
  target_lt := by
    intro s hs t ht
    obtain ⟨s', hs', rfl⟩ := Array.mem_map.1 hs
    simpa using A.target_lt s' hs' t ht

/-- The automaton with a sink as its last state, to which the missing letters lead. -/
def withSink (A : Automaton) : Automaton where
  alphabet := A.alphabet
  states :=
    (A.states.map fun s =>
      { s with
        transitions := s.transitions
          ++ (missingLetters A.alphabet s).map fun c => .copying (.symbol c) A.size })
      ++ #[{ transitions := A.alphabet.sigma.map fun c => .copying (.symbol c) A.size }]
  start := A.start
  start_lt := by
    rw [Array.size_append, Array.size_map]
    exact Nat.lt_of_lt_of_le A.start_lt (Nat.le_add_right _ _)
  target_lt := by
    intro s hs t ht
    simp only [Array.size_append, Array.size_map, List.size_toArray, List.length_singleton]
    rcases Array.mem_append.1 hs with hs | hs
    · obtain ⟨s', hs', rfl⟩ := Array.mem_map.1 hs
      rcases List.mem_append.1 ht with ht | ht
      · exact Nat.lt_succ_of_lt (A.target_lt s' hs' t ht)
      · obtain ⟨c, -, rfl⟩ := List.mem_map.1 ht
        exact Nat.lt_succ_self _
    · simp only [List.mem_toArray, List.mem_singleton] at hs
      subst hs
      obtain ⟨c, -, rfl⟩ := List.mem_map.1 ht
      exact Nat.lt_succ_self _

/-- The automaton with a sink if a letter is missing somewhere. -/
def complete (A : Automaton) : Except Error Automaton :=
  if A.isComplete then .ok A
  else do
    requireRoom .complement A.alphabet (A.size + 1)
    return A.withSink

/-- Refuses an automaton without a complement: over an alphabet without symbols, a transducer, or
one that uses a symbol outside of Σ. -/
def requireComplementable (A : Automaton) : Except Error Unit :=
  if A.alphabet.isEmpty then .error (.undeclaredAlphabet .complement .noSymbols)
  else if !A.isAcceptor then .error (.notAnAcceptor .complement)
  else match A.inputSymbols.find? (!A.alphabet.contains ·) with
    | some s => .error (.undeclaredAlphabet .complement (.outside (A.alphabet.name s)))
    | none => .ok ()

/-- The words over Σ that the acceptor rejects. -/
def complement (A : Automaton) : Except Error Automaton := do
  A.requireComplementable
  -- acceptance is flipped last, so the sink accepts
  return (← (← A.determinize).complete).flip

/-- The words that `A` accepts and `B` rejects. -/
def difference (A B : Automaton) : Except Error Automaton := do
  requireCompatible .difference A B
  A.intersection (← B.complement)

end Automaton

end FiniteState

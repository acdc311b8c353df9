import FiniteState.Label

/-!
# Automata

An automaton is a finite-state acceptor or two-tape transducer over an alphabet. Its states are
numbered from zero; each is accepting or not and has a list of transitions. The start state exists,
and every transition leads to a state that exists. An acceptor is an automaton whose transitions all
copy what they read.
-/

namespace FiniteState

/-- A transition between states, given by their numbers. -/
abbrev Transition := Arc Nat

/-- A state of an automaton. -/
structure State where
  /-- Whether a path may end in the state. -/
  accepting : Bool := false
  /-- The transitions that leave the state. -/
  transitions : List Transition := []
deriving DecidableEq, Repr

namespace State

/-- The state with one more transition at the end of its list. -/
def addTransition (s : State) (t : Transition) : State :=
  { s with transitions := s.transitions ++ [t] }

/-- The state in an automaton whose states have been renumbered by adding `k`. -/
def shift (k : Nat) (s : State) : State :=
  { s with transitions := s.transitions.map fun t => t.withTarget (t.target + k) }

end State

/-- A finite-state acceptor or transducer. -/
structure Automaton where
  /-- The alphabet of the automaton. -/
  alphabet : Alphabet
  /-- The states by number. -/
  states : Array State
  /-- The number of the start state. -/
  start : Nat
  /-- The start state exists. -/
  start_lt : start < states.size
  /-- Every transition leads to a state that exists. -/
  target_lt : ∀ s ∈ states, ∀ t ∈ s.transitions, t.target < states.size
deriving DecidableEq

namespace Automaton

/-- The number of states, reachable or not. -/
def size (A : Automaton) : Nat := A.states.size

/-- The state with the given number. A number that is not in use names a state that does not accept
and has no transitions. -/
def state (A : Automaton) (q : Nat) : State := A.states.getD q {}

/-- Whether the state exists and is accepting. -/
def isFinal (A : Automaton) (q : Nat) : Bool := (A.state q).accepting

/-- The transitions that leave a state. -/
def transitions (A : Automaton) (q : Nat) : List Transition := (A.state q).transitions

/-- The numbers of the states. -/
def stateNumbers (A : Automaton) : List Nat := List.range A.size

/-- The accepting states. -/
def acceptingStates (A : Automaton) : List Nat := A.stateNumbers.filter A.isFinal

/-- The number of transitions. -/
def transitionCount (A : Automaton) : Nat :=
  A.states.foldl (fun n s => n + s.transitions.length) 0

/-- Whether every transition copies what it reads. -/
def isAcceptor (A : Automaton) : Bool := A.states.all fun s => s.transitions.all (·.isCopying)

/-- The acceptor of what the automaton reads, or writes, on one tape. -/
def project (A : Automaton) (tape : Tape) : Automaton where
  alphabet := A.alphabet
  states := A.states.map fun s => { s with transitions := s.transitions.map (·.project tape) }
  start := A.start
  start_lt := by simpa using A.start_lt
  target_lt := by
    intro s hs t ht
    obtain ⟨s', hs', rfl⟩ := Array.mem_map.1 hs
    obtain ⟨t', ht', rfl⟩ := List.mem_map.1 ht
    simpa [Arc.project, Arc.copying] using A.target_lt s' hs' t' ht'

theorem size_pos (A : Automaton) : 0 < A.size := Nat.lt_of_le_of_lt (Nat.zero_le _) A.start_lt

/-- Only a state of the automaton has transitions: outside the array there is a state without
any. -/
theorem mem_states_of_mem_transitions {A : Automaton} {q : Nat} {t : Transition}
    (h : t ∈ A.transitions q) : A.state q ∈ A.states := by
  unfold transitions state at *
  by_cases hq : q < A.states.size
  · rw [Array.getD_eq_getD_getElem?, Array.getElem?_eq_getElem hq, Option.getD_some]
    exact Array.getElem_mem hq
  · rw [Array.getD_eq_getD_getElem?, Array.getElem?_eq_none (by omega)] at h
    simp at h

/-- A transition leads to a state that exists. -/
theorem target_lt_size {A : Automaton} {q : Nat} {t : Transition} (h : t ∈ A.transitions q) :
    t.target < A.size :=
  A.target_lt _ (mem_states_of_mem_transitions h) t h

/-! ## Requirements of operations -/

/-- Refuses operands over different symbols. -/
def requireCompatible (operation : Operation) (A B : Automaton) : Except Error Unit :=
  if A.alphabet.isCompatible B.alphabet then .ok ()
  else .error (.alphabetMismatch operation A.alphabet.symbols B.alphabet.symbols)

/-- Refuses a result with more states than the alphabet admits. -/
def requireRoom (operation : Operation) (S : Alphabet) (states : Nat) : Except Error Unit :=
  if states ≤ S.stateLimit then .ok () else .error (.stateExplosion operation S.stateLimit)

end Automaton

end FiniteState

import FiniteState.TransitionSystem

/-!
# Reachable states

A state is accessible if a path from the start leads to it, and coaccessible if a path from it leads
to an accepting state. Trimming keeps the states that are both, and the start state; what is left
keeps its order.

A set of states is an ascending list of state numbers, so equal sets are equal lists. `closure`
extends a set along transitions that satisfy a condition; `step` reads one symbol on a tape.
-/

namespace FiniteState

/-- A set of states as an ascending list. -/
abbrev StateSet := List Nat

namespace Automaton

/-! ## Trimming -/

/-- The states that can be reached from the start. -/
def accessible (A : Automaton) : Numbering Nat := (A.system.search A.size).found

/-- For every state the states with a transition to it. -/
def predecessors (A : Automaton) : Array (List Nat) :=
  A.stateNumbers.foldl
    (fun found q =>
      (A.transitions q).foldl (fun found t => found.modify t.target (q :: ·)) found)
    (Array.replicate A.size [])

/-- The states from which an accepting state can be reached. -/
def coaccessible (A : Automaton) : Numbering Nat :=
  let predecessors := A.predecessors
  (Search.run (fun q => predecessors.getD q []) A.size A.acceptingStates).found

/-- The members of a set of states, ascending. -/
def members (A : Automaton) (set : Numbering Nat) : List Nat :=
  A.stateNumbers.filter (set.contains ·)

/-- Keeps the states that satisfy `keep` and the start state, with the transitions between them. -/
def restrict (A : Automaton) (keep : Nat → Bool) : Automaton :=
  A.system.tabulate A.alphabet (.ofList (A.stateNumbers.filter fun q => q == A.start || keep q))
    (Numbering.mem_ofList_of_mem (by
      simpa [stateNumbers, system, size] using A.start_lt))

/-- Removes the states that are on no path from the start to an accepting state. -/
def trim (A : Automaton) : Automaton :=
  let forward := A.accessible
  let backward := A.coaccessible
  A.restrict fun q => forward.contains q && backward.contains q

/-- Whether no accepting state can be reached. -/
def isEmpty (A : Automaton) : Bool := !A.accessible.toList.any A.isFinal

/-! ## Sets of states -/

/-- The states that transitions satisfying `p` reach from the given ones. -/
def closure (A : Automaton) (p : Transition → Bool) (states : List Nat) : StateSet :=
  let next := fun q => ((A.transitions q).filter p).map (·.target)
  (Search.run next A.size states).found.toList.mergeSort Nat.ble

/-- Extends a set along transitions that leave the tape alone. -/
def tapeClosure (A : Automaton) (tape : Tape) (states : List Nat) : StateSet :=
  A.closure (fun t => (t.label tape).isEpsilon) states

/-- Extends a set along transitions that leave both tapes alone. -/
def silentClosure (A : Automaton) (states : List Nat) : StateSet :=
  A.closure (·.isSilent) states

/-- The states that a set leads to by one symbol on a tape. -/
def step (A : Automaton) (tape : Tape) (set : StateSet) (s : Symbol) : StateSet :=
  A.tapeClosure tape
    (((set.flatMap A.transitions).filter fun t => t.label tape == .symbol s).map (·.target))

/-- The states before the first symbol on a tape. -/
def initialSet (A : Automaton) (tape : Tape) : StateSet := A.tapeClosure tape [A.start]

/-- Whether a set has an accepting state. -/
def anyFinal (A : Automaton) (set : StateSet) : Bool := set.any A.isFinal

end Automaton

end FiniteState

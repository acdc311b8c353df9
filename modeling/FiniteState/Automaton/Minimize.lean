import FiniteState.Automaton.Determinize
import FiniteState.Partition

/-!
# Minimization

The states of a trimmed deterministic automaton are sorted into classes by refinement: states of
different acceptance are told apart first, then states with transitions into different classes,
until no class is divided any more. The minimal automaton has a state for each class. Its states are
numbered breadth first from the start, along transitions in the order of their labels, so automata
with the same meaning become the same value.
-/

namespace FiniteState

namespace Automaton

/-- The automaton with the transitions of each state in the order of their labels. -/
def sortTransitions (A : Automaton) : Automaton where
  alphabet := A.alphabet
  states := A.states.map fun s => { s with transitions := s.transitions.mergeSort Arc.leLabels }
  start := A.start
  start_lt := by simpa using A.start_lt
  target_lt := by
    intro s hs t ht
    obtain ⟨s', hs', rfl⟩ := Array.mem_map.1 hs
    simpa using A.target_lt s' hs' t (List.mem_mergeSort.1 ht)

/-- What tells a state apart: its class, and for each transition the labels and the class of the
target. -/
def signature (A : Automaton) (classes : Array Nat) (q : Nat) : List Nat :=
  classes.getD q 0
    :: (A.transitions q).flatMap fun t => [t.input.rank, t.output.rank, classes.getD t.target 0]

/-- The classes by acceptance. -/
def acceptanceClasses (A : Automaton) : Array Nat :=
  A.states.map fun s => if s.accepting then 1 else 0

/-- Divides classes by signatures until their number stays the same. Each round but the last raises
the number of classes, which is at most the number of states, so that number of rounds is enough. -/
def refineFrom (A : Automaton) : (fuel count : Nat) → Array Nat → Array Nat
  | 0, _, classes => classes
  | fuel + 1, count, classes =>
    let signatures := A.stateNumbers.map (A.signature classes)
    let numbering := Numbering.ofList signatures
    let refined := (signatures.map fun s => (numbering.number? s).getD 0).toArray
    -- as many classes as before: none was divided
    if numbering.size = count then refined else refineFrom A fuel numbering.size refined

/-- The class of each state once no class can be divided. -/
def refinedClasses (A : Automaton) : Array Nat :=
  let classes := A.acceptanceClasses
  A.refineFrom A.size (Numbering.ofList classes.toList).size classes

/-- The coarsest partition of the states that respects acceptance and transitions, for an automaton
that is deterministic and has its transitions in order. -/
def statePartition (A : Automaton) : Partition Nat :=
  let classes := A.refinedClasses
  .ofLists ((A.stateNumbers.foldr
    (fun q groups => groups.modify (classes.getD q 0) (q :: ·))
    (Array.replicate A.size [])).toList)

/-- The classes of a partition as states, each with the transitions of its least member. -/
def quotient (A : Automaton) (P : Partition Nat) : TransitionSystem Nat :=
  let classMap := P.classMap
  let classOf := fun q => classMap.getD q 0
  let least := (P.classes.map fun c => c.head?.getD A.start).toArray
  let representative := fun c => least.getD c A.start
  { start := classOf A.start
    accepting := fun c => A.isFinal (representative c)
    arcs := fun c =>
      (A.transitions (representative c)).map fun t => t.withTarget (classOf t.target) }

/-- Numbers the states of a system breadth first. The system has at most as many states as `A`. -/
def canonical (A : Automaton) (M : TransitionSystem Nat) : Automaton :=
  M.tabulate A.alphabet (M.search A.size).found (Search.mem_run_of_pos A.size_pos)

/-- The trimmed automaton, determinized if it has to be. -/
def trimmedDeterministic (A : Automaton) : Except Error Automaton :=
  if A.isDeterministic then .ok A.trim else do return (← A.determinize).trim

/-- The canonical minimal deterministic automaton. States that lead nowhere are left out, so there
is no sink. -/
def minimize (A : Automaton) : Except Error Automaton := do
  let D := (← A.trimmedDeterministic).sortTransitions
  return D.canonical (D.quotient D.statePartition)

end Automaton

end FiniteState

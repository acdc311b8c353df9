import FiniteState.Automaton.Reach

/-!
# Determinization

Transducers are taken as acceptors over pairs of labels here, so an automaton is deterministic if no
transition is silent and no state has two transitions with the same pair of labels. The subset
construction follows all transitions with the same labels at once; its states are the sets of states
that can be reached so, closed under silent transitions.
-/

namespace FiniteState

namespace Automaton

/-- Whether no two transitions carry the same labels. -/
def distinctLabels : List Transition → Bool
  | [] => true
  | t :: ts => ts.all (!t.sameLabels ·) && distinctLabels ts

/-- Whether there is neither a silent transition nor a choice between transitions with the same
labels. -/
def isDeterministic (A : Automaton) : Bool :=
  A.states.all fun s => s.transitions.all (!·.isSilent) && distinctLabels s.transitions

/-- Puts a transition in front of groups: into the first one if its labels are the same. -/
def addToGroups (t : Transition) : List (Arc (List Nat)) → List (Arc (List Nat))
  | [] => [t.withTarget [t.target]]
  | g :: gs =>
    if t.sameLabels g then g.withTarget (t.target :: g.target) :: gs
    else t.withTarget [t.target] :: g :: gs

/-- The transitions that are not silent, in groups with the same labels, ordered by their labels.
The target of a group are the targets of its transitions. -/
def groupByLabels (ts : List Transition) : List (Arc (List Nat)) :=
  ((ts.filter (!·.isSilent)).mergeSort Arc.leLabels).foldr addToGroups []

/-- The silent closure of each state, computed when it is first asked for. -/
def silentClosures (A : Automaton) : Array (Thunk StateSet) :=
  A.stateNumbers.toArray.map fun q => Thunk.mk fun _ => A.silentClosure [q]

/-- The union of the closures of some states. -/
def unionOfClosures (closures : Array (Thunk StateSet)) : List Nat → StateSet
  | [q] => (closures.getD q (.pure [])).get
  | states =>
    ((states.flatMap fun q => (closures.getD q (.pure [])).get).mergeSort Nat.ble).eraseReps

/-- The sets of states that can be reached by the same labels. -/
def subsets (A : Automaton) : TransitionSystem StateSet :=
  -- closures are shared between all sets that need them
  let closures := A.silentClosures
  { start := unionOfClosures closures [A.start]
    accepting := A.anyFinal
    arcs := fun set =>
      (groupByLabels (set.flatMap A.transitions)).map fun g =>
        g.withTarget (unionOfClosures closures g.target) }

/-- The subset construction. -/
def determinize (A : Automaton) : Except Error Automaton :=
  A.subsets.explore A.alphabet .determinize

/-- The state that has the transitions of a set of states but for silent and repeated ones. -/
def mergedState (A : Automaton) (set : StateSet) : State where
  accepting := A.anyFinal set
  transitions := ((set.flatMap A.transitions).filter (!·.isSilent)).eraseDups

/-- The automaton in which every state stands for its closure under silent transitions. -/
def withoutSilent (A : Automaton) : Automaton where
  alphabet := A.alphabet
  states := A.stateNumbers.toArray.map fun q => A.mergedState (A.silentClosure [q])
  start := A.start
  start_lt := by simpa [stateNumbers, size] using A.start_lt
  target_lt := by
    intro s hs t ht
    obtain ⟨q, -, rfl⟩ := Array.mem_map.1 hs
    obtain ⟨p, -, ht⟩ := List.mem_flatMap.1 (List.mem_filter.1 (List.mem_eraseDups.1 ht)).1
    simpa [stateNumbers] using target_lt_size ht

/-- Removes the silent transitions. States that become useless are dropped. -/
def removeEpsilon (A : Automaton) : Except Error Automaton := do
  requireRoom .removeEpsilon A.alphabet A.size
  return A.withoutSilent.trim

end Automaton

end FiniteState

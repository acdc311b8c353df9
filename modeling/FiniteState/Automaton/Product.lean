import FiniteState.TransitionSystem
import FiniteState.Automaton.Reach

/-!
# Products

The product of two automata runs them side by side: what the first one writes, the second one reads.
A transition of the first that writes nothing, and one of the second that reads nothing, is taken
alone. For transducers the product is the composition of the relations; for acceptors, which copy
what they read, it is the intersection of the languages.
-/

namespace FiniteState

/-- A state of each of two automata. -/
structure StatePair where
  left : Nat
  right : Nat
deriving DecidableEq, Repr

namespace StatePair

instance : Ord StatePair := ⟨compareLex (compareOn left) (compareOn right)⟩

instance : Std.TransOrd StatePair :=
  inferInstanceAs (Std.TransCmp (compareLex (compareOn left) (compareOn right)))

instance : Std.LawfulEqOrd StatePair where
  eq_of_compare {p q} h := by
    have h : (compareOn left p q).then (compareOn right p q) = .eq := h
    rw [Ordering.then_eq_eq] at h
    have hl : p.left = q.left := Std.LawfulEqOrd.eq_of_compare h.1
    have hr : p.right = q.right := Std.LawfulEqOrd.eq_of_compare h.2
    cases p; cases q; simp_all

end StatePair

namespace Automaton

/-- The arcs of a pair by a transition of the left automaton: alone if it writes nothing, otherwise
with each transition of the right one that reads what it writes. -/
def leftArcs (B : Automaton) (q : Nat) (t : Transition) : List (Arc StatePair) :=
  if t.output.isEpsilon then [⟨t.input, .epsilon, ⟨t.target, q⟩⟩]
  else ((B.transitions q).filter (·.input == t.output)).map fun u =>
    ⟨t.input, u.output, ⟨t.target, u.target⟩⟩

/-- The arcs of a pair by the transitions of the right automaton that read nothing. -/
def rightArcs (B : Automaton) (p q : Nat) : List (Arc StatePair) :=
  ((B.transitions q).filter (·.input.isEpsilon)).map fun u =>
    ⟨.epsilon, u.output, ⟨p, u.target⟩⟩

/-- Two automata run side by side. -/
def product (A B : Automaton) : TransitionSystem StatePair where
  start := ⟨A.start, B.start⟩
  accepting := fun k => A.isFinal k.left && B.isFinal k.right
  arcs := fun k => (A.transitions k.left).flatMap (B.leftArcs k.right) ++ B.rightArcs k.left k.right

/-- The words that both acceptors accept. -/
def intersection (A B : Automaton) : Except Error Automaton := do
  requireCompatible .intersection A B
  if A.isAcceptor && B.isAcceptor then
    return (← (A.product B).explore A.alphabet .intersection).trim
  else throw (.notAnAcceptor .intersection)

/-- The pairs `(x, z)` with some `y` such that `A` maps `x` to `y` and `B` maps `y` to `z`. -/
def compose (A B : Automaton) : Except Error Automaton := do
  requireCompatible .compose A B
  return (← (A.product B).explore A.alphabet .compose).trim

end Automaton

end FiniteState

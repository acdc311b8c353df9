import FiniteState.Automaton.Reach

/-!
# Enumeration

The words on a tape of an automaton are listed in order of length, words of one length in the order
of their symbols. A frontier holds the words of one length that can still be completed, each with
the set of states it leads to; the next frontier extends each of them by each symbol.
-/

namespace FiniteState

namespace Automaton

/-- The words of one length that can be completed, with the sets of states they lead to. -/
abbrev Frontier := List (Word × StateSet)

/-- The members of a set that lie in another one. -/
def liveStates (live : Numbering Nat) (set : StateSet) : StateSet := set.filter (live.contains ·)

/-- The frontier of the empty word. -/
def firstFrontier (A : Automaton) (tape : Tape) (live : Numbering Nat) : Frontier :=
  let set := liveStates live (A.initialSet tape)
  if set.isEmpty then [] else [([], set)]

/-- The frontier of the words that are longer by one symbol of Σ or by a marker. -/
def nextFrontier (A : Automaton) (tape : Tape) (live : Numbering Nat) (frontier : Frontier) :
    Frontier :=
  frontier.flatMap fun (w, set) =>
    A.alphabet.sigmaWithMarkers.filterMap fun s =>
      -- without a live state, no continuation is accepted
      let next := liveStates live (A.step tape set s)
      if next.isEmpty then none else some (w ++ [s], next)

/-- The words of a frontier that are complete. -/
def completeWords (A : Automaton) (frontier : Frontier) : List Word :=
  (frontier.filter fun (_, set) => A.anyFinal set).map (·.1)

/-- The first elements of a list, all of them if there is no bound. -/
def takeAtMost {α : Type} : Option Nat → List α → List α
  | none, xs => xs
  | some n, xs => xs.take n

/-- The words from a frontier on that are longer by at most `extra` symbols, at most `count` of
them. -/
def wordsFrom (A : Automaton) (tape : Tape) (live : Numbering Nat) :
    (extra : Nat) → (count : Option Nat) → Frontier → List Word
  | 0, count, frontier => takeAtMost count (A.completeWords frontier)
  | extra + 1, count, frontier =>
    let here := takeAtMost count (A.completeWords frontier)
    let rest := count.map (· - here.length)
    if frontier.isEmpty || rest == some 0 then here
    else here ++ wordsFrom A tape live extra rest (A.nextFrontier tape live frontier)

/-- The words of length at most `longest` on a tape, at most `count` of them. -/
def wordsOn (A : Automaton) (tape : Tape) (longest : Nat) (count : Option Nat) : List Word :=
  let live := A.coaccessible
  A.wordsFrom tape live longest count (A.firstFrontier tape live)

end Automaton

end FiniteState

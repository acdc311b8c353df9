import FiniteState.Automaton.Reach

/-!
# Membership

* `accepts` reads a word on the input tape, with the set of states that the word may lead to.
* `transduces` decides whether a path reads one word and writes another, by a search among
  configurations: a state with the number of symbols read and written.
-/

namespace FiniteState

namespace Automaton

/-- Whether the word is accepted on the input tape. -/
def accepts (A : Automaton) (w : Word) : Bool :=
  A.anyFinal (w.foldl (A.step .input) (A.initialSet .input))

/-- Whether the word that a text spells over the automaton's alphabet is accepted. -/
def acceptsText (A : Automaton) (text : String) : Except Error Bool := do
  return A.accepts (← A.alphabet.parseWord text)

end Automaton

/-- A state reached after some symbols of two words. -/
structure Configuration where
  state : Nat
  /-- The number of symbols read. -/
  read : Nat
  /-- The number of symbols written. -/
  written : Nat
deriving DecidableEq, Repr

namespace Configuration

/-- The numbers of a configuration, by which configurations are ordered. -/
def key (c : Configuration) : List Nat := [c.state, c.read, c.written]

instance : Ord Configuration := ⟨compareOn key⟩

instance : Std.TransOrd Configuration := inferInstanceAs (Std.TransCmp (compareOn key))

instance : Std.LawfulEqOrd Configuration where
  eq_of_compare {c d} h := by
    have h : c.key = d.key := Std.LawfulEqOrd.eq_of_compare h
    cases c; cases d
    simp_all [key]

end Configuration

namespace Automaton

/-- The position in a word after a label, from position `i` on, if the word goes on with it. -/
def advance (w : Word) (i : Nat) : Label → Option Nat
  | .epsilon => some i
  | .symbol s => if w[i]? = some s then some (i + 1) else none

/-- The configurations that one transition leads to. -/
def nextConfigurations (A : Automaton) (x y : Word) (c : Configuration) : List Configuration :=
  (A.transitions c.state).filterMap fun t => do
    return ⟨t.target, ← advance x c.read t.input, ← advance y c.written t.output⟩

/-- Whether a path from the start to an accepting state reads `x` and writes `y`. -/
def transduces (A : Automaton) (x y : Word) : Bool :=
  let limit := A.size * (x.length + 1) * (y.length + 1)
  (Search.run (A.nextConfigurations x y) limit [⟨A.start, 0, 0⟩]).found.toList.any fun c =>
    c.read == x.length && c.written == y.length && A.isFinal c.state

end Automaton

end FiniteState

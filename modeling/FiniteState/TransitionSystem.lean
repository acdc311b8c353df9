import FiniteState.Automaton.Basic
import FiniteState.Search

/-!
# Transition systems

A transition system is an automaton that is not tabulated yet: its states are keys of any type, and
the arcs that leave a key are computed on demand. Constructions whose states are pairs or sets of
states describe a system first and then explore it from its start, which numbers the keys breadth
first and tabulates the part that can be reached.

* `tabulate` makes an automaton of the numbered keys and the arcs between them.
* `explore` tabulates the reachable keys, unless they are more than the alphabet admits.
-/

namespace FiniteState

/-- An automaton over keys, given by functions. -/
structure TransitionSystem (κ : Type) where
  /-- The key that a path starts with. -/
  start : κ
  /-- Whether a path may end with the key. -/
  accepting : κ → Bool
  /-- The arcs that leave the key. -/
  arcs : κ → List (Arc κ)

namespace TransitionSystem

variable {κ : Type} [Ord κ]

/-- The state that stands for a key, with the arcs to numbered keys. -/
def row (M : TransitionSystem κ) (m : Numbering κ) (k : κ) : State where
  accepting := M.accepting k
  transitions := (M.arcs k).filterMap fun a => (m.number? a.target).map a.withTarget

/-- The automaton of the numbered keys. -/
def tabulate (M : TransitionSystem κ) (S : Alphabet) (m : Numbering κ) (h : M.start ∈ m) :
    Automaton where
  alphabet := S
  states := m.keys.map (M.row m)
  start := (m.number? M.start).get h
  start_lt := by
    rw [Array.size_map]
    exact Numbering.number?_lt (Option.some_get h).symm
  target_lt := by
    intro s hs t ht
    obtain ⟨k, -, rfl⟩ := Array.mem_map.1 hs
    obtain ⟨a, -, ha⟩ := List.mem_filterMap.1 ht
    obtain ⟨i, hi, rfl⟩ := Option.map_eq_some_iff.1 ha
    rw [Array.size_map]
    exact Numbering.number?_lt hi

variable [Std.TransOrd κ] [Std.LawfulEqOrd κ]

/-- The search for the keys that can be reached from the start, up to a limit. -/
def search (M : TransitionSystem κ) (limit : Nat) : Search κ :=
  Search.run (fun k => (M.arcs k).map (·.target)) limit [M.start]

/-- Tabulates the keys that can be reached from the start. -/
def explore (M : TransitionSystem κ) (S : Alphabet) (operation : Operation) :
    Except Error Automaton :=
  let s := M.search S.stateLimit
  if h : s.overflow = false ∧ M.start ∈ s.found then .ok (M.tabulate S s.found h.2)
  else .error (.stateExplosion operation S.stateLimit)

end TransitionSystem

/-- An automaton as a system over its state numbers. -/
def Automaton.system (A : Automaton) : TransitionSystem Nat where
  start := A.start
  accepting := A.isFinal
  arcs := A.transitions

end FiniteState

import FiniteState.Automaton.Construct

/-!
# Rational operations

Union, concatenation and repetition put copies of the operands side by side and link them by silent
transitions. The result uses the alphabet of the first operand and is checked against its state
limit.
-/

namespace FiniteState

namespace Automaton

/-- The states of an automaton, renumbered by adding `k`. -/
def shiftedStates (A : Automaton) (k : Nat) : Array State := A.states.map (·.shift k)

@[simp]
theorem size_shiftedStates (A : Automaton) (k : Nat) : (A.shiftedStates k).size = A.size := by
  simp [shiftedStates, size]

/-- The targets of a shifted copy lie in it, once the states before it are counted. -/
theorem target_lt_shiftedStates {A : Automaton} {k : Nat} :
    ∀ s ∈ A.shiftedStates k, ∀ t ∈ s.transitions, t.target < A.size + k := by
  intro s hs t ht
  obtain ⟨s', hs', rfl⟩ := Array.mem_map.1 hs
  obtain ⟨t', ht', rfl⟩ := List.mem_map.1 ht
  exact Nat.add_lt_add_right (A.target_lt s' hs' t' ht') k

/-- The accepting states get one more transition, and become accepting or not as `keep` says. -/
def linkFinal (t : Transition) (keep : Bool) (states : Array State) : Array State :=
  states.map fun s =>
    if s.accepting then { s.addTransition t with accepting := keep } else s

@[simp] theorem size_linkFinal (t : Transition) (keep : Bool) (states : Array State) :
    (linkFinal t keep states).size = states.size := by
  simp [linkFinal]

/-- A link from the accepting states adds one target, and it keeps the rest. -/
theorem target_lt_linkFinal {t : Transition} {keep : Bool} {states : Array State} {n : Nat}
    (ht : t.target < n) (h : ∀ s ∈ states, ∀ u ∈ s.transitions, u.target < n) :
    ∀ s ∈ linkFinal t keep states, ∀ u ∈ s.transitions, u.target < n := by
  intro s hs u hu
  obtain ⟨s', hs', rfl⟩ := Array.mem_map.1 hs
  split at hu
  · rcases List.mem_append.1 hu with hu | hu
    · exact h s' hs' u hu
    · rw [List.mem_singleton] at hu
      exact hu ▸ ht
  · exact h s' hs' u hu

/-- The disjoint union of two automata under a new start state. -/
def sum (A B : Automaton) : Automaton where
  alphabet := A.alphabet
  states :=
    #[{ transitions := [.silent (A.start + 1), .silent (B.start + (A.size + 1))] }]
      ++ A.shiftedStates 1 ++ B.shiftedStates (A.size + 1)
  start := 0
  start_lt := by simp only [Array.size_append, List.size_toArray, List.length_singleton]; omega
  target_lt := by
    intro s hs t ht
    simp only [Array.size_append, size_shiftedStates]
    have hA := A.start_lt
    have hB := B.start_lt
    rw [Array.mem_append, Array.mem_append] at hs
    rcases hs with (hs | hs) | hs
    · simp only [List.mem_toArray, List.mem_singleton] at hs
      subst hs
      simp only [List.mem_cons, List.not_mem_nil, or_false] at ht
      rcases ht with rfl | rfl <;> simp [Arc.silent, Arc.copying, size] <;> omega
    · have := target_lt_shiftedStates s hs t ht
      simp; omega
    · have := target_lt_shiftedStates s hs t ht
      simp; omega

/-- The accepting states of `A` linked to the start of `B`. They remain accepting if `keep`. -/
def sequence (A B : Automaton) (keep : Bool) : Automaton where
  alphabet := A.alphabet
  states := linkFinal (.silent (B.start + A.size)) keep A.states ++ B.shiftedStates A.size
  start := A.start
  start_lt := by
    rw [Array.size_append, size_linkFinal]
    exact Nat.lt_of_lt_of_le A.start_lt (Nat.le_add_right _ _)
  target_lt := by
    intro s hs t ht
    rw [Array.size_append, size_linkFinal, size_shiftedStates]
    have hB : B.start < B.size := B.start_lt
    rw [Array.mem_append] at hs
    rcases hs with hs | hs
    · refine target_lt_linkFinal (n := A.states.size + B.size) ?_ ?_ s hs t ht
      · show B.start + A.size < A.states.size + B.size
        simp only [size] at *; omega
      · intro s' hs' u hu
        exact Nat.lt_of_lt_of_le (A.target_lt s' hs' u hu) (Nat.le_add_right _ _)
    · have := target_lt_shiftedStates s hs t ht
      simp only [size] at *; omega

/-- The accepting states of `A` linked back to its start, under a new start state. -/
def loop (A : Automaton) (acceptEmpty : Bool) : Automaton where
  alphabet := A.alphabet
  states :=
    #[{ accepting := acceptEmpty, transitions := [.silent (A.start + 1)] }]
      ++ linkFinal (.silent (A.start + 1)) true (A.shiftedStates 1)
  start := 0
  start_lt := by simp only [Array.size_append, List.size_toArray, List.length_singleton]; omega
  target_lt := by
    intro s hs t ht
    rw [Array.size_append, size_linkFinal, size_shiftedStates]
    have hA := A.start_lt
    rw [Array.mem_append] at hs
    rcases hs with hs | hs
    · simp only [List.mem_toArray, List.mem_singleton] at hs
      subst hs
      rw [List.mem_singleton] at ht
      subst ht
      simp [Arc.silent, Arc.copying, size]; omega
    · refine target_lt_linkFinal (n := _) ?_ ?_ s hs t ht
      · simp [Arc.silent, Arc.copying, size]; omega
      · intro s' hs' u hu
        have := target_lt_shiftedStates s' hs' u hu
        simp; omega

/-- The union of two languages or relations. -/
def union (A B : Automaton) : Except Error Automaton := do
  requireCompatible .union A B
  requireRoom .union A.alphabet (1 + A.size + B.size)
  return A.sum B

/-- The union of any number of automata; without operands, nothing is accepted. -/
def unionAll (S : Alphabet) (As : List Automaton) : Except Error Automaton :=
  As.foldlM union (empty S)

/-- The concatenation, in which the second part may be missing if `keep`. -/
def concatWith (A B : Automaton) (keep : Bool) : Except Error Automaton := do
  requireCompatible .concat A B
  requireRoom .concat A.alphabet (A.size + B.size)
  return A.sequence B keep

/-- The concatenation of two languages or relations. -/
def concat (A B : Automaton) : Except Error Automaton := A.concatWith B false

/-- Repetition, of at least no or at least one copy. -/
def closureWith (A : Automaton) (acceptEmpty : Bool) : Except Error Automaton := do
  requireRoom .closure A.alphabet (1 + A.size)
  return A.loop acceptEmpty

/-- Any number of repetitions. -/
def star (A : Automaton) : Except Error Automaton := A.closureWith true

/-- One or more repetitions. -/
def plus (A : Automaton) : Except Error Automaton := A.closureWith false

/-- Concatenates `n` copies of `A` to `acc`, which may all be missing if `keep`. -/
def appendCopies (A : Automaton) (keep : Bool) : (n : Nat) → (acc : Automaton) →
    Except Error Automaton
  | 0, acc => .ok acc
  | n + 1, acc => do appendCopies A keep n (← acc.concatWith A keep)

/-- At least `least` and at most `most` repetitions, without an upper bound if `most` is missing. -/
def power (A : Automaton) (least : Nat) (most : Option Nat) : Except Error Automaton :=
  match most with
  | none => do
    let required ← A.appendCopies false least (epsilon A.alphabet)
    required.concat (← A.star)
  | some most =>
    if most < least then .ok (empty A.alphabet)
    else do
      let required ← A.appendCopies false least (epsilon A.alphabet)
      A.appendCopies true (most - least) required

end Automaton

end FiniteState

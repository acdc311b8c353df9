import FiniteState.Automaton.Basic

/-!
# Blueprints

A blueprint lists the transitions and accepting states of an automaton by number. Building it makes
as many states as the numbers need: every state that is mentioned exists afterwards.
-/

namespace FiniteState

/-- A transition with the state that it leaves. -/
structure Link where
  source : Nat
  arc : Transition
deriving DecidableEq, Repr

/-- A transition that copies the symbol of a character. -/
structure Edge where
  source : Nat
  symbol : Char
  target : Nat
deriving DecidableEq, Repr

/-- The description of an automaton by its parts. -/
structure Blueprint where
  /-- Transitions with any labels. -/
  links : List Link := []
  /-- Transitions that copy a character; they come after the links. -/
  edges : List Edge := []
  /-- The accepting states. -/
  accepting : List Nat := []
  /-- The start state. -/
  start : Nat := 0
  /-- The number of states that exist in any case. -/
  states : Nat := 1
deriving Repr

namespace Blueprint

/-- The greatest of some numbers, and zero if there is none. -/
def greatest (ns : List Nat) : Nat := ns.foldr Nat.max 0

theorem le_greatest {n : Nat} {ns : List Nat} (h : n ∈ ns) : n ≤ greatest ns := by
  induction ns with
  | nil => simp at h
  | cons m ns ih =>
    rcases List.mem_cons.1 h with rfl | h
    · exact Nat.le_max_left _ _
    · exact Nat.le_trans (ih h) (Nat.le_max_right _ _)

/-- The states that a blueprint mentions, once its edges are among its links. -/
def mentioned (links : List Link) (accepting : List Nat) (start : Nat) : List Nat :=
  links.flatMap (fun l => [l.source, l.arc.target]) ++ accepting ++ [start]

/-- The link of an edge. -/
def linkOfEdge (S : Alphabet) (e : Edge) : Except Error Link := do
  return ⟨e.source, .copying (.symbol (← S.symbol e.symbol)) e.target⟩

/-- Puts the arc of a link in front of the transitions of its source. -/
def addLink (l : Link) (states : Array State) : Array State :=
  states.modify l.source fun s => { s with transitions := l.arc :: s.transitions }

/-- The states with the transitions of the links, in the order of the links. -/
def statesOfLinks (count : Nat) (accepting : List Nat) (links : List Link) : Array State :=
  links.foldr addLink
    (accepting.foldl (fun states q => states.modify q fun s => { s with accepting := true })
      (Array.replicate count {}))

@[simp]
theorem size_addLink (l : Link) (states : Array State) : (addLink l states).size = states.size := by
  simp [addLink]

@[simp] theorem size_statesOfLinks (count : Nat) (accepting : List Nat) (links : List Link) :
    (statesOfLinks count accepting links).size = count := by
  unfold statesOfLinks
  have hbase : ∀ states : Array State, (accepting.foldl
      (fun states q => states.modify q fun s => { s with accepting := true }) states).size
        = states.size := by
    induction accepting with
    | nil => intro states; rfl
    | cons q accepting ih => intro states; rw [List.foldl_cons, ih, Array.size_modify]
  induction links with
  | nil => rw [List.foldr_nil, hbase, Array.size_replicate]
  | cons l links ih => rw [List.foldr_cons, size_addLink, ih]

/-- The transitions of the states are those that were there before, and the arcs of links. -/
theorem target_lt_statesOfLinks {count : Nat} {accepting : List Nat} {links : List Link}
    (h : ∀ l ∈ links, l.arc.target < count) :
    ∀ s ∈ statesOfLinks count accepting links, ∀ t ∈ s.transitions, t.target < count := by
  unfold statesOfLinks
  induction links with
  | nil =>
    have hbase : ∀ states : Array State, (∀ s ∈ states, s.transitions = []) →
        ∀ s ∈ accepting.foldl
          (fun states q => states.modify q fun s => { s with accepting := true }) states,
          s.transitions = [] := by
      induction accepting with
      | nil => intro states hs; exact hs
      | cons q accepting ih =>
        intro states hs
        refine ih _ fun s hmem => ?_
        obtain ⟨i, hi, rfl⟩ := Array.mem_iff_getElem.1 hmem
        rw [Array.size_modify] at hi
        rw [Array.getElem_modify]
        split <;> simpa using hs _ (Array.getElem_mem hi)
    intro s hs t ht
    rw [List.foldr_nil] at hs
    rw [hbase _ (by simp +contextual [Array.mem_replicate]) s hs] at ht
    simp at ht
  | cons l links ih =>
    intro s hs t ht
    have ih := ih fun l' hl' => h l' (List.mem_cons_of_mem _ hl')
    rw [List.foldr_cons, addLink] at hs
    obtain ⟨i, hi, rfl⟩ := Array.mem_iff_getElem.1 hs
    rw [Array.size_modify] at hi
    rw [Array.getElem_modify] at ht
    split at ht
    · rcases List.mem_cons.1 ht with rfl | ht
      · exact h l (by simp)
      · exact ih _ (Array.getElem_mem hi) t ht
    · exact ih _ (Array.getElem_mem hi) t ht

/-- Builds the automaton. A character outside Σ and a number above the state limit are errors. -/
def build (S : Alphabet) (p : Blueprint) : Except Error Automaton := do
  let links := p.links ++ (← p.edges.mapM (linkOfEdge S))
  -- one more than the greatest number in use
  let count := Nat.max p.states (greatest (mentioned links p.accepting p.start) + 1)
  Automaton.requireRoom .build S count
  return {
    alphabet := S
    states := statesOfLinks count p.accepting links
    start := p.start
    start_lt := by
      rw [size_statesOfLinks]
      have : p.start ∈ mentioned links p.accepting p.start := by simp [mentioned]
      exact Nat.lt_of_lt_of_le (Nat.lt_succ_of_le (le_greatest this)) (Nat.le_max_right _ _)
    target_lt := by
      rw [size_statesOfLinks]
      refine target_lt_statesOfLinks fun l hl => ?_
      have : l.arc.target ∈ mentioned links p.accepting p.start := by
        simp only [mentioned, List.mem_append, List.mem_flatMap]
        exact .inl (.inl ⟨l, hl, by simp⟩)
      exact Nat.lt_of_lt_of_le (Nat.lt_succ_of_le (le_greatest this)) (Nat.le_max_right _ _) }

end Blueprint

end FiniteState

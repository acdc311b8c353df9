import FiniteState.Automaton.Basic

/-!
# Elementary automata

The automata that everything else is built from: nothing, the empty word, one pair of labels, all
letters, all words, and finite sets of words as tries. None of them is checked against the state
limit of the alphabet.
-/

namespace FiniteState

namespace Automaton

/-- A single state that does not accept: nothing is accepted. -/
def empty (S : Alphabet) : Automaton where
  alphabet := S
  states := #[{}]
  start := 0
  start_lt := by simp
  target_lt := by simp

/-- The acceptor of the empty word. -/
def epsilon (S : Alphabet) : Automaton where
  alphabet := S
  states := #[{ accepting := true }]
  start := 0
  start_lt := by simp
  target_lt := by simp

/-- The transducer with the single transition `input:output`. -/
def pair (S : Alphabet) (input output : Label) : Automaton where
  alphabet := S
  states := #[{ transitions := [⟨input, output, 1⟩] }, { accepting := true }]
  start := 0
  start_lt := by simp
  target_lt := by simp

/-- The acceptor of a word of one symbol. -/
def symbol (S : Alphabet) (s : Symbol) : Automaton := pair S (.symbol s) (.symbol s)

/-- The acceptor of all words of one letter of Σ. -/
def sigma (S : Alphabet) : Automaton where
  alphabet := S
  states := #[{ transitions := S.sigma.map fun s => .copying (.symbol s) 1 }, { accepting := true }]
  start := 0
  start_lt := by simp
  target_lt := by simp [Arc.copying]

/-- The acceptor of all words over Σ. -/
def sigmaStar (S : Alphabet) : Automaton where
  alphabet := S
  states := #[{ accepting := true, transitions := S.sigma.map fun s => .copying (.symbol s) 0 }]
  start := 0
  start_lt := by simp
  target_lt := by simp [Arc.copying]

/-! ## Tries -/

/-- Replaces the state `q`. Its new transitions lead to states that exist. -/
def modifyState (A : Automaton) (q : Nat) (f : State → State)
    (h : ∀ s ∈ A.states, ∀ t ∈ (f s).transitions, t.target < A.states.size) : Automaton where
  alphabet := A.alphabet
  states := A.states.modify q f
  start := A.start
  start_lt := by rw [Array.size_modify]; exact A.start_lt
  target_lt := by
    intro s hs t ht
    rw [Array.size_modify]
    obtain ⟨i, hi, rfl⟩ := Array.mem_iff_getElem.1 hs
    rw [Array.getElem_modify] at ht
    rw [Array.size_modify] at hi
    split at ht
    · exact h _ (Array.getElem_mem hi) t ht
    · exact A.target_lt _ (Array.getElem_mem hi) t ht

/-- Adds a state without transitions, which gets the next number. -/
def addState (A : Automaton) : Automaton where
  alphabet := A.alphabet
  states := A.states.push {}
  start := A.start
  start_lt := by rw [Array.size_push]; exact Nat.lt_succ_of_lt A.start_lt
  target_lt := by
    intro s hs t ht
    rw [Array.size_push]
    rcases Array.mem_push.1 hs with hs | rfl
    · exact Nat.lt_succ_of_lt (A.target_lt s hs t ht)
    · simp at ht

/-- Makes the state `q` accepting. -/
def acceptAt (A : Automaton) (q : Nat) : Automaton :=
  A.modifyState q (fun s => { s with accepting := true }) A.target_lt

/-- Adds a state and a transition from the state `q` to it, which copies the symbol. -/
def branch (A : Automaton) (q : Nat) (s : Symbol) : Automaton :=
  A.addState.modifyState q (·.addTransition (.copying (.symbol s) A.size)) (by
    intro s' hs' t ht
    rcases List.mem_append.1 ht with ht | ht
    · exact A.addState.target_lt s' hs' t ht
    · rw [List.mem_singleton] at ht
      subst ht
      simp [addState, size, Arc.copying])

/-- Adds the words that a word spells from the state `q` on. Transitions that are there already are
followed, the rest of the word branches off. -/
def addWord (A : Automaton) (q : Nat) : Word → Automaton
  | [] => A.acceptAt q
  | s :: w =>
    match (A.transitions q).find? (·.input == .symbol s) with
    | some t => A.addWord t.target w
    | none => (A.branch q s).addWord A.size w

/-- The trie of the given words, a deterministic acceptor of exactly these words. -/
def words (S : Alphabet) (ws : List Word) : Automaton :=
  ws.foldl (fun A w => A.addWord A.start w) (empty S)

/-- The acceptor of one word, a chain of states. -/
def word (S : Alphabet) (w : Word) : Automaton := words S [w]

/-- The acceptor of the word that a text spells over Σ. -/
def acceptor (S : Alphabet) (text : String) : Except Error Automaton := do
  return word S (← S.parseWord text)

end Automaton

end FiniteState

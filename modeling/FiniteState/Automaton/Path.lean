import FiniteState.Automaton.Basic

/-!
# Paths

A path is a list of transitions, each of which starts where the one before it ended. It spells a
word on either tape: the symbols of its labels, epsilons left out. The relation of an automaton
consists of the pairs of words that are spelled along paths from the start to an accepting state.
Where a transducer counts as an acceptor over pairs of labels, `labelPairs` takes the place of the
two words.

* `path_append_iff`: a path can be cut in two wherever its transitions are.
* `Path.lt_size`: a path from a state that exists ends in one.
* `eq_of_relates`: an acceptor relates a word to itself only.
-/

namespace FiniteState

/-- The word that transitions spell on a tape. -/
def spell (tape : Tape) (ts : List Transition) : Word := ts.flatMap fun t => (t.label tape).toWord

/-- The pairs of labels along transitions, those of silent transitions left out. -/
def labelPairs (ts : List Transition) : List (Label × Label) :=
  (ts.filter (!·.isSilent)).map fun t => (t.input, t.output)

theorem spell_nil (tape : Tape) : spell tape [] = [] := rfl

theorem spell_cons (tape : Tape) (t : Transition) (ts : List Transition) :
    spell tape (t :: ts) = (t.label tape).toWord ++ spell tape ts := rfl

theorem spell_append (tape : Tape) (ts us : List Transition) :
    spell tape (ts ++ us) = spell tape ts ++ spell tape us :=
  List.flatMap_append

namespace Automaton

/-- The transitions lead from the first state to the second one. -/
inductive Path (A : Automaton) : Nat → List Transition → Nat → Prop
  | nil (q : Nat) : Path A q [] q
  | cons {p q : Nat} {t : Transition} {ts : List Transition} (ht : t ∈ A.transitions p)
      (hts : Path A t.target ts q) : Path A p (t :: ts) q

/-- The transitions lead from the start to an accepting state. -/
def AcceptingPath (A : Automaton) (ts : List Transition) : Prop :=
  ∃ q, A.Path A.start ts q ∧ A.isFinal q = true

/-- Some accepting path reads `x` and writes `y`. -/
def Relates (A : Automaton) (x y : Word) : Prop :=
  ∃ ts, A.AcceptingPath ts ∧ spell .input ts = x ∧ spell .output ts = y

/-- Some accepting path carries the pairs of labels. -/
def HasLabels (A : Automaton) (ls : List (Label × Label)) : Prop :=
  ∃ ts, A.AcceptingPath ts ∧ labelPairs ts = ls

theorem path_nil_iff {A : Automaton} {p q : Nat} : A.Path p [] q ↔ p = q :=
  ⟨fun h => by cases h; rfl, fun h => h ▸ .nil p⟩

theorem path_cons_iff {A : Automaton} {p q : Nat} {t : Transition} {ts : List Transition} :
    A.Path p (t :: ts) q ↔ t ∈ A.transitions p ∧ A.Path t.target ts q :=
  ⟨fun h => by cases h with | cons ht hts => exact ⟨ht, hts⟩, fun h => .cons h.1 h.2⟩

/-- A path along two pieces passes a state between them. -/
theorem path_append_iff {A : Automaton} {p r : Nat} {ts us : List Transition} :
    A.Path p (ts ++ us) r ↔ ∃ q, A.Path p ts q ∧ A.Path q us r := by
  induction ts generalizing p with
  | nil => simp [path_nil_iff]
  | cons t ts ih => simp [path_cons_iff, ih, and_assoc]

theorem Path.append {A : Automaton} {p q r : Nat} {ts us : List Transition} (h : A.Path p ts q)
    (h' : A.Path q us r) : A.Path p (ts ++ us) r :=
  path_append_iff.2 ⟨q, h, h'⟩

/-- A path stays inside the automaton, as every target does. -/
theorem Path.lt_size {A : Automaton} {p q : Nat} {ts : List Transition} (h : A.Path p ts q)
    (hp : p < A.size) : q < A.size := by
  induction h with
  | nil => exact hp
  | cons ht _ ih => exact ih (target_lt_size ht)

/-- An acceptor relates a word to itself only, since its two tapes read the same labels. -/
theorem eq_of_relates {A : Automaton} (hA : A.isAcceptor = true) {x y : Word}
    (h : A.Relates x y) : x = y := by
  obtain ⟨ts, ⟨q, hpath, -⟩, rfl, rfl⟩ := h
  generalize A.start = p at hpath
  induction hpath with
  | nil => rfl
  | cons ht _ ih =>
    have hcopy := Array.all_eq_true_iff_forall_mem.1 hA _ (mem_states_of_mem_transitions ht)
    have hlabel := eq_of_beq (List.all_eq_true.1 hcopy _ ht)
    simp only [spell_cons, ih, Arc.label, hlabel]

end Automaton

end FiniteState

import FiniteState.Proofs.Construct
import FiniteState.Proofs.Deterministic
import Mathlib.Data.Finset.Card

/-!
# Tries

A trie has one state for each initial segment of its words. That no two states share a segment is
part of being a trie; that every state stands for one follows from where the states lead. While a
word is added, an accepting state or the end of the word so far can be reached from every state, so
once the word is complete no state but the start of an empty trie is a dead end.

* `isDeterministic_words`, `isAcceptor_words`: a trie is a deterministic acceptor.
* `eq_start_or_exists_acceptsFrom_words`: there are no dead ends in a trie.
* `exists_access_words_iff`: the states stand for the initial segments.
* `words_exact`: what a trie accepts, and how many states it has.
-/

namespace FiniteState

/-- The initial segments of words. The empty word is one of them, even if there are no words. -/
def initialSegments (ws : List Word) : Finset Word := insert [] (ws.flatMap List.inits).toFinset

/-- The initial segments of a list of words are their prefixes, and the empty word in any case. -/
@[simp] theorem mem_initialSegments_iff {ws : List Word} {v : Word} :
    v ∈ initialSegments ws ↔ v = [] ∨ ∃ w ∈ ws, v <+: w := by
  simp [initialSegments]

namespace Automaton

variable {A : Automaton} {S : Alphabet} {access : Nat → Word}

/-! ## Determinism

A word branches off where no transition with its symbol leaves the state, so labels stay distinct.
-/

/-- A trie copies letters, so it is an acceptor. -/
theorem Trie.isAcceptor (h : A.Trie access) : A.isAcceptor = true := by
  rw [isAcceptor_iff]
  intro q t ht
  obtain ⟨s, hlabels, -⟩ := h.access_target q t ht
  obtain ⟨hinput, houtput⟩ := Prod.mk.inj hlabels
  rw [hinput, houtput]

theorem isAcceptor_words (S : Alphabet) (ws : List Word) : (words S ws).isAcceptor = true := by
  obtain ⟨access, htrie, -⟩ := trie_words S ws
  exact htrie.isAcceptor

/-- No state has two transitions with the same labels. -/
def DistinctlyLabelled (A : Automaton) : Prop := ∀ q, ((A.transitions q).map Arc.labels).Nodup

/-- There are no silent transitions in a trie, so distinct labels make it deterministic. -/
theorem Trie.deterministic (h : A.Trie access) (hlabels : A.DistinctlyLabelled) :
    A.system.Deterministic := by
  refine ⟨fun q t ht => ?_, hlabels⟩
  obtain ⟨s, hsymbol, -⟩ := h.access_target q t ht
  rw [Arc.isSilent_eq, hsymbol]
  rfl

theorem transitions_branch {q : Nat} (hq : q < A.size) (s : Symbol) :
    (A.branch q s).transitions q = A.transitions q ++ [.copying (.symbol s) A.size] := by
  rw [transitions, state_branch hq, if_pos rfl]
  rfl

theorem transitions_branch_of_ne {q p : Nat} (hq : q < A.size) (s : Symbol) (hp : p ≠ q) :
    (A.branch q s).transitions p = A.transitions p := by
  rw [transitions, state_branch hq, if_neg hp]
  rfl

/-- Branching off at a free letter keeps labels distinct. -/
theorem DistinctlyLabelled.branch (h : A.DistinctlyLabelled) {q : Nat} (hq : q < A.size)
    {s : Symbol} (hfree : ∀ t ∈ A.transitions q, t.input ≠ .symbol s) :
    (A.branch q s).DistinctlyLabelled := by
  intro p
  by_cases hp : p = q
  · subst hp
    rw [transitions_branch hq, List.map_append, List.map_singleton, ← List.concat_eq_append]
    apply (h p).concat
    intro hmem
    obtain ⟨t, ht, hlabels⟩ := List.mem_map.1 hmem
    exact hfree t ht (Prod.mk.inj hlabels).1
  · rw [transitions_branch_of_ne hq s hp]
    exact h p

theorem DistinctlyLabelled.addWord (h : A.DistinctlyLabelled) {q : Nat} (hq : q < A.size)
    (w : Word) : (A.addWord q w).DistinctlyLabelled := by
  refine addWord_induction (P := fun B _ _ => B.DistinctlyLabelled) (Q := DistinctlyLabelled)
    ?follow ?branch ?accept hq h
  case follow => exact fun _ _ _ _ _ _ _ hB => hB
  case branch =>
    intro B r s u hr hfree hB
    exact hB.branch hr hfree
  case accept =>
    intro B r hr hB p
    rw [transitions_acceptAt hr]
    exact hB p

theorem distinctlyLabelled_words (S : Alphabet) (ws : List Word) :
    (words S ws).DistinctlyLabelled := by
  apply words_induction
  · intro q
    rw [transitions_empty]
    exact List.nodup_nil
  · intro A hA w _
    exact hA.addWord A.start_lt_size w

/-- The check for determinism passes for every list of words. -/
theorem isDeterministic_words (S : Alphabet) (ws : List Word) :
    (words S ws).isDeterministic = true := by
  obtain ⟨access, htrie, -⟩ := trie_words S ws
  rw [isDeterministic_iff]
  exact htrie.deterministic (distinctlyLabelled_words S ws)

/-! ## No dead ends

While a word is added, every state leads to an accepting one or to the state that has been reached,
which accepts in the end. -/

/-- From every state, an accepting state or the state `q` can be reached. -/
def LeadsOn (A : Automaton) (q : Nat) : Prop :=
  ∀ p < A.size, (∃ ls, A.system.AcceptsFrom p ls) ∨ ∃ ls, A.system.Trace p ls q

/-- Where a state can be reached, so can the target of a transition from it. -/
theorem LeadsOn.follow {q : Nat} (h : A.LeadsOn q) {t : Transition} (ht : t ∈ A.transitions q) :
    A.LeadsOn t.target := by
  intro p hp
  rcases h p hp with haccepts | ⟨ls, htrace⟩
  · exact .inl haccepts
  · exact .inr ⟨_, htrace.snoc ht⟩

theorem trace_branch {p q r : Nat} (hq : q < A.size) (s : Symbol) {ls : List (Label × Label)}
    (h : A.system.Trace p ls r) : (A.branch q s).system.Trace p ls r := by
  apply h.mono
  intro k t ht
  exact (mem_transitions_branch_iff hq).2 (.inl ht)

theorem acceptsFrom_branch {p q : Nat} (hq : q < A.size) (s : Symbol) {ls : List (Label × Label)}
    (h : A.system.AcceptsFrom p ls) : (A.branch q s).system.AcceptsFrom p ls := by
  obtain ⟨f, htrace, hf⟩ := h
  refine ⟨f, trace_branch hq s htrace, ?_⟩
  show (A.branch q s).isFinal f = true
  rw [isFinal_branch hq]
  exact hf

/-- A new state is a dead end until it is where the word goes on. -/
theorem LeadsOn.branch {q : Nat} (h : A.LeadsOn q) (hq : q < A.size) (s : Symbol) :
    (A.branch q s).LeadsOn A.size := by
  intro p hp
  rw [size_branch] at hp
  by_cases hnew : p = A.size
  · rw [hnew]
    exact .inr ⟨[], .nil _⟩
  · rcases h p (by omega) with ⟨ls, haccepts⟩ | ⟨ls, htrace⟩
    · exact .inl ⟨ls, acceptsFrom_branch hq s haccepts⟩
    · have hstep : .copying (.symbol s) A.size ∈ (A.branch q s).transitions q :=
        (mem_transitions_branch_iff hq).2 (.inr ⟨rfl, rfl⟩)
      exact .inr ⟨_, (trace_branch hq s htrace).snoc hstep⟩

/-- Once the last state accepts, every state leads to acceptance. -/
theorem LeadsOn.acceptAt {q : Nat} (h : A.LeadsOn q) (hq : q < A.size) {p : Nat}
    (hp : p < A.size) : ∃ ls, (A.acceptAt q).system.AcceptsFrom p ls := by
  have hmono : ∀ {r ls}, A.system.Trace p ls r → (A.acceptAt q).system.Trace p ls r := by
    intro r ls htrace
    apply htrace.mono
    intro k t ht
    show t ∈ (A.acceptAt q).transitions k
    rw [transitions_acceptAt hq]
    exact ht
  -- what led to `q` now leads to an accepting state
  rcases h p hp with ⟨ls, f, htrace, hf⟩ | ⟨ls, htrace⟩
  · exact ⟨ls, f, hmono htrace, (isFinal_acceptAt_iff hq).2 (.inr hf)⟩
  · exact ⟨ls, q, hmono htrace, (isFinal_acceptAt_iff hq).2 (.inl rfl)⟩

/-- Adding a word leaves no dead end. -/
theorem LeadsOn.addWord {q : Nat} (h : A.LeadsOn q) (hq : q < A.size) (w : Word) :
    ∀ p < (A.addWord q w).size, ∃ ls, (A.addWord q w).system.AcceptsFrom p ls := by
  refine addWord_induction (P := fun B r _ => B.LeadsOn r)
    (Q := fun B => ∀ p < B.size, ∃ ls, B.system.AcceptsFrom p ls) ?follow ?branch ?accept hq h
  case follow =>
    intro B r s u t ht _ hB
    exact hB.follow ht
  case branch =>
    intro B r s u hr _ hB
    exact hB.branch hr s
  case accept =>
    intro B r hr hB p hp
    rw [size_acceptAt] at hp
    exact hB.acceptAt hr hp

/-- No state of a trie is a dead end, but for the start if there are no words. -/
theorem eq_start_or_exists_acceptsFrom_words (S : Alphabet) (ws : List Word) :
    ∀ q < (words S ws).size,
      q = (words S ws).start ∨ ∃ ls, (words S ws).system.AcceptsFrom q ls := by
  apply words_induction (P := fun A =>
    ∀ q < A.size, q = A.start ∨ ∃ ls, A.system.AcceptsFrom q ls)
  · intro q hq
    exact .inl (Nat.lt_one_iff.1 hq)
  · intro A hA w _ q hq
    have hleads : A.LeadsOn A.start := by
      intro p hp
      rcases hA p hp with rfl | haccepts
      · exact .inr ⟨[], .nil _⟩
      · exact .inl haccepts
    exact .inr (hleads.addWord A.start_lt_size w q hq)

/-! ## States as initial segments

Every state lies on the way to a word, and every initial segment of a word leads to a state. -/

/-- The words of the states are closed under initial segments. -/
theorem Trie.exists_access_of_prefix (h : A.Trie access) {n q : Nat}
    (hn : (access q).length = n) (hq : q < A.size) {v : Word} (hv : v <+: access q) :
    ∃ p < A.size, access p = v := by
  -- on the length of the word: the state before has a word that is one symbol shorter
  induction n generalizing q with
  | zero =>
    rw [List.length_eq_zero_iff] at hn
    rw [hn, List.prefix_nil] at hv
    exact ⟨q, hq, hn.trans hv.symm⟩
  | succ n ih =>
    rcases h.parent q hq with rfl | ⟨p, t, ht, rfl⟩
    · rw [h.access_start] at hn
      cases hn
    · obtain ⟨s, -, htarget⟩ := h.access_target p t ht
      rw [htarget, List.length_append, List.length_singleton] at hn
      rw [htarget, List.prefix_concat_iff] at hv
      rcases hv with rfl | hv
      · exact ⟨t.target, hq, htarget⟩
      · exact ih (by omega) (lt_size_of_mem_transitions ht) hv

/-- The states of a trie stand for the initial segments of its words. -/
theorem exists_access_words_iff {ws : List Word} (h : (words S ws).Trie access)
    (hfinal : ∀ v, (∃ r, (words S ws).isFinal r = true ∧ access r = v) ↔ v ∈ ws) {v : Word} :
    (∃ q < (words S ws).size, access q = v) ↔ v = [] ∨ ∃ w ∈ ws, v <+: w := by
  constructor
  · rintro ⟨q, hq, rfl⟩
    rcases eq_start_or_exists_acceptsFrom_words S ws q hq with rfl | ⟨ls, f, htrace, hf⟩
    · exact .inl h.access_start
    · -- the word goes on to one that is accepted
      have hrun := TransitionSystem.runs_iff_trace.2 ⟨ls, htrace, rfl, rfl⟩
      have haccess := (h.access_of_runs hrun).2
      refine .inr ⟨access f, (hfinal _).1 ⟨f, hf, rfl⟩, ?_⟩
      rw [haccess]
      exact List.prefix_append _ _
  · rintro (rfl | ⟨w, hw, hv⟩)
    · exact ⟨_, (words S ws).start_lt_size, h.access_start⟩
    · obtain ⟨r, hr, rfl⟩ := (hfinal w).2 hw
      exact h.exists_access_of_prefix rfl (lt_size_of_isFinal hr) hv

/-- The number of states is the number of initial segments. -/
theorem size_words (S : Alphabet) (ws : List Word) :
    (words S ws).size = (initialSegments ws).card := by
  obtain ⟨access, htrie, hfinal⟩ := trie_words S ws
  have hsegments : (Finset.range (words S ws).size).image access = initialSegments ws := by
    ext v
    rw [mem_initialSegments_iff, ← exists_access_words_iff htrie hfinal]
    simp
  have hinjective : Set.InjOn access (Finset.range (words S ws).size) := by
    intro p hp q hq hpq
    exact htrie.injective p q (by simpa using hp) (by simpa using hq) hpq
  calc
    (words S ws).size = (Finset.range (words S ws).size).card := (Finset.card_range _).symm
    _ = ((Finset.range (words S ws).size).image access).card :=
      (Finset.card_image_of_injOn hinjective).symm
    _ = (initialSegments ws).card := by rw [hsegments]

/-- The trie of some words is a deterministic acceptor of these words and no others, and has a state
for each initial segment of a word. What it accepts, and how many states it has, depends neither on
the order of the words nor on how often each of them is listed. -/
theorem words_exact (S : Alphabet) (ws : List Word) :
    (words S ws).isDeterministic = true ∧ (words S ws).isAcceptor = true
      ∧ (∀ w, (words S ws).accepts w = true ↔ w ∈ ws)
      ∧ (words S ws).size = (initialSegments ws).card
      ∧ ∀ vs : List Word, (∀ w, w ∈ vs ↔ w ∈ ws) →
          (∀ w, (words S vs).accepts w = (words S ws).accepts w)
            ∧ (words S vs).size = (words S ws).size := by
  refine ⟨isDeterministic_words S ws, isAcceptor_words S ws, fun w => accepts_words_iff,
    size_words S ws, fun vs hsame => ⟨fun w => ?_, ?_⟩⟩
  · rw [Bool.eq_iff_iff, accepts_words_iff, accepts_words_iff]
    exact hsame w
  · have hsegments : initialSegments vs = initialSegments ws := by
      ext v
      simp only [mem_initialSegments_iff, hsame]
    rw [size_words, size_words, hsegments]

/-- The words ab, abc and ba, the first of them twice. -/
def forked : List Word := [[⟨0⟩, ⟨1⟩], [⟨0⟩, ⟨1⟩, ⟨2⟩], [⟨1⟩, ⟨0⟩], [⟨0⟩, ⟨1⟩]]

/-- In the other order and without the repetition, there are still six states, and the initial
segment a is still not accepted. -/
theorem size_words_forked :
    (∀ w, w ∈ forked.dedup.reverse ↔ w ∈ forked)
      ∧ (words .abcd forked.dedup.reverse).size = 6
      ∧ (words .abcd forked.dedup.reverse).accepts [⟨0⟩] = false := by
  have hsame : ∀ w, w ∈ forked.dedup.reverse ↔ w ∈ forked := by simp
  obtain ⟨-, -, haccepts, hsize, hlisted⟩ := words_exact .abcd forked
  obtain ⟨hlanguage, hstates⟩ := hlisted _ hsame
  refine ⟨hsame, ?_, ?_⟩
  · rw [hstates, hsize]
    decide
  · rw [hlanguage, Bool.eq_false_iff, ne_eq, haccepts]
    decide

end Automaton

end FiniteState

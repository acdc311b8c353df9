import FiniteState.Automaton.Construct
import FiniteState.Proofs.Minimize
import Mathlib.Data.List.Permutation

/-!
# Canonical automata

Automata with the same pair language minimize to the same value, which has as few states as any
deterministic automaton with this language. Such a value is a fixed point: trimming keeps all of its
states, no two of them are in one class, and they are numbered breadth first already.

* `minimize_canonical`: the minimal automaton is a deterministic automaton for the same language,
  canonical and smallest.
* `Canonical.minimize_eq`: minimization leaves a canonical automaton as it is.
* `determinize_minimize_correct`: both operations keep the relation.
-/

namespace FiniteState

namespace Automaton

variable {A B D M N : Automaton}

/-! ## The minimal automaton

Quotients of trimmed deterministic automata are reduced, and reduced systems for the same traces
correspond one to one. The breadth-first numbering makes them equal. -/

/-- Automata with the same pair language have the same minimal automaton, if there is anything in
it. -/
theorem minimize_eq_of_hasLabels_iff (halphabet : A.alphabet = B.alphabet)
    (hlabels : ∀ ls, A.HasLabels ls ↔ B.HasLabels ls) (hne : ∃ ls, A.HasLabels ls)
    (hM : A.minimize = .ok M) (hN : B.minimize = .ok N) : M = N := by
  obtain ⟨D, rfl, hD, hDalphabet, hDcarries, hDuseful, -⟩ := exists_trimmed_of_minimize hM
  obtain ⟨E, rfl, hE, hEalphabet, hEcarries, hEuseful, -⟩ := exists_trimmed_of_minimize hN
  have hsame : TransitionSystem.SameLanguage D.system D.start E.system E.start := fun ls =>
    (hDcarries ls).trans ((hlabels ls).trans (hEcarries ls).symm)
  have hclasses := (sameLanguage_quotient D.start_lt_size).symm.trans
    (hsame.trans (sameLanguage_quotient E.start_lt_size))
  rw [numberedQuotient_eq, numberedQuotient_eq, hDalphabet, hEalphabet, halphabet]
  exact (reduced_quotient hD (hDuseful hne)).tabulate_search_eq
    (reduced_quotient hE (hEuseful ((exists_congr hlabels).1 hne))) hclasses
    D.overflow_search_quotient E.overflow_search_quotient _ _

/-- The start of a minimal automaton is numbered first. -/
theorem start_minimize (hM : A.minimize = .ok M) : M.start = 0 := by
  obtain ⟨D, rfl, -⟩ := exists_trimmed_of_minimize hM
  rw [numberedQuotient_eq]
  exact TransitionSystem.start_tabulate_search D.size_pos _

/-- No deterministic automaton with the pair language has fewer states than the minimal one. -/
theorem size_minimize_le {C : Automaton} (hM : A.minimize = .ok M)
    (hC : C.isDeterministic = true) (hlabels : ∀ ls, C.HasLabels ls ↔ A.HasLabels ls) :
    M.size ≤ C.size := by
  obtain ⟨D, rfl, hD, -, hcarries, huseful, hempty⟩ := exists_trimmed_of_minimize hM
  have hC' := isDeterministic_iff.1 hC
  rw [numberedQuotient_eq, TransitionSystem.size_tabulate]
  by_cases hne : ∃ ls, A.HasLabels ls
  · have hsame : TransitionSystem.SameLanguage D.system D.start C.system C.start := by
      intro ls
      have hCcarries : C.HasLabels ls ↔ C.Carries ls := hasLabels_iff_carries_of_deterministic hC'
      exact (hcarries ls).trans ((hlabels ls).symm.trans hCcarries)
    exact (reduced_quotient hD (huseful hne)).size_search_le D.overflow_search_quotient hC'
      ((sameLanguage_quotient D.start_lt_size).symm.trans hsame)
  · -- without a pair there is one state, and no automaton has less
    exact (Search.size_run_le.trans (hempty hne).le).trans C.size_pos

/-- The minimal automaton is a deterministic one with the pair language of the automaton. It depends
on this language only, and no deterministic automaton with the same pair language is smaller. -/
theorem minimize_canonical (A B : Automaton) (halphabet : A.alphabet = B.alphabet)
    (hlabels : ∀ ls, A.HasLabels ls ↔ B.HasLabels ls) (hne : ∃ ls, A.HasLabels ls) (M N : Automaton)
    (hM : A.minimize = .ok M) (hN : B.minimize = .ok N) :
    M = N ∧ M.start = 0 ∧ M.isDeterministic = true ∧ (∀ ls, M.HasLabels ls ↔ A.HasLabels ls)
      ∧ ∀ C : Automaton, C.isDeterministic = true → (∀ ls, C.HasLabels ls ↔ A.HasLabels ls) →
          M.size ≤ C.size := by
  have hdeterministic := isDeterministic_iff.2 (ordered_minimize hM).deterministic
  exact ⟨minimize_eq_of_hasLabels_iff halphabet hlabels hne hM hN, start_minimize hM,
    hdeterministic, fun _ => hasLabels_minimize_iff hM,
    fun _ hC hsame => size_minimize_le hM hC hsame⟩

/-- Acceptors for the same words minimize to the same value. -/
theorem minimize_eq_of_accepts_eq (halphabet : A.alphabet = B.alphabet)
    (hA : A.isAcceptor = true) (hB : B.isAcceptor = true)
    (haccepts : ∀ w, A.accepts w = B.accepts w)
    {w : Word} (hw : A.accepts w = true) (hM : A.minimize = .ok M) (hN : B.minimize = .ok N) :
    M = N := by
  refine minimize_eq_of_hasLabels_iff halphabet (fun ls => ?_) ?_ hM hN
  · rw [hasLabels_iff_accepts hA, hasLabels_iff_accepts hB]
    simp only [haccepts]
  · exact ⟨_, (hasLabels_iff_accepts hA).2 ⟨w, hw, rfl⟩⟩

/-- The words over a and b that end in an a, with a silent cycle and a dead state. -/
def endingInA : Automaton where
  alphabet := .abcd
  states := #[
    { transitions := [⟨.symbol ⟨0⟩, .symbol ⟨0⟩, 0⟩, ⟨.symbol ⟨1⟩, .symbol ⟨1⟩, 0⟩,
        ⟨.epsilon, .epsilon, 1⟩] },
    { transitions := [⟨.epsilon, .epsilon, 0⟩, ⟨.symbol ⟨0⟩, .symbol ⟨0⟩, 2⟩,
        ⟨.symbol ⟨1⟩, .epsilon, 3⟩] },
    { accepting := true }, {}]
  start := 0
  start_lt := by decide
  target_lt := by decide

/-- The same words, deterministically, with the start behind the accepting state. -/
def endingInAReversed : Automaton where
  alphabet := .abcd
  states := #[
    { accepting := true,
      transitions := [⟨.symbol ⟨1⟩, .symbol ⟨1⟩, 1⟩, ⟨.symbol ⟨0⟩, .symbol ⟨0⟩, 0⟩] },
    { transitions := [⟨.symbol ⟨1⟩, .symbol ⟨1⟩, 1⟩, ⟨.symbol ⟨0⟩, .symbol ⟨0⟩, 0⟩] }]
  start := 1
  start_lt := by decide
  target_lt := by decide

/-- The minimal automaton of both. -/
def endingInAMinimal : Automaton where
  alphabet := .abcd
  states := #[
    { transitions := [⟨.symbol ⟨0⟩, .symbol ⟨0⟩, 1⟩, ⟨.symbol ⟨1⟩, .symbol ⟨1⟩, 0⟩] },
    { accepting := true,
      transitions := [⟨.symbol ⟨0⟩, .symbol ⟨0⟩, 1⟩, ⟨.symbol ⟨1⟩, .symbol ⟨1⟩, 0⟩] }]
  start := 0
  start_lt := by decide
  target_lt := by decide

/-- The words that end in a, minimized. -/
theorem minimize_endingInA : endingInA.minimize = .ok endingInAMinimal := by cbv

/-- The same words by another automaton are minimized to the same value. -/
theorem minimize_endingInAReversed : endingInAReversed.minimize = .ok endingInAMinimal := by cbv

theorem hasLabels_endingInA : ∃ ls, endingInA.HasLabels ls := by
  have haccepts : endingInA.accepts [⟨0⟩] = true := by cbv
  obtain ⟨y, hy⟩ := accepts_iff_exists_relates.1 haccepts
  obtain ⟨ls, hls, -⟩ := relates_iff_hasLabels.1 hy
  exact ⟨ls, hls⟩

/-- The automaton with two states is a deterministic one for the words that end in an a, and there
is none with fewer states. -/
theorem two_le_size_of_endingInA :
    endingInAMinimal.start = 0 ∧ endingInAMinimal.isDeterministic = true
      ∧ (∀ ls, endingInAMinimal.HasLabels ls ↔ endingInA.HasLabels ls)
      ∧ ∀ C : Automaton, C.isDeterministic = true →
          (∀ ls, C.HasLabels ls ↔ endingInA.HasLabels ls) → 2 ≤ C.size := by
  have hlabels : ∀ ls, endingInA.HasLabels ls ↔ endingInAReversed.HasLabels ls := fun ls =>
    (hasLabels_minimize_iff minimize_endingInA).symm.trans
      (hasLabels_minimize_iff minimize_endingInAReversed)
  exact (minimize_canonical endingInA endingInAReversed rfl hlabels hasLabels_endingInA _ _
    minimize_endingInA minimize_endingInAReversed).2

/-! ## Fixed points

The passes of minimization are taken one by one: an automaton with the properties of a minimal one
is changed by none of them. -/

/-- What minimization leaves as it is. -/
structure Canonical (A : Automaton) : Prop where
  ordered : A.system.Ordered
  useful : ∀ q < A.size, q = A.start ∨ A.Useful q
  separated : ∀ p q, p < A.size → q < A.size → A.finalClass p = A.finalClass q → p = q
  numbered : (A.system.search A.size).found.toList = List.range A.size

/-- An automaton is given by its alphabet, states and start, the bounds being proofs. -/
theorem eq_of_states_eq (halphabet : A.alphabet = B.alphabet) (hstates : A.states = B.states)
    (hstart : A.start = B.start) : A = B := by
  cases A
  cases B
  cases halphabet
  cases hstates
  cases hstart
  rfl

/-- Numbering the states as they are numbered changes nothing. -/
theorem tabulate_system {m : Numbering Nat} (hm : m.toList = List.range A.size)
    (h : A.system.start ∈ m) : A.system.tabulate A.alphabet m h = A := by
  have hnumber : ∀ q < A.size, m.number? q = some q := by
    intro q hq
    rw [Numbering.number?_eq_some_iff_getElem?, hm, List.getElem?_range hq]
  have hrow : ∀ q, A.system.row m q = A.state q := by
    intro q
    -- all targets are states, so no transition is dropped
    have htargets : ∀ t ∈ A.transitions q,
        (m.number? t.target).map t.withTarget = some t := by
      intro t ht
      rw [hnumber t.target (target_lt_size ht)]
      rfl
    show State.mk (A.isFinal q) _ = A.state q
    rw [show (A.system.arcs q) = A.transitions q from rfl, List.filterMap_congr htargets,
      List.filterMap_some]
    rfl
  have hkeys : m.keys.toList = List.range A.size := hm
  refine eq_of_states_eq rfl ?_ ?_
  · apply Array.toList_inj.1
    show (m.keys.map (A.system.row m)).toList = A.states.toList
    rw [Array.toList_map, hkeys]
    refine List.ext_getElem (by simp [size]) fun q hq hq' => ?_
    rw [List.getElem_map, List.getElem_range, hrow, Array.getElem_toList]
    exact state_eq_getElem hq'
  · have hstart := hnumber A.start A.start_lt_size
    show (m.number? A.start).get h = A.start
    simp [hstart]

/-- In an ordered automaton there is nothing to sort. -/
theorem sortTransitions_eq (hA : A.system.Ordered) : A.sortTransitions = A := by
  refine eq_of_states_eq rfl ?_ rfl
  show A.states.map (fun s => { s with transitions := s.transitions.mergeSort Arc.leLabels })
    = A.states
  refine Array.ext (by rw [Array.size_map]) fun q hq hq' => ?_
  have hsorted : A.states[q].transitions.Pairwise fun t u => t.leLabels u = true := by
    have hstate := hA.sorted q
    rw [show A.system.arcs q = A.states[q].transitions from
      congrArg State.transitions (state_eq_getElem hq')] at hstate
    exact hstate.imp fun h => Arc.leLabels_iff.2 h
  rw [Array.getElem_map, List.mergeSort_of_pairwise hsorted]

/-- Trimming changes nothing if only the start may be useless. -/
theorem trim_eq_self (h : ∀ q < A.size, q = A.start ∨ A.Useful q) : A.trim = A := by
  rw [Automaton.trim_eq]
  refine tabulate_system ?_ _
  rw [toList_kept, stateNumbers, List.filter_eq_self]
  intro q hq
  have hkept : q ∈ A.kept := mem_kept_iff.2 (h q (List.mem_range.1 hq))
  rw [Numbering.mem_iff_mem_toList, toList_kept] at hkept
  exact (List.mem_filter.1 hkept).2

/-- Trimming finds no state of a canonical automaton to remove. -/
theorem Canonical.trim_eq (hA : A.Canonical) : A.trim = A := trim_eq_self hA.useful

/-- Every class of a canonical automaton has one state, so the quotient is the automaton. -/
theorem Canonical.numberedQuotient_eq (hA : A.Canonical) : A.numberedQuotient = A := by
  have hone : Search.OneToOne fun q c => q < A.size ∧ c = A.classOf q := by
    rintro p _ q _ ⟨hp, rfl⟩ ⟨hq, rfl⟩
    constructor
    · rintro rfl
      rfl
    · intro hpq
      exact hA.separated p q hp hq ((classOf_eq_iff hp hq).1 hpq)
  -- the states correspond one to one to their classes, so both searches find them in one order
  have hself : A.system.tabulate A.alphabet (A.system.search A.size).found
      (Search.mem_run_of_pos A.size_pos) = A.numberedQuotient :=
    A.bisimulation_quotient.tabulate_search_eq hone ⟨A.start_lt_size, rfl⟩
      A.overflow_search_system A.overflow_search_quotient _ _
  rw [← hself]
  exact tabulate_system hA.numbered _

/-- Minimization leaves a canonical automaton as it is. -/
theorem Canonical.minimize_eq (hA : A.Canonical) : A.minimize = .ok A := by
  unfold minimize trimmedDeterministic
  rw [if_pos (isDeterministic_iff.2 hA.ordered.deterministic), hA.trim_eq]
  show Except.ok A.sortTransitions.numberedQuotient = _
  rw [sortTransitions_eq hA.ordered, hA.numberedQuotient_eq]

/-- A state of the numbered quotient stands for a class that a trace leads to. -/
theorem exists_class_of_lt_size {D : Automaton} {q : Nat} (hq : q < D.numberedQuotient.size) :
    ∃ c us, ((D.quotient D.statePartition).search D.size).found.toList[q]? = some c
      ∧ (D.quotient D.statePartition).Trace (D.quotient D.statePartition).start us c := by
  rw [numberedQuotient_eq, TransitionSystem.size_tabulate, ← Numbering.length_toList] at hq
  have hc := List.getElem?_eq_getElem hq
  obtain ⟨us, hus⟩ := (TransitionSystem.mem_search_iff D.overflow_search_quotient).1
    (Numbering.mem_iff_mem_toList.2 (List.mem_of_getElem? hc))
  exact ⟨_, us, hc, hus⟩

/-- All states of a minimized automaton are useful, unless the language is empty. -/
theorem useful_minimize (hM : A.minimize = .ok M) (hne : ∃ ls, A.HasLabels ls) {q : Nat}
    (hq : q < M.size) : M.Useful q := by
  obtain ⟨D, rfl, hD, -, -, huseful, -⟩ := exists_trimmed_of_minimize hM
  have hreduced := reduced_quotient hD (huseful hne)
  have hbisimulation := TransitionSystem.bisimulation_tabulate (S := D.alphabet)
    D.overflow_search_quotient D.start_mem_search_quotient
  obtain ⟨c, us, hc, hus⟩ := exists_class_of_lt_size hq
  obtain ⟨vs, hvs⟩ := hreduced.coaccessible us c hus
  -- the trace to the class is one to the state that stands for it
  obtain ⟨p, hp, hpc⟩ :=
    hbisimulation.exists_trace_left TransitionSystem.getElem?_start_tabulate hus
  have hpq : p = q := Numbering.eq_of_getElem? hpc hc
  exact ⟨⟨us, hpq ▸ hp⟩, vs, (hbisimulation.acceptsFrom_iff hc).2 hvs⟩

/-- No two states of a minimized automaton are in one class. -/
theorem separated_minimize (hM : A.minimize = .ok M) (hne : ∃ ls, A.HasLabels ls) {p q : Nat}
    (hp : p < M.size) (hq : q < M.size) (hpq : M.finalClass p = M.finalClass q) : p = q := by
  -- states of one final class have the same language
  have hsame : TransitionSystem.SameLanguage M.system p M.system q := by
    have hclasses := sameLanguage_quotient hp
    rw [(classOf_eq_iff hp hq).2 hpq] at hclasses
    exact hclasses.trans (sameLanguage_quotient hq).symm
  obtain ⟨D, rfl, hD, -, -, huseful, -⟩ := exists_trimmed_of_minimize hM
  have hreduced := reduced_quotient hD (huseful hne)
  have hbisimulation := TransitionSystem.bisimulation_tabulate (S := D.alphabet)
    D.overflow_search_quotient D.start_mem_search_quotient
  obtain ⟨c, us, hc, hus⟩ := exists_class_of_lt_size hp
  obtain ⟨d, vs, hd, hvs⟩ := exists_class_of_lt_size hq
  -- the quotient is reduced, so the two states stand for the same class
  have hcd : c = d := by
    refine hreduced.eq_of_sameLanguage us vs c d hus hvs fun ls => ?_
    rw [← hbisimulation.acceptsFrom_iff hc, ← hbisimulation.acceptsFrom_iff hd]
    exact hsame ls
  exact Numbering.eq_of_getElem? (hcd ▸ hc) hd

/-- For the empty language the start is the one state that is left. -/
theorem size_minimize_of_not_hasLabels (hM : A.minimize = .ok M) (h : ¬ ∃ ls, A.HasLabels ls) :
    M.size = 1 := by
  obtain ⟨D, rfl, -, -, -, -, hsize⟩ := exists_trimmed_of_minimize hM
  have hle : D.numberedQuotient.size ≤ D.size := by
    rw [numberedQuotient_eq, TransitionSystem.size_tabulate]
    exact Search.size_run_le
  have hpos := D.numberedQuotient.size_pos
  have hone := hsize h
  omega

/-- An ordered automaton with one state is canonical, whether that state is useful or not. -/
theorem canonical_of_size_eq_one (hordered : A.system.Ordered) (hsize : A.size = 1) :
    A.Canonical := by
  have hstart := A.start_lt_size
  refine ⟨hordered, fun q hq => .inl (by omega), fun p q hp hq _ => by omega, ?_⟩
  -- the search numbers the start first, and has no room for anything else
  have hfirst := TransitionSystem.getElem?_zero_search (M := A.system) A.size_pos
  have hlength : (A.system.search A.size).found.toList.length ≤ 1 := by
    rw [Numbering.length_toList, ← hsize]
    exact Search.size_run_le
  refine List.ext_getElem? fun i => ?_
  cases i with
  | zero =>
    rw [hfirst, List.getElem?_range A.size_pos]
    exact congrArg some (show A.start = 0 by omega)
  | succ i =>
    rw [List.getElem?_eq_none (by omega), List.getElem?_eq_none (by rw [List.length_range]; omega)]

/-- What minimization returns is canonical, also if nothing is accepted: then one state is left. -/
theorem canonical_minimize (hM : A.minimize = .ok M) : M.Canonical := by
  have hordered := ordered_minimize hM
  -- without an accepted pair no state but the start could be left
  by_cases hne : ∃ ls, A.HasLabels ls
  · refine ⟨hordered, fun q hq => .inr (useful_minimize hM hne hq),
      fun p q hp hq => separated_minimize hM hne hp hq, ?_⟩
    obtain ⟨D, rfl, -⟩ := exists_trimmed_of_minimize hM
    exact TransitionSystem.toList_search_tabulate D.overflow_search_quotient
      D.start_mem_search_quotient D.numberedQuotient_eq
  · exact canonical_of_size_eq_one hordered (size_minimize_of_not_hasLabels hM hne)

/-! ## Both operations -/

/-- The automaton under another limit on the number of states. -/
def withStateLimit (A : Automaton) (limit : Nat) : Automaton :=
  { A with alphabet := A.alphabet.withStateLimit limit }

/-- Refinement does not look at the limit. -/
theorem refineFrom_withStateLimit (A : Automaton) (limit fuel count : Nat) (classes : Array Nat) :
    (A.withStateLimit limit).refineFrom fuel count classes = A.refineFrom fuel count classes := by
  induction fuel generalizing count classes with
  | zero => rfl
  | succ fuel ih =>
    rw [refineFrom_succ, refineFrom_succ, ← ih]
    rfl

/-- The classes of the states do not depend on the limit. -/
theorem finalClass_withStateLimit (A : Automaton) (limit q : Nat) :
    (A.withStateLimit limit).finalClass q = A.finalClass q :=
  congrArg (Array.getD · q 0) (A.refineFrom_withStateLimit limit _ _ _)

/-- An automaton stays canonical under any limit, since nothing has to be explored again. -/
theorem Canonical.withStateLimit (hA : A.Canonical) (limit : Nat) :
    (A.withStateLimit limit).Canonical := by
  refine ⟨hA.ordered, hA.useful, fun p q hp hq hpq => ?_, hA.numbered⟩
  rw [finalClass_withStateLimit, finalClass_withStateLimit] at hpq
  exact hA.separated p q hp hq hpq

/-- Automata with the same label pairs relate the same words. -/
theorem transduces_eq_of_hasLabels_iff (h : ∀ ls, A.HasLabels ls ↔ B.HasLabels ls) (x y : Word) :
    A.transduces x y = B.transduces x y :=
  transduces_congr (relates_congr h) x y

/-- Automata with the same label pairs accept the same words. -/
theorem accepts_eq_of_hasLabels_iff (h : ∀ ls, A.HasLabels ls ↔ B.HasLabels ls) (x : Word) :
    A.accepts x = B.accepts x :=
  accepts_congr (relates_congr h) x

/-- Determinization and minimization keep what an automaton accepts and transduces and give a
deterministic automaton. Minimizing a minimal automaton, under any limit, changes nothing. -/
theorem determinize_minimize_correct (A R : Automaton)
    (hR : A.determinize = .ok R ∨ A.minimize = .ok R) :
    (∀ x y, R.transduces x y = A.transduces x y) ∧ (∀ x, R.accepts x = A.accepts x)
      ∧ R.isDeterministic = true
      ∧ (A.minimize = .ok R → R.minimize = .ok R
          ∧ ∀ limit, (R.withStateLimit limit).minimize = .ok (R.withStateLimit limit)) := by
  have hlabels : ∀ ls, R.HasLabels ls ↔ A.HasLabels ls := by
    intro ls
    rcases hR with hD | hM
    · exact hasLabels_determinize_iff hD
    · exact hasLabels_minimize_iff hM
  have hdeterministic : R.system.Deterministic := by
    rcases hR with hD | hM
    · exact deterministic_determinize hD
    · exact (ordered_minimize hM).deterministic
  refine ⟨transduces_eq_of_hasLabels_iff hlabels, accepts_eq_of_hasLabels_iff hlabels,
    isDeterministic_iff.2 hdeterministic, fun hM => ?_⟩
  have hcanonical := canonical_minimize hM
  exact ⟨hcanonical.minimize_eq, fun limit => (hcanonical.withStateLimit limit).minimize_eq⟩

theorem accepts_endingInAMinimal :
    endingInAMinimal.accepts [⟨1⟩, ⟨0⟩] = true ∧ endingInAMinimal.isDeterministic = true
      ∧ endingInAMinimal.minimize = .ok endingInAMinimal
      ∧ (endingInAMinimal.withStateLimit 0).minimize = .ok (endingInAMinimal.withStateLimit 0) := by
  obtain ⟨-, haccepts, hdeterministic, hminimize⟩ :=
    determinize_minimize_correct endingInA endingInAMinimal (.inr minimize_endingInA)
  have hword : endingInA.accepts [⟨1⟩, ⟨0⟩] = true := by cbv
  obtain ⟨hsame, hlimit⟩ := hminimize minimize_endingInA
  exact ⟨(haccepts _).trans hword, hdeterministic, hsame, hlimit 0⟩

end Automaton

end FiniteState

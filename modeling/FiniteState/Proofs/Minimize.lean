import FiniteState.Proofs.Determinize
import FiniteState.Proofs.Membership
import FiniteState.Proofs.Quotient
import FiniteState.Proofs.Trim

/-!
# Minimal automata

A reduced system is ordered, has no dead keys, and tells any two keys that can be reached apart by
what they accept. What a reduced system accepts determines it up to the names of its keys, hence
determines the automaton that breadth-first numbering makes of it, and no deterministic automaton
with the same traces has fewer states. Minimization numbers a reduced system.

* `Reduced.tabulate_search_eq`: equal languages give equal automata.
* `Reduced.size_search_le`: a reduced system is smallest.
* `minimize_eq_ok`: the steps of a minimization, from what `Determinized` describes.
* `exists_trimmed_of_minimize`: the minimal automaton is a quotient that is reduced.
-/

namespace FiniteState

namespace TransitionSystem

variable {κ ι : Type} {M : TransitionSystem κ} {N : TransitionSystem ι}

/-! ## Reduced systems

In a reduced system a key can be told from what it accepts. So keys of two reduced systems
correspond one to one, and no deterministic automaton has fewer states than there are keys. -/

/-- Ordered, without dead keys, and without two keys that accept the same. -/
structure Reduced (M : TransitionSystem κ) : Prop where
  ordered : M.Ordered
  coaccessible : M.Coaccessible M.start
  eq_of_sameLanguage : ∀ us vs k l, M.Trace M.start us k → M.Trace M.start vs l →
    SameLanguage M k M l → k = l

theorem SameLanguage.symm {k : κ} {l : ι} (h : SameLanguage M k N l) : SameLanguage N l M k :=
  fun ls => (h ls).symm

theorem SameLanguage.trans {ν : Type} {P : TransitionSystem ν} {k : κ} {l : ι} {m : ν}
    (h : SameLanguage M k N l) (h' : SameLanguage N l P m) : SameLanguage M k P m :=
  fun ls => (h ls).trans (h' ls)

theorem Coaccessible.of_trace {k l : κ} {ls : List (Label × Label)} (h : M.Coaccessible k)
    (htrace : M.Trace k ls l) : M.Coaccessible l :=
  fun us m hus => h (ls ++ us) m (htrace.append hus)

/-- The keys can be reached and accept the same. -/
def Matched (M : TransitionSystem κ) (N : TransitionSystem ι) (k : κ) (l : ι) : Prop :=
  (∃ us, M.Trace M.start us k) ∧ (∃ vs, N.Trace N.start vs l) ∧ SameLanguage M k N l

/-- In reduced systems with the same language, matched states go on to matched states. -/
theorem Reduced.bisimulation (hM : M.Reduced) (hN : N.Reduced) :
    Bisimulation (Matched M N) M N := by
  have hsame := bisimulation_sameLanguage hM.ordered hN.ordered
  have hrelated : ∀ k l, Matched M N k l →
      M.Coaccessible k ∧ N.Coaccessible l ∧ SameLanguage M k N l := by
    rintro k l ⟨⟨us, hus⟩, ⟨vs, hvs⟩, hkl⟩
    exact ⟨hM.coaccessible.of_trace hus, hN.coaccessible.of_trace hvs, hkl⟩
  refine ⟨fun k l hkl => hsame.accepting k l (hrelated k l hkl), fun k l hkl => ?_⟩
  refine forall₂_imp_of_mem (hsame.arcs k l (hrelated k l hkl)) fun a ha b hb hab => ?_
  obtain ⟨⟨us, hus⟩, ⟨vs, hvs⟩, -⟩ := hkl
  exact ⟨hab.1, ⟨_, hus.snoc ha⟩, ⟨_, hvs.snoc hb⟩, hab.2.2.2⟩

/-- No state is matched twice, since no two states of a reduced system have the same language. -/
theorem Reduced.oneToOne (hM : M.Reduced) (hN : N.Reduced) :
    Search.OneToOne (Matched M N) := by
  rintro k l k' l' ⟨⟨us, hus⟩, ⟨vs, hvs⟩, hkl⟩ ⟨⟨us', hus'⟩, ⟨vs', hvs'⟩, hkl'⟩
  constructor
  · rintro rfl
    exact hN.eq_of_sameLanguage _ _ _ _ hvs hvs' (hkl.symm.trans hkl')
  · rintro rfl
    exact hM.eq_of_sameLanguage _ _ _ _ hus hus' (hkl.trans hkl'.symm)

variable [Ord κ] [Std.TransOrd κ] [Std.LawfulEqOrd κ] {S : Alphabet} {limit : Nat}

/-- Reduced systems that accept the same become the same automaton. -/
theorem Reduced.tabulate_search_eq [Ord ι] [Std.TransOrd ι] [Std.LawfulEqOrd ι] (hM : M.Reduced)
    (hN : N.Reduced) (hsame : SameLanguage M M.start N N.start) {limit' : Nat}
    (hoverM : (M.search limit).overflow = false) (hoverN : (N.search limit').overflow = false)
    (hm : M.start ∈ (M.search limit).found) (hn : N.start ∈ (N.search limit').found) :
    M.tabulate S (M.search limit).found hm = N.tabulate S (N.search limit').found hn := by
  have hstart : Matched M N M.start N.start := ⟨⟨[], .nil _⟩, ⟨[], .nil _⟩, hsame⟩
  exact (hM.bisimulation hN).tabulate_search_eq (hM.oneToOne hN) hstart hoverM hoverN hm hn

/-- A deterministic automaton that accepts the same has a state of its own for every key: the one
that a trace to the key leads to. -/
theorem Reduced.size_search_le (hM : M.Reduced) (hover : (M.search limit).overflow = false)
    {C : Automaton} (hC : C.system.Deterministic)
    (hsame : SameLanguage M M.start C.system C.start) :
    (M.search limit).found.size ≤ C.size := by
  -- what can be reached here can go on to acceptance, so the trace is one there as well
  have hstate : ∀ k ∈ (M.search limit).found, ∃ q < C.size, ∃ us, M.Trace M.start us k
      ∧ C.system.Trace C.start us q := by
    intro k hk
    obtain ⟨us, hus⟩ := (mem_search_iff hover).1 hk
    obtain ⟨vs, f, hvs, hf⟩ := hM.coaccessible us k hus
    obtain ⟨p, hp, -⟩ := (hsame (us ++ vs)).1 ⟨f, hus.append hvs, hf⟩
    obtain ⟨q, hq, -⟩ := trace_append_iff.1 hp
    exact ⟨q, Automaton.trace_lt_size hq C.start_lt_size, us, hus, hq⟩
  choose! state hlt us hus htrace using hstate
  have haccepts : ∀ k ∈ (M.search limit).found,
      SameLanguage M k C.system (state k) := by
    intro k hk vs
    rw [← hM.ordered.deterministic.acceptsFrom_append_iff (hus k hk),
      ← hC.acceptsFrom_append_iff (htrace k hk)]
    exact hsame (us k ++ vs)
  -- keys with the same state accept the same, and there is only one of those
  have hinj : ∀ k ∈ (M.search limit).found.toList, ∀ l ∈ (M.search limit).found.toList,
      state k = state l → k = l := by
    intro k hk l hl hkl
    rw [← Numbering.mem_iff_mem_toList] at hk hl
    refine hM.eq_of_sameLanguage _ _ _ _ (hus k hk) (hus l hl) ((haccepts k hk).trans ?_)
    rw [hkl]
    exact (haccepts l hl).symm
  have hnodup : ((M.search limit).found.toList.map state).Nodup :=
    (Numbering.nodup_toList _).map_on hinj
  have hsubset : (M.search limit).found.toList.map state ⊆ C.stateNumbers := by
    intro q hq
    obtain ⟨k, hk, rfl⟩ := List.mem_map.1 hq
    exact Automaton.mem_stateNumbers.2 (hlt k (Numbering.mem_iff_mem_toList.2 hk))
  -- so there are at least as many states as keys
  have hle := (hnodup.subperm hsubset).length_le
  simpa using hle

/-! ## Numbering breadth first

States that were numbered in the order of a search are found in the same order by another search. -/

theorem getElem?_zero_search (hlimit : 0 < limit) :
    (M.search limit).found.toList[0]? = some M.start := by
  have hfirst : (Search.visitAll limit ⟨.empty, false⟩ [M.start]).found.toList = [M.start] := by
    show (Search.visit limit ⟨.empty, false⟩ M.start).found.toList = [M.start]
    unfold Search.visit
    have hsize : (Numbering.empty : Numbering κ).size < limit := hlimit
    rw [dif_neg (Numbering.not_mem_empty M.start), if_pos hsize, Numbering.toList_insertNew,
      Numbering.toList_empty, List.nil_append]
  have hprefix := Search.prefix_expandFrom (fun k => (M.arcs k).map (·.target)) limit limit 0
    (Search.visitAll limit ⟨.empty, false⟩ [M.start])
  rw [hfirst] at hprefix
  obtain ⟨rest, hrest⟩ := hprefix
  show (Search.run _ limit [M.start]).found.toList[0]? = _
  rw [Search.run, ← hrest]
  rfl

theorem start_tabulate_search (hlimit : 0 < limit) (h : M.start ∈ (M.search limit).found) :
    (M.tabulate S (M.search limit).found h).start = 0 := by
  have hstart := getElem?_start_tabulate (M := M) (S := S) (h := h)
  exact Numbering.eq_of_getElem? hstart (getElem?_zero_search hlimit)

/-- Searching an automaton that was numbered breadth first finds its states in order. -/
theorem toList_search_tabulate (hover : (M.search limit).overflow = false)
    (h : M.start ∈ (M.search limit).found) {A : Automaton}
    (hA : A = M.tabulate S (M.search limit).found h) :
    (A.system.search A.size).found.toList = List.range A.size := by
  have hone : Search.OneToOne fun (i : Nat) (k : κ) =>
      (M.search limit).found.toList[i]? = some k := by
    intro i k j l hi hj
    constructor
    · rintro rfl
      exact Option.some.inj (hi.symm.trans hj)
    · rintro rfl
      exact Numbering.eq_of_getElem? hi hj
  have hbisimulation := bisimulation_tabulate (S := S) hover h
  have hstart := getElem?_start_tabulate (M := M) (S := S) (h := h)
  have hsize : A.size = (M.search limit).found.size := by
    simp [hA]
  -- both searches go side by side, so the number that is found in the place of a key is its own
  rw [← hA] at hbisimulation hstart
  have halike := hbisimulation.alike_search hone hstart A.overflow_search_system hover
  rw [Numbering.eq_range_of_forall₂ halike.keys, hsize]

end TransitionSystem

namespace Automaton

variable {A B D M N : Automaton}

/-! ## Sorted transitions -/

/-- Each state's transitions are sorted by their labels. -/
@[simp] theorem transitions_sortTransitions (A : Automaton) (q : Nat) :
    A.sortTransitions.transitions q = (A.transitions q).mergeSort Arc.leLabels := by
  rw [transitions, state, sortTransitions, Array.getD_eq_getD_getElem?, Array.getElem?_map,
    transitions, state, Array.getD_eq_getD_getElem?]
  cases A.states[q]? with
  | none => exact List.mergeSort_nil.symm
  | some s => rfl

@[simp] theorem isFinal_sortTransitions (A : Automaton) (q : Nat) :
    A.sortTransitions.isFinal q = A.isFinal q := by
  rw [isFinal, state, sortTransitions, Array.getD_eq_getD_getElem?, Array.getElem?_map,
    isFinal, state, Array.getD_eq_getD_getElem?]
  cases A.states[q]? <;> rfl

@[simp] theorem size_sortTransitions (A : Automaton) : A.sortTransitions.size = A.size := by
  simp [size, sortTransitions]

theorem trace_sortTransitions_iff {p q : Nat} {ls : List (Label × Label)} :
    A.sortTransitions.system.Trace p ls q ↔ A.system.Trace p ls q := by
  have hmem : ∀ k a, a ∈ A.sortTransitions.system.arcs k ↔ a ∈ A.system.arcs k := by
    intro k a
    show a ∈ A.sortTransitions.transitions k ↔ a ∈ A.transitions k
    rw [transitions_sortTransitions, List.mem_mergeSort]
  exact ⟨.mono fun k a => (hmem k a).1, .mono fun k a => (hmem k a).2⟩

theorem acceptsFrom_sortTransitions_iff {q : Nat} {ls : List (Label × Label)} :
    A.sortTransitions.system.AcceptsFrom q ls ↔ A.system.AcceptsFrom q ls := by
  refine exists_congr fun f => ?_
  rw [trace_sortTransitions_iff]
  exact and_congr_right fun _ => iff_of_eq (congrArg (· = true) (A.isFinal_sortTransitions f))

/-- A deterministic automaton is ordered once its transitions are sorted. -/
theorem ordered_sortTransitions (hA : A.system.Deterministic) :
    A.sortTransitions.system.Ordered := by
  have harcs : ∀ q, A.sortTransitions.system.arcs q = (A.transitions q).mergeSort Arc.leLabels :=
    A.transitions_sortTransitions
  refine ⟨⟨fun q t ht => ?_, fun q => ?_⟩, fun q => ?_⟩
  · rw [harcs, List.mem_mergeSort] at ht
    exact hA.isSilent_eq_false q t ht
  · rw [harcs]
    exact ((List.mergeSort_perm _ _).map Arc.labels).nodup_iff.2 (hA.nodup q)
  · rw [harcs]
    exact Arc.pairwise_mergeSort _

/-! ## The quotient is reduced

The classes are those of the states that accept the same, and a class accepts what its states
accept. -/

/-- A class has the language of its states. -/
theorem sameLanguage_quotient {q : Nat} (hq : q < A.size) :
    TransitionSystem.SameLanguage A.system q (A.quotient A.statePartition) (A.classOf q) :=
  fun _ => A.bisimulation_quotient.acceptsFrom_iff ⟨hq, rfl⟩

/-- The quotient meets classes of states only. -/
theorem exists_state_of_trace_quotient {us : List (Label × Label)} {c : Nat}
    (h : (A.quotient A.statePartition).Trace (A.quotient A.statePartition).start us c) :
    ∃ q < A.size, c = A.classOf q := by
  obtain ⟨q, -, hq, hc⟩ := A.bisimulation_quotient.exists_trace_left ⟨A.start_lt_size, rfl⟩ h
  exact ⟨q, hq, hc⟩

/-- The quotient has at most as many classes as there are states, so its search has room. -/
theorem overflow_search_quotient (A : Automaton) :
    ((A.quotient A.statePartition).search A.size).overflow = false := by
  refine Search.overflow_eq_false_of_subset (A.stateNumbers.map A.classOf) ?_ fun c hc => ?_
  · simp
  · obtain ⟨k, hk, us, hus⟩ := TransitionSystem.reaches_iff_trace.1 hc
    rw [List.mem_singleton.1 hk] at hus
    obtain ⟨q, hq, rfl⟩ := exists_state_of_trace_quotient hus
    exact List.mem_map_of_mem (mem_stateNumbers.2 hq)

/-- The quotient of an ordered automaton without useless states is reduced. -/
theorem reduced_quotient (hA : A.system.Ordered) (huseful : ∀ q < A.size, A.Useful q) :
    (A.quotient A.statePartition).Reduced := by
  refine ⟨ordered_quotient hA, fun us c hus => ?_, fun us vs c d hus hvs hcd => ?_⟩
  · obtain ⟨q, hq, rfl⟩ := exists_state_of_trace_quotient hus
    obtain ⟨vs, hvs⟩ := (huseful q hq).2
    exact ⟨vs, (sameLanguage_quotient hq vs).1 hvs⟩
  · obtain ⟨p, hp, rfl⟩ := exists_state_of_trace_quotient hus
    obtain ⟨q, hq, rfl⟩ := exists_state_of_trace_quotient hvs
    rw [classOf_eq_iff hp hq]
    refine finalClass_eq_of_sameLanguage hA (fun r hr ws l hws => ?_) hp hq ?_
    · exact (huseful l (trace_lt_size hws hr)).2
    · exact (sameLanguage_quotient hp).trans (hcd.trans (sameLanguage_quotient hq).symm)

/-! ## Minimization -/

/-- The quotient by the classes, numbered breadth first. -/
def numberedQuotient (A : Automaton) : Automaton := A.canonical (A.quotient A.statePartition)

/-- The search of the quotient finds the class of the start. -/
theorem start_mem_search_quotient (A : Automaton) :
    (A.quotient A.statePartition).start ∈ ((A.quotient A.statePartition).search A.size).found :=
  Search.mem_run_of_pos A.size_pos

/-- The result is the quotient with its classes numbered as a search finds them. -/
theorem numberedQuotient_eq (A : Automaton) :
    A.numberedQuotient = (A.quotient A.statePartition).tabulate A.alphabet
      ((A.quotient A.statePartition).search A.size).found A.start_mem_search_quotient := rfl

/-- The numbered quotient has the traces of the automaton. -/
theorem carries_numberedQuotient_iff {ls : List (Label × Label)} :
    A.numberedQuotient.Carries ls ↔ A.Carries ls := by
  rw [numberedQuotient_eq, TransitionSystem.carries_tabulate_iff]
  · exact (sameLanguage_quotient A.start_lt_size ls).symm
  · exact fun us _ c hus _ =>
      (TransitionSystem.mem_search_iff A.overflow_search_quotient).2 ⟨us, hus⟩

theorem useful_sortTransitions {q : Nat} (h : A.Useful q) : A.sortTransitions.Useful q := by
  obtain ⟨⟨us, hus⟩, vs, hvs⟩ := h
  exact ⟨⟨us, trace_sortTransitions_iff.2 hus⟩, vs, acceptsFrom_sortTransitions_iff.2 hvs⟩

/-- The deterministic automaton that minimization starts from: the automaton itself, or what the
subset construction makes of it. -/
inductive Determinized (A : Automaton) : Automaton → Prop
  | self (h : A.system.Deterministic) : Determinized A A
  | subsets {B : Automaton} (h : A.determinize = .ok B) : Determinized A B

/-- What minimization starts from is deterministic. -/
theorem Determinized.deterministic (h : A.Determinized B) : B.system.Deterministic := by
  cases h with
  | self h => exact h
  | subsets h => exact deterministic_determinize h

theorem Determinized.alphabet_eq (h : A.Determinized B) : B.alphabet = A.alphabet := by
  cases h with
  | self _ => rfl
  | subsets h => exact alphabet_determinize h

/-- The traces of the deterministic automaton are the label pairs of the given one. -/
theorem Determinized.carries_iff (h : A.Determinized B) {ls : List (Label × Label)} :
    B.Carries ls ↔ A.HasLabels ls := by
  rw [← hasLabels_iff_carries_of_deterministic h.deterministic]
  cases h with
  | self _ => rfl
  | subsets h => exact hasLabels_determinize_iff h

/-- The labels of the deterministic automaton come from transitions of the given one. -/
theorem Determinized.exists_transition (h : A.Determinized B) {q : Nat} {t : Transition}
    (ht : t ∈ B.transitions q) : ∃ p, ∃ u ∈ A.transitions p, u.labels = t.labels := by
  cases h with
  | self _ => exact ⟨q, t, ht, rfl⟩
  | subsets h => exact exists_transition_of_determinize h ht

/-- A minimized automaton is the numbered quotient of a trimmed deterministic one. -/
theorem minimize_eq_ok (hM : A.minimize = .ok M) :
    ∃ B : Automaton, A.Determinized B ∧ M = B.trim.sortTransitions.numberedQuotient := by
  unfold minimize trimmedDeterministic at hM
  by_cases hA : A.isDeterministic = true
  · rw [if_pos hA] at hM
    cases hM
    exact ⟨A, .self (isDeterministic_iff.1 hA), rfl⟩
  · rw [if_neg hA] at hM
    cases hB : A.determinize with
    | error e =>
      rw [hB] at hM
      cases hM
    | ok B =>
      rw [hB] at hM
      cases hM
      exact ⟨B, .subsets hB, rfl⟩

/-- The labels of a minimal automaton are labels of the automaton. -/
theorem exists_transition_of_minimize (hM : A.minimize = .ok M) {i : Nat} {t : Transition}
    (ht : t ∈ M.transitions i) : ∃ p, ∃ u ∈ A.transitions p, u.labels = t.labels := by
  obtain ⟨B, hB, rfl⟩ := minimize_eq_ok hM
  rw [numberedQuotient_eq] at ht
  obtain ⟨c, -, a, ha, halabels, -⟩ := TransitionSystem.exists_arc_of_mem_tabulate ht
  rw [arcs_quotient] at ha
  obtain ⟨v, hv, rfl⟩ := List.mem_map.1 ha
  rw [transitions_sortTransitions, List.mem_mergeSort] at hv
  obtain ⟨q, w, hw, hwlabels⟩ := exists_transition_of_trim hv
  obtain ⟨p, u, hu, hulabels⟩ := hB.exists_transition hw
  exact ⟨p, u, hu, hulabels.trans (hwlabels.trans halabels)⟩

/-- The automaton whose quotient is the minimal one. -/
theorem exists_trimmed_of_minimize (hM : A.minimize = .ok M) :
    ∃ D : Automaton, M = D.numberedQuotient ∧ D.system.Ordered ∧ D.alphabet = A.alphabet
      ∧ (∀ ls, D.Carries ls ↔ A.HasLabels ls)
      ∧ ((∃ ls, A.HasLabels ls) → ∀ q < D.size, D.Useful q)
      ∧ ((¬ ∃ ls, A.HasLabels ls) → D.size = 1) := by
  obtain ⟨B, hB, rfl⟩ := minimize_eq_ok hM
  have hordered := ordered_sortTransitions (deterministic_trim hB.deterministic)
  refine ⟨B.trim.sortTransitions, rfl, hordered, hB.alphabet_eq, fun ls => ?_, fun hne q hq => ?_,
    fun hempty => ?_⟩
  · exact (acceptsFrom_sortTransitions_iff.trans carries_trim_iff).trans hB.carries_iff
  · rw [size_sortTransitions] at hq
    exact useful_sortTransitions
      (useful_trim ((exists_congr fun _ => hB.carries_iff).2 hne) hq)
  · rw [size_sortTransitions]
    exact size_trim_of_not_carries fun h =>
      hempty ((exists_congr fun _ => hB.carries_iff).1 h)

@[grind →] theorem alphabet_minimize (hM : A.minimize = .ok M) : M.alphabet = A.alphabet := by
  obtain ⟨D, rfl, -, halphabet, -⟩ := exists_trimmed_of_minimize hM
  exact halphabet

/-- A minimized automaton is ordered, hence deterministic. -/
theorem ordered_minimize (hM : A.minimize = .ok M) : M.system.Ordered := by
  obtain ⟨D, rfl, hD, -⟩ := exists_trimmed_of_minimize hM
  rw [numberedQuotient_eq]
  exact (ordered_quotient hD).tabulate

/-- Minimization keeps the pair language. -/
theorem hasLabels_minimize_iff (hM : A.minimize = .ok M) {ls : List (Label × Label)} :
    M.HasLabels ls ↔ A.HasLabels ls := by
  rw [hasLabels_iff_carries_of_deterministic (ordered_minimize hM).deterministic]
  obtain ⟨D, rfl, -, -, hcarries, -⟩ := exists_trimmed_of_minimize hM
  rw [carries_numberedQuotient_iff, hcarries]

theorem relates_minimize_iff (hM : A.minimize = .ok M) {x y : Word} :
    M.Relates x y ↔ A.Relates x y :=
  relates_congr (fun _ => hasLabels_minimize_iff hM) x y

end Automaton

end FiniteState

import FiniteState.Automaton.Reach
import FiniteState.Proofs.Deterministic
import FiniteState.Proofs.Membership

/-!
# Trimming

A state is useful if a trace from the start leads to it and some trace from it is accepted. Every
state on the way to an accepting one is useful, so trimming keeps all accepted traces; and if there
is an accepted trace at all, the start is useful and so is every state that is left.

* `carries_trim_iff`: trimming keeps the accepted traces.
* `useful_trim`: what is left of an automaton with an accepted trace is useful.
* `origin_lt_origin`, `mem_transitions_trim_iff`: states and transitions that are left are old ones.
* `map_transitions_trim`: the transitions that are left keep their order.
* `isEmpty_iff`: the test for emptiness.
-/

namespace FiniteState

namespace Automaton

variable {A : Automaton}

/-! ## Accessible and coaccessible states

Accessible states are found by a search along the transitions, coaccessible ones by a search against
them. The lists of predecessors turn the transitions around. -/

/-- A search through an automaton has room for all of its states. -/
theorem overflow_search_system (A : Automaton) : (A.system.search A.size).overflow = false := by
  refine Search.overflow_eq_false_of_subset A.stateNumbers ?_ fun q hq => ?_
  · exact Nat.le_of_eq length_stateNumbers
  · obtain ⟨p, hp, ls, htrace⟩ := TransitionSystem.reaches_iff_trace.1 hq
    rw [List.mem_singleton.1 hp] at htrace
    exact mem_stateNumbers.2 (trace_lt_size htrace A.start_lt)

/-- A state is found accessible if a trace leads to it. -/
@[simp] theorem mem_accessible_iff {q : Nat} :
    q ∈ A.accessible ↔ ∃ ls, A.system.Trace A.start ls q :=
  TransitionSystem.mem_search_iff A.overflow_search_system

/-- Adding `p` at `r` adds it to that list only, if there is one. -/
theorem mem_modify_cons_iff {p p' q r : Nat} {found : Array (List Nat)} :
    p' ∈ (found.modify r (p :: ·)).getD q []
      ↔ (p' = p ∧ q < found.size ∧ r = q) ∨ p' ∈ found.getD q [] := by
  rw [Array.getD_eq_getD_getElem?, Array.getD_eq_getD_getElem?, Array.getElem?_modify]
  by_cases hr : r = q
  · rw [if_pos hr]
    by_cases hq : q < found.size
    · rw [Array.getElem?_eq_getElem hq]
      simp [hq, hr]
    · rw [Array.getElem?_eq_none (by omega)]
      simp [hq]
  · rw [if_neg hr]
    simp [hr]

/-- Adding `p` for each of its transitions adds it to the lists of their targets only. -/
theorem mem_addPredecessor_iff {p p' q : Nat} {ts : List Transition} {found : Array (List Nat)} :
    p' ∈ (ts.foldl (fun found t => found.modify t.target (p :: ·)) found).getD q []
      ↔ (p' = p ∧ q < found.size ∧ ∃ t ∈ ts, t.target = q) ∨ p' ∈ found.getD q [] := by
  induction ts generalizing found with
  | nil => simp
  | cons t ts ih =>
    rw [List.foldl_cons, ih, Array.size_modify, mem_modify_cons_iff, List.exists_mem_cons_iff]
    constructor
    · rintro (⟨hp, hq, h⟩ | ⟨hp, hq, h⟩ | h)
      · exact .inl ⟨hp, hq, .inr h⟩
      · exact .inl ⟨hp, hq, .inl h⟩
      · exact .inr h
    · rintro (⟨hp, hq, h | h⟩ | h)
      · exact .inr (.inl ⟨hp, hq, h⟩)
      · exact .inl ⟨hp, hq, h⟩
      · exact .inr (.inr h)

@[simp] theorem size_addPredecessors (p : Nat) (ts : List Transition) (found : Array (List Nat)) :
    (ts.foldl (fun found t => found.modify t.target (p :: ·)) found).size = found.size := by
  induction ts generalizing found with
  | nil => rfl
  | cons t ts ih => simp [ih]

/-- Adding predecessors keeps the size of the table. -/
@[simp] theorem size_foldl_addPredecessors (ps : List Nat) (found : Array (List Nat)) :
    (ps.foldl (fun found q => (A.transitions q).foldl
      (fun found t => found.modify t.target (q :: ·)) found) found).size = found.size := by
  induction ps generalizing found with
  | nil => rfl
  | cons p ps ih => simp [ih]

/-- Going through states adds those of them that have a transition to `q`. -/
theorem mem_foldl_addPredecessors_iff {p q : Nat} {ps : List Nat} {found : Array (List Nat)} :
    p ∈ (ps.foldl (fun found q => (A.transitions q).foldl
        (fun found t => found.modify t.target (q :: ·)) found) found).getD q []
      ↔ (p ∈ ps ∧ q < found.size ∧ ∃ t ∈ A.transitions p, t.target = q)
        ∨ p ∈ found.getD q [] := by
  induction ps generalizing found with
  | nil => simp
  | cons p' ps ih =>
    rw [List.foldl_cons, ih, size_addPredecessors, mem_addPredecessor_iff, List.mem_cons]
    constructor
    · rintro (⟨hp, h⟩ | ⟨rfl, h⟩ | h)
      · exact .inl ⟨.inr hp, h⟩
      · exact .inl ⟨.inl rfl, h⟩
      · exact .inr h
    · rintro (⟨rfl | hp, h⟩ | h)
      · exact .inr (.inl ⟨rfl, h⟩)
      · exact .inl ⟨hp, h⟩
      · exact .inr (.inr h)

/-- There is a list of predecessors for every state. -/
@[simp] theorem size_predecessors (A : Automaton) : A.predecessors.size = A.size := by
  simp [predecessors]

/-- The table lists the states with a transition to the given one. -/
theorem mem_predecessors_iff {p q : Nat} :
    p ∈ A.predecessors.getD q [] ↔ ∃ t ∈ A.transitions p, t.target = q := by
  rw [predecessors, mem_foldl_addPredecessors_iff, Array.size_replicate]
  constructor
  · rintro (⟨-, -, h⟩ | h)
    · exact h
    · rw [Array.getD_eq_getD_getElem?, Array.getElem?_replicate] at h
      split at h <;> exact absurd h List.not_mem_nil
  · -- a state with a transition has a number, and so does its target, hence a list
    rintro ⟨t, ht, rfl⟩
    have hp := mem_stateNumbers.2 (lt_size_of_mem_transitions ht)
    exact .inl ⟨hp, target_lt_size ht, t, ht, rfl⟩

/-- Going back from the accepting states reaches the states from which something is accepted: one
direction is by induction on the search, the other by induction on the trace. -/
theorem reaches_predecessors_iff {q : Nat} :
    Reaches (fun q => A.predecessors.getD q []) A.acceptingStates q
      ↔ ∃ ls, A.system.AcceptsFrom q ls := by
  constructor
  · intro h
    induction h with
    | start h =>
      rw [acceptingStates, List.mem_filter] at h
      exact ⟨[], TransitionSystem.acceptsFrom_nil_iff.2 h.2⟩
    | step _ h' ih =>
      obtain ⟨ls, hls⟩ := ih
      obtain ⟨t, ht, rfl⟩ := mem_predecessors_iff.1 h'
      exact ⟨_, TransitionSystem.acceptsFrom_cons_iff.2 ⟨t, ht, rfl, hls⟩⟩
  · rintro ⟨ls, f, htrace, hf⟩
    induction htrace with
    | nil q =>
      exact .start (List.mem_filter.2 ⟨mem_stateNumbers.2 (lt_size_of_isFinal hf), hf⟩)
    | cons ht _ ih => exact .step (ih hf) (mem_predecessors_iff.2 ⟨_, ht, rfl⟩)

/-- A state is found coaccessible if some labels are accepted from it. -/
@[simp]
theorem mem_coaccessible_iff {q : Nat} : q ∈ A.coaccessible ↔ ∃ ls, A.system.AcceptsFrom q ls := by
  have hover : (Search.run (fun q => A.predecessors.getD q []) A.size
      A.acceptingStates).overflow = false := by
    refine Search.overflow_eq_false_of_subset A.stateNumbers ?_ fun q hq => ?_
    · exact Nat.le_of_eq length_stateNumbers
    · obtain ⟨ls, f, htrace, hf⟩ := reaches_predecessors_iff.1 hq
      rw [mem_stateNumbers]
      cases htrace with
      | nil => exact lt_size_of_isFinal hf
      | cons ht _ => exact lt_size_of_mem_transitions ht
  exact (Search.mem_run_iff hover).trans reaches_predecessors_iff

/-- The test for emptiness finds any accepted labels. -/
theorem isEmpty_iff : A.isEmpty = true ↔ ∀ ls, ¬ A.Carries ls := by
  rw [isEmpty, Bool.not_eq_true', List.any_eq_false]
  constructor
  · rintro h ls ⟨q, htrace, hq⟩
    exact h q (Numbering.mem_iff_mem_toList.1 (mem_accessible_iff.2 ⟨ls, htrace⟩)) hq
  · intro h q hq hfinal
    obtain ⟨ls, htrace⟩ := mem_accessible_iff.1 (Numbering.mem_iff_mem_toList.2 hq)
    exact h ls ⟨q, htrace, hfinal⟩

/-- An automaton that is not found empty carries something. -/
theorem exists_carries_of_not_isEmpty (h : ¬ A.isEmpty = true) : ∃ ls, A.Carries ls := by
  by_contra hnone
  exact h (isEmpty_iff.2 fun ls hls => hnone ⟨ls, hls⟩)

/-- To carry something is to relate some words. -/
theorem exists_carries_iff_relates : (∃ ls, A.Carries ls) ↔ ∃ x y, A.Relates x y := by
  simp only [relates_iff_carries]
  constructor
  · intro ⟨ls, hls⟩
    exact ⟨_, _, ls, hls, rfl, rfl⟩
  · intro ⟨_, _, ls, hls, _⟩
    exact ⟨ls, hls⟩

/-- An automaton is found empty if it relates nothing. -/
theorem isEmpty_iff_not_relates : A.isEmpty = true ↔ ∀ x y, ¬ A.Relates x y := by
  rw [isEmpty_iff, ← not_exists, exists_carries_iff_relates]
  simp only [not_exists]

/-- An automaton is found empty if it accepts nothing. -/
theorem isEmpty_iff_rejects : A.isEmpty = true ↔ ∀ w, A.accepts w = false := by
  simp only [isEmpty_iff_not_relates, ← Bool.not_eq_true, accepts_iff_exists_relates, not_exists]

/-! ## Useful states

Trimming is a tabulation of the useful states, and of the start even if it is useless. -/

/-- The state lies on the way from the start to an accepting state. -/
def Useful (A : Automaton) (q : Nat) : Prop :=
  (∃ us, A.system.Trace A.start us q) ∧ ∃ vs, A.system.AcceptsFrom q vs

/-- Labels are accepted from a state if a path leads from it to acceptance. -/
theorem acceptsFrom_iff_path {q : Nat} :
    (∃ vs, A.system.AcceptsFrom q vs) ↔ ∃ ts f, A.Path q ts f ∧ A.isFinal f = true := by
  constructor
  · intro ⟨vs, f, hvs, hf⟩
    obtain ⟨ts, hpath, -⟩ := trace_iff_path.1 hvs
    exact ⟨ts, f, hpath, hf⟩
  · intro ⟨ts, f, hpath, hf⟩
    exact ⟨_, f, trace_iff_path.2 ⟨ts, hpath, rfl⟩, hf⟩

theorem useful_iff_path {q : Nat} :
    A.Useful q
      ↔ (∃ ts, A.Path A.start ts q) ∧ ∃ ts f, A.Path q ts f ∧ A.isFinal f = true := by
  unfold Useful
  rw [acceptsFrom_iff_path]
  refine and_congr_left fun _ => ?_
  constructor
  · intro ⟨us, hus⟩
    obtain ⟨ts, hpath, -⟩ := trace_iff_path.1 hus
    exact ⟨ts, hpath⟩
  · intro ⟨ts, hpath⟩
    exact ⟨_, trace_iff_path.2 ⟨ts, hpath, rfl⟩⟩

/-- The states that trimming keeps, in order. -/
def kept (A : Automaton) : Numbering Nat :=
  .ofList (A.stateNumbers.filter fun q =>
    q == A.start || (A.accessible.contains q && A.coaccessible.contains q))

/-- The kept states are listed in their order. -/
theorem toList_kept (A : Automaton) :
    A.kept.toList = A.stateNumbers.filter fun q =>
      q == A.start || (A.accessible.contains q && A.coaccessible.contains q) :=
  Numbering.toList_ofList (List.nodup_range.filter _)

/-- The start is kept in any case, and otherwise useful states. -/
@[simp] theorem mem_kept_iff {q : Nat} : q ∈ A.kept ↔ q = A.start ∨ A.Useful q := by
  have hmem : ∀ (m : Numbering Nat), m.contains q = true ↔ q ∈ m := fun m => Iff.rfl
  rw [kept, Numbering.mem_ofList_iff, List.mem_filter, Bool.or_eq_true, beq_iff_eq,
    Bool.and_eq_true, hmem, hmem, mem_accessible_iff, mem_coaccessible_iff,
    mem_stateNumbers]
  constructor
  · exact fun h => h.2
  · intro h
    refine ⟨?_, h⟩
    rcases h with rfl | ⟨⟨us, htrace⟩, -⟩
    · exact A.start_lt
    · exact trace_lt_size htrace A.start_lt

/-- Trimming writes down the system again for the kept states. -/
theorem trim_eq (A : Automaton) :
    A.trim = A.system.tabulate A.alphabet A.kept (mem_kept_iff.2 (.inl rfl)) := rfl

@[simp] theorem alphabet_trim (A : Automaton) : A.trim.alphabet = A.alphabet := rfl

theorem size_trim_le (A : Automaton) : A.trim.size ≤ A.size := by
  rw [trim_eq, TransitionSystem.size_tabulate, ← Numbering.length_toList, ← length_stateNumbers]
  refine (List.subperm_of_subset A.kept.nodup_toList fun q hq => ?_).length_le
  rw [mem_stateNumbers]
  rcases mem_kept_iff.1 (Numbering.mem_iff_mem_toList.2 hq) with rfl | ⟨⟨ls, hls⟩, -⟩
  · exact A.start_lt_size
  · exact trace_lt_size hls A.start_lt_size

theorem deterministic_trim (hA : A.system.Deterministic) : A.trim.system.Deterministic := by
  rw [trim_eq]
  exact hA.tabulate

/-- The labels of a trimmed automaton are labels of the automaton. -/
theorem exists_transition_of_trim {i : Nat} {t : Transition} (ht : t ∈ A.trim.transitions i) :
    ∃ q, ∃ u ∈ A.transitions q, u.labels = t.labels := by
  rw [trim_eq] at ht
  obtain ⟨q, -, u, hu, hlabels, -⟩ := TransitionSystem.exists_arc_of_mem_tabulate ht
  exact ⟨q, u, hu, hlabels⟩

/-- If nothing is accepted, the start is all that trimming keeps. -/
theorem toList_kept_of_not_carries (h : ¬ ∃ ls, A.Carries ls) : A.kept.toList = [A.start] := by
  refine List.perm_singleton.1 ((List.perm_ext_iff_of_nodup A.kept.nodup_toList
    (List.nodup_singleton _)).2 fun q => ?_)
  rw [← Numbering.mem_iff_mem_toList, mem_kept_iff, List.mem_singleton]
  refine or_iff_left fun huseful => h ?_
  obtain ⟨⟨us, hus⟩, vs, f, hvs, hf⟩ := huseful
  exact ⟨us ++ vs, f, hus.append hvs, hf⟩

/-- If nothing is accepted the start is all that is left. -/
theorem size_trim_of_not_carries (h : ¬ ∃ ls, A.Carries ls) : A.trim.size = 1 := by
  rw [trim_eq, TransitionSystem.size_tabulate, ← Numbering.length_toList,
    toList_kept_of_not_carries h]
  rfl

/-- Trimming keeps the accepted traces: the states on the way to an accepting one are useful. -/
@[simp]
theorem carries_trim_iff {ls : List (Label × Label)} : A.trim.Carries ls ↔ A.Carries ls := by
  rw [trim_eq]
  refine TransitionSystem.carries_tabulate_iff fun us vs q hus hvs => ?_
  exact mem_kept_iff.2 (.inr ⟨⟨us, hus⟩, vs, hvs⟩)

/-- A trace to a useful state survives between the copies of its ends. -/
theorem trace_trim {p q : Nat} {us vs ws : List (Label × Label)}
    (hus : A.system.Trace A.start us p) (hvs : A.system.Trace p vs q)
    (hws : A.system.AcceptsFrom q ws) {i : Nat} (hi : A.kept.toList[i]? = some p) :
    ∃ j, A.kept.toList[j]? = some q ∧ A.trim.system.Trace i vs j := by
  rw [trim_eq]
  -- every state on the way is useful, since the trace goes on to acceptance
  refine hvs.tabulate (fun vs₁ vs₂ k _ h₁ h₂ => mem_kept_iff.2 (.inr ?_)) hi
  obtain ⟨f, hws, hf⟩ := hws
  exact ⟨⟨us ++ vs₁, hus.append h₁⟩, vs₂ ++ ws, f, h₂.append hws, hf⟩

/-- Every state of a trimmed automaton is useful, if the automaton accepts anything. -/
theorem useful_trim (hne : ∃ ls, A.Carries ls) {i : Nat} (hi : i < A.trim.size) :
    A.trim.Useful i := by
  rw [trim_eq, TransitionSystem.size_tabulate, ← Numbering.length_toList] at hi
  have hkept : A.kept.toList[i]? = some A.kept.toList[i] := List.getElem?_eq_getElem hi
  have hstart : A.kept.toList[A.trim.start]? = some A.start := by
    rw [trim_eq]
    exact TransitionSystem.getElem?_start_tabulate
  -- the start is useful as something is accepted, and the others are kept for being useful
  have huseful : A.Useful A.kept.toList[i] := by
    rcases mem_kept_iff.1 (Numbering.mem_iff_mem_toList.2 (List.getElem_mem hi)) with h | h
    · rw [h]
      exact ⟨⟨[], .nil _⟩, hne⟩
    · exact h
  obtain ⟨⟨us, hus⟩, vs, hvs⟩ := huseful
  constructor
  · obtain ⟨j, hj, htrace⟩ := trace_trim (.nil _) hus hvs hstart
    have hij : j = i := Numbering.eq_of_getElem? hj hkept
    exact ⟨us, hij ▸ htrace⟩
  · obtain ⟨f, hvs, hf⟩ := hvs
    obtain ⟨j, hj, htrace⟩ :=
      trace_trim hus hvs (TransitionSystem.acceptsFrom_nil_iff.2 hf) hkept
    refine ⟨vs, j, htrace, ?_⟩
    rw [trim_eq]
    exact (TransitionSystem.isFinal_tabulate hj).trans hf

/-! ## What is left

The states of a trimmed automaton stand for states of the automaton, in their order. -/

/-- The state that a state of the trimmed automaton stands for. -/
def origin (A : Automaton) (i : Nat) : Nat := A.kept.toList.getD i 0

variable {i j : Nat}

/-- The kept states are listed as the origins of what is left. -/
theorem getElem?_kept (hi : i < A.trim.size) : A.kept.toList[i]? = some (A.origin i) := by
  rw [trim_eq, TransitionSystem.size_tabulate, ← Numbering.length_toList] at hi
  rw [origin, List.getD_eq_getElem?_getD, List.getElem?_eq_getElem hi, Option.getD_some]

theorem getElem?_kept_eq_some_iff {q : Nat} :
    A.kept.toList[i]? = some q ↔ i < A.trim.size ∧ A.origin i = q := by
  constructor
  · intro h
    have hi : i < A.trim.size := by
      rw [trim_eq, TransitionSystem.size_tabulate, ← Numbering.length_toList]
      exact (List.getElem?_eq_some_iff.1 h).1
    exact ⟨hi, Option.some.inj ((getElem?_kept hi).symm.trans h)⟩
  · rintro ⟨hi, rfl⟩
    exact getElem?_kept hi

theorem origin_start (A : Automaton) : A.origin A.trim.start = A.start := by
  have hstart : A.kept.toList[A.trim.start]? = some A.start := by
    rw [trim_eq]
    exact TransitionSystem.getElem?_start_tabulate
  exact (getElem?_kept_eq_some_iff.1 hstart).2

/-- Trimming keeps the order of the states. -/
theorem origin_lt_origin (hij : i < j) (hj : j < A.trim.size) : A.origin i < A.origin j := by
  have hsorted : A.kept.toList.Pairwise (· < ·) := by
    rw [toList_kept]
    exact List.pairwise_lt_range.filter _
  obtain ⟨hi, hi'⟩ := List.getElem?_eq_some_iff.1 (getElem?_kept (hij.trans hj))
  obtain ⟨hj, hj'⟩ := List.getElem?_eq_some_iff.1 (getElem?_kept hj)
  rw [← hi', ← hj']
  exact List.pairwise_iff_getElem.1 hsorted i j hi hj hij

/-- The states that are stood for are the start and the useful ones. -/
theorem exists_origin_eq_iff {q : Nat} :
    (∃ i < A.trim.size, A.origin i = q) ↔ q = A.start ∨ A.Useful q := by
  rw [← mem_kept_iff, Numbering.mem_iff_mem_toList, List.mem_iff_getElem?]
  exact exists_congr fun i => getElem?_kept_eq_some_iff.symm

/-- A trace leads to each state that is left. -/
theorem exists_trace_origin (hi : i < A.trim.size) :
    ∃ us, A.system.Trace A.start us (A.origin i) := by
  rcases exists_origin_eq_iff.1 ⟨i, hi, rfl⟩ with hstart | huseful
  · rw [hstart]
    exact ⟨[], .nil _⟩
  · exact huseful.1

theorem origin_lt_size (hi : i < A.trim.size) : A.origin i < A.size := by
  obtain ⟨us, hus⟩ := exists_trace_origin hi
  exact trace_lt_size hus A.start_lt_size

/-- A remaining state accepts if its origin does. -/
theorem isFinal_trim (hi : i < A.trim.size) : A.trim.isFinal i = A.isFinal (A.origin i) := by
  rw [trim_eq]
  exact TransitionSystem.isFinal_tabulate (getElem?_kept hi)

/-- The transitions that are left are those between states that are left. -/
theorem mem_transitions_trim_iff (hi : i < A.trim.size) {t : Transition} :
    t ∈ A.trim.transitions i
      ↔ t.target < A.trim.size ∧ t.withTarget (A.origin t.target) ∈ A.transitions (A.origin i) := by
  rw [trim_eq, TransitionSystem.mem_transitions_tabulate (getElem?_kept hi), ← trim_eq]
  constructor
  · rintro ⟨u, hu, hlabels, htarget⟩
    obtain ⟨htarget, horigin⟩ := getElem?_kept_eq_some_iff.1 htarget
    obtain ⟨hinput, houtput⟩ := Prod.mk.inj hlabels
    have heq : t.withTarget (A.origin t.target) = u := by
      rw [Arc.withTarget, ← hinput, ← houtput, horigin]
    exact ⟨htarget, heq ▸ hu⟩
  · rintro ⟨htarget, ht⟩
    exact ⟨_, ht, rfl, getElem?_kept htarget⟩

/-- The transitions that are left are those between states that are left, in their order. -/
theorem map_transitions_trim {i : Nat} (hi : i < A.trim.size) :
    (A.trim.transitions i).map (fun t => t.withTarget (A.origin t.target))
      = (A.transitions (A.origin i)).filter
          fun t => decide (∃ j < A.trim.size, A.origin j = t.target) := by
  have hrow : A.trim.transitions i = (A.transitions (A.origin i)).filterMap fun t =>
      (A.kept.number? t.target).map t.withTarget := by
    rw [transitions, trim_eq, TransitionSystem.state_tabulate (getElem?_kept hi)]
    rfl
  rw [hrow, List.map_filterMap, ← List.filterMap_eq_filter]
  refine List.filterMap_congr fun t _ => ?_
  -- the numbers of the states that are kept are the states that are left
  have hnumber : ∀ j,
      A.kept.number? t.target = some j ↔ j < A.trim.size ∧ A.origin j = t.target := by
    intro j
    rw [Numbering.number?_eq_some_iff_getElem?, getElem?_kept_eq_some_iff]
  cases hj : A.kept.number? t.target with
  | some j =>
    obtain ⟨hlt, horigin⟩ := (hnumber j).1 hj
    have hleft : ∃ j < A.trim.size, A.origin j = t.target := ⟨j, hlt, horigin⟩
    simp [Option.guard, hleft, horigin, Arc.withTarget]
  | none =>
    have hgone : ¬ ∃ j < A.trim.size, A.origin j = t.target := by
      rintro ⟨j, hj'⟩
      rw [(hnumber j).2 hj'] at hj
      cases hj
    simp [Option.guard, hgone]

/-- Trimming repeats no transition. -/
theorem nodup_transitions_trim (hA : ∀ q, (A.transitions q).Nodup) (i : Nat) :
    (A.trim.transitions i).Nodup := by
  by_cases hi : i < A.trim.size
  · apply List.Nodup.of_map fun t => t.withTarget (A.origin t.target)
    rw [map_transitions_trim hi]
    exact (hA _).filter _
  · rw [transitions, state_of_size_le (Nat.le_of_not_lt hi)]
    exact List.nodup_nil

/-- Only the start can be useless once an automaton is trimmed. -/
theorem useful_trim_of_ne_start (hi : i < A.trim.size) (hne : i ≠ A.trim.start) :
    A.trim.Useful i := by
  refine useful_trim ?_ hi
  by_contra hnone
  have hone := size_trim_of_not_carries hnone
  have hstart := A.trim.start_lt_size
  omega

end Automaton

end FiniteState

import FiniteState.Proofs.Minimize
import FiniteState.Proofs.Product

/-!
# Lookups in range

The constructions look up states by their numbers, sets and pairs of states by their place in a
search, and classes by the states in them. A table that lacked an entry would answer with a default,
so a number out of range could go unnoticed. None of the lookups is ever answered so.

* `inRange`: the start state and the targets of all transitions are states.
* `TransitionSystem.Numbers`: a numbering with an entry for every target that a row looks up.
* `classLookups`, `lookups`: the tables of trimming, determinization and minimization have the
  entries asked for.
* `pairLookups`: so do both operands of a product, and its numbering of pairs.
-/

namespace FiniteState

namespace TransitionSystem

variable {κ : Type} [Ord κ] {M : TransitionSystem κ}

/-- The start and the targets of all numbered keys have numbers. -/
def Numbers (M : TransitionSystem κ) (m : Numbering κ) : Prop :=
  M.start ∈ m ∧ ∀ k ∈ m, ∀ a ∈ M.arcs k, a.target ∈ m

variable [Std.TransOrd κ] [Std.LawfulEqOrd κ] {S : Alphabet} {operation : Operation} {A : Automaton}

/-- What a search without overflow finds is closed under the arcs. -/
theorem numbers_search {limit : Nat} (hover : (M.search limit).overflow = false) :
    M.Numbers (M.search limit).found := by
  refine ⟨(mem_search_iff hover).2 ⟨[], .nil _⟩, fun k hk a ha => ?_⟩
  obtain ⟨ls, hls⟩ := (mem_search_iff hover).1 hk
  exact (mem_search_iff hover).2 ⟨_, hls.snoc ha⟩

/-- A successful exploration numbers every state that is reached. -/
theorem numbers_explore (h : M.explore S operation = .ok A) :
    M.Numbers (M.search S.stateLimit).found := by
  obtain ⟨-, hover, -⟩ := explore_eq_ok h
  exact numbers_search hover

end TransitionSystem

namespace Automaton

variable {A B C : Automaton}

/-- There is a state, and all state numbers that occur belong to states. -/
structure InRange (A : Automaton) : Prop where
  size_pos : 0 < A.size
  start_lt : A.start < A.size
  target_lt : ∀ q, ∀ t ∈ A.transitions q, t.target < A.size

/-- The start and all targets are states. -/
theorem inRange (A : Automaton) : A.InRange :=
  ⟨A.size_pos, A.start_lt_size, fun _ _ ht => target_lt_size ht⟩

/-! ## Sets of states -/

@[simp] theorem size_silentClosures (A : Automaton) : A.silentClosures.size = A.size := by
  simp [silentClosures]

theorem lt_size_of_mem_unionOfClosures {states : List Nat} {q : Nat}
    (hq : q ∈ unionOfClosures A.silentClosures states) : q < A.size := by
  obtain ⟨p, -, hp, ts, hpath, -⟩ := mem_unionOfClosures_iff.1 hq
  exact trace_lt_size (trace_iff_path.2 ⟨ts, hpath, rfl⟩) hp

/-- The subset construction meets unions of closures only. -/
theorem exists_union_of_trace_subsets {set set' : StateSet} {ls : List (Label × Label)}
    (h : A.subsets.Trace set ls set')
    (hset : ∃ states, set = unionOfClosures A.silentClosures states) :
    ∃ states, set' = unionOfClosures A.silentClosures states := by
  induction h with
  | nil => exact hset
  | cons ha _ ih =>
    obtain ⟨g, -, rfl⟩ := mem_arcs_subsets_iff.1 ha
    exact ih ⟨g.target, rfl⟩

theorem lt_size_of_trace_subsets {set : StateSet} {ls : List (Label × Label)}
    (h : A.subsets.Trace A.subsets.start ls set) : ∀ q ∈ set, q < A.size := by
  obtain ⟨states, rfl⟩ := exists_union_of_trace_subsets h ⟨[A.start], rfl⟩
  exact fun q hq => lt_size_of_mem_unionOfClosures hq

/-! ## Classes -/

@[simp] theorem size_refined (A : Automaton) (classes : Array Nat) :
    (A.refined classes).size = A.size := by
  simp [refined]

/-- No class is empty, so every class has a least member. -/
theorem exists_least_of_class {q : Nat} (hq : q < A.size) :
    ∃ i c p, A.statePartition.classMap[q]? = some i ∧ A.statePartition.classes[i]? = some c
      ∧ c.head? = some p ∧ p < A.size := by
  obtain ⟨i, c, hmap, hclass, hmembers⟩ := exists_position hq
  cases c with
  | nil => exact absurd ((hmembers q).2 ⟨hq, rfl⟩) List.not_mem_nil
  | cons p c => exact ⟨i, p :: c, p, hmap, hclass, rfl, ((hmembers p).1 List.mem_cons_self).1⟩

/-! ## All tables of an automaton

Lookups come with defaults, which are never met: the tables have an entry for everything that is
looked up. -/

/-- Refinement and the quotient look up classes of states. -/
structure ClassLookups (A : Automaton) : Prop where
  /-- A round looks up the classes of states in the round before. -/
  firstRound : A.acceptanceClasses.size = A.size
  laterRounds : ∀ classes, (A.refined classes).size = A.size
  /-- States are put together by their classes in the last round. -/
  groups : ∀ q < A.size, A.refinedClasses.getD q 0 < A.size
  /-- The quotient looks up the class of a state, and the least state of a class. -/
  classes : ∀ q < A.size, ∃ i c p, A.statePartition.classMap[q]? = some i
    ∧ A.statePartition.classes[i]? = some c ∧ c.head? = some p ∧ p < A.size
  /-- Its classes are looked up by number. -/
  quotient : (A.quotient A.statePartition).Numbers
    ((A.quotient A.statePartition).search A.size).found

/-- Every round of the refinement finds the classes that it looks up. -/
theorem classLookups (A : Automaton) : A.ClassLookups where
  firstRound := A.size_acceptanceClasses
  laterRounds := A.size_refined
  groups _ hq := finalClass_lt hq
  classes _ hq := exists_least_of_class hq
  quotient := TransitionSystem.numbers_search A.overflow_search_quotient

/-- Each table that an operation computes from an automaton has the entries that are looked up. -/
structure Lookups (A : Automaton) : Prop where
  /-- Trimming looks up the predecessors of states, also once silent transitions are gone. -/
  predecessors : A.predecessors.size = A.size
  predecessors' : A.withoutSilent.predecessors.size = A.withoutSilent.size
  /-- The subset construction looks up the closures of states. -/
  closures : A.silentClosures.size = A.size
  /-- It looks up the states in the sets that it meets. -/
  sets : ∀ set ls, A.subsets.Trace A.subsets.start ls set → ∀ q ∈ set, q < A.size
  /-- It looks up the numbers of these sets. -/
  subsets : ∀ D, A.determinize = .ok D →
    A.subsets.Numbers (A.subsets.search A.alphabet.stateLimit).found
  /-- Minimization looks up the classes of what is trimmed and deterministic. -/
  classes : ∀ D, A.trimmedDeterministic = .ok D → D.sortTransitions.ClassLookups

/-- No operation on one automaton looks up what is not there. -/
theorem lookups (A : Automaton) : A.Lookups where
  predecessors := A.size_predecessors
  predecessors' := A.withoutSilent.size_predecessors
  closures := A.size_silentClosures
  sets _ _ h := lt_size_of_trace_subsets h
  subsets _ h := TransitionSystem.numbers_explore h
  classes D _ := D.sortTransitions.classLookups

/-! ## Pairs of states -/

/-- Each arc of a product moves both sides along transitions, or leaves one where it is. -/
theorem pair_lt_size_of_mem_arcs {k : StatePair} {a : Arc StatePair}
    (ha : a ∈ (A.product B).arcs k) (hk : k.left < A.size ∧ k.right < B.size) :
    a.target.left < A.size ∧ a.target.right < B.size := by
  rcases mem_arcs_product_iff.1 ha with ⟨t, ht, ha⟩ | ha
  · rcases mem_leftArcs_iff.1 ha with ⟨-, rfl⟩ | ⟨s, -, u, hu, -, rfl⟩
    · exact ⟨target_lt_size ht, hk.2⟩
    · exact ⟨target_lt_size ht, target_lt_size hu⟩
  · obtain ⟨u, hu, -, rfl⟩ := mem_rightArcs_iff.1 ha
    exact ⟨hk.1, target_lt_size hu⟩

theorem pair_lt_size_of_trace {k l : StatePair} {ls : List (Label × Label)}
    (h : (A.product B).Trace k ls l) (hk : k.left < A.size ∧ k.right < B.size) :
    l.left < A.size ∧ l.right < B.size := by
  induction h with
  | nil => exact hk
  | cons ha _ ih => exact ih (pair_lt_size_of_mem_arcs ha hk)

/-- A product looks up states of both sides, and the numbers of pairs. -/
structure PairLookups (A B : Automaton) : Prop where
  pairs : ∀ k ls, (A.product B).Trace (A.product B).start ls k →
    k.left < A.size ∧ k.right < B.size
  numbered : ∀ S operation C, (A.product B).explore S operation = .ok C →
    (A.product B).Numbers ((A.product B).search S.stateLimit).found
  /-- What has been explored is trimmed. -/
  predecessors : ∀ S operation C, (A.product B).explore S operation = .ok C →
    C.predecessors.size = C.size

/-- No operation on two automata looks up what is not there. -/
theorem pairLookups (A B : Automaton) : A.PairLookups B where
  pairs _ _ h := pair_lt_size_of_trace h ⟨A.start_lt_size, B.start_lt_size⟩
  numbered _ _ _ h := TransitionSystem.numbers_explore h
  predecessors _ _ C _ := C.size_predecessors

end Automaton

end FiniteState

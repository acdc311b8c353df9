import FiniteState.Proofs.Minimize
import Mathlib.Tactic.IntervalCases

/-!
# The classes of states that accept the same

Refinement is a loop: the states are divided by their signatures for as long as the number of
classes changes. A signature lists the transitions of a state in order, so for a deterministic
automaton it does not matter in which order the state has them. The loop ends without a bound on its
rounds, and where every state leads to an accepting one, two states are in one class in the end if
they accept the same.

* `orderedSignature_eq`: transitions can be put in order before the loop or in each of its rounds.
* `refines_iff`: the loop ends with the classes that are found within the bound.
* `perm_flatten_classes`: the partition has each state once.
* `finalClass_eq_iff`: two states are in one class if they accept the same.
-/

namespace FiniteState

/-! ## Signatures in order

The transitions of a state are sorted once, by their labels. Sorting them anew in each round, by
their targets as well, makes no difference where no labels occur twice. -/

/-- The order of arcs by their labels; arcs of the same labels are in the order of their targets. -/
def Arc.leTargets (a b : Arc Nat) : Bool :=
  if a.labels = b.labels then a.target ≤ b.target else a.leLabels b

/-- If no labels occur twice, arcs are in the same order whatever they lead to. -/
theorem Arc.mergeSort_withTarget {ts : List Transition} (hts : (ts.map Arc.labels).Nodup)
    (f : Nat → Nat) :
    (ts.map fun t => t.withTarget (f t.target)).mergeSort Arc.leTargets
      = (ts.mergeSort Arc.leLabels).map fun t => t.withTarget (f t.target) := by
  refine (List.map_mergeSort fun t ht u hu => ?_).symm
  by_cases hlabels : t.labels = u.labels
  · obtain rfl := List.inj_on_of_nodup_map hts ht hu hlabels
    have hrefl : t.leLabels t = true := Arc.leLabels_iff.2 (.inr ⟨rfl, Nat.le_refl _⟩)
    simp [Arc.leTargets, hrefl]
  · exact (if_neg hlabels).symm

namespace Partition

variable {α : Type} [Ord α] [Std.TransOrd α] [Std.LawfulEqOrd α]

/-- The members of a class are listed once each. -/
theorem nodup_classOfList (xs : List α) : (classOfList xs).Nodup :=
  Std.TreeSet.distinct_toList.imp fun hne heq => hne (Std.compare_eq_iff_eq.2 heq)

end Partition

namespace Automaton

variable {A : Automaton}

/-- What tells a state apart if its transitions are in any order: its class, and in order the labels
of each transition and the class of the target. -/
def orderedSignature (A : Automaton) (classes : Array Nat) (q : Nat) : List Nat :=
  let outgoing := (A.transitions q).map fun t => t.withTarget (classes.getD t.target 0)
  classes.getD q 0
    :: (outgoing.mergeSort Arc.leTargets).flatMap fun t => [t.input.rank, t.output.rank, t.target]

/-- The transitions of a deterministic automaton can be put in order once and for all. -/
theorem orderedSignature_eq (hA : A.system.Deterministic) (classes : Array Nat) :
    A.orderedSignature classes = A.sortTransitions.signature classes := by
  funext q
  have hnodup : ((A.transitions q).map Arc.labels).Nodup := hA.nodup q
  have hsort := Arc.mergeSort_withTarget hnodup (classes.getD · 0)
  rw [signature, transitions_sortTransitions, orderedSignature, hsort, List.flatMap_map]
  rfl

/-! ## The loop

Here the rounds are a relation, without a bound on their number. The bound of the loop turns out to
be enough. -/

/-- The signatures of all states, numbered. -/
def orderedNumbers (A : Automaton) (classes : Array Nat) : Numbering (List Nat) :=
  .ofList (A.stateNumbers.map (A.orderedSignature classes))

/-- The classes after one round. -/
def orderedRound (A : Automaton) (classes : Array Nat) : Array Nat :=
  ((A.stateNumbers.map (A.orderedSignature classes)).map fun s =>
    ((A.orderedNumbers classes).number? s).getD 0).toArray

/-- From the classes, of which there are `count`, rounds lead to the final ones. The last round is
the one that leaves the number of classes alone. -/
inductive Refines (A : Automaton) : (count : Nat) → (classes final : Array Nat) → Prop
  | last {count : Nat} {classes : Array Nat} (hsame : (A.orderedNumbers classes).size = count) :
    Refines A count classes (A.orderedRound classes)
  | round {count : Nat} {classes final : Array Nat}
    (hmore : (A.orderedNumbers classes).size ≠ count)
    (hrest : Refines A (A.orderedNumbers classes).size (A.orderedRound classes) final) :
    Refines A count classes final

/-- The loop has one outcome. -/
theorem Refines.unique {count : Nat} {classes final final' : Array Nat}
    (h : A.Refines count classes final) (h' : A.Refines count classes final') : final = final' := by
  induction h with
  | last hsame =>
    cases h' with
    | last => rfl
    | round hmore => exact absurd hsame hmore
  | round hmore _ ih =>
    cases h' with
    | last hsame => exact absurd hsame hmore
    | round _ hrest => exact ih hrest

/-- With transitions in order, the signatures number the states as the sorted ones do. -/
theorem orderedNumbers_eq (hA : A.system.Deterministic) (classes : Array Nat) :
    A.orderedNumbers classes = A.sortTransitions.signatureNumbers classes := by
  rw [orderedNumbers, orderedSignature_eq hA, signatureNumbers, stateNumbers, stateNumbers,
    size_sortTransitions]

/-- One round over sorted signatures is one round of the refinement. -/
theorem orderedRound_eq (hA : A.system.Deterministic) (classes : Array Nat) :
    A.orderedRound classes = A.sortTransitions.refined classes := by
  rw [orderedRound, orderedNumbers_eq hA, orderedSignature_eq hA, refined, stateNumbers,
    stateNumbers, size_sortTransitions]

/-- As many signatures are numbered as there are classes after the round. -/
theorem size_orderedNumbers (hA : A.system.Deterministic) (classes : Array Nat) :
    (A.orderedNumbers classes).size
      = A.sortTransitions.classCount (A.sortTransitions.refined classes) := by
  rw [orderedNumbers_eq hA, classCount_refined]

/-- The first partition looks at acceptance only, not at the order of transitions. -/
theorem acceptanceClasses_sortTransitions (A : Automaton) :
    A.sortTransitions.acceptanceClasses = A.acceptanceClasses := by
  rw [acceptanceClasses, sortTransitions, Array.map_map]
  rfl

/-- The loop ends in the refined classes. -/
theorem refines_refinedClasses (hA : A.system.Deterministic) :
    A.Refines (Numbering.ofList A.acceptanceClasses.toList).size A.acceptanceClasses
      A.sortTransitions.refinedClasses := by
  rw [← acceptanceClasses_sortTransitions, size_ofList_acceptanceClasses]
  refine refineFrom_rounds (A := A.sortTransitions)
    (P := fun classes => A.Refines (A.sortTransitions.classCount classes) classes)
    (fun classes hsame => ?_) (fun classes final hmore hrest => ?_)
    (size_ofList_acceptanceClasses _) (size_lt_rounds _)
  · rw [← orderedRound_eq hA]
    exact .last ((size_orderedNumbers hA classes).trans hsame)
  · rw [← size_orderedNumbers hA, ← orderedRound_eq hA] at hrest
    exact .round (size_orderedNumbers hA classes ▸ hmore) hrest

/-- The loop ends, and the classes that it ends with are those that are found within the bound. -/
theorem refines_iff (hA : A.system.Deterministic) {final : Array Nat} :
    A.Refines (Numbering.ofList A.acceptanceClasses.toList).size A.acceptanceClasses final
      ↔ final = A.sortTransitions.refinedClasses :=
  ⟨fun h => h.unique (refines_refinedClasses hA), fun h => h ▸ refines_refinedClasses hA⟩

/-! ## The partition -/

/-- Two states are in one class of the partition if they are in one class in the end. -/
theorem exists_mem_classes_iff {p q : Nat} :
    (∃ c ∈ A.statePartition.classes, p ∈ c ∧ q ∈ c)
      ↔ p < A.size ∧ q < A.size ∧ A.finalClass p = A.finalClass q := by
  constructor
  · rintro ⟨c, hc, hp, hq⟩
    rw [classes_statePartition] at hc
    obtain ⟨_, hmembers, rfl⟩ := List.mem_map.1 (List.mem_filter.1 hc).1
    obtain ⟨i, -, rfl⟩ := List.mem_map.1 hmembers
    rw [Partition.mem_classOfList_iff, mem_classMembers_iff] at hp hq
    exact ⟨hp.1, hq.1, hp.2.trans hq.2.symm⟩
  · rintro ⟨hp, hq, hclass⟩
    obtain ⟨i, c, -, hc, hmem⟩ := exists_position hp
    exact ⟨c, List.mem_of_getElem? hc, (hmem p).2 ⟨hp, rfl⟩, (hmem q).2 ⟨hq, hclass.symm⟩⟩

/-- The classes cover the states, each of them once. -/
theorem perm_flatten_classes (A : Automaton) :
    A.statePartition.classes.flatten.Perm A.stateNumbers := by
  have hnodup : A.statePartition.classes.flatten.Nodup := by
    refine List.nodup_flatten.2 ⟨fun c hc => ?_, ?_⟩
    · rw [classes_statePartition] at hc
      obtain ⟨_, -, rfl⟩ := List.mem_map.1 (List.mem_filter.1 hc).1
      exact Partition.nodup_classOfList _
    · exact A.pairwise_classes_statePartition.imp fun h q hc hd => h q hc hd
  refine (List.perm_ext_iff_of_nodup hnodup List.nodup_range).2 fun q => ?_
  rw [List.mem_flatten, List.mem_range]
  have hself := exists_mem_classes_iff (A := A) (p := q) (q := q)
  simpa only [and_self, and_true] using hself

/-- States are in one class in the end if they accept the same. -/
theorem finalClass_eq_iff (hA : A.system.Ordered)
    (hlive : ∀ q < A.size, ∃ ls, A.system.AcceptsFrom q ls) {p q : Nat} (hp : p < A.size)
    (hq : q < A.size) :
    A.finalClass p = A.finalClass q ↔ TransitionSystem.SameLanguage A.system p A.system q := by
  constructor
  · intro hclass
    have hquotient := sameLanguage_quotient hp
    rw [(classOf_eq_iff hp hq).2 hclass] at hquotient
    exact hquotient.trans (sameLanguage_quotient hq).symm
  · refine finalClass_eq_of_sameLanguage hA (fun r hr us l hus => ?_) hp hq
    exact hlive l (trace_lt_size hus hr)

/-- In a deterministic automaton in which every state leads to an accepting one, refinement ends
with a partition of the states into those that accept the same. -/
theorem statePartition_exact (hA : A.isDeterministic = true)
    (hlive : ∀ q < A.size, ∃ ls, A.system.AcceptsFrom q ls) :
    (∀ final, A.Refines (Numbering.ofList A.acceptanceClasses.toList).size A.acceptanceClasses final
        ↔ final = A.sortTransitions.refinedClasses)
      ∧ A.sortTransitions.statePartition.classes.flatten.Perm A.stateNumbers
      ∧ ∀ p < A.size, ∀ q < A.size,
        (∃ c ∈ A.sortTransitions.statePartition.classes, p ∈ c ∧ q ∈ c)
          ↔ ∀ ls, A.system.AcceptsFrom p ls ↔ A.system.AcceptsFrom q ls := by
  have hdeterministic := isDeterministic_iff.1 hA
  refine ⟨fun final => refines_iff hdeterministic, ?_, fun p hp q hq => ?_⟩
  · have hperm := A.sortTransitions.perm_flatten_classes
    rwa [stateNumbers, size_sortTransitions] at hperm
  · rw [← size_sortTransitions] at hp hq
    have hlive' : ∀ q < A.sortTransitions.size,
        ∃ ls, A.sortTransitions.system.AcceptsFrom q ls := by
      intro q hq
      rw [size_sortTransitions] at hq
      exact (hlive q hq).imp fun _ => acceptsFrom_sortTransitions_iff.2
    have hsame := finalClass_eq_iff (ordered_sortTransitions hdeterministic) hlive' hp hq
    rw [exists_mem_classes_iff]
    simp only [TransitionSystem.SameLanguage, acceptsFrom_sortTransitions_iff] at hsame
    exact ⟨fun h => hsame.1 h.2.2, fun h => ⟨hp, hq, hsame.2 h⟩⟩

/-- After an a or a b comes a c. The start has its transitions in another order than that of their
labels, and there is no way to go on with a wrong symbol. -/
def twins : Automaton where
  alphabet := .abcd
  states := #[
    { transitions := [.copying (.symbol ⟨1⟩) 2, .copying (.symbol ⟨0⟩) 1] },
    { transitions := [.copying (.symbol ⟨2⟩) 3] },
    { transitions := [.copying (.symbol ⟨2⟩) 3] },
    { accepting := true }]
  start := 0
  start_lt := by decide
  target_lt := by decide

/-- The states after an a and after a b are in one class, so they accept the same; the start is in
another class. -/
theorem twins_sameLanguage :
    (∀ ls, twins.system.AcceptsFrom 1 ls ↔ twins.system.AcceptsFrom 2 ls)
      ∧ ¬ ∀ ls, twins.system.AcceptsFrom 0 ls ↔ twins.system.AcceptsFrom 1 ls := by
  have hclasses : twins.sortTransitions.statePartition.classes = [[0], [1, 2], [3]] := by cbv
  have hlive : ∀ q < twins.size, ∃ ls, twins.system.AcceptsFrom q ls := by
    intro q hq
    have hlt : q < 4 := hq
    interval_cases q
    · exact ⟨_, 3, .cons (.head _) (.cons (.head _) (.nil _)), rfl⟩
    · exact ⟨_, 3, .cons (.head _) (.nil _), rfl⟩
    · exact ⟨_, 3, .cons (.head _) (.nil _), rfl⟩
    · exact ⟨_, 3, .nil 3, rfl⟩
  obtain ⟨-, -, hsame⟩ := statePartition_exact (A := twins) (by cbv) hlive
  rw [hclasses] at hsame
  refine ⟨(hsame 1 (by decide) 2 (by decide)).1 (by decide), fun h => ?_⟩
  exact absurd ((hsame 0 (by decide) 1 (by decide)).2 h) (by decide)

end Automaton

end FiniteState

import FiniteState.Proofs.Refinement

/-!
# The quotient by the classes

The classes that refinement ends with are collected into a partition, and the quotient has a state
for each class, with the transitions of one of its members. Since the classes are stable, it does
not matter which member that is.

* `classOf_eq_iff`: the partition has the classes that refinement ends with.
* `bisimulation_quotient`: a state and its class correspond.
* `ordered_quotient`: the quotient of an ordered automaton is ordered.
-/

namespace FiniteState

/-! ## Partitions -/

namespace Partition

variable {α : Type} [Ord α] [Std.TransOrd α] [Std.LawfulEqOrd α]

/-- Inserting many members one after the other. -/
theorem mem_foldl_insert_iff {xs : List α} {found : Std.TreeSet α} {x : α} :
    x ∈ xs.foldl Std.TreeSet.insert found ↔ x ∈ found ∨ x ∈ xs := by
  induction xs generalizing found with
  | nil => simp
  | cons y xs ih =>
    rw [List.foldl_cons, ih, Std.TreeSet.mem_insert, Std.LawfulEqOrd.compare_eq_iff_eq,
      List.mem_cons, eq_comm]
    tauto

/-- A class made from a list has its members. -/
@[simp] theorem mem_classOfList_iff {xs : List α} {x : α} : x ∈ classOfList xs ↔ x ∈ xs := by
  rw [classOfList, Std.TreeSet.mem_toList, mem_foldl_insert_iff]
  simp

/-- A class gives its number to its members and leaves the others alone. -/
theorem getElem?_addClass [DecidableEq α] {found : Std.TreeMap α Nat} {c : List α × Nat} {x : α} :
    (addClass found c)[x]? = if x ∈ c.1 then some c.2 else found[x]? := by
  obtain ⟨ys, i⟩ := c
  show (ys.foldl (fun found y => found.insert y i) found)[x]? = _
  induction ys generalizing found with
  | nil => simp
  | cons y ys ih =>
    rw [List.foldl_cons, ih, Std.TreeMap.getElem?_insert]
    simp only [Std.LawfulEqOrd.compare_eq_iff_eq, List.mem_cons]
    by_cases hx : x ∈ ys
    · simp [hx]
    · by_cases hy : y = x
      · simp [hy]
      · simp [hx, hy, Ne.symm hy]

/-- If all the classes of an element have one number, that is what is looked up. -/
theorem getElem?_foldl_addClass [DecidableEq α] {cs : List (List α × Nat)}
    {found : Std.TreeMap α Nat} {x : α}
    {i : Nat} (hcs : ∀ c ∈ cs, x ∈ c.1 → c.2 = i) (hx : found[x]? = some i ∨ ∃ c ∈ cs, x ∈ c.1) :
    (cs.foldl addClass found)[x]? = some i := by
  induction cs generalizing found with
  | nil => simpa using hx
  | cons c cs ih =>
    refine ih (fun c' hc' => hcs c' (by simp [hc'])) ?_
    rw [getElem?_addClass]
    by_cases hc : x ∈ c.1
    · exact .inl (by rw [if_pos hc, hcs c (by simp) hc])
    · rw [if_neg hc]
      refine hx.imp id ?_
      rintro ⟨c', hc', hxc'⟩
      rcases List.mem_cons.1 hc' with rfl | hc'
      · exact absurd hxc' hc
      · exact ⟨c', hc', hxc'⟩

/-- The position of the only class with an element. -/
theorem getElem?_classMap [DecidableEq α] {P : Partition α} {x : α} {i : Nat} {c : List α}
    (hc : P.classes[i]? = some c) (hx : x ∈ c)
    (honly : ∀ j d, P.classes[j]? = some d → x ∈ d → j = i) : P.classMap[x]? = some i := by
  refine getElem?_foldl_addClass ?_ (.inr ⟨(c, i), List.mem_zipIdx_iff_getElem?.2 hc, hx⟩)
  rintro ⟨d, j⟩ hd hxd
  exact honly j d (List.mem_zipIdx_iff_getElem?.1 hd) hxd

end Partition

namespace Automaton

variable {A : Automaton}

/-! ## The partition of the states -/

/-- The states of one class. -/
def classMembers (A : Automaton) (c : Nat) : List Nat :=
  A.stateNumbers.filter fun q => A.finalClass q == c

/-- The members of a class are the states with its number. -/
theorem mem_classMembers_iff {c q : Nat} :
    q ∈ A.classMembers c ↔ q < A.size ∧ A.finalClass q = c := by
  rw [classMembers, List.mem_filter, mem_stateNumbers, beq_iff_eq]

/-- Putting states in front of the groups of their classes, one by one. -/
theorem getElem?_foldr_modify {classOf : Nat → Nat} {qs : List Nat} {groups : Array (List Nat)}
    {c : Nat} (hc : c < groups.size) :
    (qs.foldr (fun q groups => groups.modify (classOf q) (q :: ·)) groups)[c]?
      = some (qs.filter (classOf · == c) ++ groups[c]) := by
  induction qs with
  | nil => rw [List.foldr_nil, Array.getElem?_eq_getElem hc, List.filter_nil, List.nil_append]
  | cons q qs ih =>
    rw [List.foldr_cons, Array.getElem?_modify, ih, List.filter_cons]
    by_cases hq : classOf q = c
    · simp [hq]
    · simp [hq]

/-- Adding states to their groups makes no new group. -/
theorem size_foldr_modify (classOf : Nat → Nat) (qs : List Nat) (groups : Array (List Nat)) :
    (qs.foldr (fun q groups => groups.modify (classOf q) (q :: ·)) groups).size = groups.size := by
  induction qs with
  | nil => rfl
  | cons q qs ih => rw [List.foldr_cons, Array.size_modify, ih]

/-- The classes of the partition are the groups that are not empty. -/
theorem classes_statePartition (A : Automaton) :
    A.statePartition.classes
      = ((((List.range A.size).map A.classMembers).map Partition.classOfList).filter
          (! ·.isEmpty)) := by
  -- the groups by class, empty ones included, before these are dropped
  have hgroups : (A.stateNumbers.foldr (fun q groups => groups.modify (A.finalClass q) (q :: ·))
      (Array.replicate A.size [])).toList = (List.range A.size).map A.classMembers := by
    refine List.ext_getElem? fun c => ?_
    rw [Array.getElem?_toList, List.getElem?_map]
    by_cases hc : c < A.size
    · rw [getElem?_foldr_modify (by rwa [Array.size_replicate]), List.getElem?_range hc,
        Array.getElem_replicate, List.append_nil]
      rfl
    · rw [Array.getElem?_eq_none (by rw [size_foldr_modify, Array.size_replicate]; omega),
        List.getElem?_eq_none (by rw [List.length_range]; omega)]
      rfl
  rw [← hgroups]
  rfl

/-- The classes have no states in common. -/
theorem pairwise_classes_statePartition (A : Automaton) :
    A.statePartition.classes.Pairwise fun c d => ∀ q ∈ c, q ∉ d := by
  rw [classes_statePartition]
  refine List.Pairwise.filter _ ?_
  rw [List.map_map, List.pairwise_map]
  refine List.nodup_range.imp_of_mem fun {i j} _ _ hij q hi hj => hij ?_
  rw [Function.comp_apply, Partition.mem_classOfList_iff, mem_classMembers_iff] at hi hj
  exact hi.2.symm.trans hj.2

/-- The position of the class of a state. -/
def classOf (A : Automaton) (q : Nat) : Nat := A.statePartition.classMap.getD q 0

/-- Two classes with a state in common are one. -/
theorem eq_of_mem_classes {i j : Nat} {c d : List Nat} {q : Nat}
    (hi : A.statePartition.classes[i]? = some c) (hj : A.statePartition.classes[j]? = some d)
    (hc : q ∈ c) (hd : q ∈ d) : i = j := by
  have hpairwise := List.pairwise_iff_getElem.1 A.pairwise_classes_statePartition
  obtain ⟨hlti, rfl⟩ := List.getElem?_eq_some_iff.1 hi
  obtain ⟨hltj, rfl⟩ := List.getElem?_eq_some_iff.1 hj
  rcases Nat.lt_trichotomy i j with hlt | heq | hlt
  · exact absurd hd (hpairwise i j hlti hltj hlt q hc)
  · exact heq
  · exact absurd hc (hpairwise j i hltj hlti hlt q hd)

/-- The class map has an entry for every state, and it is the position of a class. -/
theorem exists_position {q : Nat} (hq : q < A.size) :
    ∃ i c, A.statePartition.classMap[q]? = some i ∧ A.statePartition.classes[i]? = some c
      ∧ ∀ p, p ∈ c ↔ p < A.size ∧ A.finalClass p = A.finalClass q := by
  have hmembers : ∀ p, p ∈ Partition.classOfList (A.classMembers (A.finalClass q))
      ↔ p < A.size ∧ A.finalClass p = A.finalClass q := by
    intro p
    rw [Partition.mem_classOfList_iff, mem_classMembers_iff]
  have hself : q ∈ Partition.classOfList (A.classMembers (A.finalClass q)) :=
    (hmembers q).2 ⟨hq, rfl⟩
  have hmem :
      Partition.classOfList (A.classMembers (A.finalClass q)) ∈ A.statePartition.classes := by
    rw [classes_statePartition, List.mem_filter]
    refine ⟨List.mem_map_of_mem (List.mem_map_of_mem (List.mem_range.2 (finalClass_lt hq))), ?_⟩
    cases hclass : Partition.classOfList (A.classMembers (A.finalClass q)) with
    | nil => exact absurd (hclass ▸ hself) List.not_mem_nil
    | cons p c => rfl
  obtain ⟨i, hi⟩ := List.mem_iff_getElem?.1 hmem
  have hnumber := Partition.getElem?_classMap hi hself fun j d hj hd =>
    eq_of_mem_classes hj hi hd hself
  exact ⟨i, _, hnumber, hi, hmembers⟩

/-- Every state is in a class, with the states of the same number. -/
theorem exists_class {q : Nat} (hq : q < A.size) :
    ∃ c, A.statePartition.classes[A.classOf q]? = some c
      ∧ ∀ p, p ∈ c ↔ p < A.size ∧ A.finalClass p = A.finalClass q := by
  obtain ⟨i, c, hmap, hclass, hmembers⟩ := exists_position hq
  refine ⟨c, ?_, hmembers⟩
  rw [classOf, Std.TreeMap.getD_eq_getD_getElem?, hmap, Option.getD_some]
  exact hclass

/-- The partition has the classes that refinement ends with. -/
theorem classOf_eq_iff {p q : Nat} (hp : p < A.size) (hq : q < A.size) :
    A.classOf p = A.classOf q ↔ A.finalClass p = A.finalClass q := by
  obtain ⟨c, hc, hmemc⟩ := exists_class hp
  obtain ⟨d, hd, hmemd⟩ := exists_class hq
  constructor
  · intro h
    rw [h, hd, Option.some.injEq] at hc
    have hpd : p ∈ d := hc ▸ (hmemc p).2 ⟨hp, rfl⟩
    exact ((hmemd p).1 hpd).2
  · intro h
    exact eq_of_mem_classes hc hd ((hmemc p).2 ⟨hp, rfl⟩) ((hmemd p).2 ⟨hp, h⟩)

/-! ## The quotient

A class has the transitions of one of its states. Any of them would do, since the states of a class
have corresponding transitions. -/

/-- The state that gives a class its transitions. -/
def representative (A : Automaton) (c : Nat) : Nat :=
  (A.statePartition.classes.map fun c => c.head?.getD A.start).toArray.getD c A.start

/-- A class has the arcs of its representative, led to the classes of their targets. -/
theorem arcs_quotient (A : Automaton) (c : Nat) :
    (A.quotient A.statePartition).arcs c
      = (A.transitions (A.representative c)).map fun t => t.withTarget (A.classOf t.target) := rfl

/-- The representative of a class is one of its states. -/
theorem representative_classOf {q : Nat} (hq : q < A.size) :
    A.representative (A.classOf q) < A.size
      ∧ A.finalClass (A.representative (A.classOf q)) = A.finalClass q := by
  obtain ⟨c, hc, hmem⟩ := exists_class hq
  have hrepresentative : A.representative (A.classOf q) = c.head?.getD A.start := by
    rw [representative, Array.getD_eq_getD_getElem?, List.getElem?_toArray, List.getElem?_map, hc]
    rfl
  rw [hrepresentative]
  cases c with
  | nil => exact absurd ((hmem q).2 ⟨hq, rfl⟩) List.not_mem_nil
  | cons p c => exact (hmem p).1 List.mem_cons_self

/-- A state and its class correspond. -/
theorem bisimulation_quotient (A : Automaton) :
    TransitionSystem.Bisimulation (fun q c => q < A.size ∧ c = A.classOf q) A.system
      (A.quotient A.statePartition) := by
  constructor
  · rintro q _ ⟨hq, rfl⟩
    obtain ⟨hlt, hclass⟩ := representative_classOf hq
    exact isFinal_eq_of_finalClass_eq hq hlt hclass.symm
  · rintro q _ ⟨hq, rfl⟩
    obtain ⟨hlt, hclass⟩ := representative_classOf hq
    rw [arcs_quotient, List.forall₂_map_right_iff]
    have hcorresponds := corresponds_of_finalClass_eq hq hlt hclass.symm
    refine forall₂_imp_of_mem hcorresponds fun t ht u hu htu => ⟨htu.1, target_lt_size ht, ?_⟩
    exact (classOf_eq_iff (target_lt_size hu) (target_lt_size ht)).2 htu.2.symm

/-- The quotient of an ordered automaton is ordered, since a representative keeps its labels. -/
theorem ordered_quotient (hA : A.system.Ordered) : (A.quotient A.statePartition).Ordered := by
  refine ⟨⟨fun c a ha => ?_, fun c => ?_⟩, fun c => ?_⟩
  · rw [arcs_quotient] at ha
    obtain ⟨t, ht, rfl⟩ := List.mem_map.1 ha
    exact hA.deterministic.isSilent_eq_false _ t ht
  · rw [arcs_quotient, List.map_map]
    exact hA.deterministic.nodup (A.representative c)
  · rw [arcs_quotient, List.pairwise_map]
    exact hA.sorted (A.representative c)

end Automaton

end FiniteState

import FiniteState.Automaton.Minimize
import FiniteState.Proofs.Bisimulation
import Mathlib.Data.Finset.Card

/-!
# Refinement of classes

Each round of the refinement tells states apart by their signatures. A round never joins classes, so
if it leaves their number alone it divides none, and the classes are stable: states of one class
have corresponding transitions into the same classes. As long as states of one class are told apart
only by what they accept, the classes are also as coarse as can be.

* `refineFrom_rounds`: the rounds that are granted are enough.
* `corresponds_of_finalClass_eq`: the classes are stable.
* `finalClass_eq_of_sameLanguage`: states that accept the same are in one class.
-/

namespace FiniteState

/-- A list gives as many numbers as it has different members. -/
theorem Numbering.size_ofList {κ : Type} [Ord κ] [Std.TransOrd κ] [Std.LawfulEqOrd κ]
    [DecidableEq κ] (ks : List κ) : (Numbering.ofList ks).size = ks.toFinset.card := by
  have hsame : (Numbering.ofList ks).toList.toFinset = ks.toFinset := by
    ext k
    rw [List.mem_toFinset, List.mem_toFinset, ← Numbering.mem_iff_mem_toList,
      Numbering.mem_ofList_iff]
  rw [← hsame, List.toFinset_card_of_nodup (Numbering.nodup_toList _), Numbering.length_toList]

namespace Automaton

variable {A : Automaton}

/-! ## Signatures -/

/-- The labels and targets of two states correspond, the targets up to their classes. -/
def Corresponds (A : Automaton) (class₁ : Nat → Nat) (p q : Nat) : Prop :=
  List.Forall₂ (fun t u => t.labels = u.labels ∧ class₁ t.target = class₁ u.target)
    (A.transitions p) (A.transitions q)

/-- States have the same signature if they are in one class and their transitions correspond. -/
theorem signature_eq_iff {classes : Array Nat} {p q : Nat} :
    A.signature classes p = A.signature classes q
      ↔ classes.getD p 0 = classes.getD q 0 ∧ A.Corresponds (classes.getD · 0) p q := by
  rw [signature, signature, List.cons.injEq, Corresponds]
  refine and_congr_right fun _ => ?_
  -- three numbers for each transition, so equal lists have equally many
  generalize A.transitions p = ts, A.transitions q = us
  induction ts generalizing us with
  | nil =>
    cases us with
    | nil => exact ⟨fun _ => .nil, fun _ => rfl⟩
    | cons u us => exact ⟨fun h => by simp at h, fun h => by cases h⟩
  | cons t ts ih =>
    cases us with
    | nil => exact ⟨fun h => by simp at h, fun h => by cases h⟩
    | cons u us =>
      rw [List.flatMap_cons, List.flatMap_cons, List.forall₂_cons, ← ih]
      simp only [List.cons_append, List.nil_append, List.cons.injEq, Arc.labels, Prod.mk.injEq]
      constructor
      · rintro ⟨hin, hout, htarget, hrest⟩
        exact ⟨⟨⟨Label.rank_injective hin, Label.rank_injective hout⟩, htarget⟩, hrest⟩
      · rintro ⟨⟨⟨hin, hout⟩, htarget⟩, hrest⟩
        exact ⟨congrArg Label.rank hin, congrArg Label.rank hout, htarget, hrest⟩

/-! ## One round

A class is part of a signature, so a round can only divide classes. Whether it has divided one is
told by their number. -/

/-- The signatures of all states, numbered. -/
def signatureNumbers (A : Automaton) (classes : Array Nat) : Numbering (List Nat) :=
  .ofList (A.stateNumbers.map (A.signature classes))

/-- The classes after one round. -/
def refined (A : Automaton) (classes : Array Nat) : Array Nat :=
  ((A.stateNumbers.map (A.signature classes)).map fun s =>
    ((A.signatureNumbers classes).number? s).getD 0).toArray

/-- How many classes the states are in. -/
def classCount (A : Automaton) (classes : Array Nat) : Nat :=
  ((Finset.range A.size).image (classes.getD · 0)).card

/-- One round refines the classes, and the loop goes on if there are more of them. -/
theorem refineFrom_succ (A : Automaton) (fuel count : Nat) (classes : Array Nat) :
    A.refineFrom (fuel + 1) count classes
      = if (A.signatureNumbers classes).size = count then A.refined classes
        else A.refineFrom fuel (A.signatureNumbers classes).size (A.refined classes) := rfl

/-- A state's next class is the number of its signature. -/
theorem getD_refined (classes : Array Nat) {q : Nat} (hq : q < A.size) :
    (A.signatureNumbers classes).number? (A.signature classes q)
      = some ((A.refined classes).getD q 0) := by
  have hmem : A.signature classes q ∈ A.signatureNumbers classes := by
    rw [signatureNumbers, Numbering.mem_ofList_iff]
    exact List.mem_map_of_mem (mem_stateNumbers.2 hq)
  obtain ⟨i, hi⟩ := Numbering.mem_iff_exists_number.1 hmem
  rw [refined, Array.getD_eq_getD_getElem?, List.getElem?_toArray, List.map_map, List.getElem?_map,
    stateNumbers, List.getElem?_range hq, Option.map_some, Option.getD_some, Function.comp_apply,
    hi, Option.getD_some]

/-- States stay together if their signatures agree. -/
theorem refined_eq_iff {classes : Array Nat} {p q : Nat} (hp : p < A.size) (hq : q < A.size) :
    (A.refined classes).getD p 0 = (A.refined classes).getD q 0
      ↔ A.signature classes p = A.signature classes q := by
  have hp' := getD_refined classes hp
  have hq' := getD_refined classes hq
  constructor
  · intro h
    rw [h] at hp'
    rw [Numbering.number?_eq_some_iff_getElem?] at hp' hq'
    rw [hp'] at hq'
    exact Option.some.inj hq'
  · intro h
    rw [h, hq'] at hp'
    exact (Option.some.inj hp').symm

/-- As many numbers are given as there are different signatures. -/
theorem size_signatureNumbers (A : Automaton) (classes : Array Nat) :
    (A.signatureNumbers classes).size
      = ((Finset.range A.size).image (A.signature classes)).card := by
  rw [signatureNumbers, Numbering.size_ofList]
  congr 1

/-- There are as many classes after a round as signatures before it. -/
theorem classCount_refined (A : Automaton) (classes : Array Nat) :
    A.classCount (A.refined classes) = (A.signatureNumbers classes).size := by
  rw [size_signatureNumbers, classCount]
  -- the number of a signature determines it, and the other way round
  have himage : (Finset.range A.size).image ((A.refined classes).getD · 0)
      = ((Finset.range A.size).image (A.signature classes)).image
        fun s => ((A.signatureNumbers classes).number? s).getD 0 := by
    rw [Finset.image_image]
    refine Finset.image_congr fun q hq => ?_
    rw [Function.comp_apply, getD_refined _ (Finset.mem_range.1 hq), Option.getD_some]
  rw [himage, Finset.card_image_of_injOn]
  intro s hs s' hs' h
  obtain ⟨p, hp, rfl⟩ := Finset.mem_image.1 hs
  obtain ⟨q, hq, rfl⟩ := Finset.mem_image.1 hs'
  rw [Finset.mem_range] at hp hq
  simp only [getD_refined _ hp, getD_refined _ hq, Option.getD_some] at h
  exact (refined_eq_iff hp hq).1 h

/-- A signature begins with the class of its state. -/
theorem image_head_signature (A : Automaton) (classes : Array Nat) :
    ((Finset.range A.size).image (A.signature classes)).image (fun s => s.headD 0)
      = (Finset.range A.size).image (classes.getD · 0) := by
  rw [Finset.image_image]
  rfl

/-- A round never joins classes. -/
theorem classCount_le_refined (A : Automaton) (classes : Array Nat) :
    A.classCount classes ≤ A.classCount (A.refined classes) := by
  rw [classCount_refined, size_signatureNumbers, classCount, ← image_head_signature]
  exact Finset.card_image_le

/-- A round that leaves the number of classes alone divides no class. -/
theorem refined_eq_of_classCount_eq {classes : Array Nat}
    (h : A.classCount (A.refined classes) = A.classCount classes) {p q : Nat} (hp : p < A.size)
    (hq : q < A.size) (hpq : classes.getD p 0 = classes.getD q 0) :
    (A.refined classes).getD p 0 = (A.refined classes).getD q 0 := by
  rw [classCount_refined, size_signatureNumbers, classCount, ← image_head_signature] at h
  have hinj := Finset.injOn_of_card_image_eq h.symm
  have hmem : ∀ q, q < A.size →
      A.signature classes q ∈ (Finset.range A.size).image (A.signature classes) := fun q hq =>
    Finset.mem_image_of_mem _ (Finset.mem_range.2 hq)
  exact (refined_eq_iff hp hq).2 (hinj (hmem p hp) (hmem q hq) hpq)

/-! ## All rounds -/

/-- What every round preserves, the loop preserves. -/
theorem refineFrom_induction {P : Array Nat → Prop}
    (hround : ∀ classes, P classes → P (A.refined classes)) {fuel count : Nat}
    {classes : Array Nat} (h : P classes) : P (A.refineFrom fuel count classes) := by
  induction fuel generalizing count classes with
  | zero => exact h
  | succ fuel ih =>
    rw [refineFrom_succ]
    split
    · exact hround classes h
    · exact ih (hround classes h)

/-- Each round but the last raises the number of classes, so the rounds that are granted are enough:
what holds if a round leaves the number alone, and passes from the classes after a round to those
before it, holds of the classes in the end. -/
theorem refineFrom_rounds {P : Array Nat → Array Nat → Prop}
    (hlast : ∀ classes, A.classCount (A.refined classes) = A.classCount classes →
      P classes (A.refined classes))
    (hround : ∀ classes final, A.classCount (A.refined classes) ≠ A.classCount classes →
      P (A.refined classes) final → P classes final)
    {fuel count : Nat} {classes : Array Nat} (hcount : count = A.classCount classes)
    (hfuel : A.size < count + fuel) : P classes (A.refineFrom fuel count classes) := by
  induction fuel generalizing count classes with
  | zero =>
    have hle : A.classCount classes ≤ A.size := by
      rw [classCount]
      exact Finset.card_image_le.trans (Nat.le_of_eq (Finset.card_range _))
    omega
  | succ fuel ih =>
    rw [refineFrom_succ, ← classCount_refined]
    have hle := A.classCount_le_refined classes
    split
    next hsame => exact hlast classes (hsame.trans hcount)
    next hmore => exact hround classes _ (hcount ▸ hmore) (ih rfl (by omega))

/-- Every state has a class at the beginning. -/
@[simp] theorem size_acceptanceClasses (A : Automaton) : A.acceptanceClasses.size = A.size := by
  simp [acceptanceClasses, size]

/-- The first classes are those of accepting and other states. -/
theorem getD_acceptanceClasses {q : Nat} (hq : q < A.size) :
    A.acceptanceClasses.getD q 0 = if A.isFinal q then 1 else 0 := by
  rw [acceptanceClasses, Array.getD_eq_getD_getElem?, Array.getElem?_map, isFinal,
    state_eq_getElem hq, Array.getElem?_eq_getElem hq, Option.map_some, Option.getD_some]

/-- The loop begins with the number of these classes. -/
theorem size_ofList_acceptanceClasses (A : Automaton) :
    (Numbering.ofList A.acceptanceClasses.toList).size = A.classCount A.acceptanceClasses := by
  rw [Numbering.size_ofList, classCount]
  congr 1
  ext c
  rw [List.mem_toFinset, Array.mem_toList_iff, Array.mem_iff_getElem, Finset.mem_image]
  constructor
  · rintro ⟨q, hq, rfl⟩
    refine ⟨q, ?_, ?_⟩
    · rwa [Finset.mem_range, ← size_acceptanceClasses]
    · rw [Array.getD_eq_getD_getElem?, Array.getElem?_eq_getElem hq, Option.getD_some]
  · rintro ⟨q, hq, rfl⟩
    rw [Finset.mem_range, ← size_acceptanceClasses] at hq
    refine ⟨q, hq, ?_⟩
    rw [Array.getD_eq_getD_getElem?, Array.getElem?_eq_getElem hq, Option.getD_some]

/-- The class of a state in the end. -/
def finalClass (A : Automaton) (q : Nat) : Nat := A.refinedClasses.getD q 0

/-- As many rounds are granted as there are states, which is enough since there is a class. -/
theorem size_lt_rounds (A : Automaton) :
    A.size < (Numbering.ofList A.acceptanceClasses.toList).size + A.size := by
  have hpos : 0 < A.classCount A.acceptanceClasses := by
    rw [classCount, Finset.card_pos, Finset.image_nonempty, Finset.nonempty_range_iff]
    exact Nat.pos_iff_ne_zero.1 A.size_pos
  rw [size_ofList_acceptanceClasses]
  omega

/-- The last round leaves the number of classes alone. -/
theorem exists_stable_refinedClasses (A : Automaton) :
    ∃ before, A.refinedClasses = A.refined before
      ∧ A.classCount (A.refined before) = A.classCount before :=
  refineFrom_rounds
    (P := fun _ final =>
      ∃ before, final = A.refined before ∧ A.classCount (A.refined before) = A.classCount before)
    (fun classes hsame => ⟨classes, rfl, hsame⟩) (fun _ _ _ hfinal => hfinal)
    A.size_ofList_acceptanceClasses A.size_lt_rounds

/-- No class number is beyond the number of states. -/
theorem finalClass_lt {q : Nat} (hq : q < A.size) : A.finalClass q < A.size := by
  obtain ⟨before, hbefore, -⟩ := A.exists_stable_refinedClasses
  rw [finalClass, hbefore]
  have hlt := Numbering.number?_lt (getD_refined before hq)
  have hle : (A.signatureNumbers before).size ≤ A.size := by
    rw [size_signatureNumbers]
    exact Finset.card_image_le.trans (Nat.le_of_eq (Finset.card_range _))
  omega

/-- The classes are stable: states of one class have corresponding transitions. -/
theorem corresponds_of_finalClass_eq {p q : Nat} (hp : p < A.size) (hq : q < A.size)
    (h : A.finalClass p = A.finalClass q) : A.Corresponds A.finalClass p q := by
  obtain ⟨before, hbefore, hstable⟩ := A.exists_stable_refinedClasses
  have hclass : A.finalClass = (A.refinedClasses.getD · 0) := rfl
  rw [hclass, hbefore]
  rw [finalClass, finalClass, hbefore] at h
  have hcorresponds := (signature_eq_iff.1 ((refined_eq_iff hp hq).1 h)).2
  refine forall₂_imp_of_mem hcorresponds fun t ht u hu htu => ?_
  refine ⟨htu.1, ?_⟩
  exact refined_eq_of_classCount_eq hstable (target_lt_size ht) (target_lt_size hu) htu.2

theorem isFinal_eq_of_finalClass_eq {p q : Nat} (hp : p < A.size) (hq : q < A.size)
    (h : A.finalClass p = A.finalClass q) : A.isFinal p = A.isFinal q := by
  have hkeep : ∀ classes : Array Nat,
      (∀ p q, p < A.size → q < A.size → classes.getD p 0 = classes.getD q 0 →
        A.isFinal p = A.isFinal q) →
      ∀ p q, p < A.size → q < A.size → (A.refined classes).getD p 0 = (A.refined classes).getD q 0 →
        A.isFinal p = A.isFinal q := by
    intro classes hclasses p q hp hq hpq
    exact hclasses p q hp hq (signature_eq_iff.1 ((refined_eq_iff hp hq).1 hpq)).1
  refine refineFrom_induction hkeep ?_ p q hp hq h
  intro p q hp hq hpq
  rw [getD_acceptanceClasses hp, getD_acceptanceClasses hq] at hpq
  cases hp' : A.isFinal p <;> cases hq' : A.isFinal q <;> simp_all

/-- If states that accept the same have the same class, one more round leaves it at that: they have
corresponding transitions to states that accept the same. -/
theorem refined_eq_of_sameLanguage (hA : A.system.Ordered)
    (hcoaccessible : ∀ q, q < A.size → A.system.Coaccessible q) {classes : Array Nat}
    (hclasses : ∀ p q, p < A.size → q < A.size →
      TransitionSystem.SameLanguage A.system p A.system q → classes.getD p 0 = classes.getD q 0)
    {p q : Nat} (hp : p < A.size) (hq : q < A.size)
    (hpq : TransitionSystem.SameLanguage A.system p A.system q) :
    (A.refined classes).getD p 0 = (A.refined classes).getD q 0 := by
  rw [refined_eq_iff hp hq, signature_eq_iff]
  refine ⟨hclasses p q hp hq hpq, ?_⟩
  have harcs := (TransitionSystem.bisimulation_sameLanguage hA hA).arcs p q
    ⟨hcoaccessible p hp, hcoaccessible q hq, hpq⟩
  refine forall₂_imp_of_mem harcs fun t ht u hu htu => ?_
  exact ⟨htu.1, hclasses _ _ (target_lt_size ht) (target_lt_size hu) htu.2.2.2⟩

/-- Only what states accept tells them apart. -/
theorem finalClass_eq_of_sameLanguage (hA : A.system.Ordered)
    (hcoaccessible : ∀ q, q < A.size → A.system.Coaccessible q) {p q : Nat} (hp : p < A.size)
    (hq : q < A.size) (h : TransitionSystem.SameLanguage A.system p A.system q) :
    A.finalClass p = A.finalClass q := by
  refine refineFrom_induction (P := fun classes => ∀ p q, p < A.size → q < A.size →
    TransitionSystem.SameLanguage A.system p A.system q → classes.getD p 0 = classes.getD q 0)
    (fun classes hclasses p q => refined_eq_of_sameLanguage hA hcoaccessible hclasses) ?_
    p q hp hq h
  -- in the beginning only acceptance counts, which is a matter of the empty word
  intro p q hp hq hpq
  have hfinal : A.isFinal p = A.isFinal q :=
    (TransitionSystem.bisimulation_sameLanguage hA hA).accepting p q
      ⟨hcoaccessible p hp, hcoaccessible q hq, hpq⟩
  rw [getD_acceptanceClasses hp, getD_acceptanceClasses hq, hfinal]

end Automaton

end FiniteState

import FiniteState.Word
import FiniteState.Proofs.Lists
import FiniteState.Proofs.Trace

/-!
# The order of labels and words

Labels and words are put in order by sorting. Both orders are antisymmetric, so a sorted list tells
equal elements from different ones.

* `LabelsLE`: the order of arcs depends on their labels only, and is one.
* `Word.pairwise_mergeSort`: sorted words are in order.
* `Word.nodup_sortDistinct`: no word is left twice.
-/

namespace FiniteState

/-! ## Labels -/

/-- The order of pairs of labels, the input first. -/
def LabelsLE (p q : Label × Label) : Prop :=
  p.1.rank < q.1.rank ∨ (p.1.rank = q.1.rank ∧ p.2.rank ≤ q.2.rank)

theorem LabelsLE.trans {p q r : Label × Label} (hpq : LabelsLE p q) (hqr : LabelsLE q r) :
    LabelsLE p r := by
  unfold LabelsLE at *
  omega

/-- Label pairs that precede each other are equal. -/
theorem LabelsLE.antisymm {p q : Label × Label} (hpq : LabelsLE p q) (hqp : LabelsLE q p) :
    p = q := by
  unfold LabelsLE at *
  have h1 : p.1.rank = q.1.rank := by omega
  have h2 : p.2.rank = q.2.rank := by omega
  exact Prod.ext (Label.rank_injective h1) (Label.rank_injective h2)

theorem LabelsLE.total (p q : Label × Label) : LabelsLE p q ∨ LabelsLE q p := by
  unfold LabelsLE
  omega

/-- Arcs are compared by their labels, and the targets play no part. -/
theorem Arc.leLabels_iff {κ : Type} {a b : Arc κ} :
    a.leLabels b = true ↔ LabelsLE a.labels b.labels := by
  simp [leLabels, LabelsLE, labels]

/-- Sorting arcs by their labels puts their labels in order. -/
theorem Arc.pairwise_mergeSort {κ : Type} (as : List (Arc κ)) :
    (as.mergeSort Arc.leLabels).Pairwise fun a b => LabelsLE a.labels b.labels := by
  refine (List.pairwise_mergeSort ?_ ?_ as).imp fun h => Arc.leLabels_iff.1 h
  · intro a b c hab hbc
    exact Arc.leLabels_iff.2 ((Arc.leLabels_iff.1 hab).trans (Arc.leLabels_iff.1 hbc))
  · intro a b
    rw [Bool.or_eq_true, Arc.leLabels_iff, Arc.leLabels_iff]
    exact LabelsLE.total _ _

/-! ## Words -/

theorem Symbol.eq_of_code_eq {s t : Symbol} (h : s.code = t.code) : s = t := by
  cases s
  cases t
  exact congrArg Symbol.mk h

/-- Words that precede each other are equal, as symbols are given by their codes. -/
theorem Word.le_antisymm {u v : Word} (huv : Word.le u v = true) (hvu : Word.le v u = true) :
    u = v := by
  induction u generalizing v with
  | nil =>
    cases v with
    | nil => rfl
    | cons t v => cases hvu
  | cons s u ih =>
    cases v with
    | nil => cases huv
    | cons t v =>
      simp only [Word.le, Bool.or_eq_true, Bool.and_eq_true, decide_eq_true_eq, beq_iff_eq] at *
      have hcode : s.code = t.code := by omega
      have huv' : Word.le u v = true := huv.elim (fun h => by omega) And.right
      have hvu' : Word.le v u = true := hvu.elim (fun h => by omega) And.right
      rw [Symbol.eq_of_code_eq hcode, ih huv' hvu']

/-- Sorting and dropping repetitions keeps the members. -/
theorem Word.mem_sortDistinct {w : Word} {ws : List Word} : w ∈ Word.sortDistinct ws ↔ w ∈ ws := by
  rw [Word.sortDistinct, List.mem_eraseReps, List.mem_mergeSort]

/-- Sorted words are in order. -/
theorem Word.pairwise_mergeSort (ws : List Word) :
    (ws.mergeSort Word.le).Pairwise fun u v => Word.le u v = true := by
  have htrans : ∀ u v w, Word.le u v = true → Word.le v w = true → Word.le u w = true :=
    fun _ _ _ => Word.le_trans
  exact List.pairwise_mergeSort htrans Word.le_total ws

theorem Word.pairwise_sortByLength (ws : List Word) :
    (Word.sortByLength ws).Pairwise fun u v => u.length ≤ v.length := by
  refine (List.pairwise_mergeSort ?_ ?_ ws).imp fun h => Nat.le_of_ble_eq_true h
  · intro u v w huv hvw
    exact Nat.ble_eq_true_of_le ((Nat.le_of_ble_eq_true huv).trans (Nat.le_of_ble_eq_true hvw))
  · intro u v
    rw [Bool.or_eq_true, Nat.ble_eq, Nat.ble_eq]
    exact Nat.le_total _ _

/-- Of two different words in order, the codes of the first one come before those of the second in
the lexicographic order of lists. -/
theorem Word.codes_lt_of_le_of_ne {u v : Word} (hle : Word.le u v = true) (hne : u ≠ v) :
    u.map Symbol.code < v.map Symbol.code := by
  induction u generalizing v with
  | nil =>
    cases v with
    | nil => exact absurd rfl hne
    | cons t v => exact List.nil_lt_cons _ _
  | cons s u ih =>
    cases v with
    | nil => cases hle
    | cons t v =>
      rw [Word.le, Bool.or_eq_true, Bool.and_eq_true, decide_eq_true_eq, beq_iff_eq] at hle
      rw [List.map_cons, List.map_cons, List.cons_lt_cons_iff]
      rcases hle with hlt | ⟨hcode, hrest⟩
      · exact .inl hlt
      · have hst : s = t := Symbol.eq_of_code_eq hcode
        exact .inr ⟨hcode, ih hrest fun heq => hne (by rw [hst, heq])⟩

theorem Word.nodup_sortDistinct (ws : List Word) : (Word.sortDistinct ws).Nodup := by
  apply List.nodup_eraseReps (r := fun u v => Word.le u v = true) fun u v => Word.le_antisymm
  exact Word.pairwise_mergeSort ws

/-- Dropping repetitions makes the list no longer. -/
theorem Word.length_sortDistinct_le (ws : List Word) :
    (Word.sortDistinct ws).length ≤ ws.length :=
  calc (Word.sortDistinct ws).length
      ≤ (ws.mergeSort Word.le).length := (List.eraseReps_sublist _).length_le
    _ = ws.length := List.length_mergeSort ws

end FiniteState

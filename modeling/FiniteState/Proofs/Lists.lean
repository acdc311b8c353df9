import Mathlib.Data.List.Forall2
import Mathlib.Data.List.Sort

/-!
# Lists

Lists side by side, lists without repetitions, sorted lists, and lists put together from parts that
belong to keys.

* `forall₂_of_map_eq`: lists correspond if their images are equal.
* `List.nodup_eraseReps`: what is left of a sorted list is distinct.
* `List.eq_of_sorted_of_mem_iff`: a sorted list of distinct elements is determined by its elements.
* `countP_flatMap_of_key`: a key has the elements of its own part.
-/

/-! ## Repeated elements

Equal elements of a sorted list stand side by side, so `eraseReps` drops all but one of them. -/

namespace List

variable {α : Type} [BEq α]

/-- The elements that the loop has kept so far come first in its result. -/
theorem eraseReps_loop (a : α) (as acc : List α) :
    eraseRepsBy.loop (· == ·) a as acc = acc.reverse ++ eraseRepsBy.loop (· == ·) a as [] := by
  induction as generalizing a acc with
  | nil => simp [eraseRepsBy.loop]
  | cons b as ih =>
    unfold eraseRepsBy.loop
    cases hab : a == b with
    | true => exact ih a acc
    | false =>
      show eraseRepsBy.loop (· == ·) b as (a :: acc)
        = acc.reverse ++ eraseRepsBy.loop (· == ·) b as [a]
      rw [ih b (a :: acc), ih b [a]]
      simp

variable [LawfulBEq α]

/-- Of two equal elements side by side, the second one stays. -/
theorem eraseReps_cons_cons (a b : α) (l : List α) :
    (a :: b :: l).eraseReps
      = if a == b then (b :: l).eraseReps else a :: (b :: l).eraseReps := by
  cases hab : a == b with
  | true =>
    rw [if_pos rfl, eq_of_beq hab]
    simp [eraseReps, eraseRepsBy, eraseRepsBy.loop]
  | false =>
    rw [if_neg (by simp)]
    simp only [eraseReps, eraseRepsBy, eraseRepsBy.loop, hab]
    rw [eraseReps_loop]
    rfl

/-- No element is lost altogether. -/
@[simp] theorem mem_eraseReps {a : α} {l : List α} : a ∈ l.eraseReps ↔ a ∈ l := by
  induction l with
  | nil => rfl
  | cons b l ih =>
    cases l with
    | nil => rfl
    | cons c l =>
      rw [eraseReps_cons_cons]
      split
      next hbc =>
        rw [ih, eq_of_beq hbc, mem_cons, mem_cons]
        simp
      · rw [mem_cons, ih, ← mem_cons]

/-- What is left keeps its order. -/
theorem eraseReps_sublist (l : List α) : l.eraseReps <+ l := by
  induction l with
  | nil => exact Sublist.slnil
  | cons a l ih =>
    cases l with
    | nil => exact Sublist.refl _
    | cons b l =>
      rw [eraseReps_cons_cons]
      split
      · exact ih.cons _
      · exact ih.cons_cons _

/-- Equal elements of a sorted list stand side by side, so only one of them is left. -/
theorem nodup_eraseReps {r : α → α → Prop} (hanti : ∀ a b, r a b → r b a → a = b) {l : List α}
    (hl : l.Pairwise r) : l.eraseReps.Nodup := by
  induction l with
  | nil => exact nodup_nil
  | cons a l ih =>
    cases l with
    | nil => exact nodup_singleton a
    | cons b l =>
      have htail := ih (pairwise_cons.1 hl).2
      rw [eraseReps_cons_cons]
      split
      · exact htail
      next hab =>
        refine nodup_cons.2 ⟨fun hmem => hab (beq_iff_eq.2 ?_), htail⟩
        -- `a` before and after `b` would make them equal
        have hb := (pairwise_cons.1 hl).1 b (by simp)
        rcases mem_cons.1 (mem_eraseReps.1 hmem) with h | h
        · exact h
        · exact hanti a b hb ((pairwise_cons.1 (pairwise_cons.1 hl).2).1 a h)

omit [BEq α] [LawfulBEq α] in
/-- Sorted lists of distinct elements are equal if they have the same elements. -/
theorem eq_of_sorted_of_mem_iff {r : α → α → Prop} (hanti : ∀ a b, r a b → r b a → a = b)
    {l m : List α} (hl : l.Pairwise r) (hm : m.Pairwise r) (hl' : l.Nodup) (hm' : m.Nodup)
    (h : ∀ a, a ∈ l ↔ a ∈ m) : l = m :=
  Perm.eq_of_pairwise (fun a b _ _ => hanti a b) hl hm ((perm_ext_iff_of_nodup hl' hm').2 h)

end List

namespace FiniteState

/-- Unlike `eraseReps`, `eraseDups` needs no order of the list. -/
theorem nodup_eraseDups {α : Type} [BEq α] [LawfulBEq α] (xs : List α) : xs.eraseDups.Nodup := by
  induction hn : xs.length using Nat.strong_induction_on generalizing xs with
  | _ n ih =>
    cases xs with
    | nil => exact List.nodup_nil
    | cons x xs =>
      rw [List.eraseDups_cons, List.nodup_cons, List.mem_eraseDups]
      refine ⟨by simp, ih _ ?_ _ rfl⟩
      rw [← hn, List.length_cons]
      exact Nat.lt_succ_of_le (List.length_filter_le _ _)

/-- Numbers are sorted by the Boolean order, and stand in the usual one. -/
theorem pairwise_mergeSort_ble (ns : List Nat) :
    (ns.mergeSort Nat.ble).Pairwise (· ≤ ·) := by
  refine (List.pairwise_mergeSort ?_ ?_ ns).imp fun h => Nat.le_of_ble_eq_true h
  · intro p q r hpq hqr
    rw [Nat.ble_eq] at *
    exact Nat.le_trans hpq hqr
  · intro p q
    rw [Bool.or_eq_true, Nat.ble_eq, Nat.ble_eq]
    exact Nat.le_total p q

/-! ## Lists side by side -/

/-- Elements correspond if they have the same image at the same place. -/
theorem forall₂_of_map_eq {α β γ : Type} {f : α → γ} {g : β → γ} {R : α → β → Prop} {l : List α}
    {m : List β} (h : l.map f = m.map g) (hR : ∀ a ∈ l, ∀ b ∈ m, f a = g b → R a b) :
    List.Forall₂ R l m := by
  induction l generalizing m with
  | nil =>
    cases m with
    | nil => exact .nil
    | cons b m => cases h
  | cons a l ih =>
    cases m with
    | nil => cases h
    | cons b m =>
      rw [List.map_cons, List.map_cons, List.cons.injEq] at h
      refine .cons (hR a (by simp) b (by simp) h.1) (ih h.2 fun a' ha' b' hb' => ?_)
      exact hR a' (by simp [ha']) b' (by simp [hb'])

/-- The relation may be replaced by one that follows from it for the elements of the lists. -/
theorem forall₂_imp_of_mem {α β : Type} {R R' : α → β → Prop} {l : List α} {m : List β}
    (h : List.Forall₂ R l m) (hR : ∀ a ∈ l, ∀ b ∈ m, R a b → R' a b) : List.Forall₂ R' l m := by
  induction h with
  | nil => exact .nil
  | @cons a b l m hab _ ih =>
    refine .cons (hR a (by simp) b (by simp) hab) (ih fun a' ha' b' hb' => ?_)
    exact hR a' (by simp [ha']) b' (by simp [hb'])

/-- Each element of the first list has a counterpart in the second one. -/
theorem exists_right_of_forall₂ {α β : Type} {R : α → β → Prop} {l : List α} {m : List β}
    (h : List.Forall₂ R l m) {a : α} (ha : a ∈ l) : ∃ b ∈ m, R a b := by
  induction h with
  | nil => cases ha
  | cons hR _ ih =>
    rcases List.mem_cons.1 ha with rfl | ha
    · exact ⟨_, List.mem_cons_self, hR⟩
    · obtain ⟨b, hb, hab⟩ := ih ha
      exact ⟨b, List.mem_cons_of_mem _ hb, hab⟩

/-- Each element of the second list has a counterpart in the first one. -/
theorem exists_left_of_forall₂ {α β : Type} {R : α → β → Prop} {l : List α} {m : List β}
    (h : List.Forall₂ R l m) {b : β} (hb : b ∈ m) : ∃ a ∈ l, R a b :=
  exists_right_of_forall₂ h.flip hb

/-! ## Counting by keys

A list may be put together from parts for different keys. What is counted for a key is in its own
part. -/

/-- If the parts of a list belong to different keys, a key has the elements of its own part. -/
theorem countP_flatMap_of_key {κ β : Type} [BEq κ] [LawfulBEq κ] {key : β → κ} {ks : List κ}
    (hks : ks.Nodup) {part : κ → List β} (hpart : ∀ k ∈ ks, ∀ b ∈ part k, key b = k) {k : κ}
    (hk : k ∈ ks) : (ks.flatMap part).countP (key · == k) = (part k).length := by
  induction ks with
  | nil => exact absurd hk List.not_mem_nil
  | cons j ks ih =>
    obtain ⟨hj, hks⟩ := List.nodup_cons.1 hks
    rw [List.flatMap_cons, List.countP_append]
    by_cases hjk : j = k
    · subst hjk
      have hown : (part j).countP (key · == j) = (part j).length :=
        List.countP_eq_length.2 fun b hb => beq_iff_eq.2 (hpart j hk b hb)
      -- the other parts belong to other keys
      have hothers : (ks.flatMap part).countP (key · == j) = 0 := by
        refine List.countP_eq_zero.2 fun b hb heq => hj ?_
        obtain ⟨i, hi, hb⟩ := List.mem_flatMap.1 hb
        rw [← eq_of_beq heq, hpart i (by simp [hi]) b hb]
        exact hi
      rw [hown, hothers, Nat.add_zero]
    · have hother : (part j).countP (key · == k) = 0 :=
        List.countP_eq_zero.2 fun b hb heq =>
          hjk ((hpart j (by simp) b hb).symm.trans (eq_of_beq heq))
      rw [hother, Nat.zero_add]
      exact ih hks (fun i hi => hpart i (by simp [hi]))
        ((List.mem_cons.1 hk).resolve_left (Ne.symm hjk))

/-- A key without a part has no elements. -/
theorem countP_flatMap_of_not_mem {κ β : Type} [BEq κ] [LawfulBEq κ] {key : β → κ}
    {ks : List κ} {part : κ → List β} (hpart : ∀ k ∈ ks, ∀ b ∈ part k, key b = k) {k : κ}
    (hk : k ∉ ks) : (ks.flatMap part).countP (key · == k) = 0 := by
  refine List.countP_eq_zero.2 fun b hb heq => hk ?_
  obtain ⟨j, hj, hb⟩ := List.mem_flatMap.1 hb
  rw [← eq_of_beq heq, hpart j hj b hb]
  exact hj

end FiniteState

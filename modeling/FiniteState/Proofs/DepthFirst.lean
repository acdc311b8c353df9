import FiniteState.Proofs.Search
import Mathlib.Data.Set.Card

/-!
# Depth-first search

A loop over a stack looks for a goal: it takes the key on top, passes it over if it has been seen,
ends at a goal, and otherwise puts the successors on the stack. Nothing is said about how long that
takes. Where finitely many keys can be reached, the loop ends, and its result does not depend on the
order in which keys are taken: it tells whether a goal can be reached.

* `DepthFirst`: the runs of the loop.
* `DepthFirst.unique`, `exists_depthFirst`: there is one run.
* `DepthFirst.eq_true_iff`: what its result says.
-/

namespace FiniteState

variable {κ : Type} {next : κ → List κ} {goal : κ → Bool} {seen : Set κ} {stack : List κ}
variable {result : Bool}

/-- The loop, with the keys that it has seen and its stack, ends with the result. The top of the
stack is the head of the list, so the last successor is taken first. -/
inductive DepthFirst (next : κ → List κ) (goal : κ → Bool) : Set κ → List κ → Bool → Prop
  | empty {seen : Set κ} : DepthFirst next goal seen [] false
  | again {seen : Set κ} {k : κ} {stack : List κ} {result : Bool} (hk : k ∈ seen)
      (hrest : DepthFirst next goal seen stack result) :
      DepthFirst next goal seen (k :: stack) result
  | found {seen : Set κ} {k : κ} {stack : List κ} (hk : k ∉ seen) (hgoal : goal k = true) :
      DepthFirst next goal seen (k :: stack) true
  | expand {seen : Set κ} {k : κ} {stack : List κ} {result : Bool} (hk : k ∉ seen)
      (hgoal : goal k = false)
      (hrest : DepthFirst next goal (insert k seen) ((next k).reverse ++ stack) result) :
      DepthFirst next goal seen (k :: stack) result

/-- What replaces a key on the stack is reached from it. -/
theorem reaches_of_mem_expanded {k k' : κ} (hk' : k' ∈ (next k).reverse ++ stack) :
    Reaches next (k :: stack) k' := by
  rcases List.mem_append.1 hk' with hk' | hk'
  · exact .step (.start List.mem_cons_self) (List.mem_reverse.1 hk')
  · exact .start (List.mem_cons_of_mem _ hk')

namespace DepthFirst

/-- Each step is determined by the key on top of the stack. -/
theorem unique {result' : Bool} (h : DepthFirst next goal seen stack result)
    (h' : DepthFirst next goal seen stack result') : result = result' := by
  induction h with
  | empty => cases h'; rfl
  | again hk _ ih =>
    cases h' with
    | again _ hrest => exact ih hrest
    | found hk' => exact absurd hk hk'
    | expand hk' => exact absurd hk hk'
  | found hk hgoal =>
    cases h' with
    | again hk' => exact absurd hk' hk
    | found => rfl
    | expand _ hgoal' => exact absurd (hgoal.symm.trans hgoal') (by decide)
  | expand hk hgoal _ ih =>
    cases h' with
    | again hk' => exact absurd hk' hk
    | found _ hgoal' => exact absurd (hgoal.symm.trans hgoal') (by decide)
    | expand _ _ hrest => exact ih hrest

/-- What ends at a goal has followed successors to it. -/
theorem exists_reaches (h : DepthFirst next goal seen stack result) (hresult : result = true) :
    ∃ k, Reaches next stack k ∧ goal k = true := by
  induction h with
  | empty => cases hresult
  | again _ _ ih =>
    obtain ⟨k, hk, hgoal⟩ := ih hresult
    exact ⟨k, hk.trans fun _ hk' => .start (List.mem_cons_of_mem _ hk'), hgoal⟩
  | @found _ k _ _ hgoal => exact ⟨k, .start List.mem_cons_self, hgoal⟩
  | @expand _ k stack _ _ _ _ ih =>
    obtain ⟨l, hl, hgoal⟩ := ih hresult
    exact ⟨l, hl.trans fun _ hk' => reaches_of_mem_expanded hk', hgoal⟩

/-- Keys that have been seen are not goals, and their successors are seen or wait on the stack. -/
def Expanded (next : κ → List κ) (goal : κ → Bool) (seen : Set κ) (stack : List κ) : Prop :=
  ∀ k ∈ seen, goal k = false ∧ ∀ k' ∈ next k, k' ∈ seen ∨ k' ∈ stack

/-- A key seen before is taken from the stack without any effect. -/
theorem Expanded.again {k : κ} (h : Expanded next goal seen (k :: stack)) (hk : k ∈ seen) :
    Expanded next goal seen stack := by
  refine fun l hl => ⟨(h l hl).1, fun l' hl' => ?_⟩
  rcases (h l hl).2 l' hl' with hseen | hstack
  · exact .inl hseen
  · rcases List.mem_cons.1 hstack with rfl | hstack
    · exact .inl hk
    · exact .inr hstack

/-- A new key that is no goal makes way for those after it. -/
theorem Expanded.expand {k : κ} (h : Expanded next goal seen (k :: stack))
    (hgoal : goal k = false) :
    Expanded next goal (insert k seen) ((next k).reverse ++ stack) := by
  rintro l (rfl | hl)
  · exact ⟨hgoal, fun l' hl' => .inr (List.mem_append_left _ (List.mem_reverse.2 hl'))⟩
  · refine ⟨(h l hl).1, fun l' hl' => ?_⟩
    rcases (h l hl).2 l' hl' with hseen | hstack
    · exact .inl (.inr hseen)
    · rcases List.mem_cons.1 hstack with rfl | hstack
      · exact .inl (.inl rfl)
      · exact .inr (List.mem_append_right _ hstack)

/-- What ends without a goal has seen all that was on the stack, and all that this leads to. -/
theorem exists_expanded (h : DepthFirst next goal seen stack result) (hresult : result = false)
    (hseen : Expanded next goal seen stack) :
    ∃ final : Set κ, seen ⊆ final ∧ (∀ k ∈ stack, k ∈ final) ∧ Expanded next goal final [] := by
  induction h with
  | @empty seen => exact ⟨seen, subset_rfl, nofun, hseen⟩
  | again hk _ ih =>
    obtain ⟨final, hsubset, hstack, hfinal⟩ := ih hresult (hseen.again hk)
    exact ⟨final, hsubset, List.forall_mem_cons.2 ⟨hsubset hk, hstack⟩, hfinal⟩
  | found => cases hresult
  | @expand seen k stack _ hk hgoal _ ih =>
    obtain ⟨final, hsubset, hstack, hfinal⟩ := ih hresult (hseen.expand hgoal)
    obtain ⟨hfirst, hseen⟩ := Set.insert_subset_iff.1 hsubset
    refine ⟨final, hseen, List.forall_mem_cons.2 ⟨hfirst, fun l hl => ?_⟩, hfinal⟩
    exact hstack l (List.mem_append_right _ hl)

/-- A loop that begins with nothing seen tells whether a goal can be reached. -/
theorem eq_true_iff (h : DepthFirst next goal ∅ stack result) :
    result = true ↔ ∃ k, Reaches next stack k ∧ goal k = true := by
  refine ⟨h.exists_reaches, fun ⟨k, hk, hgoal⟩ => ?_⟩
  by_contra hresult
  obtain ⟨final, -, hstack, hfinal⟩ := h.exists_expanded (Bool.eq_false_iff.2 hresult) nofun
  have hmem : k ∈ final := by
    clear hgoal
    induction hk with
    | start hk => exact hstack _ hk
    | step _ hk' ih => exact ((hfinal _ ih).2 _ hk').resolve_right List.not_mem_nil
  exact absurd ((hfinal k hmem).1.symm.trans hgoal) (by decide)

end DepthFirst

/-- The loop ends: each key is expanded once, and between two expansions the stack gets shorter. -/
theorem exists_depthFirst {keys : Set κ} (hkeys : keys.Finite)
    (hreach : ∀ k, Reaches next stack k → k ∈ keys) :
    ∃ result, DepthFirst next goal seen stack result := by
  -- by induction on the number of keys that have not been seen, and then on the stack
  generalize hn : (keys \ seen).ncard = n
  induction n using Nat.strong_induction_on generalizing seen stack with
  | _ n ihkeys =>
    induction stack with
    | nil => exact ⟨false, .empty⟩
    | cons k stack ihstack =>
      by_cases hk : k ∈ seen
      · obtain ⟨result, hrest⟩ := ihstack fun l hl =>
          hreach l (hl.trans fun _ hl' => .start (List.mem_cons_of_mem k hl'))
        exact ⟨result, .again hk hrest⟩
      cases hgoal : goal k with
      | true => exact ⟨true, .found hk hgoal⟩
      | false =>
        have hkey : k ∈ keys := hreach k (.start List.mem_cons_self)
        have hless : (keys \ insert k seen).ncard < n := by
          rw [← hn]
          refine Set.ncard_lt_ncard ⟨?_, fun h => ?_⟩ hkeys.sdiff
          · exact Set.sdiff_subset_sdiff_right (Set.subset_insert k seen)
          · exact (h ⟨hkey, hk⟩).2 (Set.mem_insert k seen)
        obtain ⟨result, hrest⟩ := ihkeys _ hless
          (fun l hl => hreach l (hl.trans fun _ hl' => reaches_of_mem_expanded hl')) rfl
        exact ⟨result, .expand hk hgoal hrest⟩

end FiniteState

import FiniteState.Numbering

/-!
# Bounded breadth-first search

Starting from some keys, a search follows a successor function and numbers the keys that it finds in
the order of their discovery. The numbered keys are their own queue: the search expands key `0`,
then key `1`, and so on. It stops when every key has been expanded, or when it meets one key more
than its limit admits; then it is said to overflow.
-/

namespace FiniteState

/-- The state of a search. -/
structure Search (κ : Type) [Ord κ] where
  /-- The keys found so far. -/
  found : Numbering κ
  /-- Whether a key was met that the limit did not admit. -/
  overflow : Bool

namespace Search

variable {κ : Type} [Ord κ] [Std.TransOrd κ] [Std.LawfulEqOrd κ]

/-- Meets a key: a new one is numbered if the limit admits it. -/
def visit (limit : Nat) (s : Search κ) (k : κ) : Search κ :=
  if h : k ∈ s.found then s
  else if s.found.size < limit then { s with found := s.found.insertNew k h }
  else { s with overflow := true }

/-- Meets several keys in turn. -/
def visitAll (limit : Nat) (s : Search κ) (ks : List κ) : Search κ := ks.foldl (visit limit) s

/-- Expands the keys from number `i` on. A search that does not overflow has at most `limit` keys to
expand, so `fuel = limit - i` is enough. -/
def expandFrom (next : κ → List κ) (limit : Nat) : (fuel i : Nat) → Search κ → Search κ
  | 0, _, s => s
  | fuel + 1, i, s =>
    if s.overflow then s
    else match s.found.key? i with
      | none => s
      | some k => expandFrom next limit fuel (i + 1) (visitAll limit s (next k))

/-- The search from the keys `starts`. -/
def run (next : κ → List κ) (limit : Nat) (starts : List κ) : Search κ :=
  expandFrom next limit limit 0 (visitAll limit ⟨.empty, false⟩ starts)

/-! ## A key once found stays found -/

/-- Visiting a key forgets none, whether there is room for it or not. -/
theorem mem_visit_of_mem {limit : Nat} {s : Search κ} {k k' : κ} (h : k' ∈ s.found) :
    k' ∈ (visit limit s k).found := by
  unfold visit
  split
  · exact h
  · split
    · exact Numbering.mem_insertNew_of_mem ‹_› h
    · exact h

theorem mem_visitAll_of_mem {limit : Nat} {s : Search κ} {ks : List κ} {k : κ}
    (h : k ∈ s.found) : k ∈ (visitAll limit s ks).found := by
  induction ks generalizing s with
  | nil => exact h
  | cons k' ks ih => exact ih (mem_visit_of_mem h)

/-- A whole search forgets none of the keys it starts from. -/
theorem mem_expandFrom_of_mem {next : κ → List κ} {limit fuel i : Nat} {s : Search κ} {k : κ}
    (h : k ∈ s.found) : k ∈ (expandFrom next limit fuel i s).found := by
  induction fuel generalizing i s with
  | zero => exact h
  | succ fuel ih =>
    unfold expandFrom
    split
    · exact h
    · split
      · exact h
      · exact ih (mem_visitAll_of_mem h)

/-- A search that may find a key finds its first start. -/
theorem mem_run_of_pos {next : κ → List κ} {limit : Nat} {k : κ} {ks : List κ} (h : 0 < limit) :
    k ∈ (run next limit (k :: ks)).found := by
  refine mem_expandFrom_of_mem (mem_visitAll_of_mem (s := visit limit ⟨.empty, false⟩ k) ?_)
  unfold visit
  split
  · assumption
  · rw [if_pos (by simpa [Numbering.size, Numbering.empty] using h)]
    exact Numbering.mem_insertNew_self _ k ‹_›

end Search

end FiniteState

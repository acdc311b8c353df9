import FiniteState.Search
import Mathlib.Data.List.Nodup
import Mathlib.Data.List.Perm.Subperm

/-!
# What a search finds

`Reaches next starts k` says that `k` is one of the keys `starts` or can be reached from one of
them. A search that does not overflow numbers exactly these keys; a search that overflows has met
more of them than its limit admits.

* `reaches_of_mem_run`, `mem_run_of_reaches`: the two directions of what is found.
* `exists_nodup_of_overflow`: more keys than the limit can be reached.
* `overflow_eq_false_of_subset`: a search among few keys does not overflow.
-/

namespace FiniteState

/-! ## Numberings as lists

The keys of a numbering, listed by number, are distinct; inserting a key appends it to the list. -/

namespace Numbering

variable {κ : Type} [Ord κ]

theorem key?_eq_getElem? (m : Numbering κ) (i : Nat) : m.key? i = m.toList[i]? := by
  rw [key?, toList, Array.getElem?_toList]

@[simp] theorem length_toList (m : Numbering κ) : m.toList.length = m.size := by
  rw [toList, Array.length_toList, size]

/-- The number of a key is its place in the list. -/
theorem number?_eq_some_iff_getElem? {m : Numbering κ} {k : κ} {i : Nat} :
    m.number? k = some i ↔ m.toList[i]? = some k := by
  rw [number?_eq_some_iff, key?_eq_getElem?]

theorem mem_iff_mem_toList {m : Numbering κ} {k : κ} : k ∈ m ↔ k ∈ m.toList := by
  rw [mem_iff_exists_number, List.mem_iff_getElem?]
  exact exists_congr fun i => number?_eq_some_iff_getElem?

/-- A key has one number only. -/
theorem eq_of_getElem? {m : Numbering κ} {k : κ} {i j : Nat} (hi : m.toList[i]? = some k)
    (hj : m.toList[j]? = some k) : i = j := by
  rw [← number?_eq_some_iff_getElem?] at hi hj
  exact Option.some.inj (hi.symm.trans hj)

/-- Numbers that have all the keys in their order are all the numbers in order. -/
theorem eq_range_of_forall₂ {m : Numbering κ} {is : List Nat}
    (h : List.Forall₂ (fun i k => m.toList[i]? = some k) is m.toList) : is = List.range m.size := by
  refine List.ext_getElem (by simp [h.length_eq]) fun i hi hi' => ?_
  rw [List.getElem_range]
  exact eq_of_getElem? (h.get hi (h.length_eq ▸ hi)) (List.getElem?_eq_getElem _)

/-- No key is listed twice, since the two tables are inverse. -/
theorem nodup_toList (m : Numbering κ) : m.toList.Nodup := by
  rw [List.nodup_iff_getElem?_ne_getElem?]
  intro i j hij hj heq
  have hlast : m.toList[j]? = some m.toList[j] := List.getElem?_eq_getElem hj
  exact absurd (eq_of_getElem? (heq.trans hlast) hlast) (Nat.ne_of_lt hij)

variable [Std.TransOrd κ]

@[simp] theorem toList_empty : (empty : Numbering κ).toList = [] := rfl

@[simp] theorem not_mem_empty (k : κ) : ¬ k ∈ (empty : Numbering κ) := by
  rw [mem_iff_mem_toList, toList_empty]
  exact List.not_mem_nil

variable [Std.LawfulEqOrd κ]

theorem toList_insertNew (m : Numbering κ) (k : κ) (h : ¬ k ∈ m) :
    (m.insertNew k h).toList = m.toList ++ [k] := by
  simp only [toList, insertNew, Array.toList_push]

theorem mem_insertNew_iff {m : Numbering κ} {k k' : κ} (h : ¬ k ∈ m) :
    k' ∈ m.insertNew k h ↔ k' ∈ m ∨ k' = k := by
  rw [mem_iff_mem_toList, toList_insertNew, List.mem_append, List.mem_singleton,
    mem_iff_mem_toList]

@[simp]
theorem mem_insert_iff {m : Numbering κ} {k k' : κ} : k' ∈ m.insert k ↔ k' ∈ m ∨ k' = k := by
  unfold insert
  split
  · constructor
    · exact Or.inl
    · rintro (h | rfl)
      · exact h
      · assumption
  · exact mem_insertNew_iff _

theorem mem_foldl_insert_iff {m : Numbering κ} {ks : List κ} {k : κ} :
    k ∈ ks.foldl insert m ↔ k ∈ m ∨ k ∈ ks := by
  induction ks generalizing m with
  | nil => simp
  | cons k' ks ih => rw [List.foldl_cons, ih, mem_insert_iff, List.mem_cons, or_assoc]

/-- A numbering made from a list has its members. -/
@[simp] theorem mem_ofList_iff {ks : List κ} {k : κ} : k ∈ ofList ks ↔ k ∈ ks := by
  rw [ofList, mem_foldl_insert_iff, or_iff_right (not_mem_empty k)]

/-- Distinct keys are numbered in the order in which they are listed. -/
theorem toList_foldl_insert {m : Numbering κ} {ks : List κ} (hks : ks.Nodup)
    (hnew : ∀ k ∈ ks, ¬ k ∈ m) : (ks.foldl insert m).toList = m.toList ++ ks := by
  induction ks generalizing m with
  | nil => simp
  | cons k ks ih =>
    have hk : ¬ k ∈ m := hnew k (by simp)
    have hinsert : m.insert k = m.insertNew k hk := by rw [insert, dif_neg hk]
    have hnodup := List.nodup_cons.1 hks
    rw [List.foldl_cons, hinsert, ih hnodup.2, toList_insertNew, List.append_assoc,
      List.singleton_append]
    intro k' hk' hmem
    rcases (mem_insertNew_iff hk).1 hmem with h | rfl
    · exact hnew k' (by simp [hk']) h
    · exact hnodup.1 hk'

/-- A list without repetitions is numbered in its order. -/
theorem toList_ofList {ks : List κ} (hks : ks.Nodup) : (ofList ks).toList = ks := by
  rw [ofList, toList_foldl_insert hks fun k _ => not_mem_empty k, toList_empty, List.nil_append]

end Numbering

/-- The key is one of the starts, or `next` leads to it from one of them. -/
inductive Reaches {κ : Type} (next : κ → List κ) (starts : List κ) : κ → Prop
  | start {k : κ} (h : k ∈ starts) : Reaches next starts k
  | step {k k' : κ} (h : Reaches next starts k) (h' : k' ∈ next k) : Reaches next starts k'

/-- What is reached from keys that are reached is reached. -/
theorem Reaches.trans {κ : Type} {next : κ → List κ} {starts starts' : List κ} {k : κ}
    (h : Reaches next starts' k) (hstarts : ∀ k' ∈ starts', Reaches next starts k') :
    Reaches next starts k := by
  induction h with
  | start hk => exact hstarts _ hk
  | step _ h' ih => exact .step ih h'

namespace Search

variable {κ : Type} [Ord κ] [Std.TransOrd κ] [Std.LawfulEqOrd κ]
variable {next : κ → List κ} {starts : List κ} {limit : Nat}

/-! ## One key

Meeting a key leaves the search alone, appends the key, or notes the overflow. -/

/-- A key is known, or it is added while there is room, or it overflows. These are the three
things that a visit can do, and all that follows rests on them. -/
theorem visit_cases (limit : Nat) (s : Search κ) (k : κ) :
    (k ∈ s.found ∧ visit limit s k = s)
    ∨ (∃ h : ¬ k ∈ s.found, s.found.size < limit
        ∧ visit limit s k = { s with found := s.found.insertNew k h })
    ∨ (¬ k ∈ s.found ∧ limit ≤ s.found.size ∧ visit limit s k = { s with overflow := true }) := by
  unfold visit
  by_cases hk : k ∈ s.found
  · exact .inl ⟨hk, by rw [dif_pos hk]⟩
  · by_cases hsize : s.found.size < limit
    · exact .inr (.inl ⟨hk, hsize, by rw [dif_neg hk, if_pos hsize]⟩)
    · exact .inr (.inr ⟨hk, by omega, by rw [dif_neg hk, if_neg hsize]⟩)

theorem size_visit_le {s : Search κ} (h : s.found.size ≤ limit) (k : κ) :
    (visit limit s k).found.size ≤ limit := by
  rcases visit_cases limit s k with ⟨-, heq⟩ | ⟨hk, hsize, heq⟩ | ⟨-, -, heq⟩
  · rwa [heq]
  · rw [heq, ← Numbering.length_toList, Numbering.toList_insertNew, List.length_append,
      Numbering.length_toList]
    exact hsize
  · rwa [heq]

/-- A visit adds at the end only. -/
theorem prefix_visit (limit : Nat) (s : Search κ) (k : κ) :
    s.found.toList <+: (visit limit s k).found.toList := by
  rcases visit_cases limit s k with ⟨-, heq⟩ | ⟨hk, -, heq⟩ | ⟨-, -, heq⟩
  · exact heq.symm ▸ List.prefix_refl _
  · rw [heq, Numbering.toList_insertNew]
    exact List.prefix_append _ _
  · exact heq.symm ▸ List.prefix_refl _

theorem overflow_of_visit {s : Search κ} {k : κ} (h : (visit limit s k).overflow = false) :
    s.overflow = false ∧ k ∈ (visit limit s k).found := by
  rcases visit_cases limit s k with ⟨hk, heq⟩ | ⟨hk, -, heq⟩ | ⟨-, -, heq⟩
  · rw [heq] at h ⊢
    exact ⟨h, hk⟩
  · rw [heq] at h ⊢
    exact ⟨h, Numbering.mem_insertNew_self _ k hk⟩
  · rw [heq] at h
    simp at h

/-! ## An invariant of the whole search

What every visit of a key that can be reached keeps, the search keeps. -/

/-- What every visit preserves, many visits preserve. -/
theorem visitAll_induction {P : Search κ → Prop} {ks : List κ}
    (hvisit : ∀ s, P s → ∀ k ∈ ks, P (visit limit s k)) {s : Search κ} (h : P s) :
    P (visitAll limit s ks) := by
  induction ks generalizing s with
  | nil => exact h
  | cons k ks ih =>
    have hhead : P (visit limit s k) := hvisit s h k (by simp)
    exact ih (fun s hs k' hk' => hvisit s hs k' (by simp [hk'])) hhead

theorem size_visitAll_le {s : Search κ} (h : s.found.size ≤ limit) (ks : List κ) :
    (visitAll limit s ks).found.size ≤ limit :=
  visitAll_induction (P := fun s => s.found.size ≤ limit) (fun _ hs k _ => size_visit_le hs k) h

/-- What every visit preserves that goes on from a key found, the search preserves. -/
theorem expandFrom_induction {P : Search κ → Prop}
    (hvisit : ∀ s, P s → ∀ k ∈ s.found.toList, ∀ k' ∈ next k, ∀ s', P s' → P (visit limit s' k'))
    (fuel i : Nat) {s : Search κ} (h : P s) : P (expandFrom next limit fuel i s) := by
  induction fuel generalizing i s with
  | zero => exact h
  | succ fuel ih =>
    unfold expandFrom
    split
    · exact h
    · split
      · exact h
      next k hk =>
        have hmem : k ∈ s.found.toList := by
          rw [Numbering.key?_eq_getElem?] at hk
          exact List.mem_of_getElem? hk
        refine ih _ (visitAll_induction (fun s' hs' k' hk' => ?_) h)
        exact hvisit s h k hmem k' hk' s' hs'

/-- What the search has done so far: every key found can be reached, no more keys are numbered than
the limit admits, and an overflow is due to a key that was not numbered. -/
structure Sound (next : κ → List κ) (starts : List κ) (limit : Nat) (s : Search κ) : Prop where
  reaches : ∀ k ∈ s.found.toList, Reaches next starts k
  size_le : s.found.size ≤ limit
  overflow : s.overflow = true →
    s.found.size = limit ∧ ∃ k, ¬ k ∈ s.found ∧ Reaches next starts k

/-- Visiting what can be reached keeps the search sound. -/
theorem Sound.visit {s : Search κ} (hs : Sound next starts limit s) {k : κ}
    (hk : Reaches next starts k) : Sound next starts limit (visit limit s k) := by
  constructor
  case size_le => exact size_visit_le hs.size_le k
  case reaches =>
    intro k' hk'
    rcases visit_cases limit s k with ⟨-, heq⟩ | ⟨hnew, -, heq⟩ | ⟨-, -, heq⟩
    · exact hs.reaches k' (heq ▸ hk')
    · rw [heq, Numbering.toList_insertNew, List.mem_append, List.mem_singleton] at hk'
      rcases hk' with hk' | rfl
      · exact hs.reaches k' hk'
      · exact hk
    · rw [heq] at hk'
      exact hs.reaches k' hk'
  case overflow =>
    intro hover
    rcases visit_cases limit s k with ⟨-, heq⟩ | ⟨hnew, hsize, heq⟩ | ⟨hnew, hsize, heq⟩
    · rw [heq] at hover ⊢
      exact hs.overflow hover
    · -- a search that has overflowed is full, so it cannot number another key
      rw [heq] at hover
      have := (hs.overflow hover).1
      omega
    · rw [heq]
      have := hs.size_le
      exact ⟨by show s.found.size = limit; omega, k, hnew, hk⟩

/-- A search is sound at its end. -/
theorem sound_run (next : κ → List κ) (limit : Nat) (starts : List κ) :
    Sound next starts limit (run next limit starts) := by
  have hempty : Sound next starts limit (⟨.empty, false⟩ : Search κ) := by
    refine ⟨?_, Nat.zero_le _, ?_⟩
    · intro k hk
      rw [Numbering.toList_empty] at hk
      exact absurd hk List.not_mem_nil
    · intro h
      cases h
  refine expandFrom_induction ?_ limit 0 ?_
  · intro s hs k hk k' hk' s' hs'
    exact hs'.visit (.step (hs.reaches k hk) hk')
  · exact visitAll_induction (fun s hs k hk => hs.visit (.start hk)) hempty

/-- What is found can be reached. -/
theorem reaches_of_mem_run {k : κ} (h : k ∈ (run next limit starts).found) :
    Reaches next starts k :=
  (sound_run next limit starts).reaches k (Numbering.mem_iff_mem_toList.1 h)

/-- No more keys are found than the limit says. -/
theorem size_run_le : (run next limit starts).found.size ≤ limit :=
  (sound_run next limit starts).size_le

/-- A search overflows only if more keys can be reached than its limit admits. -/
theorem exists_nodup_of_overflow (h : (run next limit starts).overflow = true) :
    ∃ ks : List κ, ks.Nodup ∧ ks.length = limit + 1 ∧ ∀ k ∈ ks, Reaches next starts k := by
  have hsound := sound_run next limit starts
  obtain ⟨hsize, k, hnew, hk⟩ := hsound.overflow h
  refine ⟨k :: (run next limit starts).found.toList, ?_, ?_, ?_⟩
  · rw [List.nodup_cons, ← Numbering.mem_iff_mem_toList]
    exact ⟨hnew, Numbering.nodup_toList _⟩
  · simp [hsize]
  · intro k' hk'
    rcases List.mem_cons.1 hk' with rfl | hk'
    · exact hk
    · exact hsound.reaches k' hk'

/-- A search among the keys of a list that is not longer than the limit does not overflow. -/
theorem overflow_eq_false_of_subset (ks : List κ) (hlength : ks.length ≤ limit)
    (hks : ∀ k, Reaches next starts k → k ∈ ks) : (run next limit starts).overflow = false := by
  rw [← Bool.not_eq_true]
  intro h
  obtain ⟨ks', hnodup, hlength', hreach⟩ := exists_nodup_of_overflow h
  have hle := (hnodup.subperm fun k hk => hks k (hreach k hk)).length_le
  omega

/-! ## Completeness

Without an overflow every key met is numbered, so once all keys are expanded the numbered keys are
closed under `next`. -/

theorem prefix_visitAll (limit : Nat) (s : Search κ) (ks : List κ) :
    s.found.toList <+: (visitAll limit s ks).found.toList :=
  visitAll_induction (P := fun s' => s.found.toList <+: s'.found.toList)
    (fun s' hs' k _ => hs'.trans (prefix_visit limit s' k)) (List.prefix_refl _)

/-- If nothing overflows, all keys are found. -/
theorem overflow_of_visitAll {s : Search κ} {ks : List κ}
    (h : (visitAll limit s ks).overflow = false) :
    s.overflow = false ∧ ∀ k ∈ ks, k ∈ (visitAll limit s ks).found := by
  induction ks generalizing s with
  | nil => exact ⟨h, by simp⟩
  | cons k ks ih =>
    have hrest : (visitAll limit (visit limit s k) ks).overflow = false := h
    obtain ⟨hhead, htail⟩ := ih hrest
    obtain ⟨hs, hk⟩ := overflow_of_visit hhead
    refine ⟨hs, fun k' hk' => ?_⟩
    show k' ∈ (visitAll limit (visit limit s k) ks).found
    rcases List.mem_cons.1 hk' with rfl | hk'
    · exact mem_visitAll_of_mem hk
    · exact htail k' hk'

theorem prefix_expandFrom (next : κ → List κ) (limit fuel i : Nat) (s : Search κ) :
    s.found.toList <+: (expandFrom next limit fuel i s).found.toList :=
  expandFrom_induction (P := fun s' => s.found.toList <+: s'.found.toList)
    (fun _ _ _ _ k' _ s' hs' => hs'.trans (prefix_visit limit s' k')) fuel i (List.prefix_refl _)

/-- An overflow is never forgotten. -/
theorem overflow_of_expandFrom {fuel i : Nat} {s : Search κ}
    (h : (expandFrom next limit fuel i s).overflow = false) : s.overflow = false := by
  induction fuel generalizing i s with
  | zero => exact h
  | succ fuel ih =>
    unfold expandFrom at h
    split at h
    · assumption
    · split at h
      · exact h
      · exact (overflow_of_visitAll (ih h)).1

/-- The keys before number `i` have been expanded. -/
def Expanded (next : κ → List κ) (i : Nat) (s : Search κ) : Prop :=
  ∀ j < i, ∀ k, s.found.toList[j]? = some k → ∀ k' ∈ next k, k' ∈ s.found

omit [Std.TransOrd κ] [Std.LawfulEqOrd κ] in
/-- Once all keys are expanded the keys found are closed under successors. -/
theorem Expanded.closed {i : Nat} {s : Search κ} (h : Expanded next i s)
    (hi : s.found.size ≤ i) : ∀ k ∈ s.found, ∀ k' ∈ next k, k' ∈ s.found := by
  intro k hk k' hk'
  obtain ⟨j, hj⟩ := List.mem_iff_getElem?.1 (Numbering.mem_iff_mem_toList.1 hk)
  have hlt := (List.getElem?_eq_some_iff.1 hj).1
  rw [Numbering.length_toList] at hlt
  exact h j (by omega) k hj k' hk'

/-- Visiting the successors of the next key expands one more. -/
theorem Expanded.visitAll {i : Nat} {s : Search κ} {k : κ} (h : Expanded next i s)
    (hk : s.found.toList[i]? = some k)
    (hover : (visitAll limit s (next k)).overflow = false) :
    Expanded next (i + 1) (visitAll limit s (next k)) := by
  intro j hj k' hk' k'' hk''
  have hlt := (List.getElem?_eq_some_iff.1 hk).1
  have hsame : s.found.toList[j]? = some k' := by
    obtain ⟨rest, hrest⟩ := prefix_visitAll limit s (next k)
    rw [← hrest, List.getElem?_append_left (by omega)] at hk'
    exact hk'
  by_cases hji : j < i
  · exact mem_visitAll_of_mem (h j hji k' hsame k'' hk'')
  · have hij : j = i := by omega
    rw [hij, hk] at hsame
    cases hsame
    exact (overflow_of_visitAll hover).2 k'' hk''

/-- A search without overflow ends closed, since its fuel is enough for the keys that there is
room for. -/
theorem closed_expandFrom {fuel i : Nat} {s : Search κ} (hfuel : i + fuel = limit)
    (hsize : s.found.size ≤ limit) (hdone : Expanded next i s)
    (h : (expandFrom next limit fuel i s).overflow = false) :
    ∀ k ∈ (expandFrom next limit fuel i s).found, ∀ k' ∈ next k,
      k' ∈ (expandFrom next limit fuel i s).found := by
  -- by induction on the fuel, which is as much as there are numbers left
  induction fuel generalizing i s with
  | zero => exact hdone.closed (by omega)
  | succ fuel ih =>
    have hs : s.overflow = false := overflow_of_expandFrom h
    unfold expandFrom at h ⊢
    rw [if_neg (by simp [hs])] at h ⊢
    cases hkey : s.found.key? i with
    | none =>
      rw [Numbering.key?_eq_getElem?, List.getElem?_eq_none_iff, Numbering.length_toList] at hkey
      exact hdone.closed hkey
    | some k =>
      rw [hkey] at h
      rw [Numbering.key?_eq_getElem?] at hkey
      exact ih (by omega) (size_visitAll_le hsize _)
        (hdone.visitAll hkey (overflow_of_expandFrom h)) h

/-- What can be reached is found, unless there was an overflow. -/
theorem mem_run_of_reaches (h : (run next limit starts).overflow = false) {k : κ}
    (hk : Reaches next starts k) : k ∈ (run next limit starts).found := by
  have hstarts := overflow_of_visitAll (overflow_of_expandFrom h)
  induction hk with
  | start hk => exact mem_expandFrom_of_mem (hstarts.2 _ hk)
  | step _ hk' ih =>
    exact closed_expandFrom (by omega) (size_visitAll_le (Nat.zero_le _) _)
      (fun j hj => absurd hj (Nat.not_lt_zero j)) h _ ih _ hk'

/-- Without overflow a search finds what can be reached. -/
theorem mem_run_iff (h : (run next limit starts).overflow = false) {k : κ} :
    k ∈ (run next limit starts).found ↔ Reaches next starts k :=
  ⟨reaches_of_mem_run, mem_run_of_reaches h⟩

/-! ## Other limits

A search that does not overflow would do the same under a greater limit. -/

/-- A visit that fits does the same under a greater limit. -/
theorem visit_eq_of_le {limit' : Nat} (hle : limit ≤ limit') {s : Search κ} {k : κ}
    (h : (visit limit s k).overflow = false) : visit limit' s k = visit limit s k := by
  rcases visit_cases limit s k with ⟨hk, heq⟩ | ⟨hk, hsize, heq⟩ | ⟨-, -, heq⟩
  · rw [heq, visit, dif_pos hk]
  · rw [heq, visit, dif_neg hk, if_pos (by omega)]
  · rw [heq] at h
    simp at h

theorem visitAll_eq_of_le {limit' : Nat} (hle : limit ≤ limit') {s : Search κ} {ks : List κ}
    (h : (visitAll limit s ks).overflow = false) : visitAll limit' s ks = visitAll limit s ks := by
  induction ks generalizing s with
  | nil => rfl
  | cons k ks ih =>
    have hrest : (visitAll limit (visit limit s k) ks).overflow = false := h
    have hhead := visit_eq_of_le hle (overflow_of_visitAll hrest).1
    show visitAll limit' (visit limit' s k) ks = visitAll limit (visit limit s k) ks
    rw [hhead, ih hrest]

theorem expandFrom_eq_of_le {limit' : Nat} (hle : limit ≤ limit') {fuel fuel' i : Nat}
    {s : Search κ} (hfuel : i + fuel = limit) (hfuel' : i + fuel' = limit')
    (hsize : s.found.size ≤ limit) (h : (expandFrom next limit fuel i s).overflow = false) :
    expandFrom next limit' fuel' i s = expandFrom next limit fuel i s := by
  induction fuel generalizing fuel' i s with
  | zero =>
    cases fuel' with
    | zero => rfl
    | succ fuel' =>
      -- every key has been expanded, so the greater limit makes no difference
      have hkey : s.found.key? i = none := by
        rw [Numbering.key?_eq_getElem?, List.getElem?_eq_none_iff, Numbering.length_toList]
        omega
      have hs : s.overflow = false := h
      show expandFrom next limit' (fuel' + 1) i s = s
      rw [expandFrom, if_neg (by simp [hs]), hkey]
  | succ fuel ih =>
    obtain ⟨fuel', rfl⟩ : ∃ n, fuel' = n + 1 := ⟨fuel' - 1, by omega⟩
    have hs : s.overflow = false := overflow_of_expandFrom h
    unfold expandFrom at h ⊢
    rw [if_neg (by simp [hs])] at h ⊢
    rw [if_neg (by simp [hs])]
    cases hkey : s.found.key? i with
    | none => rfl
    | some k =>
      rw [hkey] at h
      show expandFrom next limit' fuel' (i + 1) (visitAll limit' s (next k))
        = expandFrom next limit fuel (i + 1) (visitAll limit s (next k))
      rw [visitAll_eq_of_le hle (overflow_of_expandFrom h)]
      exact ih (by omega) (by omega) (size_visitAll_le hsize _) h

/-- A greater limit changes nothing if there was no overflow. -/
theorem run_eq_of_le {limit' : Nat} (hle : limit ≤ limit')
    (h : (run next limit starts).overflow = false) :
    run next limit' starts = run next limit starts := by
  have hstart := visitAll_eq_of_le hle (overflow_of_expandFrom h)
  unfold run
  rw [hstart]
  exact expandFrom_eq_of_le hle (by omega) (by omega) (size_visitAll_le (Nat.zero_le _) _) h

end Search

/-! ## Searches side by side

Two searches whose keys correspond one to one, and whose `next` lists correspond, find corresponding
keys in the same order. -/

namespace Search

variable {κ ι : Type} [Ord κ] [Std.TransOrd κ] [Std.LawfulEqOrd κ]
variable [Ord ι] [Std.TransOrd ι] [Std.LawfulEqOrd ι]
variable {R : κ → ι → Prop}

/-- No key corresponds to two keys of the other side. -/
def OneToOne (R : κ → ι → Prop) : Prop :=
  ∀ k l k' l', R k l → R k' l' → (k = k' ↔ l = l')

omit [Ord κ] [Std.TransOrd κ] [Std.LawfulEqOrd κ] [Ord ι] [Std.TransOrd ι] [Std.LawfulEqOrd ι] in
/-- Matched keys are members of matched lists together. -/
theorem OneToOne.mem_iff (hR : OneToOne R) {ks : List κ} {ls : List ι} (h : List.Forall₂ R ks ls)
    {k : κ} {l : ι} (hkl : R k l) : k ∈ ks ↔ l ∈ ls := by
  induction h with
  | nil => simp
  | cons hhead _ ih => rw [List.mem_cons, List.mem_cons, ih, hR _ _ _ _ hkl hhead]

/-- The searches have numbered corresponding keys, and both or neither have overflowed. -/
structure Alike (R : κ → ι → Prop) (s : Search κ) (t : Search ι) : Prop where
  keys : List.Forall₂ R s.found.toList t.found.toList
  overflow : s.overflow = t.overflow

/-- Visiting matched keys keeps two searches alike. -/
theorem Alike.visit (hR : OneToOne R) {limit : Nat} {s : Search κ} {t : Search ι}
    (h : Alike R s t) {k : κ} {l : ι} (hkl : R k l) :
    Alike R (visit limit s k) (visit limit t l) := by
  have hsize : s.found.size = t.found.size := by
    rw [← Numbering.length_toList, h.keys.length_eq, Numbering.length_toList]
  -- a key is new on one side exactly if it is new on the other
  have hmem : k ∈ s.found ↔ l ∈ t.found := by
    rw [Numbering.mem_iff_mem_toList, Numbering.mem_iff_mem_toList, hR.mem_iff h.keys hkl]
  unfold Search.visit
  by_cases hk : k ∈ s.found
  · rw [dif_pos hk, dif_pos (hmem.1 hk)]
    exact h
  · have hl : ¬ l ∈ t.found := fun hl => hk (hmem.2 hl)
    rw [dif_neg hk, dif_neg hl]
    by_cases hlt : s.found.size < limit
    · rw [if_pos hlt, if_pos (by omega)]
      refine ⟨?_, h.overflow⟩
      rw [Numbering.toList_insertNew, Numbering.toList_insertNew]
      exact List.rel_append h.keys (.cons hkl .nil)
    · rw [if_neg hlt, if_neg (by omega)]
      exact ⟨h.keys, rfl⟩

theorem Alike.visitAll (hR : OneToOne R) {limit : Nat} {s : Search κ} {t : Search ι}
    (h : Alike R s t) {ks : List κ} {ls : List ι} (hkls : List.Forall₂ R ks ls) :
    Alike R (visitAll limit s ks) (visitAll limit t ls) := by
  induction hkls generalizing s t with
  | nil => exact h
  | cons hkl _ ih => exact ih (h.visit hR hkl)

theorem Alike.expandFrom (hR : OneToOne R) {next : κ → List κ} {next' : ι → List ι}
    (hnext : ∀ k l, R k l → List.Forall₂ R (next k) (next' l)) {limit fuel i : Nat}
    {s : Search κ} {t : Search ι} (h : Alike R s t) :
    Alike R (expandFrom next limit fuel i s) (expandFrom next' limit fuel i t) := by
  induction fuel generalizing i s t with
  | zero => exact h
  | succ fuel ih =>
    unfold Search.expandFrom
    rw [← h.overflow]
    by_cases hover : s.overflow = true
    · rw [if_pos hover, if_pos hover]
      exact h
    · rw [if_neg hover, if_neg hover, Numbering.key?_eq_getElem?, Numbering.key?_eq_getElem?]
      have hlength := h.keys.length_eq
      -- the same number is expanded on both sides, if there is one
      by_cases hi : i < s.found.toList.length
      · have hkl : R s.found.toList[i] t.found.toList[i] := h.keys.get hi (by omega)
        rw [List.getElem?_eq_getElem hi, List.getElem?_eq_getElem (by omega)]
        exact ih (h.visitAll hR (hnext _ _ hkl))
      · rw [List.getElem?_eq_none (by omega), List.getElem?_eq_none (by omega)]
        exact h

/-- Searches from matched starts find matched keys, in the same order. -/
theorem alike_run (hR : OneToOne R) {next : κ → List κ} {next' : ι → List ι}
    (hnext : ∀ k l, R k l → List.Forall₂ R (next k) (next' l)) {ks : List κ} {ls : List ι}
    (hkls : List.Forall₂ R ks ls) (limit : Nat) :
    Alike R (run next limit ks) (run next' limit ls) :=
  Alike.expandFrom hR hnext (Alike.visitAll hR ⟨.nil, rfl⟩ hkls)

end Search

end FiniteState

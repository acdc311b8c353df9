import Std.Data.TreeMap

/-!
# Numberings

A numbering gives distinct keys the numbers `0, 1, 2, …` in the order in which they are inserted,
and finds both the key of a number and the number of a key.

* `Numbering.number?_eq_some_iff`: the two directions agree.
* `Numbering.mem_insert_self`, `Numbering.mem_insert_of_mem`: an inserted key has a number, and
  so do the keys that were there before.
-/

namespace FiniteState

/-- Keys with consecutive numbers. -/
structure Numbering (κ : Type) [Ord κ] where
  /-- The keys by number. -/
  keys : Array κ := #[]
  /-- The numbers by key. -/
  numbers : Std.TreeMap κ Nat := {}
  /-- Both directions agree. -/
  agree : ∀ (k : κ) (i : Nat), numbers[k]? = some i ↔ keys[i]? = some k

namespace Numbering

variable {κ : Type} [Ord κ]

/-- The number of keys. -/
def size (m : Numbering κ) : Nat := m.keys.size

/-- The keys by number, as a list. -/
def toList (m : Numbering κ) : List κ := m.keys.toList

/-- The key of a number. -/
def key? (m : Numbering κ) (i : Nat) : Option κ := m.keys[i]?

/-- The number of a key. -/
def number? (m : Numbering κ) (k : κ) : Option Nat := m.numbers[k]?

/-- Whether a key has a number. -/
def contains (m : Numbering κ) (k : κ) : Bool := (m.number? k).isSome

instance : Membership κ (Numbering κ) := ⟨fun m k => m.contains k = true⟩

instance (m : Numbering κ) (k : κ) : Decidable (k ∈ m) :=
  inferInstanceAs (Decidable (m.contains k = true))

theorem mem_def {m : Numbering κ} {k : κ} : k ∈ m ↔ m.contains k = true := Iff.rfl

/-- The two tables of a numbering are inverse to each other. -/
theorem number?_eq_some_iff {m : Numbering κ} {k : κ} {i : Nat} :
    m.number? k = some i ↔ m.key? i = some k := m.agree k i

theorem number?_lt {m : Numbering κ} {k : κ} {i : Nat} (h : m.number? k = some i) :
    i < m.size := by
  rw [number?_eq_some_iff] at h
  exact (Array.getElem?_eq_some_iff.1 h).1

/-- The keys of a numbering are those that have a number. -/
theorem mem_iff_exists_number {m : Numbering κ} {k : κ} : k ∈ m ↔ ∃ i, m.number? k = some i := by
  rw [mem_def, contains, Option.isSome_iff_exists]

variable [Std.TransOrd κ] [Std.LawfulEqOrd κ]

/-- The numbering without keys. -/
def empty : Numbering κ := { agree := by simp }

/-- Gives the next number to a key that has none. -/
def insertNew (m : Numbering κ) (k : κ) (h : ¬ k ∈ m) : Numbering κ :=
  let number := m.size
  { keys := m.keys.push k
    numbers := m.numbers.insert k number
    agree := by
      intro k' i
      simp only [number, size]
      rw [Std.TreeMap.getElem?_insert, Array.getElem?_push]
      by_cases hk : compare k k' = .eq
      · have hk' := Std.LawfulEqOrd.eq_of_compare hk
        subst hk'
        simp only [hk, if_true, Option.some.injEq]
        constructor
        · rintro rfl; simp
        · intro hi
          by_cases hsize : i = m.keys.size
          · exact hsize.symm
          · rw [if_neg hsize] at hi
            exact absurd (mem_iff_exists_number.2 ⟨i, (m.agree k i).2 hi⟩) h
      · rw [if_neg hk, m.agree]
        by_cases hsize : i = m.keys.size
        · subst hsize
          simp only [if_true, Option.some.injEq]
          constructor
          · intro hi; simp at hi
          · rintro rfl; simp at hk
        · rw [if_neg hsize] }

/-- Gives a new key the next number. A key that has a number keeps it. -/
def insert (m : Numbering κ) (k : κ) : Numbering κ := if h : k ∈ m then m else m.insertNew k h

/-- The distinct keys of a list, numbered by first occurrence. -/
def ofList (keys : List κ) : Numbering κ := keys.foldl insert empty

theorem mem_insertNew_self (m : Numbering κ) (k : κ) (h : ¬ k ∈ m) : k ∈ m.insertNew k h :=
  mem_iff_exists_number.2 ⟨m.size, by simp [number?, insertNew]⟩

theorem number?_insertNew_of_some {m : Numbering κ} {k k' : κ} {i : Nat} (hk : ¬ k ∈ m)
    (h : m.number? k' = some i) : (m.insertNew k hk).number? k' = some i := by
  rw [number?_eq_some_iff, key?] at h ⊢
  have hlt := (Array.getElem?_eq_some_iff.1 h).1
  simp only [insertNew]
  rw [Array.getElem?_push, if_neg (by omega)]
  exact h

theorem mem_insertNew_of_mem {m : Numbering κ} {k k' : κ} (hk : ¬ k ∈ m) (h : k' ∈ m) :
    k' ∈ m.insertNew k hk := by
  obtain ⟨i, hi⟩ := mem_iff_exists_number.1 h
  exact mem_iff_exists_number.2 ⟨i, number?_insertNew_of_some hk hi⟩

theorem mem_insert_self (m : Numbering κ) (k : κ) : k ∈ m.insert k := by
  unfold insert
  split
  · assumption
  · exact mem_insertNew_self m k _

theorem mem_insert_of_mem {m : Numbering κ} {k k' : κ} (h : k' ∈ m) : k' ∈ m.insert k := by
  unfold insert
  split
  · exact h
  · exact mem_insertNew_of_mem _ h

theorem mem_foldl_insert_of_mem {m : Numbering κ} {ks : List κ} {k : κ} (h : k ∈ m) :
    k ∈ ks.foldl insert m := by
  induction ks generalizing m with
  | nil => exact h
  | cons k' ks ih => exact ih (mem_insert_of_mem h)

theorem mem_ofList_of_mem {ks : List κ} {k : κ} (h : k ∈ ks) : k ∈ ofList ks := by
  unfold ofList
  generalize (empty : Numbering κ) = m
  induction ks generalizing m with
  | nil => simp at h
  | cons k' ks ih =>
    rw [List.foldl_cons]
    rcases List.mem_cons.1 h with rfl | h
    · exact mem_foldl_insert_of_mem (mem_insert_self ..)
    · exact ih h _

end Numbering

end FiniteState

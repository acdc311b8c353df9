/-!
# Words

A word is a list of symbols, and a symbol is a code. Words are ordered lexicographically by the
codes of their symbols; `distance` counts the edits that turn one word into another.

* `Word.le_total` and `Word.le_trans`: the order is one by which lists can be sorted.
* `Word.distance_self` and `Word.distance_comm`: a word is at distance zero from itself, and the
  distance has no direction.
-/

namespace FiniteState

/-- A symbol, given by its code. -/
structure Symbol where
  code : Nat
deriving DecidableEq, Repr, Inhabited

/-- A finite word. -/
abbrev Word := List Symbol

namespace Word

/-! ## Order -/

/-- The lexicographic order of words by the codes of their symbols. -/
def le : Word → Word → Bool
  | [], _ => true
  | _ :: _, [] => false
  | s :: w, t :: v => s.code < t.code || (s.code == t.code && le w v)

/-- The distinct words of a list in lexicographic order. -/
def sortDistinct (ws : List Word) : List Word := (ws.mergeSort le).eraseReps

/-- The words of a list in order of length; words of one length keep their order. -/
def sortByLength (ws : List Word) : List Word :=
  ws.mergeSort fun w v => Nat.ble w.length v.length

/-- Any two words are comparable, by length and then character by character. -/
theorem le_total (w v : Word) : (le w v || le v w) = true := by
  fun_induction le w v with
  | case1 => rfl
  | case2 => rfl
  | case3 s w t v ih =>
    rcases Nat.lt_trichotomy s.code t.code with h | h | h
    · simp [h]
    · simpa [le, h] using ih
    · simp [le, h]

theorem le_trans {u v w : Word} (huv : le u v = true) (hvw : le v w = true) : le u w = true := by
  induction u generalizing v w with
  | nil => rfl
  | cons s u ih =>
    cases v with
    | nil => cases huv
    | cons t v =>
      cases w with
      | nil => cases hvw
      | cons r w =>
        simp only [le, Bool.or_eq_true, Bool.and_eq_true, decide_eq_true_eq, beq_iff_eq] at *
        rcases huv with huv | ⟨huv, hu⟩ <;> rcases hvw with hvw | ⟨hvw, hv⟩
        · left; omega
        · left; omega
        · left; omega
        · exact .inr ⟨huv.trans hvw, ih hu hv⟩

@[simp] theorem mem_sortByLength {w : Word} {ws : List Word} : w ∈ sortByLength ws ↔ w ∈ ws :=
  List.mem_mergeSort

/-! ## Distance -/

/-- The least number of insertions, deletions and substitutions of single symbols that turn one
word into the other. -/
def distance : Word → Word → Nat
  | [], v => v.length
  | w, [] => w.length
  | s :: w, t :: v =>
    Nat.min (Nat.min (distance w (t :: v)) (distance (s :: w) v) + 1)
      (distance w v + if s = t then 0 else 1)
termination_by w v => w.length + v.length

/-- From the empty word every symbol has to be inserted. -/
theorem distance_nil_left (v : Word) : distance [] v = v.length := by
  simp [distance]

/-- To the empty word every symbol has to be deleted. -/
theorem distance_nil_right (w : Word) : distance w [] = w.length := by
  cases w <;> simp [distance]

theorem distance_self (w : Word) : distance w w = 0 := by
  induction w with
  | nil => simp [distance]
  | cons s w ih => simp [distance, ih]

theorem distance_comm (w v : Word) : distance w v = distance v w := by
  fun_induction distance w v with
  | case1 v => exact (distance_nil_right v).symm
  | case2 w => exact (distance_nil_left w).symm
  | case3 s w t v ihw ihv ih =>
    have hmin : Nat.min (distance (t :: v) w) (distance v (s :: w))
        = Nat.min (distance v (s :: w)) (distance (t :: v) w) := Nat.min_comm _ _
    rw [distance, ihw, ihv, ih, hmin]
    simp only [eq_comm]

end Word

end FiniteState

/-!
# Random numbers

Whatever is drawn at random rests on a `RandomSource`: it draws numbers below a bound, and shuffles
lists. Nothing else is known of the numbers or of the order.

The source in use is a generator of 64-bit numbers. Its state is advanced by adding a constant; the
number drawn is the exclusive or of the two halves of the product of the new state and a scrambled
copy of it. Numbers below a bound are drawn by multiplication: the upper half of the product of a
draw and the bound is the result, unless the lower half falls into the part that would make some
results more likely.
-/

namespace FiniteState

/-- A source of random choices, with `ρ` for its states. A number drawn is below its bound, and a
list that is shuffled keeps its elements. -/
class RandomSource (ρ : Type) where
  /-- Draws a number below a positive bound. -/
  below (bound : Nat) : StateM ρ Nat
  /-- Brings the elements of a list into a random order. -/
  shuffle {α : Type} (xs : List α) : StateM ρ (List α)
  below_lt {bound : Nat} (hbound : 0 < bound) (r : ρ) : (below bound r).1 < bound
  shuffle_perm {α : Type} (xs : List α) (r : ρ) : (shuffle xs r).1.Perm xs

/-- The state of a generator. -/
structure Random where
  state : UInt64
deriving DecidableEq, Repr

namespace Random

/-- The generator with the given seed, modulo 2^64. -/
def ofSeed (seed : Nat) : Random := ⟨UInt64.ofNat seed⟩

/-- What is added to the state before each draw. -/
def increment : UInt64 := 0x2d358dccaa6c78a5

/-- What scrambles the copy of the state. -/
def scramble : UInt64 := 0x8bb84b93962eacc9

/-- Draws the next number. -/
def next (r : Random) : UInt64 × Random :=
  let state := r.state + increment
  let product := state.toNat * (state ^^^ scramble).toNat
  (UInt64.ofNat product ^^^ UInt64.ofNat (product / UInt64.size), ⟨state⟩)

/-- The remainder of 2^64 by a bound: a lower half below it is rejected. -/
def rejected (bound : Nat) : Nat := (UInt64.size - bound) % bound

/-- Draws again while the lower half of the product is rejected. -/
def redraw (bound : Nat) : (fuel : Nat) → (product : Nat) → Random → Nat × Random
  | 0, product, r => (product / UInt64.size, r)
  | fuel + 1, product, r =>
    if product % UInt64.size < rejected bound then
      let (n, r) := r.next
      redraw bound fuel (n.toNat * bound) r
    else (product / UInt64.size, r)

/-- Draws a number below a positive bound. The state has 2^64 values and runs through all of them,
so as many draws are enough to find one that is not rejected, if there is any. -/
def below (bound : Nat) : StateM Random Nat := fun r =>
  let (n, r) := r.next
  let product := n.toNat * bound
  -- what is rejected lies below the bound, so most draws need no division
  if product % UInt64.size < bound then redraw bound UInt64.size product r
  else (product / UInt64.size, r)

/-- Exchanges the elements from position `i` on, each with one that is drawn up to it. -/
def shuffleFrom {α : Type} : (count i : Nat) → Array α → StateM Random (Array α)
  | 0, _, xs => pure xs
  | count + 1, i, xs => do
    let j ← below (i + 1)
    shuffleFrom count (i + 1) (xs.swapIfInBounds i j)

/-- Brings the elements of a list into a random order. -/
def shuffle {α : Type} (xs : List α) : StateM Random (List α) := do
  return (← shuffleFrom (xs.length - 1) 1 xs.toArray).toList

/-! ## What is drawn -/

/-- The upper half of a product with a draw is below the bound, however often it is drawn again. -/
theorem redraw_lt {bound fuel product : Nat} {r : Random} (h : product < UInt64.size * bound) :
    (redraw bound fuel product r).1 < bound := by
  induction fuel generalizing product r with
  | zero => exact Nat.div_lt_of_lt_mul h
  | succ fuel ih =>
    unfold redraw
    split
    · have hbound : 0 < bound := Nat.pos_of_mul_pos_left (Nat.zero_lt_of_lt h)
      exact ih (Nat.mul_lt_mul_of_pos_right (UInt64.toNat_lt_size _) hbound)
    · exact Nat.div_lt_of_lt_mul h

/-- The number drawn is below the bound, since a draw has 64 bits. -/
theorem below_lt {bound : Nat} (hbound : 0 < bound) (r : Random) : (below bound r).1 < bound := by
  have hproduct : r.next.1.toNat * bound < UInt64.size * bound :=
    Nat.mul_lt_mul_of_pos_right (UInt64.toNat_lt_size _) hbound
  unfold below
  dsimp only
  split
  · exact redraw_lt hproduct
  · exact Nat.div_lt_of_lt_mul hproduct

/-- One activity after another. The first one stays a variable here, so that no draw is computed
where a sequence is taken apart. -/
theorem bind_apply {α β : Type} (x : StateM Random α) (f : α → StateM Random β) (r : Random) :
    (x >>= f) r = f (x r).1 (x r).2 := rfl

/-- An exchange keeps the elements, so any number of them does. -/
theorem shuffleFrom_perm {α : Type} (count i : Nat) (xs : Array α) (r : Random) :
    (shuffleFrom count i xs r).1.toList.Perm xs.toList := by
  induction count generalizing i xs r with
  | zero => exact .refl _
  | succ count ih =>
    rw [shuffleFrom, bind_apply]
    refine (ih _ _ _).trans ?_
    rw [Array.swapIfInBounds]
    split
    · split
      · exact Array.perm_iff_toList_perm.1 (Array.swap_perm _ _)
      · exact .refl _
    · exact .refl _

/-- A list that has been shuffled has its elements in some order. -/
theorem shuffle_perm {α : Type} (xs : List α) (r : Random) : (shuffle xs r).1.Perm xs := by
  rw [shuffle, bind_apply]
  exact shuffleFrom_perm (xs.length - 1) 1 xs.toArray r

end Random

instance : RandomSource Random where
  below := Random.below
  shuffle := Random.shuffle
  below_lt := Random.below_lt
  shuffle_perm := Random.shuffle_perm

end FiniteState

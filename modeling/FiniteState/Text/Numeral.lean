/-!
# Unsigned decimal numerals

A numeral is one or more ASCII digits, after an optional plus sign. Leading zeros are fine; a value
above the given bound is no numeral.
-/

namespace FiniteState.Text

/-- The greatest 32-bit number, the bound of state numbers. -/
def maxState : Nat := UInt32.size - 1

/-- The greatest 64-bit number, the bound of counts and seeds. -/
def maxCount : Nat := UInt64.size - 1

/-- The value of a list of ASCII digits, most significant first. -/
def valueOfDigits (digits : List Char) : Nat :=
  digits.foldl (fun n c => 10 * n + (c.toNat - '0'.toNat)) 0

/-- Drops one plus sign at the front. -/
def dropPlus : List Char → List Char
  | '+' :: rest => rest
  | text => text

/-- Reads an unsigned decimal numeral of value at most `bound`. -/
def numeral? (bound : Nat) (text : List Char) : Option Nat :=
  let digits := dropPlus text
  if digits.isEmpty || !digits.all Char.isDigit then none
  else if valueOfDigits digits ≤ bound then some (valueOfDigits digits) else none

/-- A numeral is within its bound. -/
theorem numeral?_le {bound n : Nat} {text : List Char} (h : numeral? bound text = some n) :
    n ≤ bound := by
  simp only [numeral?] at h
  split at h
  · cases h
  · split at h
    · cases h; assumption
    · cases h

example : numeral? 255 "+007".toList = some 7 := by decide
example : numeral? 255 "256".toList = none := by decide
example : numeral? 255 "+".toList = none := by decide

end FiniteState.Text

import FiniteState.Automaton.Complement
import FiniteState.Automaton.Minimize
import FiniteState.Automaton.Rational
import FiniteState.Dataset.Example

/-!
# Length buckets

For each length of a range, a bucket holds the acceptor of the words of that length that the target
accepts, and that of the words it rejects. Words that have been used are removed from the buckets,
which is how splits that are drawn one after the other stay disjoint.
-/

namespace FiniteState

/-- The words of one length, by verdict. -/
structure Bucket where
  positive : Automaton
  negative : Automaton
deriving DecidableEq

namespace Bucket

/-- The words with the given verdict. -/
def get (b : Bucket) : Verdict → Automaton
  | .accept => b.positive
  | .reject => b.negative

/-- Replaces the words with the given verdict. -/
def set (b : Bucket) (v : Verdict) (A : Automaton) : Bucket :=
  match v with
  | .accept => { b with positive := A }
  | .reject => { b with negative := A }

end Bucket

/-- Buckets for consecutive lengths. -/
structure LengthBuckets where
  /-- The least length. -/
  first : Nat
  /-- The buckets by length, from the least length on. -/
  buckets : Array Bucket
deriving DecidableEq

namespace LengthBuckets

/-- The bucket of a target for the words that `exact` accepts. -/
def bucketOf (target exact : Automaton) : Except Error Bucket := do
  let positive ← (← target.intersection exact).minimize
  let negative ← (← exact.difference target).minimize
  return { positive, negative }

/-- The buckets for `count` lengths, of which `exact` accepts the words of the first one. -/
def bucketsFrom (target : Automaton) : (count : Nat) → (exact : Automaton) →
    Except Error (List Bucket)
  | 0, _ => .ok []
  | 1, exact => do return [← bucketOf target exact]
  | count + 2, exact => do
    let b ← bucketOf target exact
    let longer ← (← exact.concat (.sigma target.alphabet)).minimize
    return b :: (← bucketsFrom target (count + 1) longer)

/-- The buckets of a target for the lengths from `least` to `most`. -/
def build (target : Automaton) (least most : Nat) : Except Error LengthBuckets := do
  let exact ← (← (Automaton.sigma target.alphabet).power least (some least)).minimize
  let buckets ← bucketsFrom target (most + 1 - least) exact
  return { first := least, buckets := buckets.toArray }

/-- The lengths of the buckets; the least length even if there are no buckets. -/
def lengths (B : LengthBuckets) : List Nat := List.range' B.first (Nat.max B.buckets.size 1)

/-- The bucket of a length. -/
def bucket? (B : LengthBuckets) (length : Nat) : Option Bucket :=
  if length < B.first then none else B.buckets[length - B.first]?

/-- The remaining words of a length with the given verdict. -/
def get? (B : LengthBuckets) (length : Nat) (v : Verdict) : Option Automaton :=
  (B.bucket? length).map (·.get v)

/-- Replaces the words of a length with the given verdict. -/
def set (B : LengthBuckets) (length : Nat) (v : Verdict) (A : Automaton) : LengthBuckets :=
  { B with buckets := B.buckets.modify (length - B.first) (·.set v A) }

end LengthBuckets

end FiniteState

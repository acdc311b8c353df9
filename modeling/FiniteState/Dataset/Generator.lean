import FiniteState.Dataset.Buckets
import FiniteState.Edit
import FiniteState.Sampler

/-!
# Dataset generation

A generator draws splits from length buckets: with duplicates, without duplicates, or as adversarial
pairs of an accepted word and a rejected one at edit distance one. Words that later splits must not
repeat are removed from the buckets. A run draws the seven splits of a dataset for one target.

What a session has done when an error occurs remains done: the sampler has advanced, warnings have
been recorded and buckets have shrunk.
-/

namespace FiniteState

/-! ## Configurations -/

/-- A range of lengths, both ends included. It is empty if the first one is the greater. -/
structure LengthRange where
  first : Nat
  last : Nat
deriving DecidableEq, Repr

/-- What a dataset run can be told. -/
structure DatasetConfig where
  /-- The lengths of the words for training, development and the first test. -/
  short : LengthRange := ⟨10, 19⟩
  /-- The lengths of the words for the adversarial and the long test. -/
  long : LengthRange := ⟨31, 50⟩
  /-- Examples for each verdict and length in the training split. -/
  train : Nat := 50
  /-- Examples for each verdict and length in the first split with duplicates. -/
  dupDev : Nat := 50
  /-- Examples for each verdict and length in the second split with duplicates. -/
  dupTest : Nat := 50
  /-- Examples for each verdict and length in the development split. -/
  dev : Nat := 50
  /-- Examples for each verdict and length in the first test. -/
  test : Nat := 50
  /-- Examples for each verdict and length in the test of long words. -/
  longTest : Nat := 25
  /-- Adversarial pairs for each length. -/
  adversarial : Nat := 25
  /-- The seed of the sampler. -/
  seed : Nat := 0
  /-- How many batches are drawn if too few distinct words are found. -/
  retries : Nat := Sampler.defaultRetries
deriving DecidableEq, Repr

/-! ## Sessions -/

/-- A source of splits. -/
structure Generator (ρ : Type := Random) where
  alphabet : Alphabet
  sampler : Sampler ρ
  edits : EditTransducers
  /-- How many batches are drawn if too few distinct words are found. -/
  retries : Nat
  /-- The recoverable errors so far, in the order of their occurrence. -/
  warnings : List Error
deriving DecidableEq

namespace Generator

/-- The generator over an alphabet with the given seed. -/
def ofSeed (S : Alphabet) (seed : Nat) : Except Error Generator := do
  return {
    alphabet := S
    sampler := .ofSeed seed
    edits := ← EditTransducers.build S
    retries := Sampler.defaultRetries
    warnings := [] }

/-- The generator that a configuration describes. -/
def ofConfig (S : Alphabet) (config : DatasetConfig) : Except Error Generator := do
  return { ← ofSeed S config.seed with retries := config.retries }

end Generator

/-- A generator at work on length buckets. -/
structure Session (ρ : Type := Random) where
  generator : Generator ρ
  buckets : LengthBuckets
deriving DecidableEq

/-- An activity of a session that may fail. Its state survives the failure. -/
abbrev Drawing (ρ : Type) := ExceptT Error (StateM (Session ρ))

namespace Session

variable {ρ : Type}

/-- A result or error that leaves the session alone. -/
def lift {α : Type} (x : Except Error α) : Drawing ρ α := ExceptT.mk (pure x)

/-- Draws by the session's sampler. -/
def sampling {α : Type} (draw : StateM (Sampler ρ) α) : Drawing ρ α := ExceptT.mk fun s =>
  let (a, sampler) := draw s.generator.sampler
  (.ok a, { s with generator.sampler := sampler })

/-- Draws by the session's sampler what may fail. -/
def trySampling {α : Type} (draw : ExceptT Error (StateM (Sampler ρ)) α) : Drawing ρ α := do
  lift (← sampling draw.run)

/-- Records a recoverable error. -/
def warn (e : Error) : Drawing ρ Unit :=
  modify fun s => { s with generator.warnings := s.generator.warnings ++ [e] }

/-- Replaces the words of a length with the given verdict. -/
def replace (length : Nat) (v : Verdict) (A : Automaton) : Drawing ρ Unit :=
  modify fun s => { s with buckets := s.buckets.set length v A }

/-- The places of the words in the buckets, by length and verdict. -/
def slots (B : LengthBuckets) : List (Nat × Verdict) :=
  B.lengths.flatMap fun length => [(length, .accept), (length, .reject)]

/-- The words that are left of an acceptor, made minimal. -/
def shrink (S : Alphabet) (A : Automaton) (used : List Word) : Except Error Automaton := do
  (← A.difference (.words S used)).minimize

/-! ## Rivals -/

/-- The lengths next to a length, and the length itself, ascending. -/
def nearLengths (length : Nat) : List Nat :=
  if length = 0 then [0, 1] else [length - 1, length, length + 1]

/-- The acceptor of the rejected words in a ball that are left in the buckets of the given
lengths. -/
def rivals (S : Alphabet) (B : LengthBuckets) (ball : Automaton) (lengths : List Nat) :
    Except Error Automaton :=
  lengths.foldlM
    (fun candidates length =>
      match B.get? length .reject with
      | some A => do candidates.union (← ball.intersection A)
      | none => .ok candidates)
    (Automaton.empty S)

/-- The rivals of an accepted word that have not been used. -/
def freshRivals (g : Generator ρ) (B : LengthBuckets) (used : List Word) (length : Nat)
    (positive : Word) : Except Error Automaton := do
  let candidates ← rivals g.alphabet B (← g.edits.ball positive) (nearLengths length)
  if used.isEmpty then return candidates
  else candidates.difference (.words g.alphabet used)

/-- Removes used words from the rejected words of a length. -/
def removeUsed (used : List Word) (length : Nat) : Drawing ρ Unit := do
  let taken := used.filter (·.length == length)
  if !taken.isEmpty then
    let s ← get
    if let some A := s.buckets.get? length .reject then
      replace length .reject (← lift (shrink s.generator.alphabet A taken))

/-! ## Splits with duplicates -/

variable [RandomSource ρ]

/-- Draws `n` words of a length with a verdict, which may repeat. If `shrinking`, they are removed
from the bucket. -/
def duplicatesAt (n : Nat) (shrinking : Bool) (length : Nat) (v : Verdict) :
    Drawing ρ (List Example) := do
  let S := (← get).generator.alphabet
  match (← get).buckets.get? length v with
  | none => return []
  | some A =>
    let drawn ← sampling (Sampler.sampleWithDuplicates A n)
    if shrinking && !drawn.isEmpty then
      replace length v (← lift (shrink S A drawn))
    return examplesOf S v drawn

/-- A split of `n` words for each length and verdict, which may repeat. -/
def withDuplicates (name : String) (n : Nat) (shrinking : Bool) : Drawing ρ Split := do
  let parts ← (slots (← get).buckets).mapM fun (length, v) => duplicatesAt n shrinking length v
  return { name, examples := parts.flatten }

/-! ## Splits without duplicates -/

/-- Draws distinct words from an acceptor and records a shortfall. -/
def distinctFrom (A : Automaton) (n : Nat) : Drawing ρ Sample := do
  let sample ← trySampling (Sampler.sampleDistinct A n (← get).generator.retries)
  if let some e := sample.shortfall then warn e
  return sample

/-- Draws `n` distinct words of a length with a verdict and removes them from the bucket. -/
def distinctAt (n length : Nat) (v : Verdict) : Drawing ρ (List Example) := do
  match (← get).buckets.get? length v with
  | none => return []
  | some A =>
    let sample ← distinctFrom A n
    replace length v sample.rest
    return examplesOf (← get).generator.alphabet v sample.words

/-- A split of `n` distinct words for each length and verdict. -/
def withoutDuplicates (name : String) (n : Nat) : Drawing ρ Split := do
  let parts ← (slots (← get).buckets).mapM fun (length, v) => distinctAt n length v
  return { name, examples := parts.flatten }

/-! ## Adversarial pairs -/

/-- The pairs found so far. -/
structure Pairs where
  examples : List Example := []
  /-- The rejected words in use, in order. -/
  used : List Word := []

/-- Pairs an accepted word with a random rival. Without one, the word is skipped with a warning. -/
def pairUp (length : Nat) (pairs : Pairs) (positive : Word) : Drawing ρ Pairs := do
  let s ← get
  let candidates ← lift (freshRivals s.generator s.buckets pairs.used length positive)
  let text := s.generator.alphabet.render positive
  match ← sampling (Sampler.pick candidates) with
  | some negative =>
    return {
      examples := pairs.examples
        ++ [⟨text, .accept⟩, ⟨s.generator.alphabet.render negative, .reject⟩]
      used := Word.sortDistinct (negative :: pairs.used) }
  | none => do
    warn (.emptyAdversarialCandidate text)
    return pairs

/-- Draws `n` distinct accepted words of a length and pairs them. -/
def pairsAt (n : Nat) (pairs : Pairs) (length : Nat) : Drawing ρ Pairs := do
  match (← get).buckets.get? length .accept with
  | none => return pairs
  | some A =>
    let sample ← distinctFrom A n
    replace length .accept sample.rest
    sample.words.foldlM (pairUp length) pairs

/-- A split of `n` adversarial pairs for each length. The words of the pairs are removed from the
buckets, and so are the accepted words that found no rival. -/
def adversarial (name : String) (n : Nat) : Drawing ρ Split := do
  let lengths := (← get).buckets.lengths
  let pairs ← lengths.foldlM (pairsAt n) {}
  -- a rejected word can serve three lengths, so none is removed before the last one
  lengths.forM (removeUsed pairs.used)
  return { name, examples := pairs.examples }

end Session

/-! ## Runs -/

/-- The splits of a run, in the order in which they were drawn, with its warnings. -/
structure DatasetRun where
  splits : List Split
  warnings : List Error
deriving DecidableEq

namespace DatasetRun

/-- The split with the given name. -/
def split? (r : DatasetRun) (name : String) : Option Split := r.splits.find? (·.name == name)

end DatasetRun

namespace Generator

/-- An activity of a generator that may fail. Its state survives the failure. -/
abbrev Running (ρ : Type) := ExceptT Error (StateM (Generator ρ))

variable {ρ : Type}

/-- Draws from buckets, which are given up afterwards. -/
def drawFrom {α : Type} (buckets : Except Error LengthBuckets) (draw : Drawing ρ α) : Running ρ α :=
  match buckets with
  | .error e => throw e
  | .ok buckets => ExceptT.mk fun g =>
    let (result, session) := draw.run { generator := g, buckets }
    (result, session.generator)

/-- Hands over the warnings recorded so far. -/
def takeWarnings : Running ρ (List Error) := do
  let warnings := (← get).warnings
  modify fun g => { g with warnings := [] }
  return warnings

variable [RandomSource ρ]

/-- The splits of short words. Training is with duplicates but takes its words out of the buckets;
the next two splits leave the buckets alone; the last two are without duplicates. -/
def shortSplits (config : DatasetConfig) : Drawing ρ (List Split) := do
  let training ← Session.withDuplicates "Training.txt" config.train true
  let dupDev ← Session.withDuplicates "dup_d.txt" config.dupDev false
  let dupTest ← Session.withDuplicates "dup_t.txt" config.dupTest false
  let dev ← Session.withoutDuplicates "Dev.txt" config.dev
  let test ← Session.withoutDuplicates "Test1.txt" config.test
  return [training, dupDev, dupTest, dev, test]

/-- The splits of long words: adversarial pairs, then distinct words. -/
def longSplits (config : DatasetConfig) : Drawing ρ (List Split) := do
  let pairs ← Session.adversarial "Test3.txt" config.adversarial
  let test ← Session.withoutDuplicates "Test2.txt" config.longTest
  return [pairs, test]

/-- Draws a dataset for a target. -/
def run (target : Automaton) (config : DatasetConfig) : Running ρ DatasetRun := do
  let bucketsOver := fun (r : LengthRange) => LengthBuckets.build target r.first r.last
  let short ← drawFrom (bucketsOver config.short) (shortSplits config)
  let long ← drawFrom (bucketsOver config.long) (longSplits config)
  return { splits := short ++ long, warnings := ← takeWarnings }

end Generator

end FiniteState

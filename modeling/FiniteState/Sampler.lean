import FiniteState.Automaton.Construct
import FiniteState.Automaton.Complement
import FiniteState.Automaton.Minimize
import FiniteState.Random

/-!
# Sampling

Words of an automaton are drawn by random paths: in each state the path goes on along one of the
transitions, or ends if the state is accepting, every choice being equally likely. Paths are drawn
in the trimmed automaton, so a path can always be completed.
-/

namespace FiniteState

/-- A source of random words. -/
structure Sampler (ρ : Type := Random) where
  /-- The state of the source of random choices. -/
  random : ρ
  /-- Longer paths are discarded. -/
  maxLength : Nat := 2147483647
deriving DecidableEq, Repr

/-- What came of drawing distinct words. -/
structure Sample where
  /-- The automaton without the words of the last batch. -/
  rest : Automaton
  /-- The words drawn, distinct and in order. -/
  words : List Word
  /-- Set if fewer words were found than requested. -/
  shortfall : Option Error

/-- The canonical acceptor of the words of `A` that are not among the given ones. -/
def Automaton.without (A : Automaton) (ws : List Word) : Except Error Automaton := do
  (← A.difference (.words A.alphabet ws)).minimize

namespace Sampler

variable {ρ : Type} [RandomSource ρ]

/-- How many walks or batches are tried if nothing else is said. -/
def defaultRetries : Nat := 10

/-- The sampler with the given seed. -/
def ofSeed (seed : Nat) : Sampler := { random := .ofSeed seed }

/-- Draws a number below a positive bound. -/
def below (bound : Nat) : StateM (Sampler ρ) Nat := fun s =>
  let drawn := RandomSource.below bound s.random
  (drawn.1, { s with random := drawn.2 })

/-- Brings a list into a random order. -/
def shuffle {α : Type} (xs : List α) : StateM (Sampler ρ) (List α) := fun s =>
  let (ys, random) := RandomSource.shuffle xs s.random
  (ys, { s with random })

/-- Continues a path from the state `q` for at most `steps` choices. The symbols written so far come
with the last one first. -/
def walkFrom (A : Automaton) : (steps q : Nat) → (written : Word) → StateM (Sampler ρ) (Option Word)
  | 0, _, _ => pure none
  | steps + 1, q, written =>
    let ts := A.transitions q
    let options := ts.length + (if A.isFinal q then 1 else 0)
    if options = 0 then pure none
    else do
      let choice ← below options
      match ts[choice]? with
      -- the choice after the last transition ends the path
      | none => pure (some written.reverse)
      | some t => walkFrom A steps t.target (t.output.toWord ++ written)

/-- Draws a path of a trimmed automaton and returns what it writes. -/
def walk (A : Automaton) : StateM (Sampler ρ) (Option Word) := do
  walkFrom A ((← get).maxLength + 1) A.start []

/-- Draws paths until one is completed, at most `tries` of them. -/
def firstWalk (A : Automaton) : (tries : Nat) → StateM (Sampler ρ) (Option Word)
  | 0 => pure none
  | tries + 1 => do
    match ← walk A with
    | some w => pure (some w)
    | none => firstWalk A tries

/-- Draws one word of an automaton, if it accepts any. -/
def pick (A : Automaton) : StateM (Sampler ρ) (Option Word) := firstWalk A.trim defaultRetries

/-- The words of `n` paths; paths that are not completed are left out. -/
def walks (A : Automaton) : (n : Nat) → StateM (Sampler ρ) (List Word)
  | 0 => pure []
  | n + 1 => do
    let w ← walk A
    return w.toList ++ (← walks A n)

/-- Draws `n` words independently, so that words may repeat, and sorts them by length. -/
def sampleWithDuplicates (A : Automaton) (n : Nat) : StateM (Sampler ρ) (List Word) :=
  if A.isEmpty then pure []
  else do return Word.sortByLength (← walks A.trim n)

/-- Draws batches of words until one has `n` distinct words, at most `attempts` of them; the last
one counts in any case. Each batch is larger than the one before by a tenth of `n`. -/
def drawBatch (A : Automaton) (n : Nat) : (attempts attempt : Nat) → StateM (Sampler ρ) (List Word)
  | 0, _ => pure []
  | attempts + 1, attempt => do
    let batch := Word.sortDistinct (← walks A (n + n * attempt / 10))
    if n ≤ batch.length || attempts == 0 then pure batch
    else drawBatch A n attempts (attempt + 1)

/-- The error for fewer words than requested. -/
def shortfall? (requested found : Nat) : Option Error :=
  if found < requested then some (.insufficientSamples requested found) else none

/-- Draws `n` distinct words of an acceptor. The words of the last batch are removed from the
acceptor, whether they are among the `n` or not. Fewer words are no error, but a shortfall. Nothing
is drawn from an acceptor of nothing. -/
def sampleDistinct (A : Automaton) (n retries : Nat) : ExceptT Error (StateM (Sampler ρ)) Sample :=
  if A.isEmpty then pure { rest := A, words := [], shortfall := shortfall? n 0 }
  else do
    let batch ← (drawBatch A.trim n (Nat.max retries 1) 0 : StateM (Sampler ρ) (List Word))
    let chosen ← (shuffle batch : StateM (Sampler ρ) (List Word))
    let words := (chosen.take n).mergeSort Word.le
    -- the whole batch is removed, words that were not chosen included
    let rest ← ExceptT.mk (pure (A.without batch))
    return { rest, words, shortfall := shortfall? n words.length }

end Sampler

end FiniteState

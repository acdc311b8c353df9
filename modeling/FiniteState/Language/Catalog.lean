import FiniteState.Automaton.Complement
import FiniteState.Automaton.Minimize
import FiniteState.Automaton.Rational
import FiniteState.Language.Class
import FiniteState.Text.Numeral

/-!
# The catalog

Example languages of the subregular classes, by class and a running number:

* `sl0`, `sl1`, `sl2`: no substring `b^2`, `b^4`, `b^8`;
* `sp0`, `sp1`, `sp2`: no subsequence `b^2`, `b^4`, `b^8`;
* `lt0`: some substring `b^2`;
* `lt1`: some substring `b^4` or some substring `a^4`;
* `lt2`: some substring `b^4` and some substring `a^4`;
* `lt3`: some substring `a^8`, if there is some substring `b^8`;
* `pt0` to `pt3`: as `lt0` to `lt3` with subsequences.

The other classes have no entries. Every entry is minimal.
-/

namespace FiniteState

/-- The words with `i` consecutive occurrences of a character. -/
def containingSubstring (S : Alphabet) (x : Char) (i : Nat) : Except Error Automaton := do
  let letter := Automaton.symbol S (← S.symbol x)
  let star := Automaton.sigmaStar S
  let block ← letter.power i (some i)
  (← (← star.concat block).concat star).minimize

/-- The words that consist of `i` words with an occurrence of a character each: those with at least
`i` occurrences, but for `i = 0` the empty word only. -/
def containingSubsequence (S : Alphabet) (x : Char) (i : Nat) : Except Error Automaton := do
  let letter := Automaton.symbol S (← S.symbol x)
  let star := Automaton.sigmaStar S
  let once ← (← star.concat letter).concat star
  (← once.power i (some i)).minimize

/-- The name of an entry. -/
def entryName (c : LanguageClass) (index : Nat) : String := c.name ++ toString index

/-- A language of the catalog. -/
structure CatalogEntry where
  cls : LanguageClass
  index : Nat
  automaton : Automaton
deriving DecidableEq

namespace CatalogEntry

/-- The name of an entry. -/
def name (e : CatalogEntry) : String := entryName e.cls e.index

/-- The entry with a minimal automaton. -/
def minimize (e : CatalogEntry) : Except Error CatalogEntry := do
  return { e with automaton := ← e.automaton.minimize }

end CatalogEntry

/-- The example languages over an alphabet. -/
structure Catalog where
  alphabet : Alphabet
  /-- The entries in the order of their classes and numbers. -/
  entries : List CatalogEntry
deriving DecidableEq

namespace Catalog

/-- How a kind of test says that a character occurs often enough in a word. -/
abbrev OccurrenceTest := Char → Nat → Except Error Automaton

/-- The language without `b^i` under a kind of test. -/
def avoiding (star : Automaton) (contains : OccurrenceTest) (i : Nat) : Except Error Automaton := do
  star.difference (← contains 'b' i)

/-- The entries that forbid substrings and subsequences, with the threshold of each number. -/
def forbidding (star : Automaton) (substring subsequence : OccurrenceTest) :
    List (Nat × Nat) → Except Error (List CatalogEntry × List CatalogEntry)
  | [] => .ok ([], [])
  | (index, threshold) :: rest => do
    let sl ← avoiding star substring threshold
    let sp ← avoiding star subsequence threshold
    let (sls, sps) ← forbidding star substring subsequence rest
    return (⟨.strictlyLocal, index, sl⟩ :: sls, ⟨.strictlyPiecewise, index, sp⟩ :: sps)

/-- The entries that combine tests. -/
def testing (star : Automaton) (cls : LanguageClass) (contains : OccurrenceTest) :
    Except Error (List CatalogEntry) := do
  let some2 ← contains 'b' 2
  let either ← (← contains 'b' 4).union (← contains 'a' 4)
  let both ← (← contains 'b' 4).intersection (← contains 'a' 4)
  let implied ← (← avoiding star contains 8).union (← contains 'a' 8)
  return [⟨cls, 0, some2⟩, ⟨cls, 1, either⟩, ⟨cls, 2, both⟩, ⟨cls, 3, implied⟩]

/-- Builds the catalog over an alphabet, which has to contain `a` and `b`. -/
def build (S : Alphabet) : Except Error Catalog := do
  let star ← (Automaton.sigmaStar S).minimize
  let substring := containingSubstring S
  let subsequence := containingSubsequence S
  let (sl, sp) ← forbidding star substring subsequence [(0, 2), (1, 4), (2, 8)]
  let lt ← testing star .locallyTestable substring
  let pt ← testing star .piecewiseTestable subsequence
  return { alphabet := S, entries := ← (sl ++ sp ++ lt ++ pt).mapM (·.minimize) }

/-- The entry with the given class and number. -/
def get? (C : Catalog) (cls : LanguageClass) (index : Nat) : Option Automaton :=
  (C.entries.find? fun e => e.cls == cls && e.index == index).map (·.automaton)

/-- The entries of a class. -/
def ofClass (C : Catalog) (cls : LanguageClass) : List CatalogEntry :=
  C.entries.filter (·.cls == cls)

/-- The names of all entries. -/
def names (C : Catalog) : List String := C.entries.map (·.name)

/-- The entry with the given name: a class in letters of either case, and a number. -/
def lookup (C : Catalog) (name : String) : Except Error Automaton :=
  -- a class is all that stands before the first digit
  let letters := name.toList.takeWhile (!·.isDigit)
  let number := name.toList.dropWhile (!·.isDigit)
  if number.isEmpty then .error (.unknownLanguage name)
  else do
    let cls ← LanguageClass.parse (String.ofList letters)
    match (Text.numeral? Text.maxCount number).bind (C.get? cls) with
    | some A => .ok A
    | none => .error (.unknownLanguage name)

end Catalog

end FiniteState

import FiniteState.Automaton.Minimize
import FiniteState.Automaton.Product
import FiniteState.Automaton.Rational

/-!
# Words within one edit

The words at edit distance one from a given word are found in two stages. The marking transducer
copies a word and puts one marker into it: `[I]` anywhere, `[D]` or `[S]` in front of a symbol. The
editing transducer copies symbols and carries out the marks: `[I]` becomes any symbol, `[D]x` is
erased, and `[S]x` becomes a symbol other than `x`. What the two write for a word is its ball. The
word itself is not in it, since every edit changes the length or exchanges a symbol for another.
-/

namespace FiniteState

/-- The transducers for the edits of the words over an alphabet. -/
structure EditTransducers where
  alphabet : Alphabet
  /-- Puts one edit marker into a word. -/
  marking : Automaton
  /-- Carries out the edits that are marked. -/
  editing : Automaton
deriving DecidableEq

namespace EditTransducers

/-- Writes a marker without reading anything. -/
def mark (S : Alphabet) (m : EditMarker) : Automaton :=
  .pair S .epsilon (.symbol (S.marker m))

/-- Reads a marker without writing anything. -/
def unmark (S : Alphabet) (m : EditMarker) : Automaton :=
  .pair S (.symbol (S.marker m)) .epsilon

/-- The marking transducer. -/
def markingOver (S : Alphabet) : Except Error Automaton := do
  let sigma := Automaton.sigma S
  let star ← (← sigma.star).minimize
  let plus ← (← sigma.concat star).minimize
  let insertion ← (← star.concat (mark S .insert)).concat star
  let substitution ← (← star.concat (mark S .substitute)).concat plus
  let deletion ← (← star.concat (mark S .delete)).concat plus
  (← (← insertion.union substitution).union deletion).minimize

/-- The transducers for the edits at the symbol `x`: `x` is inserted, deleted, or replaced by each
other symbol. -/
def editsOf (S : Alphabet) (x : Symbol) : Except Error (List Automaton) := do
  let insertion := Automaton.pair S (.symbol (S.marker .insert)) (.symbol x)
  let deletion ← (unmark S .delete).concat (.pair S (.symbol x) .epsilon)
  let substitutions ← (S.sigma.filter (· != x)).mapM fun y =>
    (unmark S .substitute).concat (.pair S (.symbol x) (.symbol y))
  return insertion :: deletion :: substitutions

/-- The editing transducer. -/
def editingOver (S : Alphabet) : Except Error Automaton := do
  let edits := Automaton.sigma S :: (← S.sigma.mapM (editsOf S)).flatten
  (← (← Automaton.unionAll S edits).star).minimize

/-- Builds the transducers for an alphabet. -/
def build (S : Alphabet) : Except Error EditTransducers := do
  let marking ← markingOver S
  return { alphabet := S, marking, editing := ← editingOver S }

/-- The acceptor of the words at edit distance one from a word. -/
def ball (E : EditTransducers) (w : Word) : Except Error Automaton := do
  let marked ← (Automaton.word E.alphabet w).compose E.marking
  ((← marked.compose E.editing).project .output).minimize

/-- The ball of the word that a text spells. -/
def ballOfText (E : EditTransducers) (text : String) : Except Error Automaton := do
  E.ball (← E.alphabet.parseWord text)

end EditTransducers

end FiniteState

import FiniteState.Automaton.Basic
import FiniteState.Text.Pieces
import FiniteState.Text.Printable

/-!
# Automata as tables

A table for the eye: a row for each state with its transitions. An arrow marks the start state, a
star an accepting one.

The table is drawn with box lines and rounded corners. Columns are as wide as their widest cell,
measured in the columns of a terminal, where a character takes two if its East_Asian_Width (of
Unicode 15.1) is Wide or Fullwidth, as that of ideographs and most emoji is, and otherwise one.
-/

namespace FiniteState

/-! ## Tables in boxes -/

namespace Text

/-- The ranges of code points that take two columns, ascending, both ends included. Of the code
points without a character, these are the ones set apart for ideographs. -/
def wideRanges : Array (Nat × Nat) := #[
    (0x1100, 0x115f), (0x231a, 0x231b), (0x2329, 0x232a), (0x23e9, 0x23ec), (0x23f0, 0x23f0),
    (0x23f3, 0x23f3), (0x25fd, 0x25fe), (0x2614, 0x2615), (0x2648, 0x2653), (0x267f, 0x267f),
    (0x2693, 0x2693), (0x26a1, 0x26a1), (0x26aa, 0x26ab), (0x26bd, 0x26be), (0x26c4, 0x26c5),
    (0x26ce, 0x26ce), (0x26d4, 0x26d4), (0x26ea, 0x26ea), (0x26f2, 0x26f3), (0x26f5, 0x26f5),
    (0x26fa, 0x26fa), (0x26fd, 0x26fd), (0x2705, 0x2705), (0x270a, 0x270b), (0x2728, 0x2728),
    (0x274c, 0x274c), (0x274e, 0x274e), (0x2753, 0x2755), (0x2757, 0x2757), (0x2795, 0x2797),
    (0x27b0, 0x27b0), (0x27bf, 0x27bf), (0x2b1b, 0x2b1c), (0x2b50, 0x2b50), (0x2b55, 0x2b55),
    (0x2e80, 0x2e99), (0x2e9b, 0x2ef3), (0x2f00, 0x2fd5), (0x2ff0, 0x303e), (0x3041, 0x3096),
    (0x3099, 0x30ff), (0x3105, 0x312f), (0x3131, 0x318e), (0x3190, 0x31e3), (0x31ef, 0x321e),
    (0x3220, 0x3247), (0x3250, 0x4dbf), (0x4e00, 0xa48c), (0xa490, 0xa4c6), (0xa960, 0xa97c),
    (0xac00, 0xd7a3), (0xf900, 0xfaff), (0xfe10, 0xfe19), (0xfe30, 0xfe52), (0xfe54, 0xfe66),
    (0xfe68, 0xfe6b), (0xff01, 0xff60), (0xffe0, 0xffe6), (0x16fe0, 0x16fe4), (0x16ff0, 0x16ff1),
    (0x17000, 0x187f7), (0x18800, 0x18cd5), (0x18d00, 0x18d08), (0x1aff0, 0x1aff3),
    (0x1aff5, 0x1affb), (0x1affd, 0x1affe), (0x1b000, 0x1b122), (0x1b132, 0x1b132),
    (0x1b150, 0x1b152), (0x1b155, 0x1b155), (0x1b164, 0x1b167), (0x1b170, 0x1b2fb),
    (0x1f004, 0x1f004), (0x1f0cf, 0x1f0cf), (0x1f18e, 0x1f18e), (0x1f191, 0x1f19a),
    (0x1f200, 0x1f202), (0x1f210, 0x1f23b), (0x1f240, 0x1f248), (0x1f250, 0x1f251),
    (0x1f260, 0x1f265), (0x1f300, 0x1f320), (0x1f32d, 0x1f335), (0x1f337, 0x1f37c),
    (0x1f37e, 0x1f393), (0x1f3a0, 0x1f3ca), (0x1f3cf, 0x1f3d3), (0x1f3e0, 0x1f3f0),
    (0x1f3f4, 0x1f3f4), (0x1f3f8, 0x1f43e), (0x1f440, 0x1f440), (0x1f442, 0x1f4fc),
    (0x1f4ff, 0x1f53d), (0x1f54b, 0x1f54e), (0x1f550, 0x1f567), (0x1f57a, 0x1f57a),
    (0x1f595, 0x1f596), (0x1f5a4, 0x1f5a4), (0x1f5fb, 0x1f64f), (0x1f680, 0x1f6c5),
    (0x1f6cc, 0x1f6cc), (0x1f6d0, 0x1f6d2), (0x1f6d5, 0x1f6d7), (0x1f6dc, 0x1f6df),
    (0x1f6eb, 0x1f6ec), (0x1f6f4, 0x1f6fc), (0x1f7e0, 0x1f7eb), (0x1f7f0, 0x1f7f0),
    (0x1f90c, 0x1f93a), (0x1f93c, 0x1f945), (0x1f947, 0x1f9ff), (0x1fa70, 0x1fa7c),
    (0x1fa80, 0x1fa88), (0x1fa90, 0x1fabd), (0x1fabf, 0x1fac5), (0x1face, 0x1fadb),
    (0x1fae0, 0x1fae8), (0x1faf0, 0x1faf8), (0x20000, 0x2fffd), (0x30000, 0x3fffd)]

/-- The number of columns that a text takes. -/
def width (text : List Char) : Nat :=
  text.foldl (fun w c => w + if inSortedRanges wideRanges c then 2 else 1) 0

/-- The width of the widest text. -/
def maxWidth (texts : List (List Char)) : Nat :=
  texts.foldl (fun w text => Nat.max w (width text)) 0

/-- The text with blanks after it up to `w` columns. -/
def padTo (w : Nat) (text : List Char) : List Char :=
  text ++ List.replicate (w - width text) ' '

/-- The strokes of one horizontal line of a box. -/
structure Rule where
  left : Char
  fill : Char
  cross : Char
  right : Char

namespace Rule

/-- The line above the heading. -/
def top : Rule := ⟨'╭', '─', '┬', '╮'⟩

/-- The line below the heading. -/
def middle : Rule := ⟨'├', '─', '┼', '┤'⟩

/-- The line below the last row. -/
def bottom : Rule := ⟨'╰', '─', '┴', '╯'⟩

/-- Draws the line over columns of the given widths, each with a blank on either side. -/
def draw (rule : Rule) (widths : List Nat) : List Char :=
  [rule.left]
    ++ [rule.cross].intercalate (widths.map fun w => List.replicate (w + 2) rule.fill)
    ++ [rule.right]

end Rule

/-- The row of a table, its cells padded to the widths of their columns. A cell of several lines
makes the row as high as its highest cell. -/
def drawRow (widths : List Nat) (cells : List (List Char)) : List (List Char) :=
  let blocks := cells.map (pieces (· == '\n'))
  let height := blocks.foldl (fun h block => Nat.max h block.length) 0
  (List.range height).map fun i =>
    -- a cell with fewer lines is filled up with blank ones
    let cell := fun w (block : List (List Char)) => ' ' :: padTo w (block.getD i []) ++ [' ']
    let parts := List.zipWith cell widths blocks
    ['│'] ++ ['│'].intercalate parts ++ ['│']

/-- The lines of a table under its heading. -/
def drawTable (heading : List (List Char)) (rows : List (List (List Char))) : List (List Char) :=
  let columns := List.range heading.length
  let widths := columns.map fun i =>
    maxWidth ((heading :: rows).flatMap fun row => pieces (· == '\n') (row.getD i []))
  [Rule.top.draw widths] ++ drawRow widths heading ++ [Rule.middle.draw widths]
    ++ rows.flatMap (drawRow widths) ++ [Rule.bottom.draw widths]

end Text

/-! ## The table of an automaton -/

namespace Automaton

/-- The name of a state in the table. -/
def stateCell (A : Automaton) (q : Nat) : String :=
  (if q = A.start then "-> " else "") ++ toString q ++ (if A.isFinal q then " *" else "")

/-- A transition in the table; a label that is copied is written once. -/
def transitionCell (S : Alphabet) (t : Transition) : String :=
  (if t.isCopying then t.input.render S else t.input.render S ++ ":" ++ t.output.render S)
    ++ " => " ++ toString t.target

/-- The row of a state. -/
def tableRow (A : Automaton) (q : Nat) : List (List Char) :=
  [(A.stateCell q).toList,
    (", ".intercalate ((A.transitions q).map (transitionCell A.alphabet))).toList]

/-- The table of an automaton, its lines joined by line feeds. -/
def table (A : Automaton) : String :=
  let lines := Text.drawTable ["State".toList, "Transitions".toList] (A.stateNumbers.map A.tableRow)
  "\n".intercalate (lines.map String.ofList)

end Automaton

end FiniteState

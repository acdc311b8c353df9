/-!
# Cutting text into pieces

Texts are cut at single characters: at line feeds into lines, at blanks into fields. Both cuts are
one fold over the characters, `pieces`.

* `isBlank` is the Unicode property White_Space.
* `lines` ends a line at a line feed, with or without a carriage return before it.
* `fields` are the maximal runs of characters that are not blank.
-/

namespace FiniteState.Text

/-- Characters with the Unicode property White_Space. -/
def isBlank (c : Char) : Bool :=
  let n := c.toNat
  (0x09 ≤ n && n ≤ 0x0d) || n == 0x20 || n == 0x85 || n == 0xa0 || n == 0x1680
    || (0x2000 ≤ n && n ≤ 0x200a) || n == 0x2028 || n == 0x2029 || n == 0x202f || n == 0x205f
    || n == 0x3000

/-- The pieces of a text between the characters that satisfy `cut`. There is always one piece more
than there are cuts. -/
def pieces (cut : Char → Bool) (text : List Char) : List (List Char) :=
  text.foldr
    (fun c found =>
      if cut c then [] :: found
      else match found with
        | [] => [[c]]
        | piece :: more => (c :: piece) :: more)
    [[]]

/-- Every text has a first piece, which may be empty. -/
theorem pieces_ne_nil (cut : Char → Bool) (text : List Char) : pieces cut text ≠ [] := by
  cases text with
  | nil => simp [pieces]
  | cons c text =>
    simp only [pieces, List.foldr_cons]
    split <;> (try split) <;> simp

/-- The maximal runs of characters that are not blank. -/
def fields (text : List Char) : List (List Char) :=
  (pieces isBlank text).filter (! ·.isEmpty)

/-- The text without blanks at either end. -/
def trimBlank (text : List Char) : List Char :=
  ((text.dropWhile isBlank).reverse.dropWhile isBlank).reverse

/-- Drops one carriage return at the end. -/
def dropReturn (line : List Char) : List Char :=
  if line.getLast? = some '\r' then line.dropLast else line

/-- Turns the pieces between line feeds into lines: every piece but the last was ended by a line
feed and loses a carriage return before it; an empty last piece is no line. -/
def linesOfPieces : List (List Char) → List (List Char)
  | [] => []
  | [last] => if last.isEmpty then [] else [last]
  | line :: more => dropReturn line :: linesOfPieces more

/-- The lines of a text. A line ends at a line feed or at a carriage return with a line feed; the
last line may lack its end, and then keeps a carriage return. -/
def lines (text : List Char) : List (List Char) :=
  linesOfPieces (pieces (· == '\n') text)

example : lines "a\r\n\nb\r".toList = [['a'], [], ['b', '\r']] := by decide
example : fields " ab\tc ".toList = [['a', 'b'], ['c']] := by decide

end FiniteState.Text

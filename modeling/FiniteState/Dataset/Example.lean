import FiniteState.Alphabet
import FiniteState.Text.Pieces

/-!
# Examples and splits

An example is a word with a verdict: whether the target language has it. A split is a named list of
examples that makes one file, with a line `word TAB verdict` for each of them.
-/

namespace FiniteState

/-- Whether a word belongs to the target language. -/
inductive Verdict
  | accept
  | reject
deriving DecidableEq, Repr

namespace Verdict

/-- The written form of a verdict. -/
def name : Verdict → String
  | accept => "TRUE"
  | reject => "FALSE"

/-- Reads a verdict in letters of either case. -/
def parse? (text : String) : Option Verdict :=
  if text.toLower = "true" then some accept
  else if text.toLower = "false" then some reject
  else none

end Verdict

/-- A word with its verdict. -/
structure Example where
  word : String
  verdict : Verdict
deriving DecidableEq, Repr

namespace Example

/-- The line of an example, without its end. -/
def line (e : Example) : String := e.word ++ "\t" ++ e.verdict.name

/-- Cuts a line at its first tab. -/
def cutAtTab? : List Char → Option (List Char × List Char)
  | [] => none
  | c :: rest =>
    if c = '\t' then some ([], rest)
    else (cutAtTab? rest).map fun (before, after) => (c :: before, after)

/-- Reads the line with the given number. Blanks around the verdict are ignored. -/
def ofLine (number : Nat) (line : List Char) : Except Error Example :=
  match cutAtTab? line with
  | none => .error (.parse number .noTab)
  | some (word, rest) =>
    let text := String.ofList (Text.trimBlank rest)
    match Verdict.parse? text with
    | some verdict => .ok ⟨String.ofList word, verdict⟩
    | none => .error (.parse number (.notVerdict text))

end Example

/-- A named list of examples. -/
structure Split where
  /-- The name of the file. -/
  name : String
  examples : List Example
deriving DecidableEq, Repr

namespace Split

/-- The text of a split, a line for each example. -/
def text (p : Split) : String := String.join (p.examples.map fun e => e.line ++ "\n")

/-- The lines that are not blank, with their numbers, counted from one. -/
def numberedLines (text : List Char) : List (List Char × Nat) :=
  ((Text.lines text).zipIdx 1).filter fun (line, _) => !(Text.trimBlank line).isEmpty

/-- Reads the text of a split. -/
def ofText (name text : String) : Except Error Split := do
  let examples ← (numberedLines text.toList).mapM fun (line, number) => Example.ofLine number line
  return { name, examples }

end Split

/-- The examples of some words with the same verdict. -/
def examplesOf (S : Alphabet) (verdict : Verdict) (ws : List Word) : List Example :=
  ws.map fun w => ⟨S.render w, verdict⟩

end FiniteState

import FiniteState.Automaton.Blueprint
import FiniteState.Automaton.Reach
import FiniteState.Text.Numeral
import FiniteState.Text.Pieces

/-!
# Transition listings

The written form of an automaton lists its trimmed form. Every transition has a line
`source target input output` with tabs between the fields, every accepting state a line `state 0`,
the zero being its final weight. The lines of the start state come first, so a reader takes the
state mentioned first as the start state; an empty listing stands for the automaton that accepts
nothing.

A reader is more liberal: any blanks separate fields, blank lines are skipped, a line of three
fields is a transition `source target label` of an acceptor, a fifth field is a weight that is
ignored, and a line of one field marks an accepting state too.
-/

namespace FiniteState

namespace Automaton

/-! ## Writing -/

/-- The line of a transition. -/
def transitionLine (S : Alphabet) (q : Nat) (t : Transition) : String :=
  toString q ++ "\t" ++ toString t.target ++ "\t" ++ t.input.render S ++ "\t" ++ t.output.render S
    ++ "\n"

/-- The line of an accepting state. -/
def finalLine (q : Nat) : String := toString q ++ "\t0\n"

/-- The lines of a state. -/
def stateLines (A : Automaton) (q : Nat) : String :=
  String.join ((A.transitions q).map (transitionLine A.alphabet q))
    ++ (if A.isFinal q then finalLine q else "")

/-- The states with the start state first. -/
def startFirst (A : Automaton) : List Nat := A.start :: A.stateNumbers.filter (· != A.start)

/-- The transition listing of an automaton. -/
def listing (A : Automaton) : String :=
  let T := A.trim
  String.join (T.startFirst.map T.stateLines)

/-- The names of the states in a listing: each state is named by its number. -/
def stateTable (A : Automaton) : String :=
  String.join (A.trim.stateNumbers.map fun q => toString q ++ "\t" ++ toString q ++ "\n")

end Automaton

namespace Listing

/-! ## Reading -/

/-- What a line that is not blank says. -/
inductive Line
  /-- There is a transition. -/
  | link (l : Link)
  /-- A state is accepting. -/
  | accepting (q : Nat)
deriving DecidableEq, Repr

/-- The state that a line mentions first. -/
def Line.source : Line → Nat
  | link l => l.source
  | accepting q => q

/-- The transition of a line. -/
def Line.link? : Line → Option Link
  | link l => some l
  | accepting _ => none

/-- The accepting state of a line. -/
def Line.accepting? : Line → Option Nat
  | link _ => none
  | accepting q => some q

/-- Reads a state number. -/
def readState (line : Nat) (field : List Char) : Except Error Nat :=
  match Text.numeral? Text.maxState field with
  | some q => .ok q
  | none => .error (.parse line (.notState (String.ofList field)))

/-- Reads a label by its name. -/
def readLabel (S : Alphabet) (line : Nat) (field : List Char) : Except Error Label :=
  if String.ofList field = Label.epsilonName then .ok .epsilon
  else match S.symbolByName? (String.ofList field) with
    | some s => .ok (.symbol s)
    | none => .error (.parse line (.notSymbol (String.ofList field)))

/-- Reads a transition with a label for each tape. The target is read last. -/
def readTransition (S : Alphabet) (line : Nat) (source target input output : List Char) :
    Except Error Line := do
  let source ← readState line source
  let input ← readLabel S line input
  let output ← readLabel S line output
  return .link ⟨source, ⟨input, output, ← readState line target⟩⟩

/-- Reads a transition that copies its label. -/
def readCopying (S : Alphabet) (line : Nat) (source target label : List Char) :
    Except Error Line := do
  let source ← readState line source
  let label ← readLabel S line label
  return .link ⟨source, .copying label (← readState line target)⟩

/-- Reads a line by its fields, of which there is at least one. -/
def readLine (S : Alphabet) (line : Nat) : List (List Char) → Except Error Line
  | [source, target, input, output] => readTransition S line source target input output
  | [source, target, input, output, _] => readTransition S line source target input output
  | [source, target, label] => readCopying S line source target label
  | [q] => return .accepting (← readState line q)
  | [q, _] => return .accepting (← readState line q)
  | fields => .error (.parse line (.fieldCount fields.length))

/-- The fields of the lines that are not blank, with the numbers of the lines, counted from one. -/
def numberedFields (text : List Char) : List (List (List Char) × Nat) :=
  (((Text.lines text).map Text.fields).zipIdx 1).filter fun (fields, _) => !fields.isEmpty

/-- The blueprint of the lines of a listing. -/
def blueprint (lines : List Line) : Blueprint where
  links := lines.filterMap Line.link?
  accepting := lines.filterMap Line.accepting?
  start := (lines.head?.map Line.source).getD 0

/-- Reads a transition listing over an alphabet. -/
def read (S : Alphabet) (text : String) : Except Error Automaton := do
  let lines ← (numberedFields text.toList).mapM fun (fields, line) => readLine S line fields
  (blueprint lines).build S

end Listing

end FiniteState

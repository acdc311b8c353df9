import FiniteState.Alphabet

/-!
# Labels and arcs

A transducer has two tapes: it reads the input tape and writes the output tape. An arc carries a
label for each tape, a symbol or epsilon, and leads to a target. The targets of an automaton's own
arcs are state numbers; constructions use arcs to richer targets first.
-/

namespace FiniteState

/-- The label of an arc on one tape. -/
inductive Label
  /-- Reads or writes nothing. -/
  | epsilon
  /-- Reads or writes one symbol. -/
  | symbol (s : Symbol)
deriving DecidableEq, Repr

namespace Label

/-- Whether the label is epsilon. -/
def isEpsilon : Label → Bool
  | epsilon => true
  | symbol _ => false

/-- The symbol of a label. -/
def symbol? : Label → Option Symbol
  | epsilon => none
  | symbol s => some s

/-- The word that a label reads or writes. -/
def toWord : Label → Word
  | epsilon => []
  | symbol s => [s]

/-- The place of a label in the order of labels: epsilon comes before the symbols, which follow by
code. -/
def rank : Label → Nat
  | epsilon => 0
  | symbol s => s.code + 1

/-- The written form of epsilon. -/
def epsilonName : String := "<eps>"

/-- The written form of a label. -/
def render (S : Alphabet) : Label → String
  | epsilon => epsilonName
  | symbol s => S.name s

/-- Labels of one rank are one label, so the order by ranks is an order of labels. -/
theorem rank_injective {a b : Label} (h : a.rank = b.rank) : a = b := by
  cases a <;> cases b <;> simp_all [rank]
  rename_i s t
  cases s; cases t; simp_all

end Label

/-- The tapes of a transducer. -/
inductive Tape
  | input
  | output
deriving DecidableEq, Repr

/-- An arc with its labels and its target. -/
structure Arc (κ : Type) where
  /-- The label on the input tape. -/
  input : Label
  /-- The label on the output tape. -/
  output : Label
  /-- Where the arc leads. -/
  target : κ
deriving DecidableEq, Repr

namespace Arc

variable {κ ι : Type}

/-- An arc that copies what it reads. -/
def copying (label : Label) (target : κ) : Arc κ := ⟨label, label, target⟩

/-- An arc that neither reads nor writes. -/
def silent (target : κ) : Arc κ := copying .epsilon target

/-- The label on a tape. -/
def label (a : Arc κ) : Tape → Label
  | .input => a.input
  | .output => a.output

/-- Whether an arc neither reads nor writes. -/
def isSilent (a : Arc κ) : Bool := a.input.isEpsilon && a.output.isEpsilon

/-- Whether an arc writes what it reads. -/
def isCopying (a : Arc κ) : Bool := a.input == a.output

/-- The same labels with another target. -/
def withTarget (a : Arc κ) (target : ι) : Arc ι := ⟨a.input, a.output, target⟩

/-- Whether two arcs carry the same labels. -/
def sameLabels (a : Arc κ) (b : Arc ι) : Bool := a.input == b.input && a.output == b.output

/-- The order of arcs by their labels, the input first. -/
def leLabels (a b : Arc κ) : Bool :=
  a.input.rank < b.input.rank || (a.input.rank == b.input.rank && a.output.rank ≤ b.output.rank)

/-- The arc with its label on one tape copied to the other. -/
def project (a : Arc κ) (tape : Tape) : Arc κ := copying (a.label tape) a.target

end Arc

end FiniteState

import FiniteState.Text.Printable

/-!
# What can go wrong

`Error` names the cause of a failure by its data; `Error.message` words it. Two causes are
recoverable: a dataset run records them as warnings and goes on.
-/

namespace FiniteState

/-- The operations on automata that can fail. -/
inductive Operation
  | build
  | union
  | concat
  | closure
  | intersection
  | complement
  | difference
  | compose
  | removeEpsilon
  | determinize
deriving DecidableEq, Repr

namespace Operation

/-- The name of an operation in messages. -/
def name : Operation → String
  | build => "build"
  | union => "union"
  | concat => "concat"
  | closure => "closure"
  | intersection => "intersection"
  | complement => "complement"
  | difference => "difference"
  | compose => "compose"
  | removeEpsilon => "remove_epsilon"
  | determinize => "determinize"

end Operation

/-- Why there is no complement relative to an alphabet. -/
inductive AlphabetFault
  /-- The alphabet has no symbols. -/
  | noSymbols
  /-- A transition carries the named symbol, which the alphabet does not declare. -/
  | outside (name : String)
deriving DecidableEq, Repr

namespace AlphabetFault

/-- The wording of the fault. -/
def message : AlphabetFault → String
  | noSymbols => "the alphabet declares no symbols"
  | outside name => s!"symbol {name} lies outside of the alphabet"

end AlphabetFault

/-- The message for a name that is no symbol. -/
def unknownSymbolMessage (name : String) : String :=
  s!"symbol `{name}` is not part of the alphabet"

/-- What is wrong with a line of a file, or with a list of symbols. -/
inductive ParseFault
  /-- The character occurs twice among the symbols of an alphabet. -/
  | declaredTwice (symbol : Char)
  /-- The field stands where a state number is expected. -/
  | notState (field : String)
  /-- The field stands where a label is expected. -/
  | notSymbol (field : String)
  /-- A line of a transition listing has this many fields. -/
  | fieldCount (count : Nat)
  /-- A line of a dataset has no tab. -/
  | noTab
  /-- The text stands where a verdict is expected. -/
  | notVerdict (text : String)
deriving DecidableEq, Repr

/-- The message for a text that is no verdict. -/
def notVerdictMessage (text : String) : String := s!"`{text}` is neither TRUE nor FALSE"

namespace ParseFault

/-- The wording of the fault. -/
def message : ParseFault → String
  | declaredTwice symbol => s!"symbol `{symbol}` is declared twice"
  | notState field => s!"`{field}` is not a state"
  | notSymbol field => unknownSymbolMessage field
  | fieldCount count => s!"expected 1 to 5 fields but found {count}"
  | noTab => "expected `word<TAB>label`"
  | notVerdict text => notVerdictMessage text

end ParseFault

/-- Everything that can go wrong when automata are built, combined, sampled, read or written. -/
inductive Error
  /-- The operands have different alphabets, given by their symbols. -/
  | alphabetMismatch (operation : Operation) (left right : List Char)
  /-- The operation needs an alphabet that declares all symbols in use. -/
  | undeclaredAlphabet (operation : Operation) (fault : AlphabetFault)
  /-- An operand is a transducer. -/
  | notAnAcceptor (operation : Operation)
  /-- The result would have more states than the alphabet admits. -/
  | stateExplosion (operation : Operation) (limit : Nat)
  /-- The name belongs to no symbol of the alphabet. -/
  | unknownSymbol (name : String)
  /-- The name belongs to no language of the catalog. -/
  | unknownLanguage (name : String)
  /-- A text cannot be read; lines count from one. -/
  | parse (line : Nat) (fault : ParseFault)
  /-- Fewer distinct strings were found than requested. -/
  | insufficientSamples (requested found : Nat)
  /-- No negative string is left within one edit of a positive one. -/
  | emptyAdversarialCandidate (positive : String)
  /-- A file cannot be read or written. -/
  | file (path : String)
deriving DecidableEq, Repr

namespace Error

/-- The wording of an error. -/
def message : Error → String
  | alphabetMismatch operation left right =>
    "cannot apply " ++ operation.name ++ " to automata over different alphabets "
      ++ Text.quote left ++ " and " ++ Text.quote right
  | undeclaredAlphabet operation fault => "cannot " ++ operation.name ++ ": " ++ fault.message
  | notAnAcceptor operation => operation.name ++ " is only defined for acceptors"
  | stateExplosion operation limit =>
    operation.name ++ s!" exceeded the limit of {limit} states"
  | unknownSymbol name => unknownSymbolMessage name
  | unknownLanguage name => s!"unknown language `{name}`"
  | parse line fault => s!"malformed input on line {line}: " ++ fault.message
  | insufficientSamples requested found =>
    s!"requested {requested} distinct strings but only found {found}"
  | emptyAdversarialCandidate positive =>
    s!"no negative string within one edit of `{positive}`"
  | file path => s!"i/o error: cannot access `{path}`"

/-- Whether a dataset run goes on after the error. -/
def isRecoverable : Error → Bool
  | insufficientSamples .. => true
  | emptyAdversarialCandidate .. => true
  | _ => false

end Error

end FiniteState

import FiniteState.Error

/-!
# Classes of subregular languages
-/

namespace FiniteState

/-- The language classes of the catalog, from the most restrictive to the most general. -/
inductive LanguageClass
  /-- Defined by forbidden substrings. -/
  | strictlyLocal
  /-- Defined by forbidden subsequences. -/
  | strictlyPiecewise
  /-- Boolean combinations of substring tests. -/
  | locallyTestable
  /-- Boolean combinations of subsequence tests. -/
  | piecewiseTestable
  /-- Tests that count substrings up to a threshold. -/
  | locallyThresholdTestable
  /-- Defined without repetition from finite languages, with complements. -/
  | starFree
  /-- All languages of finite automata. -/
  | regular
deriving DecidableEq, Repr

namespace LanguageClass

/-- All classes in catalog order. -/
def all : List LanguageClass :=
  [strictlyLocal, strictlyPiecewise, locallyTestable, piecewiseTestable, locallyThresholdTestable,
    starFree, regular]

/-- The short name of a class. -/
def name : LanguageClass → String
  | strictlyLocal => "sl"
  | strictlyPiecewise => "sp"
  | locallyTestable => "lt"
  | piecewiseTestable => "pt"
  | locallyThresholdTestable => "ltt"
  | starFree => "sf"
  | regular => "reg"

/-- The place of a class in catalog order. -/
def rank (c : LanguageClass) : Nat := all.idxOf c

/-- The class with exactly the given name. -/
def ofName? (text : String) : Option LanguageClass := all.find? (·.name == text)

/-- The class with the given name, in letters of either case. -/
def parse (text : String) : Except Error LanguageClass :=
  match all.find? (·.name.toLower == text.toLower) with
  | some c => .ok c
  | none => .error (.unknownLanguage text)

end LanguageClass

end FiniteState

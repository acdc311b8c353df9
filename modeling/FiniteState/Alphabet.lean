import FiniteState.Error
import FiniteState.Word

/-!
# Alphabets

An alphabet Σ gives the codes `0 .. n - 1` to its `n` characters, in the order of their declaration,
and the next three codes to the edit markers. It also fixes the number of states that a single
construction may produce.

* `Alphabet.ofList` refuses a character that is declared twice, so a character has one code.
* `Alphabet.symbolByName` reads the names that `Alphabet.name` writes.
-/

namespace FiniteState

/-- The reserved symbols that mark the place of an edit. -/
inductive EditMarker
  /-- A symbol is inserted at the mark. -/
  | insert
  /-- The symbol after the mark is deleted. -/
  | delete
  /-- The symbol after the mark becomes another one. -/
  | substitute
deriving DecidableEq, Repr

namespace EditMarker

/-- The markers in the order of their codes. -/
def all : List EditMarker := [insert, delete, substitute]

/-- The distance of a marker's code from the first code after Σ. -/
def offset : EditMarker → Nat
  | insert => 0
  | delete => 1
  | substitute => 2

/-- The name of a marker. -/
def name : EditMarker → String
  | insert => "[I]"
  | delete => "[D]"
  | substitute => "[S]"

end EditMarker

/-- The state limit of an alphabet for which no other is set, 2^20. -/
def defaultStateLimit : Nat := 1048576

/-- The symbols that automata are built over. An alphabet without symbols counts as undeclared:
there is no complement relative to it. -/
structure Alphabet where
  /-- The characters of Σ, by code. -/
  symbols : List Char
  /-- The number of states that a single construction may produce. -/
  stateLimit : Nat := defaultStateLimit
  /-- No character is declared twice. -/
  nodup : symbols.Nodup := by decide
deriving DecidableEq

namespace Alphabet

/-- The first character of the text that has occurred before, among `seen` or in the text. -/
def firstRepeat? (seen : List Char) : List Char → Option Char
  | [] => none
  | c :: rest => if c ∈ seen then some c else firstRepeat? (c :: seen) rest

/-- No repeat was found, so the characters are distinct, from each other and from those seen
before. -/
theorem nodup_of_firstRepeat?_eq_none {seen text : List Char}
    (h : firstRepeat? seen text = none) : text.Nodup ∧ ∀ c ∈ text, c ∉ seen := by
  induction text generalizing seen with
  | nil => simp
  | cons c rest ih =>
    by_cases hc : c ∈ seen
    · simp [firstRepeat?, hc] at h
    · simp only [firstRepeat?, hc, if_false] at h
      have ⟨hnodup, hfresh⟩ := ih h
      refine ⟨List.nodup_cons.2 ⟨fun hmem => hfresh c hmem (by simp), hnodup⟩, ?_⟩
      intro d hd
      rcases List.mem_cons.1 hd with rfl | hd
      · exact hc
      · exact fun hseen => hfresh d hd (by simp [hseen])

/-- The alphabet of the given characters, which must be distinct. -/
def ofList (symbols : List Char) : Except Error Alphabet :=
  match h : firstRepeat? [] symbols with
  | some c => .error (.parse 0 (.declaredTwice c))
  | none => .ok { symbols, nodup := (nodup_of_firstRepeat?_eq_none h).1 }

/-- The alphabet of the letters a, b, c and d. -/
def abcd : Alphabet := { symbols := ['a', 'b', 'c', 'd'] }

/-- The same symbols with another state limit. -/
def withStateLimit (S : Alphabet) (limit : Nat) : Alphabet := { S with stateLimit := limit }

/-- The number of symbols of Σ, without the markers. -/
def size (S : Alphabet) : Nat := S.symbols.length

/-- Whether Σ has no symbols. -/
def isEmpty (S : Alphabet) : Bool := S.symbols.isEmpty

/-- The symbols of Σ by code. -/
def sigma (S : Alphabet) : List Symbol := (List.range S.size).map Symbol.mk

/-- The symbols of Σ and the markers by code. -/
def sigmaWithMarkers (S : Alphabet) : List Symbol :=
  (List.range (S.size + EditMarker.all.length)).map Symbol.mk

/-- Whether a symbol belongs to Σ. -/
def contains (S : Alphabet) (s : Symbol) : Bool := decide (s.code < S.size)

/-- The symbol of a marker. -/
def marker (S : Alphabet) (m : EditMarker) : Symbol := ⟨S.size + m.offset⟩

/-- The symbol of a character, if Σ declares it. -/
def symbol? (S : Alphabet) (c : Char) : Option Symbol := (S.symbols.idxOf? c).map Symbol.mk

/-- The symbol of a character. -/
def symbol (S : Alphabet) (c : Char) : Except Error Symbol :=
  match S.symbol? c with
  | some s => .ok s
  | none => .error (.unknownSymbol c.toString)

/-- The symbol of a name: that of a marker, or a single character of Σ. -/
def symbolByName? (S : Alphabet) (name : String) : Option Symbol :=
  match EditMarker.all.find? (·.name == name) with
  | some m => some (S.marker m)
  | none =>
    match name.toList with
    | [c] => S.symbol? c
    | _ => none

/-- The symbol of a name, or the error that names it. -/
def symbolByName (S : Alphabet) (name : String) : Except Error Symbol :=
  match S.symbolByName? name with
  | some s => .ok s
  | none => .error (.unknownSymbol name)

/-- The name of a symbol: its character, its marker's name, or its code after a number sign. -/
def name (S : Alphabet) (s : Symbol) : String :=
  match S.symbols[s.code]? with
  | some c => c.toString
  | none =>
    match EditMarker.all.find? (fun m => S.marker m == s) with
    | some m => m.name
    | none => "#" ++ toString s.code

/-- Reads a text as a word over Σ. The first foreign character is the error. -/
def parseWord (S : Alphabet) (text : String) : Except Error Word := text.toList.mapM S.symbol

/-- Writes a word by the names of its symbols. -/
def render (S : Alphabet) (w : Word) : String := String.join (w.map S.name)

/-- The names of the symbols of Σ with their codes. -/
def symbolTable (S : Alphabet) : List (String × Nat) :=
  S.symbols.zipIdx.map fun (c, code) => (c.toString, code)

/-- The symbol table as text, a line for each symbol. -/
def symbolTableText (S : Alphabet) : String :=
  String.join (S.symbolTable.map fun (name, code) => name ++ "\t" ++ toString code ++ "\n")

/-- Whether two alphabets give the same codes to the same characters. -/
def isCompatible (S T : Alphabet) : Bool := S.symbols == T.symbols

end Alphabet

end FiniteState

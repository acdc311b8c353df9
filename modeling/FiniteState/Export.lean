import FiniteState.Automaton.Listing
import FiniteState.Dataset.Generator
import FiniteState.Files
import FiniteState.Language.Catalog

/-!
# Files of automata and datasets

An automaton is kept in four files: its transition listing, the names of its states, and the symbols
of either tape. A catalog is kept as the files of all its entries, a dataset as a file for each
split. Beside the files stand the changes that bring them into a directory.
-/

namespace FiniteState

/-- The name of the listing of an automaton. -/
def listingName (name : String) : String := name ++ ".fst.txt"

/-- The files of an automaton, the listing first. -/
def automatonFiles (name : String) (A : Automaton) : List NamedText :=
  let symbols := A.alphabet.symbolTableText
  [⟨listingName name, A.listing⟩, ⟨name ++ ".states.syms", A.stateTable⟩,
    ⟨name ++ ".input.syms", symbols⟩, ⟨name ++ ".output.syms", symbols⟩]

/-- The files of a catalog. -/
def catalogFiles (C : Catalog) : List NamedText :=
  C.entries.flatMap fun e => automatonFiles e.name e.automaton

/-- The files of a dataset. -/
def datasetFiles (r : DatasetRun) : List NamedText := r.splits.map fun p => ⟨p.name, p.text⟩

/-- Writes the files of an automaton into a directory. -/
def automatonChanges (directory name : String) (A : Automaton) : List FileChange :=
  makeDirectories directory
    ++ (automatonFiles name A).map fun t => .write (pathIn directory t.name) t.text

/-- Writes the files of a catalog into a directory, one entry after the other. -/
def catalogChanges (directory : String) (C : Catalog) : List FileChange :=
  C.entries.flatMap fun e => automatonChanges directory e.name e.automaton

/-- Writes the files of a dataset into a directory. Each is written under another name first and
then moved into place, so it is complete once it is there. -/
def datasetChanges (directory : String) (r : DatasetRun) : List FileChange :=
  makeDirectories directory ++ (datasetFiles r).flatMap fun t =>
    let temporary := pathIn directory ("." ++ t.name ++ ".tmp")
    [.write temporary t.text, .move temporary (pathIn directory t.name)]

end FiniteState

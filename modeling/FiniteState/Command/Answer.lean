import FiniteState.Command.Request
import FiniteState.Export

/-!
# Answering requests

The answer to a request is a list of changes to files. It depends on nothing but the request and
the file that it may name.
-/

namespace FiniteState

namespace Request

/-- The file that has to be read. -/
def input? : Request → Option String
  | generate (.listing path) _ _ => some path
  | _ => none

/-- The target of a dataset. -/
def target (S : Alphabet) (read : String → Except Error String) :
    TargetSource → Except Error Automaton
  | .listing path => do (← Listing.read S (← read path)).minimize
  | .entry cls index => do
    match (← Catalog.build S).get? cls index with
    | some A => return A
    | none => throw (.unknownLanguage (entryName cls index))

/-- A dataset for a target. -/
def dataset (S : Alphabet) (target : Automaton) (config : DatasetConfig) :
    Except Error DatasetRun := do
  let g ← Generator.ofConfig S config
  ((Generator.run target config).run g).1

/-- The changes that answer a request, given what can be read. -/
def answer (read : String → Except Error String) : Request → Except Error (List FileChange)
  | exportCatalog directory => do return catalogChanges directory (← Catalog.build .abcd)
  | generate source directory config => do
    let target ← target .abcd read source
    return datasetChanges directory (← dataset .abcd target config)

end Request

end FiniteState

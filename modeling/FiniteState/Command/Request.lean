import FiniteState.Command.Usage
import FiniteState.Dataset.Generator
import FiniteState.Language.Class
import FiniteState.Text.Numeral

/-!
# Requests

What the program can be asked for on its command line: to export the catalog, or to generate a
dataset for a language of the catalog or for an automaton in a file.
-/

namespace FiniteState

/-- Where the target of a dataset comes from. -/
inductive TargetSource
  /-- An entry of the catalog. -/
  | entry (cls : LanguageClass) (index : Nat)
  /-- A transition listing in a file. -/
  | listing (path : String)
deriving DecidableEq, Repr

/-- What the program is asked for. -/
inductive Request
  /-- To write the catalog into a directory. -/
  | exportCatalog (directory : String)
  /-- To write a dataset into a directory. -/
  | generate (source : TargetSource) (directory : String) (config : DatasetConfig)
deriving DecidableEq, Repr

namespace Command

/-- Refuses a text that is no count. -/
def checkCount (text : String) : Option UsageError :=
  if (Text.numeral? Text.maxCount text.toList).isSome then none else some .valueValidation

/-- Refuses an empty path. -/
def checkPath (path : String) : Option UsageError :=
  if path.isEmpty then some .invalidValue else none

/-- Refuses a text that is not among the given ones. -/
def checkAmong (texts : List String) (text : String) : Option UsageError :=
  if texts.contains text then none else some .invalidValue

/-- The options of every command. -/
def commonOptions : List Opt := [
  { name := "verbosity", arity := .optional, letter := some 'v',
    check := checkAmong ["info", "debug", "trace"] },
  { name := "quiet", arity := .flag, letter := some 'q' }]

/-- An option with a path. -/
def pathOption (name : String) : Opt := { name, arity := .value, check := checkPath }

/-- An option with a number. -/
def countOption (name : String) : Opt := { name, arity := .value, check := checkCount }

/-- The options of an export. -/
def exportOptions : List Opt := pathOption "out" :: commonOptions

/-- The options of a generation. -/
def generateOptions : List Opt :=
  [{ name := "class", arity := .value, check := checkAmong (LanguageClass.all.map (·.name)) },
    pathOption "fst", pathOption "out"]
    ++ ["index", "seed", "short-min", "short-max", "long-min", "long-max", "train", "dup-dev",
      "dup-test", "dev", "test", "long-test", "adversarial", "retries"].map countOption
    ++ commonOptions

/-- The value of an option, if it was given with one. -/
def valueOf? (given : List Given) (name : String) : Option String :=
  (given.find? (·.name == name)).bind (·.value)

/-- The number given by an option. -/
def countOf? (given : List Given) (name : String) : Option Nat :=
  (valueOf? given name).bind fun text => Text.numeral? Text.maxCount text.toList

/-- The configuration that options describe; missing ones have their default values. -/
def configOf (given : List Given) : DatasetConfig :=
  let base : DatasetConfig := {}
  let count := fun name default => (countOf? given name).getD default
  { short := ⟨count "short-min" base.short.first, count "short-max" base.short.last⟩
    long := ⟨count "long-min" base.long.first, count "long-max" base.long.last⟩
    train := count "train" base.train
    dupDev := count "dup-dev" base.dupDev
    dupTest := count "dup-test" base.dupTest
    dev := count "dev" base.dev
    test := count "test" base.test
    longTest := count "long-test" base.longTest
    adversarial := count "adversarial" base.adversarial
    seed := count "seed" base.seed
    retries := count "retries" base.retries }

/-- The value of an option that is required. -/
def required (given : List Given) (name : String) : Except UsageError String :=
  match valueOf? given name with
  | some value => .ok value
  | none => .error .missingRequiredArgument

/-- The target that options describe: a file, or a class with a number. A number beside a file is
ignored. -/
def sourceOf (given : List Given) : Except UsageError TargetSource :=
  match valueOf? given "fst", (valueOf? given "class").bind LanguageClass.ofName?,
      countOf? given "index" with
  | some _, some _, _ => .error .argumentConflict
  | some path, none, _ => .ok (.listing path)
  | none, some cls, some index => .ok (.entry cls index)
  | none, _, _ => .error .missingRequiredArgument

/-- Reads the arguments of an export. -/
def readExport (args : List String) : Except UsageError Request := do
  let s ← scan exportOptions [] {} args
  return .exportCatalog (← required s.given "out")

/-- Reads the arguments of a generation. -/
def readGenerate (args : List String) : Except UsageError Request := do
  let s ← scan generateOptions [] {} args
  -- the target is asked for before the directory
  let source ← sourceOf s.given
  return .generate source (← required s.given "out") (configOf s.given)

/-- The commands that do something. -/
def commands : List String := ["export", "generate"]

/-- Reads the arguments of a request for help: perhaps the name of a command. -/
def readHelp : List String → UsageError
  | [] => .displayHelp
  | [name] => if (commands ++ ["help"]).contains name then .displayHelp else .invalidSubcommand
  | _ => .invalidSubcommand

end Command

/-- Reads the arguments of the program. -/
def Request.ofArguments (args : List String) : Except Command.UsageError Request := do
  let s ← Command.scan Command.commonOptions (Command.commands ++ ["help"]) {} args
  match s.subcommand with
  | some ("export", rest) => Command.readExport rest
  | some ("generate", rest) => Command.readGenerate rest
  | some (_, rest) => throw (Command.readHelp rest)
  | none => throw .missingSubcommand

end FiniteState

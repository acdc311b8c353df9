/-!
# Options on a command line

A command line is a list of arguments. An option has a long name, after two dashes, and perhaps a
letter, after one dash; letters can be joined behind one dash. Some options take a value, from the
same argument after an equals sign or from the next argument; one kind takes a value after an equals
sign only. Two dashes alone end the options.

`scan` reads the options of one command up to the name of a subcommand, if there are any.
-/

namespace FiniteState.Command

/-- What can be wrong with a command line; asking for help also ends its reading. -/
inductive UsageError
  | missingSubcommand
  | invalidSubcommand
  | missingRequiredArgument
  | argumentConflict
  /-- A value is missing or not among those that are admitted. -/
  | invalidValue
  /-- A value cannot be read. -/
  | valueValidation
  /-- A flag comes with a value. -/
  | tooManyValues
  | unknownArgument
  | displayHelp
deriving DecidableEq, Repr

/-- Whether an option takes a value. -/
inductive Arity
  /-- It never does. -/
  | flag
  /-- It always does. -/
  | value
  /-- It does if there is an equals sign. -/
  | optional
deriving DecidableEq, Repr

/-- An option. -/
structure Opt where
  name : String
  arity : Arity
  letter : Option Char := none
  /-- What is wrong with a value. -/
  check : String → Option UsageError := fun _ => none

/-- An option as given, with its value. -/
structure Given where
  name : String
  value : Option String
deriving DecidableEq, Repr

/-- The options that were given to a command, and the arguments of its subcommand. -/
structure Scanned where
  given : List Given
  subcommand : Option (String × List String)
deriving DecidableEq, Repr

/-- The state of reading: the options so far, and one that waits for its value. -/
structure Progress where
  given : List Given := []
  pending : Option Opt := none

namespace Progress

/-- Whether an option has been given. -/
def has (p : Progress) (name : String) : Bool := p.given.any (·.name == name)

/-- No option waits for its value any more. -/
def settle (p : Progress) : Except UsageError Progress :=
  if p.pending.isSome then .error .invalidValue else .ok p

/-- Records an option. It may be given once only. -/
def record (p : Progress) (o : Opt) (value : Option String) : Except UsageError Progress :=
  if p.has o.name then .error .argumentConflict
  else match value.bind o.check with
    | some e => .error e
    | none => .ok { given := p.given ++ [⟨o.name, value⟩], pending := none }

end Progress

/-- The request for help, which every command understands. -/
def helpOption : Opt := { name := "help", arity := .flag, letter := some 'h' }

/-- The option with the given long name. -/
def findLong? (opts : List Opt) (name : String) : Option Opt :=
  (helpOption :: opts).find? (·.name == name)

/-- The option with the given letter. -/
def findLetter? (opts : List Opt) (c : Char) : Option Opt :=
  (helpOption :: opts).find? (·.letter == some c)

/-- Cuts an argument at its first equals sign. -/
def cutAtEquals (text : List Char) : List Char × Option (List Char) :=
  let name := text.takeWhile (· != '=')
  match text.drop name.length with
  | [] => (name, none)
  | _ :: value => (name, some value)

/-- Records a flag; the request for help ends the reading. -/
def recordFlag (p : Progress) (o : Opt) : Except UsageError Progress :=
  if o.name = helpOption.name then .error .displayHelp else p.record o none

/-- Reads an argument after two dashes. -/
def readLong (opts : List Opt) (p : Progress) (text : List Char) : Except UsageError Progress := do
  let (name, value) := cutAtEquals text
  let value := value.map String.ofList
  match findLong? opts (String.ofList name) with
  | none => throw .unknownArgument
  | some o =>
    -- an option that is known ends the wait of the one before it
    let p ← p.settle
    match o.arity, value with
    | .flag, some _ => throw .tooManyValues
    | .flag, none => recordFlag p o
    | .optional, value => p.record o value
    | .value, some value => p.record o (some value)
    | .value, none => return { p with pending := some o }

/-- Reads the letters behind one dash. -/
def readLetters (opts : List Opt) (p : Progress) : List Char → Except UsageError Progress
  | [] => .ok p
  | c :: rest =>
    match findLetter? opts c with
    | none => .error .unknownArgument
    | some o => do
      let p ← p.settle
      match o.arity, rest with
      | .flag, _ => readLetters opts (← recordFlag p o) rest
      | .optional, '=' :: value => p.record o (some (String.ofList value))
      | .optional, _ => readLetters opts (← p.record o none) rest
      | .value, [] => return { p with pending := some o }
      | .value, '=' :: value => p.record o (some (String.ofList value))
      | .value, value => p.record o (some (String.ofList value))

/-- The error for an argument that is neither an option nor a value. -/
def strayArgument (subcommands : List String) : UsageError :=
  if subcommands.isEmpty then .unknownArgument else .invalidSubcommand

/-- The end of the command line. -/
def finish (p : Progress) : Except UsageError Scanned := do
  return { given := (← p.settle).given, subcommand := none }

/-- What follows two dashes alone. No argument is expected there. -/
def scanEscaped (subcommands : List String) (p : Progress) :
    List String → Except UsageError Scanned
  | [] => finish p
  | arg :: _ =>
    .error (if subcommands.contains arg then .unknownArgument else strayArgument subcommands)

/-- Reads options up to the name of a subcommand or to the end. -/
def scan (opts : List Opt) (subcommands : List String) (p : Progress) :
    List String → Except UsageError Scanned
  | [] => finish p
  | arg :: rest =>
    if p.pending.isNone && subcommands.contains arg then
      .ok { given := p.given, subcommand := some (arg, rest) }
    else match arg.toList with
      | ['-', '-'] => scanEscaped subcommands p rest
      | '-' :: '-' :: text => do scan opts subcommands (← readLong opts p text) rest
      | '-' :: c :: letters => do scan opts subcommands (← readLetters opts p (c :: letters)) rest
      -- a single dash is a value like any other text
      | _ =>
        match p.pending with
        | some o => do scan opts subcommands (← p.record o (some arg)) rest
        | none => .error (strayArgument subcommands)

end FiniteState.Command

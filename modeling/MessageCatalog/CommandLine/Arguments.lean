/-
# `MessageCatalog.CommandLine.Arguments` — what a command line says

A command line names a command.  In front of the command stand options that
concern every command; behind it the same options may stand again, together
with the options and the operands of the command.

    [--verbose] [--silent] [--project DIR] COMMAND
    compile CATALOG... [-o FILE] [--id-based] [--compress] [--no-unfinished]
      [--remove-identical] [--mark-untranslated PREFIX]
      [--target-language CODE] [--squeeze-comments]
    decompile FILE [-o FILE]
    plural-info

An option with a value takes it from behind an equals sign or from the next
argument, and a single letter takes it also from right behind.  No option
may be given twice at one level.  Behind a double hyphen all arguments are
operands.

The arguments are read from left to right, and the first fault counts.  The
value of an option and the operands are looked at only when they are
complete, that is, when the next option, an operand of another kind or the
end of the level is reached; an argument that is not known there comes
first.
-/
import MessageCatalog.Path
import MessageCatalog.Text.Split

namespace MessageCatalog.CommandLine

/-! ## Results -/

/-- Why a command line does not lead to a run. -/
inductive UsageError where
  | helpWanted
  | versionWanted
  /-- There is nothing on the command line. -/
  | nothingGiven
  | commandMissing
  | commandUnknown
  | operandMissing
  | argumentUnknown
  /-- Two options exclude each other, or one is given twice. -/
  | conflict
  /-- A value is missing, or it is empty where it must not be. -/
  | valueInvalid
  /-- A value is given to an option that takes none. -/
  | valueUnneeded
deriving DecidableEq, Repr

/-- What `compile` is to do. -/
structure CompileArguments where
  inputs : List Path := []
  output : Option Path := none
  idBased : Bool := false
  compress : Bool := false
  noUnfinished : Bool := false
  removeIdentical : Bool := false
  markUntranslated : Option String := none
  targetLanguage : Option String := none
  squeezeComments : Bool := false
deriving DecidableEq, Repr

/-- A command with what belongs to it. -/
inductive Command where
  | compile (arguments : CompileArguments)
  | decompile (input : Path) (output : Option Path)
  | pluralInfo
deriving DecidableEq, Repr

/-- A command line. -/
structure Invocation where
  verbose : Bool
  silent : Bool
  project : Option Path
  command : Command
deriving DecidableEq, Repr

/-! ## Names -/

/-- The name of a command. -/
inductive CommandName where
  | compile
  | decompile
  | pluralInfo
deriving DecidableEq, Repr

/-- The command with a name. -/
def commandName? (name : String) : Option CommandName :=
  [("compile", CommandName.compile), ("decompile", .decompile), ("plural-info", .pluralInfo)].lookup
    name

/-- The name that asks for help. -/
def helpCommand : String := "help"

/-- An option without a value. -/
inductive Switch where
  | help
  | version
  | verbose
  | silent
  | idBased
  | compress
  | noUnfinished
  | removeIdentical
  | squeezeComments
deriving DecidableEq, Repr

/-- An option with a value. -/
inductive Setting where
  | project
  | output
  | markUntranslated
  | targetLanguage
deriving DecidableEq, Repr

/-- The value of an option has to be the name of a file. -/
def Setting.isPath : Setting → Bool
  | project | output => true
  | markUntranslated | targetLanguage => false

/-- An option. -/
inductive Opt where
  | switch (name : Switch)
  | setting (name : Setting)
deriving DecidableEq, Repr

/-- An option with its spellings. -/
structure Spelling where
  long : String
  short : Option Char := none
  opt : Opt

/-- The options that concern every command. -/
def commonOptions : List Spelling :=
  [
    { long := "help", short := some 'h', opt := .switch .help },
    { long := "verbose", opt := .switch .verbose },
    { long := "silent", opt := .switch .silent },
    { long := "project", opt := .setting .project }
  ]

/-- The option that names the file to write. -/
def outputOption : Spelling := { long := "output", short := some 'o', opt := .setting .output }

/-- The options of a level: in front of the command, or behind it. -/
def optionsOf : Option CommandName → List Spelling
  | none => { long := "version", short := some 'V', opt := .switch .version } :: commonOptions
  | some .compile =>
    commonOptions ++ [
      outputOption,
      { long := "id-based", opt := .switch .idBased },
      { long := "compress", opt := .switch .compress },
      { long := "no-unfinished", opt := .switch .noUnfinished },
      { long := "remove-identical", opt := .switch .removeIdentical },
      { long := "mark-untranslated", opt := .setting .markUntranslated },
      { long := "target-language", opt := .setting .targetLanguage },
      { long := "squeeze-comments", opt := .switch .squeezeComments }]
  | some .decompile => commonOptions ++ [outputOption]
  | some .pluralInfo => commonOptions

/-- The option with a long name. -/
def longOption? (level : Option CommandName) (name : String) : Option Opt :=
  ((optionsOf level).find? fun spelling => spelling.long == name).map Spelling.opt

/-- The option with a letter. -/
def shortOption? (level : Option CommandName) (letter : Char) : Option Opt :=
  ((optionsOf level).find? fun spelling => spelling.short == some letter).map Spelling.opt

/-! ## Arguments -/

/-- An argument by its form. -/
inductive Token where
  /-- The double hyphen. -/
  | separator
  | long (name : String) (value : Option String)
  | short (letters : List Char)
  | word (text : String)
deriving DecidableEq, Repr

/-- The form of an argument. -/
def Token.of (argument : String) : Token :=
  match argument.toList with
  | ['-', '-'] => .separator
  | '-' :: '-' :: rest =>
    match splitFirst? (· == '=') rest with
    | some (name, value) => .long (String.ofList name) (some (String.ofList value))
    | none => .long (String.ofList rest) none
  | '-' :: letter :: rest => .short (letter :: rest)
  | _ => .word argument

/-! ## Levels -/

/-- What is given but not looked at yet. -/
inductive Pending where
  /-- An option with its value, which may still come. -/
  | setting (name : Setting) (value : Option String)
  /-- Operands. -/
  | operands (values : List String)
deriving DecidableEq, Repr

/-- What is known of a level. -/
structure Level where
  switches : List Switch := []
  settings : List (Setting × String) := []
  operands : List String := []
  pending : Option Pending := none
  /-- A double hyphen was met. -/
  escaped : Bool := false
deriving DecidableEq, Repr

namespace Level

/-- Gives an option its value. -/
def give (level : Level) (name : Setting) (value : String) : Except UsageError Level :=
  if level.settings.any fun given => given.1 == name then .error .conflict
  else if name.isPath && value.isEmpty then .error .valueInvalid
  else .ok { level with settings := (name, value) :: level.settings }

/-- Looks at what is pending. -/
def settle (level : Level) : Except UsageError Level :=
  let settled := { level with pending := none }
  match level.pending with
  | none => .ok settled
  | some (.setting _ none) => .error .valueInvalid
  | some (.setting name (some value)) => settled.give name value
  | some (.operands values) =>
    if values.any String.isEmpty then .error .valueInvalid
    else .ok { settled with operands := settled.operands ++ values }

/-- Turns on an option without a value. -/
def turnOn (level : Level) (name : Switch) : Except UsageError Level := do
  let level ← level.settle
  match name with
  | .help => throw .helpWanted
  | .version => throw .versionWanted
  | name =>
    if level.switches.contains name then throw .conflict
    else return { level with switches := name :: level.switches }

/-- Begins an option with a value, which may be attached to it. -/
def begin (level : Level) (name : Setting) (value : Option String) : Except UsageError Level := do
  let level ← level.settle
  match value with
  | some value => level.give name value
  | none => return { level with pending := some (.setting name none) }

/-- Reads an option by its long name. -/
def readLong (command : Option CommandName) (level : Level) (name : String)
    (value : Option String) : Except UsageError Level :=
  match longOption? command name with
  | none => .error .argumentUnknown
  | some (.setting setting) => level.begin setting value
  | some (.switch switch) => if value.isSome then .error .valueUnneeded else level.turnOn switch

/-- Reads options by their letters. -/
def readShort (command : Option CommandName) (level : Level) :
    List Char → Except UsageError Level
  | [] => .ok level
  | letter :: rest =>
    match shortOption? command letter with
    | none => .error .argumentUnknown
    | some (.switch switch) =>
      match level.turnOn switch with
      | .error e => .error e
      | .ok level => readShort command level rest
    | some (.setting setting) =>
      level.begin setting <|
        match rest with
        | [] => none
        | '=' :: value => some (String.ofList value)
        | value => some (String.ofList value)

/-- The number of operands that are given. -/
def operandCount (level : Level) : Nat :=
  level.operands.length
    + match level.pending with
      | some (.operands values) => values.length
      | _ => 0

/-- Reads an operand. -/
def readOperand (command : Option CommandName) (level : Level) (value : String) :
    Except UsageError Level :=
  match command with
  | none =>
    if level.escaped && (value == helpCommand || (commandName? value).isSome) then
      .error .argumentUnknown
    else .error .commandUnknown
  | some .pluralInfo => .error .argumentUnknown
  | some .decompile =>
    if 0 < level.operandCount then .error .argumentUnknown
    else do return { ← level.settle with pending := some (.operands [value]) }
  | some .compile =>
    match level.pending with
    | some (.operands values) =>
      .ok { level with pending := some (.operands (values ++ [value])) }
    | _ => do return { ← level.settle with pending := some (.operands [value]) }

/-- Reads a word: the value of an option that waits for it, or an operand. -/
def readWord (command : Option CommandName) (level : Level) (text : String) :
    Except UsageError Level :=
  match level.pending with
  | some (.setting name none) => .ok { level with pending := some (.setting name (some text)) }
  | _ => level.readOperand command text

/-- Reads an argument. -/
def read (command : Option CommandName) (level : Level) (argument : String) :
    Except UsageError Level :=
  if level.escaped then level.readOperand command argument
  else
    match Token.of argument with
    | .separator => .ok { level with escaped := true }
    | .long name value => level.readLong command name value
    | .short letters => level.readShort command letters
    | .word text => level.readWord command text

/-- An option waits for its value. -/
def isWaiting (level : Level) : Bool :=
  match level.pending with
  | some (.setting _ none) => true
  | _ => false

/-- Something is given on the level. -/
def isUsed (level : Level) : Bool := !level.switches.isEmpty || !level.settings.isEmpty

/-- Options that exclude each other are not both given. -/
def checkConflicts (level : Level) : Except UsageError Unit :=
  if level.switches.contains .verbose && level.switches.contains .silent then .error .conflict
  else .ok ()

/-- The value of an option. -/
def value? (level : Level) (name : Setting) : Option String := level.settings.lookup name

/-- The file that an option names. -/
def path? (level : Level) (name : Setting) : Option Path := (level.value? name).map Path.mk

/-- An option is given. -/
def has (level : Level) (name : Switch) : Bool := level.switches.contains name

end Level

/-! ## Command lines -/

/-- The level behind a command. -/
def readCommandLevel (name : CommandName) (arguments : List String) : Except UsageError Level := do
  let level ← arguments.foldlM (Level.read (some name)) {}
  let level ← level.settle
  level.checkConflicts
  if name ≠ .pluralInfo && level.operands.isEmpty then throw .operandMissing
  return level

/-- What help is asked for.  Only commands have one. -/
def helpOn : List String → UsageError
  | [] => .helpWanted
  | [name] =>
    if name == helpCommand || (commandName? name).isSome then .helpWanted else .commandUnknown
  | _ => .commandUnknown

/-- The command of a level. -/
def commandOf (name : CommandName) (level : Level) : Command :=
  match name with
  | .pluralInfo => .pluralInfo
  | .decompile =>
    .decompile ((level.operands.head?.map Path.mk).getD ⟨""⟩) (level.path? .output)
  | .compile =>
    .compile {
      inputs := level.operands.map Path.mk
      output := level.path? .output
      idBased := level.has .idBased
      compress := level.has .compress
      noUnfinished := level.has .noUnfinished
      removeIdentical := level.has .removeIdentical
      markUntranslated := level.value? .markUntranslated
      targetLanguage := level.value? .targetLanguage
      squeezeComments := level.has .squeezeComments }

/-- Joins the two levels of a command line.  A value behind the command
counts more than one in front of it. -/
def join (common : Level) (name : CommandName) (level : Level) : Invocation :=
  { verbose := common.has .verbose || level.has .verbose
    silent := common.has .silent || level.has .silent
    project := (level.path? .project).or (common.path? .project)
    command := commandOf name level }

/-- Reads a command line from some argument on, with what is known of the
level in front of the command. -/
def readFrom (common : Level) : List String → Except UsageError Invocation
  | [] => do
    let common ← common.settle
    throw (if common.isUsed then .commandMissing else .nothingGiven)
  | argument :: rest =>
    if !common.escaped && !common.isWaiting && argument == helpCommand then .error (helpOn rest)
    else
      match if common.escaped || common.isWaiting then none else commandName? argument with
      | some name => do
        let level ← readCommandLevel name rest
        let common ← common.settle
        common.checkConflicts
        return join common name level
      | none =>
        match common.read none argument with
        | .error e => .error e
        | .ok common => readFrom common rest

/-- Reads a command line. -/
def parse (arguments : List String) : Except UsageError Invocation := readFrom {} arguments

end MessageCatalog.CommandLine

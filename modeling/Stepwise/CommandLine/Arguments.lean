import Stepwise.Interpreter
import Stepwise.Number.Literal
/-!
# Command line arguments

A command line names a task, and options that hold for every task and may stand on either side of
its name. Each option may be given once on each side; the value given behind the name counts. The
arguments are taken from left to right, and the first that asks for the version or for help, or
that is wrong, decides.
-/

namespace Stepwise.CommandLine

/-- What the program is to do. -/
inductive Task where
  /-- Answers the lines of standard input. -/
  | session
  /-- Answers one line. -/
  | line (source : String)
  /-- Answers the lines of a file. -/
  | script (path : String)
  deriving DecidableEq, Repr

/-- What a command line asks for. -/
inductive Request where
  | run (settings : Settings) (task : Task)
  | version
  | help
  deriving DecidableEq, Repr

/-- Why a command line cannot be followed. -/
inductive UsageError where
  | unknownOption (argument : String)
  | unknownCommand (argument : String)
  | unexpected (argument : String)
  | missing (name : String)
  | invalidValue (value : String)
  | repeated (option : String)
  deriving DecidableEq, Repr

/-- The wording of a usage error. -/
def UsageError.message : UsageError → String
  | .unknownOption argument => s!"unknown option '{argument}'"
  | .unknownCommand argument => s!"unknown command '{argument}'"
  | .unexpected argument => s!"unexpected argument '{argument}'"
  | .missing name => s!"missing {name}"
  | .invalidValue value => s!"invalid value '{value}'"
  | .repeated option => s!"option '{option}' given twice"

/-! ## Kinds of argument -/

/-- One piece of a command line. -/
inductive Item where
  | stepLimit (value : Option String)
  | showSteps
  | version
  | help
  | unknown (argument : String)
  | word (text : String)
  /-- The argument that ends the options. -/
  | separator
  /-- A word behind the separator. -/
  | literal (text : String)
  deriving DecidableEq, Repr

/-- The kind of a single argument. A lone dash is a word. -/
def Item.ofArgument (argument : String) : Item :=
  match argument.toList with
  | '-' :: '-' :: name =>
    if name = "steps".toList then .showSteps
    else if name = "version".toList then .version
    else if name = "help".toList then .help
    else
      let key := "step-limit=".toList
      if key.isPrefixOf name then .stepLimit (some (String.ofList (name.drop key.length)))
      else .unknown argument
  | '-' :: 'V' :: _ => .version
  | '-' :: 'h' :: _ => .help
  | '-' :: _ :: _ => .unknown argument
  | _ => .word argument

/-- The pieces of a command line. An option may take its value from the next argument. -/
def items : List String → List Item
  | [] => []
  | argument :: rest =>
    if argument = "--" then .separator :: rest.map .literal
    else if argument = "--step-limit" then
      match rest with
      | [] => [.stepLimit none]
      | value :: rest => .stepLimit (some value) :: items rest
    else .ofArgument argument :: items rest

/-! ## Options -/

/-- The options given on one side of the task's name. -/
structure Options where
  stepLimit : Option Nat := none
  showSteps : Bool := false
  deriving DecidableEq, Repr

/-- The greatest step limit that can be asked for. -/
def maxStepLimit : Nat := UInt64.size - 1

/-- A step limit: decimal digits, perhaps behind a plus sign. -/
def readStepLimit (value : String) : Except UsageError Nat :=
  let digits := match value.toList with
    | '+' :: rest => rest
    | cs => cs
  let n := digitsValue digits
  if !digits.isEmpty && digits.all Char.isDigit && n ≤ maxStepLimit then .ok n
  else .error (.invalidValue value)

namespace Options

/-- Takes in the step limit. -/
def withStepLimit (seen : Options) : Option String → Except UsageError Options
  | none => .error (.missing "value for '--step-limit'")
  | some value =>
    if seen.stepLimit.isSome then .error (.repeated "--step-limit")
    else (readStepLimit value).map fun n => { seen with stepLimit := some n }

/-- Takes in the wish to see every step. -/
def withShowSteps (seen : Options) : Except UsageError Options :=
  if seen.showSteps then .error (.repeated "--steps") else .ok { seen with showSteps := true }

/-- The settings that follow from the options in front of the task's name and those behind it. -/
def settings (front behind : Options) : Settings :=
  let defaults : Settings := {}
  { stepLimit := (behind.stepLimit <|> front.stepLimit).getD defaults.stepLimit
    showSteps := front.showSteps || behind.showSteps }

end Options

/-! ## Commands -/

/-- The names of tasks. -/
inductive Command where
  | repl
  | eval
  | run
  deriving DecidableEq, Repr

/-- The command of a name. -/
def Command.ofName? (name : String) : Option Command :=
  if name = "repl" then some .repl
  else if name = "eval" then some .eval
  else if name = "run" then some .run
  else none

/-- How many words a command takes. -/
def Command.wordCount : Command → Nat
  | .repl => 0
  | .eval | .run => 1

/-- The task of a command with its words. -/
def Command.task : Command → List String → Except UsageError Task
  | .repl, _ => .ok .session
  | .eval, source :: _ => .ok (.line source)
  | .run, path :: _ => .ok (.script path)
  | .eval, [] => .error (.missing "source")
  | .run, [] => .error (.missing "script")

/-- Takes in a word of a command. The path of a script is not empty. -/
def Command.addWord (command : Command) (words : List String) (word : String) :
    Except UsageError (List String) :=
  if command.wordCount ≤ words.length then .error (.unexpected word)
  else if command = .run && word = "" then .error (.missing "script")
  else .ok (words ++ [word])

/-- Follows the arguments behind the name of a command. -/
def parseCommand (command : Command) (front : Options) (words : List String) (behind : Options) :
    List Item → Except UsageError Request
  | [] => return .run (front.settings behind) (← command.task words)
  | item :: rest =>
    match item with
    | .help => .ok .help
    | .version => .error (.unknownOption "--version")
    | .unknown argument => .error (.unknownOption argument)
    | .stepLimit value => do parseCommand command front words (← behind.withStepLimit value) rest
    | .showSteps => do parseCommand command front words (← behind.withShowSteps) rest
    | .separator => parseCommand command front words behind rest
    | .word word | .literal word => do
      parseCommand command front (← command.addWord words word) behind rest

/-- Help may be asked for one command. -/
def parseHelp : List Item → Except UsageError Request
  | [] => .ok .help
  | [.word name] =>
    if name = "help" || (Command.ofName? name).isSome then .ok .help
    else .error (.unknownCommand name)
  | _ => .error (.unexpected "help")

/-- Follows the arguments in front of the name of a command. Without a command, a session is
meant. -/
def parseItems (front : Options) : List Item → Except UsageError Request
  | [] => .ok (.run (front.settings {}) .session)
  | item :: rest =>
    match item with
    | .help => .ok .help
    | .version => .ok .version
    | .unknown argument => .error (.unknownOption argument)
    | .stepLimit value => do parseItems (← front.withStepLimit value) rest
    | .showSteps => do parseItems (← front.withShowSteps) rest
    | .separator => parseItems front rest
    | .literal word => .error (.unexpected word)
    | .word name =>
      if name = "help" then parseHelp rest
      else
        match Command.ofName? name with
        | some command => parseCommand command front [] {} rest
        | none => .error (.unknownCommand name)

/-- What a command line asks for. -/
def parse (arguments : List String) : Except UsageError Request :=
  parseItems {} (items arguments)

end Stepwise.CommandLine

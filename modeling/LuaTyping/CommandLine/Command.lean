import LuaTyping.CommandLine.Arguments
import LuaTyping.CommandLine.Help

/-!
# Commands

The commands of the program.

* `infer FILE --line L --column C [--root DIR] [--json]` asks for the types of the expression at a
  place of a file; lines and columns count from one.
* `check [DIR]` asks what is wrong with the files of a project.
* `help [COMMAND]`, `-h` and `--help` ask for help, also behind the other two commands.
* `-V` and `--version` ask for the version.

The flag `--verbose` is taken by `infer` and `check`, and also in front of every command.

* `Command.ofWords?`: the command of a command line, if it is one.
-/

namespace LuaTyping

/-- What is asked of `infer`. -/
structure InferRequest where
  file : String
  line : Nat
  column : Nat
  /-- The root directory of the project, if it is not the working directory. -/
  root? : Option String
  asJson : Bool
  deriving DecidableEq, Repr, Inhabited

/-- A command. -/
inductive Command
  | infer (request : InferRequest)
  /-- Checks the project in a directory, or else in the working directory. -/
  | check (root? : Option String)
  | help (topic : HelpTopic) (full : Bool)
  | version
  deriving DecidableEq, Repr, Inhabited

namespace Command

/-- The largest line and column. -/
def numberLimit : Nat := UInt32.size

/-- A number: digits, and perhaps a sign in front.  A number below zero is refused. -/
def number? (text : String) : Option Nat :=
  let cs := text.toList
  let negative := cs.head? = some '-'
  let digits := if negative ∨ cs.head? = some '+' then cs.drop 1 else cs
  if digits ≠ [] ∧ digits.all Char.isDigit = true then
    let n := digits.foldl (fun n c => n * 10 + (c.toNat - 48)) 0
    if n < numberLimit ∧ (negative → n = 0) then some n else none
  else none

/-- The word is a path: it may not be empty. -/
def isPath (text : String) : Bool := text != ""

/-- The word is a number. -/
def isNumber (text : String) : Bool := (number? text).isSome

/-- The command of arguments, or the help that was asked for instead. -/
def ofReading (topic : HelpTopic) (command : Arguments → Option Command) :
    Except ReadingEnd Arguments → Option Command
  | .ok a => command a
  | .error .refused => none
  | .error (.help full) => some (.help topic full)

/-- What `infer` understands. -/
def inferRules : ArgumentRules where
  flags := ["--json", "--verbose"]
  options := [("--line", isNumber), ("--column", isNumber), ("--root", isPath)]
  positionals := 1

/-- The command `infer` with its arguments. -/
def inferOf? (a : Arguments) : Option Command := do
  let line ← (a.value? "--line").bind number?
  let column ← (a.value? "--column").bind number?
  let file ← a.positionals.head?
  return .infer ⟨file, line, column, a.value? "--root", a.hasFlag "--json"⟩

/-- What `check` understands. -/
def checkRules : ArgumentRules where
  flags := ["--verbose"]
  options := []
  positionals := 1

/-- The command `check` with its arguments. -/
def checkOf? (a : Arguments) : Option Command := some (.check a.positionals.head?)

/-- The command `help` with the names of commands; no command has others below it. -/
def helpOf? : List String → Option Command
  | [] => some (.help .program true)
  | ["infer"] => some (.help .infer true)
  | ["check"] => some (.help .check true)
  | ["help"] => some (.help .help true)
  | _ => none

/-- The command of words, after `--verbose` or not. -/
def ofWordsAfter? : List String → (isVerbose : Bool) → Option Command
  | [], _ => none
  | word :: words, isVerbose =>
    if word = "infer" then ofReading .infer inferOf? (Arguments.read inferRules words)
    else if word = "check" then ofReading .check checkOf? (Arguments.read checkRules words)
    else if word = "help" then helpOf? words
    else if word = "--verbose" then if isVerbose then none else ofWordsAfter? words true
    else if word = "--help" then some (.help .program true)
    else if word = "--version" then some .version
    else match Arguments.letter? word with
      | some 'h' => some (.help .program false)
      | some 'V' => some .version
      | _ => none

/-- The command of a command line. -/
def ofWords? (words : List String) : Option Command := ofWordsAfter? words false

end Command

end LuaTyping

/-!
# Help pages

What a program says about itself, in brief or in full.  A brief page begins with a summary and
explains each argument on the line that names it, in two columns; a full page begins with the
details and explains each argument below the line that names it.  A page without details is always
brief.  Commands are explained in two columns on both kinds of pages.

* `HelpPage.text`: a page in brief or in full.
* `HelpTopic.page`: what there is to say about the program and each of its commands.
-/

namespace LuaTyping

/-- The name of the program. -/
def programName : String := "luasense"

/-- The version of the program. -/
def programVersion : String := "0.1.0"

/-- Something that can be written on the command line, and what it is for. -/
structure HelpEntry where
  term : String
  purpose : String
  deriving DecidableEq, Repr, Inhabited

/-- What is said about a program or a command. -/
structure HelpPage where
  summary : String
  details? : Option String := none
  /-- How it is called, behind the name of the program. -/
  usage : String
  commands : List HelpEntry := []
  arguments : List HelpEntry := []
  /-- The options that come before the one for help. -/
  options : List HelpEntry := []
  /-- The options that come behind the one for help. -/
  lastOptions : List HelpEntry := []
  hasHelpOption : Bool := true
  deriving DecidableEq, Repr, Inhabited

namespace HelpPage

/-- A text with blanks behind it. -/
def pad (width : Nat) (text : String) : String :=
  text ++ String.ofList (List.replicate (width - text.length) ' ')

/-- Entries in two columns. -/
def columns (entries : List HelpEntry) : String :=
  let width := entries.foldl (fun n e => max n e.term.length) 0
  "\n".intercalate (entries.map fun e => "  " ++ pad width e.term ++ "  " ++ e.purpose)

/-- Entries with their purposes below, and free lines between them. -/
def blocks (entries : List HelpEntry) : String :=
  "\n\n".intercalate (entries.map fun e => "  " ++ e.term ++ "\n          " ++ e.purpose)

/-- Entries under a heading, if there are any. -/
def part (heading : String) (layout : List HelpEntry → String) (entries : List HelpEntry) :
    List String :=
  if entries.isEmpty then [] else [heading ++ ":\n" ++ layout entries]

/-- The option that asks for the page itself. -/
def helpEntry (p : HelpPage) (full : Bool) : HelpEntry :=
  ⟨"-h, --help",
    if p.details?.isNone then "Print help"
    else if full then "Print help (see a summary with '-h')"
    else "Print help (see more with '--help')"⟩

/-- All options. -/
def allOptions (p : HelpPage) (full : Bool) : List HelpEntry :=
  p.options ++ (if p.hasHelpOption then [p.helpEntry full] else []) ++ p.lastOptions

/-- The page, in full if that is wanted and there is more to say than in brief. -/
def text (p : HelpPage) (full : Bool) : String :=
  let full := full && p.details?.isSome
  let layout := if full then blocks else columns
  let opening := if full then p.details?.getD p.summary else p.summary
  let parts := [opening, "Usage: " ++ programName ++ " " ++ p.usage]
    ++ part "Commands" columns p.commands ++ part "Arguments" layout p.arguments
    ++ part "Options" layout (p.allOptions full)
  "\n\n".intercalate parts ++ "\n"

end HelpPage

/-- What help can be asked about. -/
inductive HelpTopic
  | program
  | infer
  | check
  /-- The command that prints help. -/
  | help
  deriving DecidableEq, Repr, Inhabited

namespace HelpTopic

/-- The flag that every command takes. -/
def verboseEntry : HelpEntry := ⟨"    --verbose", "Also print logs to stderr"⟩

/-- What the root directory of a project is, where none is given. -/
def rootPurpose : String := "Project root. Defaults to the current directory"

/-- The page about the program. -/
def programPage : HelpPage where
  summary := "Type inference for Lua projects"
  details? := some <| "Luasense parses every Lua file of a project and infers the possible " ++
    "types of expressions, following locals, globals, table members, function returns, " ++
    "doc comment annotations and require() across files."
  usage := "[OPTIONS] <COMMAND>"
  commands := [
    ⟨"infer", "Infer the type of the expression at a position"⟩,
    ⟨"check", "Parse every Lua file of a project and report syntax errors"⟩,
    ⟨"help", "Print this message or the help of the given subcommand(s)"⟩]
  options := [verboseEntry]
  lastOptions := [⟨"-V, --version", "Print version"⟩]

/-- The page about `infer`. -/
def inferPage : HelpPage where
  summary := "Infer the type of the expression at a position"
  details? := some <| "Scans the project, then infers the innermost expression covering the " ++
    "given 1-based line and column of FILE."
  usage := "infer [OPTIONS] --line <LINE> --column <COLUMN> <FILE>"
  arguments := [⟨"<FILE>", "Lua file, absolute or relative to the project root"⟩]
  options := [
    ⟨"    --line <LINE>", "1-based line"⟩,
    verboseEntry,
    ⟨"    --column <COLUMN>", "1-based column"⟩,
    ⟨"    --root <DIR>", rootPurpose⟩,
    ⟨"    --json", "Print the answer as JSON"⟩]

/-- The page about `check`. -/
def checkPage : HelpPage where
  summary := "Parse every Lua file of a project and report syntax errors"
  usage := "check [OPTIONS] [DIR]"
  arguments := [⟨"[DIR]", rootPurpose⟩]
  options := [verboseEntry]

/-- The page about `help`. -/
def helpPage : HelpPage where
  summary := "Print this message or the help of the given subcommand(s)"
  usage := "help [COMMAND]..."
  arguments := [⟨"[COMMAND]...", "Print help for the subcommand(s)"⟩]
  hasHelpOption := false

/-- The page about a topic. -/
def page : HelpTopic → HelpPage
  | program => programPage
  | infer => inferPage
  | check => checkPage
  | help => helpPage

end HelpTopic

end LuaTyping

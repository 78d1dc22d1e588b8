import LuaTyping.CommandLine.Command
import LuaTyping.Json.Printer
import LuaTyping.Workspace.Basic

/-!
# Running commands

A command reads the disk and says something.  It may fail, and then still has said what it had to
say before.

* `Command.run`: what a command says and whether it fails.
-/

namespace LuaTyping

/-- What a command says, and why it failed if it did. -/
structure CommandResult where
  output : String := ""
  failure? : Option String := none
  deriving DecidableEq, Repr, Inhabited

namespace Command

/-- Lines, each with its end. -/
def unlines (lines : List String) : String := lines.foldl (fun out l => out ++ l ++ "\n") ""

/-- The root of the project: a directory, or else the working directory. -/
def rootOf (disk : Disk) (root? : Option String) : String :=
  root?.getD (Disk.pathOf disk.workingDirectory)

/-- The file that is meant: a path that is not absolute is taken from the working directory if
there is such a file, and else from the root. -/
def fileOf (disk : Disk) (path : String) : String :=
  let here := Path.join (Disk.pathOf disk.workingDirectory) path
  if !Path.isAbsolute path && disk.isFile here then here else path

/-- The lines that tell the types of an expression. -/
def typeLines (w : Workspace) : Option TypeSet → List String
  | none => ["  unknown"]
  | some types =>
    if types.isEmpty then ["  (no types)"]
    else types.toList.map fun t => "  " ++ w.typeText t

/-- The answer to a request in lines. -/
def answerLines (w : Workspace) (request : InferRequest) : Option ExpressionType → List String
  | none => ["no expression at " ++ toString request.line ++ ":" ++ toString request.column]
  | some answer => answer.text :: typeLines w answer.types

/-- The answer to a request in JSON. -/
def answerJson : Option ExpressionType → Json
  | none => .null
  | some answer => answer.toJson

/-- Answers a request. -/
def runInfer (disk : Disk) (request : InferRequest) : CommandResult :=
  if request.line = 0 ∨ request.column = 0 then { failure? := some "line and column are 1-based" }
  else
    match Workspace.ofDisk disk (rootOf disk request.root?) with
    | .error e => { failure? := some e.message }
    | .ok w =>
      let position : Position := ⟨request.line - 1, request.column - 1⟩
      match w.inferAt disk (fileOf disk request.file) position with
      | .error e => { failure? := some e.message }
      | .ok answer =>
        if request.asJson then { output := (answerJson answer).pretty ++ "\n" }
        else { output := unlines (answerLines w request answer) }

/-- A number of errors in words. -/
def errorCount (n : Nat) : String := toString n ++ " syntax errors"

/-- What is wrong, in a line. -/
def diagnosticLine (d : Diagnostic) : String :=
  d.path ++ ":" ++ Workspace.positionText d.position ++ ": " ++ d.message

/-- Checks a project; it fails if something is wrong. -/
def runCheck (disk : Disk) (root? : Option String) : CommandResult :=
  match Workspace.ofDisk disk (rootOf disk root?) with
  | .error e => { failure? := some e.message }
  | .ok w =>
    let ds := w.diagnostics
    let count := errorCount ds.length
    { output := unlines (ds.map diagnosticLine ++
        [toString w.project.size ++ " files checked, " ++ count])
      failure? := if ds = [] then none else some count }

/-- Runs a command. -/
def run (disk : Disk) : Command → CommandResult
  | infer request => runInfer disk request
  | check root? => runCheck disk root?
  | help topic full => { output := topic.page.text full }
  | version => { output := programName ++ " " ++ programVersion ++ "\n" }

end Command

end LuaTyping

import LuaTyping.CommandLine.Run

/-!
# The program

Reads the files below the root of the project and the file that is asked about, runs the command
on them, and prints what it says.  A command line that is no command ends with 2, a command that
fails with 1.
-/

namespace LuaTyping.Program

/-- The text of a file; none if it cannot be read. -/
def readText (path : String) : IO (Option String) := do
  try
    return String.fromUTF8? (← IO.FS.readBinFile path)
  catch _ => return none

/-- The place that a path leads to; none if there is nothing. -/
def place? (path : String) : IO (Option String) := do
  try
    return some (← IO.FS.realPath path).toString
  catch _ => return none

/-- What is below a directory, behind `found`.  Links to directories are not followed. -/
partial def readBelow (path : String) (names : Names) (found : Array (Names × DiskEntry)) :
    IO (Array (Names × DiskEntry)) := do
  let mut found := found
  for entry in ← (← IO.FS.realPath path).readDir do
    let names := names ++ [entry.fileName]
    let isLink := (← entry.path.symlinkMetadata).type == .symlink
    if ← entry.path.isDir then
      if !isLink then
        found ← readBelow entry.path.toString names (found.push (names, .directory))
    else
      let isWanted := Path.isLuaName entry.fileName || entry.fileName == configFileName
      let text? ← if isWanted then readText entry.path.toString else pure none
      found := found.push (names, .file text?)
  return found

/-- The directories on the way to a place. -/
def waysTo (names : Names) : List (Names × DiskEntry) :=
  (List.range names.length).map fun i => (names.take i, .directory)

/-- What a path leads to and what is below, with the directories on the way. -/
def readAt (path : String) : IO (List (Names × DiskEntry)) := do
  match ← place? path with
  | none => return []
  | some place =>
    let names := Disk.namesIn place
    if ← (← IO.FS.realPath place).isDir then
      return waysTo names ++ (← readBelow place names #[(names, .directory)]).toList
    else
      return waysTo names ++ [(names, .file (← readText place))]

/-- The path that a command is about, beside the root of the project. -/
def subject? : Command → Option String
  | .infer request => some request.file
  | _ => none

/-- The root that a command names. -/
def root? : Command → Option String
  | .infer request => request.root?
  | .check root? => root?
  | _ => none

/-- The part of the disk that a command may look at. -/
def readDisk (command : Command) : IO Disk := do
  let here := (← IO.currentDir).toString
  let names := Disk.namesIn here
  let root := (root? command).getD here
  let below ← readAt root
  let subjects := match subject? command with
    | some file => [file, Path.join root file]
    | none => []
  let beside ← subjects.mapM readAt
  return ⟨below ++ waysTo names ++ [(names, .directory)] ++ beside.flatten, names⟩

end LuaTyping.Program

open LuaTyping in
/-- Runs the command of the command line. -/
def main (words : List String) : IO UInt32 := do
  match Command.ofWords? words with
  | none =>
    IO.eprintln ("Usage: " ++ programName ++ " " ++ HelpTopic.programPage.usage)
    return 2
  | some command =>
    let result := command.run (← Program.readDisk command)
    IO.print result.output
    match result.failure? with
    | none => return 0
    | some reason =>
      IO.eprintln ("error: " ++ reason)
      return 1

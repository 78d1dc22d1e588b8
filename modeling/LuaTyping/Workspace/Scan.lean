import LuaTyping.Config
import LuaTyping.Disk

/-!
# The files of a project on a disk

The files of a project are the Lua files below its root, but for those in excluded directories.
They are ordered by their names from the root on, name by name.  Those that are no text are passed
over.

* `Disk.luaFiles`: the Lua files.
* `Disk.scan`: their paths from the root with their texts.
-/

namespace LuaTyping

/-- The order of places: name by name. -/
def namesLe : Names → Names → Bool
  | [], _ => true
  | _ :: _, [] => false
  | a :: as, b :: bs => if a = b then namesLe as bs else decide (a < b)

namespace Disk

/-- A place below the root is that of a Lua file in no excluded directory; what the root itself is
called does not matter. -/
def isListed (config : Config) (root names : Names) : Bool :=
  root.isPrefixOf names
    && !(names.drop root.length).dropLast.any config.isExcluded
    && (names.getLast?).any Path.isLuaName

/-- The Lua files of a project: their places and texts, in order. -/
def luaFiles (d : Disk) (config : Config) (root : String) : List (Names × Option String) :=
  match d.find? root with
  | none => []
  | some root =>
    let files := d.entries.filterMap fun e =>
      match e.2 with
      | .file text? => if isListed config root e.1 then some (e.1, text?) else none
      | .directory => none
    files.mergeSort fun a b => namesLe a.1 b.1

/-- The paths of the Lua files of a project from its root with their texts. -/
def scan (d : Disk) (config : Config) (root : String) : List (String × String) :=
  (d.luaFiles config root).filterMap fun f =>
    f.2.map fun text => (Path.relative root (pathOf f.1), text)

end Disk

end LuaTyping

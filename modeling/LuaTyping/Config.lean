import LuaTyping.Infer.Basic
import LuaTyping.Json

/-!
# Configuration

What a project may set for itself: its search patterns, the limit of nested computations, and the
names of directories that are passed over.  It is written as an object, or as an array of the
values in order; what is not written has its default.

* `Config.ofJson?`: reads a configuration.  Members with other names are passed over, a member
  that is written twice is refused.
* `Config.fault?`: what is wrong with a configuration.
-/

namespace LuaTyping

/-- The names of directories that are passed over where nothing else is said. -/
def defaultExclude : List String := [".git", "node_modules"]

/-- The settings of a project. -/
structure Config where
  patterns : List String := defaultPatterns
  maxDepth : Nat := defaultMaxDepth
  /-- The names of directories that are passed over, wherever they are. -/
  exclude : List String := defaultExclude
  deriving DecidableEq, Repr, Inhabited

/-- What is wrong with a configuration. -/
inductive ConfigFault
  | noDepth
  /-- A search pattern without a place for the module. -/
  | noPlaceholder (pattern : String)
  deriving DecidableEq, Repr, Inhabited

/-- A fault in words. -/
def ConfigFault.text : ConfigFault → String
  | noDepth => "max_inference_depth must be at least 1"
  | noPlaceholder pattern => "require pattern '" ++ pattern ++ "' has no '?' placeholder"

namespace Config

/-- The names under which the settings are written, in order. -/
def names : List String := ["require_patterns", "max_inference_depth", "exclude"]

/-- The largest limit that can be written. -/
def maxDepthLimit : Nat := UInt64.size

/-- An array of strings. -/
def stringsOfJson? (j : Json) : Option (List String) :=
  j.array?.bind fun items => items.mapM Json.string?

/-- A limit. -/
def depthOfJson? (j : Json) : Option Nat :=
  j.natural?.filter fun n => decide (n < maxDepthLimit)

/-- A setting, or its default if it is not written. -/
def setting? {α : Type} (read : Json → Option α) (default : α) : Option Json → Option α
  | none => some default
  | some j => read j

/-- The configuration of settings that may be written. -/
def ofSettings? (patterns maxDepth exclude : Option Json) : Option Config := do
  return {
    patterns := ← setting? stringsOfJson? defaultPatterns patterns
    maxDepth := ← setting? depthOfJson? defaultMaxDepth maxDepth
    exclude := ← setting? stringsOfJson? defaultExclude exclude }

/-- A name is written more than once. -/
def isRepeated (members : List (String × Json)) (name : String) : Bool :=
  decide (1 < (members.filter fun m => m.1 == name).length)

/-- Reads a configuration. -/
def ofJson? : Json → Option Config
  | .object members =>
    if names.any (isRepeated members) then none
    else
      ofSettings? (Json.lookup "require_patterns" members)
        (Json.lookup "max_inference_depth" members) (Json.lookup "exclude" members)
  | .array items => if items.length ≤ 3 then ofSettings? items[0]? items[1]? items[2]? else none
  | _ => none

/-- A configuration as an object. -/
def toJson (c : Config) : Json := .object [
  ("require_patterns", .array (c.patterns.map .string)),
  ("max_inference_depth", .natural c.maxDepth),
  ("exclude", .array (c.exclude.map .string))]

/-- What is wrong with a configuration; the limit is looked at first. -/
def fault? (c : Config) : Option ConfigFault :=
  if c.maxDepth = 0 then some .noDepth
  else (c.patterns.find? fun p => !p.toList.contains '?').map .noPlaceholder

/-- Directories with a name are passed over. -/
def isExcluded (c : Config) (name : String) : Bool := c.exclude.contains name

end Config

end LuaTyping

/-!
# Types

A type is a name, or the place in the project that it was read off: a table constructor, a
function, or the name of a global variable.  Types are equal if they are the same name or the same
place; two tables of one shape at two places are two types.

* `LuaType.text`: the type in words.
* `LuaType.site?`, `LuaType.name?`: the place and the name of a type.
-/

namespace LuaTyping

/-- A node of a file of the project, both by number. -/
structure Site where
  file : Nat
  node : Nat
  deriving DecidableEq, Repr, Inhabited

/-- The numbers of a site. -/
def Site.text (s : Site) : String := toString s.file ++ "#" ++ toString s.node

/-- A type that a value may have. -/
inductive LuaType
  /-- A type of the language, or one declared in a doc comment. -/
  | named (name : String)
  /-- The tables made by a table constructor. -/
  | table (site : Site)
  /-- What a global variable holds; the site is where the name was taken from. -/
  | global (name : String) (site : Site)
  /-- The functions with a body. -/
  | function (site : Site)
  deriving DecidableEq, Repr, Inhabited

namespace LuaType

/-- The type of strings. -/
def string : LuaType := named "string"

/-- The type of numbers. -/
def number : LuaType := named "number"

/-- The type of truth values. -/
def boolean : LuaType := named "boolean"

/-- The type of nothing. -/
def nil : LuaType := named "nil"

/-- The place a type was read off, but for a name. -/
def site? : LuaType → Option Site
  | named _ => none
  | table s | global _ s | function s => some s

/-- The name of a type that has one. -/
def name? : LuaType → Option String
  | named n | global n _ => some n
  | table _ | function _ => none

/-- A type in words. -/
def text : LuaType → String
  | named n => n
  | table s => "table@" ++ s.text
  | global n _ => "global " ++ n
  | function s => "function@" ++ s.text

end LuaType

end LuaTyping

import LuaTyping.Json
import LuaTyping.TypeSet

/-!
# Types in JSON

A type is an object with a member `kind`, one of `named`, `table`, `global` and `function`, and
members `name` and `site` as the kind needs them; a set is the array of its types.  The reader
passes over other members, and takes the members of a type or a site also as an array without
names, in the order in which they are written.

* `TypeSet.toJson`, `TypeSet.ofJson?`, and the same for types and sites.
-/

namespace LuaTyping

/-- The number of files and of nodes that can be named. -/
def idLimit : Nat := UInt32.size

/-- A number below the limit. -/
def idOfJson? (j : Json) : Option Nat := j.natural?.filter fun n => decide (n < idLimit)

/-- The members of an object with the given names, or the items of an array of that length. -/
def fieldsOfJson? (names : List String) : Json → Option (List Json)
  | .object members => names.mapM fun name => Json.lookup name members
  | .array items => if items.length = names.length then some items else none
  | _ => none

namespace Site

/-- A site as an object. -/
def toJson (s : Site) : Json := .object [("file", .natural s.file), ("node", .natural s.node)]

/-- Reads a site. -/
def ofJson? (j : Json) : Option Site :=
  match fieldsOfJson? ["file", "node"] j with
  | some [f, n] => do return ⟨← idOfJson? f, ← idOfJson? n⟩
  | _ => none

end Site

namespace LuaType

/-- A type as an object. -/
def toJson : LuaType → Json
  | named n => .object [("kind", .string "named"), ("name", .string n)]
  | table s => .object [("kind", .string "table"), ("site", s.toJson)]
  | global n s =>
    .object [("kind", .string "global"), ("name", .string n), ("site", s.toJson)]
  | function s => .object [("kind", .string "function"), ("site", s.toJson)]

/-- Reads a type of a kind from what stands beside the kind. -/
def ofKind? (kind : String) (rest : Json) : Option LuaType :=
  if kind = "named" then
    match fieldsOfJson? ["name"] rest with
    | some [n] => n.string?.map named
    | _ => none
  else if kind = "table" then
    match fieldsOfJson? ["site"] rest with
    | some [s] => (Site.ofJson? s).map table
    | _ => none
  else if kind = "global" then
    match fieldsOfJson? ["name", "site"] rest with
    | some [n, s] => do return global (← n.string?) (← Site.ofJson? s)
    | _ => none
  else if kind = "function" then
    match fieldsOfJson? ["site"] rest with
    | some [s] => (Site.ofJson? s).map function
    | _ => none
  else none

/-- Reads a type. -/
def ofJson? : Json → Option LuaType
  | .object members => do
    let kind ← (Json.lookup "kind" members).bind Json.string?
    ofKind? kind (.object members)
  | .array (kind :: rest) => do
    let kind ← kind.string?
    ofKind? kind (.array rest)
  | _ => none

end LuaType

namespace TypeSet

/-- A set as an array. -/
def toJson (s : TypeSet) : Json := .array (s.toList.map LuaType.toJson)

/-- Reads a set; repeated types count once. -/
def ofJson? (j : Json) : Option TypeSet := do
  let items ← j.array?
  let types ← items.mapM LuaType.ofJson?
  return ofList types

end TypeSet

end LuaTyping

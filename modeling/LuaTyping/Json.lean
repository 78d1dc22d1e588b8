/-!
# JSON values

Numbers are kept as they are written, but for the naturals without sign, fraction and exponent:
those are the only numbers that this library reads.

* `Json.get?`: the value of a member; of members with one name the last one counts.
* `Json.natural?`, `Json.string?`, `Json.array?`: the value, if it has the form.
-/

namespace LuaTyping

/-- A JSON value. -/
inductive Json
  | null
  | bool (b : Bool)
  | natural (n : Nat)
  /-- Any other number, as it is written. -/
  | number (text : String)
  | string (s : String)
  | array (items : List Json)
  | object (members : List (String × Json))
  /-- A string, or an object with a name, whose escapes stand for no characters.  Such a value
  may be skipped but not read. -/
  | illFormed
  deriving Repr, Inhabited

namespace Json

/-- The members of an object. -/
def members? : Json → Option (List (String × Json))
  | object ms => some ms
  | _ => none

/-- The items of an array. -/
def array? : Json → Option (List Json)
  | array items => some items
  | _ => none

/-- The characters of a string. -/
def string? : Json → Option String
  | string s => some s
  | _ => none

/-- A number without sign, fraction and exponent. -/
def natural? : Json → Option Nat
  | natural n => some n
  | _ => none

/-- The last value under a name. -/
def lookup (name : String) (members : List (String × Json)) : Option Json :=
  (members.reverse.find? (·.1 == name)).map (·.2)

/-- The member of an object with a name. -/
def get? (j : Json) (name : String) : Option Json := j.members?.bind (lookup name)

end Json

end LuaTyping

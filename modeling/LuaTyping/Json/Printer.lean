import LuaTyping.Json

/-!
# Writing JSON

* `Json.compact`: without blanks.
* `Json.pretty`: one item or member a line, two blanks for each level; an empty array or object
  stays on its line.
-/

namespace LuaTyping.Json

/-- The digits of a number below sixteen. -/
def hexDigit (n : Nat) : Char := if n < 10 then Char.ofNat (48 + n) else Char.ofNat (87 + n)

/-- A character inside a string.  Quotes, backslashes and control characters are escaped, the
usual ones by a letter. -/
def escape (c : Char) : String :=
  if c = '"' then "\\\""
  else if c = '\\' then "\\\\"
  else if c = '\n' then "\\n"
  else if c = '\r' then "\\r"
  else if c = '\t' then "\\t"
  else if c = '\x08' then "\\b"
  else if c = '\x0c' then "\\f"
  else if c.toNat < 32 then
    ("\\u00".push (hexDigit (c.toNat / 16))).push (hexDigit (c.toNat % 16))
  else c.toString

/-- A string with its quotes. -/
def quote (s : String) : String :=
  (s.toList.foldl (fun out c => out ++ escape c) "\"").push '"'

mutual

/-- The value behind `out`. -/
def writeCompact : Json → String → String
  | null, out => out ++ "null"
  | bool b, out => out ++ (if b then "true" else "false")
  | natural n, out => out ++ toString n
  | number text, out => out ++ text
  | string s, out => out ++ quote s
  | array items, out => (writeItems items (out.push '[')).push ']'
  | object members, out => (writeMembers members (out.push '\x7b')).push '\x7d'
  | illFormed, out => out ++ "null"

/-- Items with commas between them. -/
def writeItems : List Json → String → String
  | [], out => out
  | [x], out => writeCompact x out
  | x :: xs, out => writeItems xs ((writeCompact x out).push ',')

/-- Members with commas between them. -/
def writeMembers : List (String × Json) → String → String
  | [], out => out
  | [(k, x)], out => writeCompact x ((out ++ quote k).push ':')
  | (k, x) :: ms, out => writeMembers ms ((writeCompact x ((out ++ quote k).push ':')).push ',')

end

/-- A value without blanks. -/
def compact (j : Json) : String := writeCompact j ""

/-- A new line at a level. -/
def newline (level : Nat) (out : String) : String :=
  (List.range level).foldl (fun out _ => out ++ "  ") (out.push '\n')

mutual

/-- The value behind `out`, with its lines at a level. -/
def writePretty (level : Nat) : Json → String → String
  | array (x :: xs), out =>
    (newline level (prettyItems (level + 1) (x :: xs) (out.push '['))).push ']'
  | object (m :: ms), out =>
    (newline level (prettyMembers (level + 1) (m :: ms) (out.push '\x7b'))).push '\x7d'
  | array [], out => out ++ "[]"
  | object [], out => out ++ "\x7b\x7d"
  | null, out => out ++ "null"
  | bool b, out => out ++ (if b then "true" else "false")
  | natural n, out => out ++ toString n
  | number text, out => out ++ text
  | string s, out => out ++ quote s
  | illFormed, out => out ++ "null"

/-- Items on lines of their own. -/
def prettyItems (level : Nat) : List Json → String → String
  | [], out => out
  | [x], out => writePretty level x (newline level out)
  | x :: xs, out => prettyItems level xs ((writePretty level x (newline level out)).push ',')

/-- Members on lines of their own. -/
def prettyMembers (level : Nat) : List (String × Json) → String → String
  | [], out => out
  | [(k, x)], out => writePretty level x (newline level out ++ quote k ++ ": ")
  | (k, x) :: ms, out =>
    prettyMembers level ms ((writePretty level x (newline level out ++ quote k ++ ": ")).push ',')

end

/-- A value on several lines. -/
def pretty (j : Json) : String := writePretty 0 j ""

end LuaTyping.Json

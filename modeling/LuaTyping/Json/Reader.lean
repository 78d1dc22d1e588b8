import LuaTyping.Json

/-!
# Reading JSON

A text is one value with blanks around it, by the strict grammar: no comments, no commas before a
closing bracket, no leading zeros, no raw control characters in strings.  An escape for half of a
character outside the basic plane stands for nothing; what contains one is an ill-formed value,
which is no error as long as nobody reads it.

* `Json.parse?`: the value of a text.
-/

namespace LuaTyping.Json

namespace Reader

/-- The blanks of the grammar. -/
def isSpace (c : Char) : Bool := c == ' ' || c == '\n' || c == '\t' || c == '\r'

/-- The characters behind the blanks. -/
def skipSpace (cs : List Char) : List Char := cs.dropWhile isSpace

/-- The value of a hexadecimal digit. -/
def hexValue? (c : Char) : Option Nat :=
  if c.isDigit then some (c.toNat - 48)
  else if 'a' ≤ c ∧ c ≤ 'f' then some (c.toNat - 87)
  else if 'A' ≤ c ∧ c ≤ 'F' then some (c.toNat - 55)
  else none

/-- The number written by four hexadecimal digits. -/
def hexUnit? : List Char → Option (Nat × List Char)
  | a :: b :: c :: d :: cs => do
    let a ← hexValue? a
    let b ← hexValue? b
    let c ← hexValue? c
    let d ← hexValue? d
    return (((a * 16 + b) * 16 + c) * 16 + d, cs)
  | _ => none

/-- The first half of a pair. -/
def isHighHalf (n : Nat) : Bool := decide (0xd800 ≤ n) && decide (n < 0xdc00)

/-- The second half of a pair. -/
def isLowHalf (n : Nat) : Bool := decide (0xdc00 ≤ n) && decide (n < 0xe000)

/-- The character of a unit, which may take a second unit from `cs`; `none` inside for half of
one. -/
def unitChar (unit : Nat) (cs : List Char) : Option Char × List Char :=
  if isHighHalf unit then
    match cs with
    | '\\' :: 'u' :: rest =>
      match hexUnit? rest with
      | some (low, rest) =>
        if isLowHalf low then
          (some (Char.ofNat (0x10000 + (unit - 0xd800) * 0x400 + (low - 0xdc00))), rest)
        else (none, cs)
      | none => (none, cs)
    | _ => (none, cs)
  else if isLowHalf unit then (none, cs)
  else (some (Char.ofNat unit), cs)

/-- The character of an escape whose backslash is read. -/
def escaped? : List Char → Option (Option Char × List Char)
  | '"' :: cs => some (some '"', cs)
  | '\\' :: cs => some (some '\\', cs)
  | '/' :: cs => some (some '/', cs)
  | 'b' :: cs => some (some '\x08', cs)
  | 'f' :: cs => some (some '\x0c', cs)
  | 'n' :: cs => some (some '\n', cs)
  | 'r' :: cs => some (some '\r', cs)
  | 't' :: cs => some (some '\t', cs)
  | 'u' :: cs => do
    let (unit, cs) ← hexUnit? cs
    return unitChar unit cs
  | _ => none

/-- The rest of a string behind the characters `done`, latest first; `none` inside if some escape
stands for no character. -/
def stringTail : (fuel : Nat) → List Char → (done : Option (List Char)) →
    Option (Option String × List Char)
  | 0, _, _ => none
  | _, [], _ => none
  | fuel + 1, c :: cs, done =>
    if c = '"' then some (done.map fun d => String.ofList d.reverse, cs)
    else if c = '\\' then do
      let (x, cs) ← escaped? cs
      stringTail fuel cs (do return (← x) :: (← done))
    else if c.toNat < 32 then none
    else stringTail fuel cs (done.map (c :: ·))

/-- The digits a list starts with, at least one. -/
def digits? (cs : List Char) : Option (List Char × List Char) :=
  match cs.takeWhile Char.isDigit with
  | [] => none
  | ds => some (ds, cs.dropWhile Char.isDigit)

/-- The whole part of a number: no further digit follows a leading zero. -/
def wholePart? (cs : List Char) : Option (List Char × List Char) :=
  match digits? cs with
  | some ('0' :: _ :: _, _) => none
  | r => r

/-- An optional fraction. -/
def fraction? : List Char → Option (List Char × List Char)
  | '.' :: cs => (digits? cs).map fun r => ('.' :: r.1, r.2)
  | cs => some ([], cs)

/-- An optional exponent. -/
def exponent? : List Char → Option (List Char × List Char)
  | c :: cs =>
    if c = 'e' ∨ c = 'E' then
      let sign := match cs with
        | s :: _ => if s = '+' ∨ s = '-' then [s] else []
        | [] => []
      (digits? (cs.drop sign.length)).map fun r => (c :: sign ++ r.1, r.2)
    else some ([], c :: cs)
  | [] => some ([], [])

/-- The number written by digits. -/
def digitsValue (ds : List Char) : Nat := ds.foldl (fun n d => n * 10 + (d.toNat - 48)) 0

/-- A number. -/
def number? (cs : List Char) : Option (Json × List Char) := do
  let minus := cs.head? = some '-'
  let (whole, rest) ← wholePart? (if minus then cs.drop 1 else cs)
  let (fraction, rest) ← fraction? rest
  let (exponent, rest) ← exponent? rest
  if minus = false ∧ fraction = [] ∧ exponent = [] then return (.natural (digitsValue whole), rest)
  else
    let sign := if minus then ['-'] else []
    return (.number (String.ofList (sign ++ whole ++ fraction ++ exponent)), rest)

/-- A word of the grammar with its value. -/
def word? (word : String) (value : Json) (cs : List Char) : Option (Json × List Char) :=
  if word.toList.isPrefixOf cs then some (value, cs.drop word.length) else none

/-- An object, unless one of its names stands for no characters. -/
def objectOf (members : List (Option String × Json)) : Json :=
  match members.mapM fun m => m.1.map fun name => (name, m.2) with
  | some ms => .object ms
  | none => .illFormed

mutual

/-- A value with no blank before it. -/
def value? : (fuel : Nat) → List Char → Option (Json × List Char)
  | 0, _ => none
  | fuel + 1, cs =>
    match cs with
    | '"' :: rest =>
      (stringTail fuel rest (some [])).map fun r =>
        ((r.1.map Json.string).getD .illFormed, r.2)
    | '[' :: rest =>
      match skipSpace rest with
      | ']' :: rest => some (.array [], rest)
      | rest => items? fuel rest []
    | '\x7b' :: rest =>
      match skipSpace rest with
      | '\x7d' :: rest => some (.object [], rest)
      | rest => members? fuel rest []
    | 't' :: _ => word? "true" (.bool true) cs
    | 'f' :: _ => word? "false" (.bool false) cs
    | 'n' :: _ => word? "null" .null cs
    | _ => number? cs

/-- The items of an array behind those already read, which stand in reverse order. -/
def items? : (fuel : Nat) → List Char → List Json → Option (Json × List Char)
  | 0, _, _ => none
  | fuel + 1, cs, done => do
    let (item, rest) ← value? fuel cs
    match skipSpace rest with
    | ',' :: rest => items? fuel (skipSpace rest) (item :: done)
    | ']' :: rest => return (.array (item :: done).reverse, rest)
    | _ => none

/-- The members of an object behind those already read, which stand in reverse order. -/
def members? : (fuel : Nat) → List Char → List (Option String × Json) → Option (Json × List Char)
  | 0, _, _ => none
  | fuel + 1, cs, done =>
    match cs with
    | '"' :: rest => do
      let (name, rest) ← stringTail fuel rest (some [])
      match skipSpace rest with
      | ':' :: rest =>
        let (value, rest) ← value? fuel (skipSpace rest)
        match skipSpace rest with
        | ',' :: rest => members? fuel (skipSpace rest) ((name, value) :: done)
        | '\x7d' :: rest => return (objectOf ((name, value) :: done).reverse, rest)
        | _ => none
      | _ => none
    | _ => none

end

end Reader

/-- The value of a text. -/
def parse? (text : String) : Option Json := do
  let cs := text.toList
  let (value, rest) ← Reader.value? (cs.length + 1) (Reader.skipSpace cs)
  if Reader.skipSpace rest = [] then return value else none

end LuaTyping.Json

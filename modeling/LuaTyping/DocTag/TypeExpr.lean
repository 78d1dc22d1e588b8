import LuaTyping.Text.Blank
import LuaTyping.Text.Word
import LuaTyping.TypeSet

/-!
# Type expressions

The types named in a doc comment: alternatives with bars between them, as in
`string | Point? | fun(x): number`.  An alternative is

* `fun(…)` up to the first closing parenthesis, with an optional result `: name`, or
* a name, with optional arguments `<…>` up to the first closing angle bracket, and any number of
  pairs `[]`,

and a question mark behind it adds `nil`.  The name of the type is the text of the alternative.
What follows the last alternative is a remark and is passed over.

* `TypeExpr.scan`: the length of the alternative that a text starts with.
* `TypeExpr.parse?`: the types of an expression.
-/

namespace LuaTyping.TypeExpr

/-- The characters of dotted names. -/
def isNameChar (c : Char) : Bool := isWordChar c || c == '.'

/-- A name starts with an ASCII letter or an underscore. -/
def isNameStart (c : Char) : Bool := c.isAlpha || c == '_'

/-- How many characters of dotted names the list starts with. -/
def nameLength (cs : List Char) : Nat := (cs.takeWhile isNameChar).length

/-- The number of characters up to the first `c`, and with it; none without one. -/
def lengthThrough? (c : Char) (cs : List Char) : Option Nat :=
  let before := (cs.takeWhile (· != c)).length
  if before < cs.length then some (before + 1) else none

/-- The length of an optional result of a function: a colon, blanks and a name. -/
def resultLength : List Char → Nat
  | ':' :: cs =>
    let blanks := (cs.takeWhile isBlank).length
    let name := nameLength (cs.drop blanks)
    if name = 0 then 0 else 1 + blanks + name
  | _ => 0

/-- The length of a function type. -/
def functionLength? : List Char → Option Nat
  | 'f' :: 'u' :: 'n' :: '(' :: cs =>
    (lengthThrough? ')' cs).map fun n => 4 + n + resultLength (cs.drop n)
  | _ => none

/-- The length of optional arguments. -/
def argumentsLength : List Char → Nat
  | '<' :: cs => match lengthThrough? '>' cs with
    | some n => 1 + n
    | none => 0
  | _ => 0

/-- The length of the pairs of brackets the list starts with. -/
def bracketsLength : List Char → Nat
  | '[' :: ']' :: cs => 2 + bracketsLength cs
  | _ => 0

/-- The length of a named type. -/
def namedLength? : List Char → Option Nat
  | c :: cs =>
    if isNameStart c then
      let name := 1 + nameLength cs
      let args := argumentsLength ((c :: cs).drop name)
      some (name + args + bracketsLength ((c :: cs).drop (name + args)))
    else none
  | [] => none

/-- The length of the alternative that the list starts with, without its question mark. -/
def scan (cs : List Char) : Option Nat := (functionLength? cs).or (namedLength? cs)

/-- Reads alternatives behind those of `found`, as long as a bar follows. -/
def parseFrom : (fuel : Nat) → List Char → TypeSet → Option TypeSet
  | 0, _, _ => none
  | fuel + 1, cs, found =>
    match scan cs with
    | none => none
    | some n =>
      let rest := cs.drop n
      let isOptional := rest.head? = some '?'
      let found := found.insert (.named (String.ofList (cs.take n)))
      let found := if isOptional then found.insert .nil else found
      match dropBlanks (if isOptional then rest.drop 1 else rest) with
      | '|' :: next => parseFrom fuel (dropBlanks next) found
      | _ => some found

/-- The types of an expression. -/
def parse? (text : List Char) : Option TypeSet :=
  parseFrom (text.length + 1) (dropBlanks text) .empty

end LuaTyping.TypeExpr

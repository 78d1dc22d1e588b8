import LuaTyping.Token.Lexer

/-!
# Literals

What the text of a literal token says about its value.

* `LiteralForm.ofText`: the form of a literal.
* `stringContents?`: the contents of a string in any of its notations, with escape sequences kept
  as they are written.
-/

namespace LuaTyping

/-- The forms of literals. -/
inductive LiteralForm
  | nil | true | false | number | string | vararg
  deriving DecidableEq, Repr, Inhabited

/-- The name under which a listing shows the form. -/
def LiteralForm.label : LiteralForm → String
  | nil => "Nil" | true => "True" | false => "False" | number => "Number" | string => "String"
  | vararg => "Vararg"

/-- The form of a literal with the given text. -/
def LiteralForm.ofText (text : String) : LiteralForm :=
  match text.toList with
  | ['n', 'i', 'l'] => .nil
  | ['t', 'r', 'u', 'e'] => .true
  | ['f', 'a', 'l', 's', 'e'] => .false
  | ['.', '.', '.'] => .vararg
  | c :: _ => if c = '"' ∨ c = '\'' ∨ c = '[' then .string else .number
  | [] => .number

/-- The level of the long bracket that a text starts with. -/
def openingBracket? : List Char → Option Nat
  | '[' :: cs => Lexer.bracketLevel? cs
  | _ => none

/-- The text without one newline, with or without carriage return, at its start. -/
def dropNewline : List Char → List Char
  | '\r' :: '\n' :: cs => cs
  | '\n' :: cs => cs
  | cs => cs

/-- The text between long brackets of a level, if there is room for both. -/
def bracketContents? (level : Nat) (cs : List Char) : Option (List Char) :=
  let width := level + 2
  if 2 * width ≤ cs.length then
    some (dropNewline ((cs.drop width).take (cs.length - 2 * width)))
  else none

/-- The text behind an opening quote, without the closing one if it is there. -/
def quoteContents (q : Char) (cs : List Char) : List Char :=
  if cs.getLast? = some q then cs.dropLast else cs

/-- The contents of a string literal with the given text. -/
def stringContents? (text : String) : Option String :=
  let cs := text.toList
  match openingBracket? cs with
  | some level => (bracketContents? level cs).map String.ofList
  | none =>
    match cs with
    | c :: rest =>
      if c = '"' ∨ c = '\'' then some (String.ofList (quoteContents c rest)) else none
    | [] => none

end LuaTyping

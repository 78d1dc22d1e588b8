import LuaTyping.Text.Span

/-!
# What is wrong with a program

The parser sees tokens and reports a `Fault` at the number of a token.  Once the tokens are placed
in their text a fault becomes a `SyntaxError`, which has a span and a message.

* `Expectation.text`: what the parser was looking for, in words.
* `SyntaxError.message`: the text of an error.
-/

namespace LuaTyping

/-- What would have been right at a place. -/
inductive Expectation
  | statement | expression
  | localName | attributeName | functionName | fieldName | methodName | labelName
  | parameterName | loopVariable
  | endWord | doWord | untilWord | thenWord | inWord
  | labelMark | attributeClose | parenOpen | parenClose | bracketClose | braceClose
  | commaMark | assignMark | assignOrCall
  deriving DecidableEq, Repr, Inhabited

/-- The wording of an expectation. -/
def Expectation.text : Expectation → String
  | statement => "statement"
  | expression => "expression"
  | localName => "local name"
  | attributeName => "attribute name"
  | functionName => "function name"
  | fieldName => "field name"
  | methodName => "method name"
  | labelName => "label name"
  | parameterName => "parameter name"
  | loopVariable => "loop variable"
  | endWord => "'end'"
  | doWord => "'do'"
  | untilWord => "'until'"
  | thenWord => "'then'"
  | inWord => "'in'"
  | labelMark => "'::'"
  | attributeClose => "'>'"
  | parenOpen => "'('"
  | parenClose => "')'"
  | bracketClose => "']'"
  | braceClose => "'\x7d'"
  | commaMark => "','"
  | assignMark => "'='"
  | assignOrCall => "'=' or call arguments"

/-- A finding of the parser; tokens are counted from zero. -/
inductive Fault
  /-- The token does not fit here. -/
  | unexpected (token : Nat) (expected : Expectation)
  /-- The tokens end too early. -/
  | unexpectedEnd (expected : Expectation)
  /-- Everything from the token on is dropped, for it is nested too deeply. -/
  | tooDeep (token : Nat)
  deriving DecidableEq, Repr, Inhabited

/-- An error at a place of the text. -/
inductive SyntaxError
  | invalid (span : Span)
  | unexpected (found : String) (expected : Expectation) (span : Span)
  | unexpectedEnd (expected : Expectation) (span : Span)
  | tooDeep (limit : Nat) (span : Span)
  deriving DecidableEq, Repr, Inhabited

namespace SyntaxError

/-- The place of an error. -/
def span : SyntaxError → Span
  | invalid s | unexpected _ _ s | unexpectedEnd _ s | tooDeep _ s => s

/-- The wording of a place inside a message. -/
def spanText (s : Span) : String :=
  "TextRange \x7b start: " ++ toString s.start ++ ", end: " ++ toString s.stop ++ " \x7d"

/-- The text of an error. -/
def message : SyntaxError → String
  | invalid s => "unrecognized token at " ++ spanText s
  | unexpected found expected s =>
    "unexpected token '" ++ found ++ "' at " ++ spanText s ++ ", expected " ++ expected.text
  | unexpectedEnd expected _ => "unexpected end of input, expected " ++ expected.text
  | tooDeep limit _ => "chunk has too many syntax levels (limit is " ++ toString limit ++ ")"

end SyntaxError

end LuaTyping

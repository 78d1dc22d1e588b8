/-!
# Tokens of Lua

The tokens of the Lua 5.4 reference manual, §3.1.  Blanks and comments are no tokens.

* `Token.label`: the name of a token in listings.
* `Token.ofWord`: a reserved word or a name.
* `Token.binaryPowers`, `unaryPower`: how tightly operators bind.
-/

namespace LuaTyping

/-- A kind of token. -/
inductive Token
  | andKw | breakKw | doKw | elseKw | elseifKw | endKw | falseKw | forKw | functionKw | gotoKw
  | ifKw | inKw | localKw | nilKw | notKw | orKw | repeatKw | returnKw | thenKw | trueKw
  | untilKw | whileKw
  | plus | minus | star | slash | doubleSlash | percent | caret | hash | ampersand | tilde | pipe
  | shiftLeft | shiftRight | equal | notEqual | lessEqual | greaterEqual | less | greater | assign
  | leftParen | rightParen | leftBrace | rightBrace | leftBracket | rightBracket
  | doubleColon | semicolon | colon | comma | dot | concat | ellipsis
  | name | number | quoted | longString
  deriving DecidableEq, Repr, Inhabited

namespace Token

/-- The name under which a listing shows the token. -/
def label : Token → String
  | andKw => "And" | breakKw => "Break" | doKw => "Do" | elseKw => "Else" | elseifKw => "Elseif"
  | endKw => "End" | falseKw => "False" | forKw => "For" | functionKw => "Function"
  | gotoKw => "Goto" | ifKw => "If" | inKw => "In" | localKw => "Local" | nilKw => "Nil"
  | notKw => "Not" | orKw => "Or" | repeatKw => "Repeat" | returnKw => "Return"
  | thenKw => "Then" | trueKw => "True" | untilKw => "Until" | whileKw => "While"
  | plus => "Plus" | minus => "Minus" | star => "Star" | slash => "Slash"
  | doubleSlash => "DoubleSlash" | percent => "Percent" | caret => "Caret" | hash => "Hash"
  | ampersand => "Ampersand" | tilde => "Tilde" | pipe => "Pipe" | shiftLeft => "Shl"
  | shiftRight => "Shr" | equal => "EqEq" | notEqual => "NotEq" | lessEqual => "LtEq"
  | greaterEqual => "GtEq" | less => "Lt" | greater => "Gt" | assign => "Assign"
  | leftParen => "LParen" | rightParen => "RParen" | leftBrace => "LBrace"
  | rightBrace => "RBrace" | leftBracket => "LBracket" | rightBracket => "RBracket"
  | doubleColon => "DoubleColon" | semicolon => "Semi" | colon => "Colon" | comma => "Comma"
  | dot => "Dot" | concat => "Concat" | ellipsis => "Ellipsis"
  | name => "Name" | number => "Number" | quoted => "String" | longString => "LongString"

/-- The reserved words and their tokens. -/
def keywords : List (String × Token) :=
  [("and", andKw), ("break", breakKw), ("do", doKw), ("else", elseKw), ("elseif", elseifKw),
   ("end", endKw), ("false", falseKw), ("for", forKw), ("function", functionKw),
   ("goto", gotoKw), ("if", ifKw), ("in", inKw), ("local", localKw), ("nil", nilKw),
   ("not", notKw), ("or", orKw), ("repeat", repeatKw), ("return", returnKw), ("then", thenKw),
   ("true", trueKw), ("until", untilKw), ("while", whileKw)]

/-- The token of a word: reserved words beat names. -/
def ofWord (word : List Char) : Token :=
  ((keywords.find? fun k => k.1.toList == word).map (·.2)).getD name

/-- The left and right power of a binary operator.  An operator that groups to the right has the
lower power on its right. -/
def binaryPowers : Token → Option (Nat × Nat)
  | orKw => some (1, 1)
  | andKw => some (2, 2)
  | less | greater | lessEqual | greaterEqual | notEqual | equal => some (3, 3)
  | pipe => some (4, 4)
  | tilde => some (5, 5)
  | ampersand => some (6, 6)
  | shiftLeft | shiftRight => some (7, 7)
  | concat => some (9, 8)
  | plus | minus => some (10, 10)
  | star | slash | doubleSlash | percent => some (11, 11)
  | caret => some (14, 13)
  | _ => none

/-- The token may stand before an operand. -/
def isUnary : Token → Bool
  | notKw | minus | hash | tilde => true
  | _ => false

/-- A string in one of its notations. -/
def isString : Token → Bool
  | quoted | longString => true
  | _ => false

/-- A token that is a whole expression by itself, names apart. -/
def isLiteral : Token → Bool
  | nilKw | trueKw | falseKw | number | quoted | longString | ellipsis => true
  | _ => false

/-- A block ends before the token. -/
def endsBlock : Token → Bool
  | endKw | elseKw | elseifKw | untilKw => true
  | _ => false

end Token

/-- The power with which a unary operator takes its operand. -/
def unaryPower : Nat := 12

end LuaTyping

import LuaTyping.Text.Invisible

/-!
# Quoted text

A text between double quotes for listings.  Quotes and backslashes stand behind a backslash,
the common control characters are letters behind a backslash, and the other characters that do not
show by themselves are written as their number.  All other characters stand for themselves.

* `quoted`: a text in this form.
-/

namespace LuaTyping

/-- The digits of a number in base sixteen. -/
def hexText (n : Nat) : List Char := Nat.toDigits 16 n

/-- A character between quotes. -/
def quotedChar (c : Char) : List Char :=
  if c = '"' ∨ c = '\\' then ['\\', c]
  else if c = '\n' then ['\\', 'n']
  else if c = '\r' then ['\\', 'r']
  else if c = '\t' then ['\\', 't']
  else if c.toNat = 0 then ['\\', '0']
  else if isInvisible c then ['\\', 'u', '\x7b'] ++ hexText c.toNat ++ ['\x7d']
  else [c]

/-- A text between quotes. -/
def quoted (text : String) : String :=
  String.ofList ('"' :: text.toList.flatMap quotedChar ++ ['"'])

end LuaTyping

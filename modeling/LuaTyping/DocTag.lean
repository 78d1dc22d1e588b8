import LuaTyping.DocTag.TypeExpr
import LuaTyping.Syntax.View.Statement

/-!
# Tags of doc comments

A line of a doc comment may carry a tag:

* `@type T` and `@class Name` give the type of the variable that the statement introduces,
* `@param name T` the type of a parameter, with `nil` added for `name?`,
* `@return T` the type of what a function returns.

The first line of a comment that yields types for a question answers it; lines whose type cannot
be read are passed over.
-/

namespace LuaTyping

namespace DocTag

/-- What follows a tag and at least one blank, if anything does. -/
def afterTag? (tag : String) (line : List Char) : Option (List Char) :=
  if tag.toList.isPrefixOf line then
    match line.drop tag.length with
    | c :: rest =>
      if isBlank c then
        match dropBlanks rest with
        | [] => none
        | text => some text
      else none
    | [] => none
  else none

/-- The types that a line gives to a variable. -/
def variableTypes? (line : List Char) : Option TypeSet :=
  match afterTag? "@type" line with
  | some text => TypeExpr.parse? text
  | none =>
    (afterTag? "@class" line).bind fun text =>
      match text.takeWhile TypeExpr.isNameChar with
      | [] => none
      | name => some (.single (.named (String.ofList name)))

/-- The types that a line gives to the parameter with a name. -/
def paramTypes? (param : String) (line : List Char) : Option TypeSet :=
  (afterTag? "@param" line).bind fun text =>
    let name := text.takeWhile TypeExpr.isNameChar
    let rest := text.drop name.length
    let isOptional := rest.head? = some '?'
    match if isOptional then rest.drop 1 else rest with
    | c :: more =>
      if name ≠ [] ∧ isBlank c ∧ String.ofList name = param then
        match dropBlanks more with
        | [] => none
        | expr => (TypeExpr.parse? expr).map fun types =>
          if isOptional then types.insert .nil else types
      else none
    | [] => none

/-- The types that a line gives to what a function returns. -/
def returnTypes? (line : List Char) : Option TypeSet :=
  (afterTag? "@return" line).bind TypeExpr.parse?

end DocTag

namespace Tree

/-- The first answer of the lines of a comment. -/
def firstTag? (t : Tree) (comment : NodeId) (read : List Char → Option TypeSet) :
    Option TypeSet :=
  (t.commentLines comment).findSome? fun line => read line.toList

/-- The types that a comment gives to a variable. -/
def taggedType? (t : Tree) (comment : NodeId) : Option TypeSet :=
  t.firstTag? comment DocTag.variableTypes?

/-- The types that a comment gives to a parameter. -/
def taggedParam? (t : Tree) (comment : NodeId) (param : String) : Option TypeSet :=
  t.firstTag? comment (DocTag.paramTypes? param)

/-- The types that a comment gives to what a function returns. -/
def taggedReturn? (t : Tree) (comment : NodeId) : Option TypeSet :=
  t.firstTag? comment DocTag.returnTypes?

end Tree

end LuaTyping

/-!
# Arguments of a command line

The words behind a command are flags such as `--json`, options with a value such as `--line 3` or
`--line=3`, and positional arguments.  Flags and options may stand anywhere before a word `--`, and
each at most once; behind `--` every word is positional.

Words are read one after the other.  The first one that breaks the rules ends the reading, and so
does the first one that asks for help, `-h` or `--help`: what follows it is not looked at.

* `Arguments.read`: the arguments among words, or why reading ended before.
-/

namespace LuaTyping

/-- What a command understands. -/
structure ArgumentRules where
  flags : List String
  /-- The options, each with what its value may be. -/
  options : List (String × (String → Bool))
  /-- How many positional arguments there may be. -/
  positionals : Nat

/-- The arguments of a command. -/
structure Arguments where
  flags : List String := []
  /-- The options with their values. -/
  options : List (String × String) := []
  positionals : List String := []
  deriving DecidableEq, Repr, Inhabited

/-- Why reading ended before the last word. -/
inductive ReadingEnd
  /-- A word breaks the rules. -/
  | refused
  /-- A word asks for help, in full or in brief. -/
  | help (full : Bool)
  deriving DecidableEq, Repr, Inhabited

namespace Arguments

/-- The word is a flag or an option, or wants to be one: it starts with a dash and is more than
that. -/
def isDashed (word : String) : Bool :=
  match word.toList with
  | '-' :: _ :: _ => true
  | _ => false

/-- The letter of a word with one dash; of several letters the first one. -/
def letter? (word : String) : Option Char :=
  match word.toList with
  | '-' :: c :: _ => if c = '-' then none else some c
  | _ => none

/-- The word without what follows its first `=`, and what follows. -/
def splitValue (word : String) : String × Option String :=
  let cs := word.toList
  let name := cs.takeWhile (· != '=')
  (String.ofList name,
    if name.length < cs.length then some (String.ofList (cs.drop (name.length + 1))) else none)

/-- The arguments with one more flag, unless it is there. -/
def addFlag (a : Arguments) (name : String) : Except ReadingEnd Arguments :=
  if name ∈ a.flags then .error .refused else .ok { a with flags := a.flags ++ [name] }

/-- The arguments with one more option, unless it is there or may not have the value. -/
def addOption (a : Arguments) (name : String) (allows : String → Bool) (value : String) :
    Except ReadingEnd Arguments :=
  if a.options.any (·.1 == name) || !allows value then .error .refused
  else .ok { a with options := a.options ++ [(name, value)] }

/-- The arguments with one more positional argument, unless it is empty or one too many. -/
def addPositional (rules : ArgumentRules) (a : Arguments) (word : String) :
    Except ReadingEnd Arguments :=
  if word = "" ∨ rules.positionals ≤ a.positionals.length then .error .refused
  else .ok { a with positionals := a.positionals ++ [word] }

/-- The arguments among words, behind those already read. -/
def readFrom (rules : ArgumentRules) : List String → Arguments → Except ReadingEnd Arguments
  | [], a => .ok a
  | word :: words, a =>
    if word = "--" then words.foldlM (addPositional rules) a
    else if isDashed word then
      if letter? word = some 'h' then .error (.help false)
      else if word = "--help" then .error (.help true)
      else
        let (name, value) := splitValue word
        if name ∈ rules.flags then
          match value with
          | none => do readFrom rules words (← a.addFlag name)
          | some _ => .error .refused
        else
          match rules.options.find? (·.1 == name), value, words with
          | some (_, allows), some value, words => do
            readFrom rules words (← a.addOption name allows value)
          | some (_, allows), none, value :: words => do
            if isDashed value then .error .refused
            else readFrom rules words (← a.addOption name allows value)
          | _, _, _ => .error .refused
    else do readFrom rules words (← a.addPositional rules word)

/-- The arguments among words. -/
def read (rules : ArgumentRules) (words : List String) : Except ReadingEnd Arguments :=
  readFrom rules words {}

/-- The value of an option. -/
def value? (a : Arguments) (name : String) : Option String :=
  (a.options.find? (·.1 == name)).map (·.2)

/-- The flag is there. -/
def hasFlag (a : Arguments) (name : String) : Bool := a.flags.contains name

end Arguments

end LuaTyping

import LuaTyping.DocTag.TypeExpr
import LuaTyping.Proofs.Text.Pieces
import LuaTyping.Proofs.Token.Delimited
import LuaTyping.Proofs.Token.Solid
import LuaTyping.Proofs.TypeSet.Insertion

/-!
# Type expressions are read back

The types that an expression of a doc comment names are shown with bars between them, and what is
shown is an expression of the same types in the same order.

The expression that was written need not look like that.  A question mark is shown as a further
alternative `nil`, a type that is written twice is shown once, and the remark behind the types is
not shown at all.  Of each alternative the same text is left, but something else stands behind it:
a space, or nothing.  An alternative is cut off by a scan that takes as much as it can, so it has to
be shown that it takes as much again.  It does, since no part of an alternative goes on with a
space, wherever the scan stopped the first time.

The alternatives are therefore described without what follows them (`TypeExpr.IsAlternative`).  The
scan cuts off such a text (`TypeExpr.leads_scan`), and it cuts off the whole of such a text from
whatever a space follows (`TypeExpr.scan_append`).

* `TypeExpr.Written`: a type with an alternative for a name.
* `TypeExpr.parse?_written`: all types of an expression are such types.
* `TypeExpr.parse?_joined`: the names of such types with bars between them are an expression of
  them.
* `TypeExpr.parse?_text`: the types of an expression are read back from their text.
-/

namespace LuaTyping

/-! ## Sets of types -/

namespace TypeSet

variable {s : TypeSet}

/-- What holds of the types before and of a new one holds of all types with it. -/
theorem forall_insert {P : LuaType → Prop} {t : LuaType} (before : ∀ u ∈ s.toList, P u)
    (new : P t) : (s.insert t).toList ≠ [] ∧ ∀ u ∈ (s.insert t).toList, P u := by
  refine ⟨List.ne_nil_of_mem (mem_insert.mpr (Or.inr rfl)), fun u mem => ?_⟩
  rcases mem_insert.mp mem with mem | rfl
  · exact before u mem
  · exact new

end TypeSet

namespace TypeExpr

variable {c : Char} {cs inner rest result args brackets : List Char} {n : Nat}

/-! ## The parts of an alternative -/

/-- The result of a function, if there is one. -/
inductive IsResult : List Char → Prop
  | nothing : IsResult []
  | of {blanks name : List Char} (blank : ∀ c ∈ blanks, isBlank c = true) (nonempty : name ≠ [])
      (all : ∀ c ∈ name, isNameChar c = true) (first : ∀ c ∈ name.head?, isBlank c = false) :
      IsResult (':' :: (blanks ++ name))

/-- The arguments of a type, if there are any.  The first closing bracket ends them, also where an
opening one stands before it. -/
inductive IsArguments : List Char → Prop
  | nothing : IsArguments []
  | listed {inner : List Char} (unclosed : '>' ∉ inner) : IsArguments ('<' :: (inner ++ ['>']))

/-- Any number of pairs of brackets. -/
inductive IsBrackets : List Char → Prop
  | nothing : IsBrackets []
  | pair {brackets : List Char} : IsBrackets brackets → IsBrackets ('[' :: ']' :: brackets)

/-- One of the alternatives of a type expression, without a question mark. -/
inductive IsAlternative : List Char → Prop
  | function {params result : List Char} (unclosed : ')' ∉ params) : IsResult result →
      IsAlternative ('f' :: 'u' :: 'n' :: '(' :: (params ++ ')' :: result))
  | named {c : Char} {name args brackets : List Char} (start : isNameStart c = true)
      (all : ∀ d ∈ name, isNameChar d = true) : IsArguments args → IsBrackets brackets →
      IsAlternative (c :: (name ++ (args ++ brackets)))

/-- The first `n` characters of a text are a part of a kind. -/
def Leads (IsPart : List Char → Prop) (cs : List Char) (n : Nat) : Prop :=
  ∃ part rest, part ++ rest = cs ∧ part.length = n ∧ IsPart part

/-- Nothing at all leads every text. -/
theorem leads_zero {IsPart : List Char → Prop} (nothing : IsPart []) (cs : List Char) :
    Leads IsPart cs 0 :=
  ⟨[], cs, rfl, rfl, nothing⟩

/-! ## What the scan cuts off -/

theorem exists_run (p : Char → Bool) (cs : List Char) : ∃ run rest, run ++ rest = cs
    ∧ Lexer.runLength p cs = run.length ∧ (∀ c ∈ run, p c = true) ∧ ∀ c ∈ rest.head?, p c = false :=
  ⟨cs.takeWhile p, cs.dropWhile p, List.takeWhile_append_dropWhile, rfl,
    fun _ mem => List.mem_takeWhile_imp mem, fun _ => not_of_head?_dropWhile⟩

theorem lengthThrough?_eq (c : Char) (cs : List Char) :
    lengthThrough? c cs = if Lexer.runLength (· != c) cs < cs.length
      then some (Lexer.runLength (· != c) cs + 1) else none :=
  rfl

/-- Where a length up to a character ends, the character stands, and nowhere before. -/
theorem exists_lengthThrough (found : lengthThrough? c cs = some n) :
    ∃ inner rest, inner ++ c :: rest = cs ∧ c ∉ inner ∧ inner.length + 1 = n := by
  obtain ⟨inner, rest, rfl, length, other, stop⟩ := exists_run (· != c) cs
  have absent : c ∉ inner := fun mem => by simpa using other c mem
  rw [lengthThrough?_eq, length] at found
  split at found
  case isFalse => cases found
  case isTrue room =>
    cases rest with
    | nil => simp at room
    | cons d rest =>
      obtain rfl : d = c := by simpa using stop d rfl
      exact ⟨inner, rest, rfl, absent, Option.some.inj found⟩

theorem lengthThrough?_append (absent : c ∉ inner) :
    lengthThrough? c (inner ++ c :: rest) = some (inner.length + 1) := by
  have other : ∀ d ∈ inner, (d != c) = true := fun d mem => by
    simpa using fun same : d = c => absent (same ▸ mem)
  have length : Lexer.runLength (· != c) (inner ++ c :: rest) = inner.length :=
    Lexer.runLength_append other (by simp)
  rw [lengthThrough?_eq, length, if_pos (by simp)]

theorem leads_resultLength (cs : List Char) : Leads IsResult cs (resultLength cs) := by
  unfold resultLength
  split
  case h_2 => exact leads_zero .nothing _
  case h_1 cs =>
    obtain ⟨blanks, cs, rfl, length, blank, first⟩ := exists_run isBlank cs
    obtain ⟨name, rest, rfl, length', all, -⟩ := exists_run isNameChar cs
    rw [Lexer.runLength] at length length'
    dsimp only
    rw [length, List.drop_left, nameLength, length']
    split
    case isTrue => exact leads_zero .nothing _
    case isFalse some =>
      have nonempty : name ≠ [] := fun empty => some (empty ▸ rfl)
      rw [List.head?_append_of_ne_nil _ nonempty] at first
      refine ⟨':' :: (blanks ++ name), rest, ?_, ?_, .of blank nonempty all first⟩
      · rw [List.cons_append, List.append_assoc]
      · rw [List.length_cons, List.length_append]
        omega

theorem leads_argumentsLength (cs : List Char) : Leads IsArguments cs (argumentsLength cs) := by
  unfold argumentsLength
  split
  case h_2 => exact leads_zero .nothing _
  case h_1 cs =>
    split
    case h_2 => exact leads_zero .nothing _
    case h_1 n found =>
      obtain ⟨inner, rest, rfl, unclosed, rfl⟩ := exists_lengthThrough found
      refine ⟨'<' :: (inner ++ ['>']), rest, ?_, ?_, .listed unclosed⟩
      · rw [List.cons_append, List.append_assoc, List.singleton_append]
      · rw [List.length_cons, List.length_append, List.length_singleton]
        omega

theorem leads_bracketsLength (cs : List Char) : Leads IsBrackets cs (bracketsLength cs) := by
  fun_induction bracketsLength cs with
  | case1 cs ih =>
    obtain ⟨brackets, rest, rfl, length, pairs⟩ := ih
    refine ⟨'[' :: ']' :: brackets, rest, rfl, ?_, .pair pairs⟩
    rw [List.length_cons, List.length_cons]
    omega
  | case2 => exact leads_zero .nothing _

/-- A function type goes on behind its parameters with its result. -/
theorem functionLength?_params (unclosed : ')' ∉ inner) :
    functionLength? ('f' :: 'u' :: 'n' :: '(' :: (inner ++ ')' :: rest))
      = some (4 + (inner.length + 1) + resultLength rest) := by
  have cut : (inner ++ ')' :: rest).drop (inner.length + 1) = rest := by
    rw [List.append_cons, List.drop_left' (by simp)]
  rw [functionLength?, lengthThrough?_append unclosed, Option.map_some, cut]

/-- A named type goes on behind its name with its arguments and its brackets. -/
theorem namedLength?_name (start : isNameStart c = true)
    (length : nameLength (inner ++ rest) = inner.length) :
    namedLength? (c :: (inner ++ rest))
      = some (1 + inner.length + argumentsLength rest
          + bracketsLength (rest.drop (argumentsLength rest))) := by
  have cut : (c :: (inner ++ rest)).drop (1 + inner.length) = rest := by
    rw [Nat.add_comm, List.drop_succ_cons, List.drop_left]
  rw [namedLength?, if_pos start, length]
  dsimp only
  rw [cut, ← List.drop_drop, cut]

/-- The scan cuts off an alternative. -/
theorem leads_scan (found : scan cs = some n) : Leads IsAlternative cs n := by
  rcases Option.or_eq_some_iff.mp found with function | ⟨-, named⟩
  · unfold functionLength? at function
    split at function
    case h_2 => cases function
    case h_1 cs =>
      obtain ⟨m, through, rfl⟩ := Option.map_eq_some_iff.mp function
      obtain ⟨params, behind, rfl, unclosed, rfl⟩ := exists_lengthThrough through
      obtain ⟨result, rest, rfl, length, isResult⟩ := leads_resultLength behind
      rw [List.append_cons, List.drop_left' (by simp), ← length]
      refine ⟨_, rest, ?_, ?_, .function unclosed isResult⟩
      · simp
      · simp
        omega
  · unfold namedLength? at named
    split at named
    case h_2 => cases named
    case h_1 c cs =>
      split at named
      case isFalse => cases named
      case isTrue start =>
        obtain ⟨name, behind, rfl, length, all, -⟩ := exists_run isNameChar cs
        obtain ⟨args, behind, rfl, length', isArgs⟩ := leads_argumentsLength behind
        obtain ⟨brackets, rest, rfl, length'', isBrackets⟩ := leads_bracketsLength behind
        have read := namedLength?_name start length
        rw [← length', List.drop_left, ← length'', namedLength?, if_pos start] at read
        refine ⟨_, rest, ?_, ?_, .named start all isArgs isBrackets⟩
        · simp
        · have same := Option.some.inj (named.symm.trans read)
          simp only [List.length_cons, List.length_append]
          omega

/-! ## What is cut off again -/

theorem resultLength_append (isResult : IsResult result)
    (spaced : ∀ c ∈ rest.head?, c = ' ') : resultLength (result ++ rest) = result.length := by
  cases isResult with
  | nothing =>
    rw [List.nil_append, resultLength]
    · rfl
    · rintro cs rfl
      exact absurd (spaced ':' rfl) (by decide)
  | @of blanks name blank nonempty all first =>
    have other : ∀ c ∈ rest.head?, isNameChar c = false := fun c mem => by
      rw [spaced c mem]
      decide
    have length := Lexer.runLength_append all other
    have length' : Lexer.runLength isBlank (blanks ++ (name ++ rest)) = blanks.length := by
      refine Lexer.runLength_append blank ?_
      rwa [List.head?_append_of_ne_nil _ nonempty]
    rw [Lexer.runLength] at length length'
    rw [List.cons_append, List.append_assoc, resultLength, length', List.drop_left, nameLength,
      length, if_neg (mt List.length_eq_zero_iff.mp nonempty), List.length_cons, List.length_append]
    omega

theorem IsBrackets.mem_head? (isBrackets : IsBrackets brackets)
    (first : c ∈ (brackets ++ rest).head?) : c = '[' ∨ c ∈ rest.head? := by
  cases isBrackets with
  | nothing => exact Or.inr first
  | pair => exact Or.inl (Option.some.inj first).symm

theorem IsArguments.mem_head? (isArgs : IsArguments args) (first : c ∈ (args ++ rest).head?) :
    c = '<' ∨ c ∈ rest.head? := by
  cases isArgs with
  | nothing => exact Or.inr first
  | listed => exact Or.inl (Option.some.inj first).symm

theorem argumentsLength_append (isArgs : IsArguments args) (other : '<' ∉ rest.head?) :
    argumentsLength (args ++ rest) = args.length := by
  cases isArgs with
  | nothing =>
    rw [List.nil_append, argumentsLength]
    · rfl
    · rintro cs rfl
      exact other rfl
  | @listed inner unclosed =>
    rw [List.cons_append, List.append_assoc, List.singleton_append, argumentsLength,
      lengthThrough?_append unclosed, List.length_cons, List.length_append, List.length_singleton]
    dsimp only
    omega

theorem bracketsLength_append (isBrackets : IsBrackets brackets) (other : '[' ∉ rest.head?) :
    bracketsLength (brackets ++ rest) = brackets.length := by
  induction isBrackets with
  | nothing =>
    rw [List.nil_append, bracketsLength]
    · rfl
    · rintro cs rfl
      exact other rfl
  | pair _ ih =>
    rw [List.cons_append, List.cons_append, bracketsLength, ih, List.length_cons, List.length_cons]
    omega

/-- What starts like a function type has a parenthesis behind its first word. -/
theorem functionLength?_name (all : ∀ d ∈ inner, isNameChar d = true)
    (other : ∀ d ∈ rest.head?, isNameChar d = false) (unopened : '(' ∉ rest.head?) :
    functionLength? (c :: (inner ++ rest)) = none := by
  unfold functionLength?
  split
  case h_2 => rfl
  case h_1 cs same =>
    obtain ⟨-, same⟩ := List.cons.inj same
    have length := Lexer.runLength_append all other
    have chars : ∀ d ∈ ['u', 'n'], isNameChar d = true := List.all_eq_true.mp (by decide)
    have word : Lexer.runLength isNameChar (['u', 'n'] ++ '(' :: cs) = 2 :=
      Lexer.runLength_append chars (by simp; decide)
    rw [same] at length
    have two : inner.length = 2 := length.symm.trans word
    have behind := congrArg (List.drop inner.length) same
    rw [List.drop_left, two] at behind
    rw [behind] at unopened
    exact absurd rfl unopened

/-- The scan cuts off the whole of an alternative in front of a space. -/
theorem scan_append (alternative : IsAlternative cs) (spaced : ∀ c ∈ rest.head?, c = ' ') :
    scan (cs ++ rest) = some cs.length := by
  cases alternative with
  | @function params result unclosed isResult =>
    have read : functionLength? ('f' :: 'u' :: 'n' :: '(' :: (params ++ ')' :: (result ++ rest)))
        = some (4 + (params.length + 1) + result.length) := by
      rw [functionLength?_params unclosed, resultLength_append isResult spaced]
    simp only [List.cons_append, List.append_assoc, scan, read, Option.some_or, List.length_cons,
      List.length_append, Option.some.injEq]
    omega
  | @named c name args brackets start all isArgs isBrackets =>
    -- no part goes on with what the next part or the text behind them starts with
    have next : ∀ d ∈ (brackets ++ rest).head?, d = '[' ∨ d = ' ' := fun d first =>
      (isBrackets.mem_head? first).imp_right (spaced d)
    have next' : ∀ d ∈ (args ++ (brackets ++ rest)).head?, d = '<' ∨ d = '[' ∨ d = ' ' :=
      fun d first => (isArgs.mem_head? first).imp_right (next d)
    have stop : ∀ d ∈ (args ++ (brackets ++ rest)).head?, isNameChar d = false := fun d first => by
      rcases next' d first with rfl | rfl | rfl <;> decide
    have function := functionLength?_name (c := c) all stop
      fun first => absurd (next' _ first) (by decide)
    have read := namedLength?_name start (Lexer.runLength_append all stop)
    rw [argumentsLength_append isArgs fun first => absurd (next _ first) (by decide),
      List.drop_left,
      bracketsLength_append isBrackets fun first => absurd (spaced _ first) (by decide)] at read
    simp only [List.cons_append, List.append_assoc, scan, function, read, Option.none_or,
      List.length_cons, List.length_append, Option.some.injEq]
    omega

/-! ## Where an alternative starts and ends -/

theorem IsAlternative.exists_start (alternative : IsAlternative cs) :
    ∃ c rest, c :: rest = cs ∧ isNameStart c = true := by
  cases alternative with
  | function => exact ⟨'f', _, rfl, by decide⟩
  | named start => exact ⟨_, _, rfl, start⟩

/-- An alternative starts with no blank. -/
theorem IsAlternative.isBlank_first (alternative : IsAlternative cs) (rest : List Char) :
    ∀ c ∈ (cs ++ rest).head?, isBlank c = false := by
  obtain ⟨c, cs, rfl, start⟩ := alternative.exists_start
  rintro _ ⟨⟩
  exact Lexer.isBlank_of_isNameStart start

theorem not_mem_getLast?_append (left : c ∉ cs.getLast?) (right : c ∉ rest.getLast?) :
    c ∉ (cs ++ rest).getLast? := by
  rw [List.getLast?_append]
  intro last
  rcases Option.or_eq_some_iff.mp last with last | ⟨-, last⟩
  · exact right last
  · exact left last

theorem not_mem_getLast?_of_all (all : ∀ d ∈ cs, isNameChar d = true)
    (other : isNameChar c = false) : c ∉ cs.getLast? := fun last => by
  rw [all c (List.mem_of_getLast? last)] at other
  exact Bool.noConfusion other

theorem IsResult.not_mem_getLast? (isResult : IsResult result) : '?' ∉ result.getLast? := by
  cases isResult with
  | nothing => exact nofun
  | @of blanks name _ nonempty all =>
    rw [← List.cons_append, List.getLast?_append_of_ne_nil _ nonempty]
    exact not_mem_getLast?_of_all all (by decide)

theorem IsArguments.not_mem_getLast? (isArgs : IsArguments args) : '?' ∉ args.getLast? := by
  cases isArgs with
  | nothing => exact nofun
  | listed =>
    rw [← List.cons_append, List.getLast?_concat]
    decide

theorem IsBrackets.not_mem_getLast? (isBrackets : IsBrackets brackets) :
    '?' ∉ brackets.getLast? := by
  induction isBrackets with
  | nothing => exact nofun
  | pair _ ih =>
    have mark : '?' ∉ ['[', ']'].getLast? := by decide
    exact not_mem_getLast?_append mark ih

/-- A question mark at the end is never a part of the alternative. -/
theorem IsAlternative.not_mem_getLast? (alternative : IsAlternative cs) : '?' ∉ cs.getLast? := by
  cases alternative with
  | @function params result _ isResult =>
    have front : '?' ∉ ('f' :: 'u' :: 'n' :: '(' :: params ++ [')']).getLast? := by
      rw [List.getLast?_concat]
      decide
    have whole := not_mem_getLast?_append front isResult.not_mem_getLast?
    rwa [List.append_assoc] at whole
  | @named c name args brackets start all isArgs isBrackets =>
    have first : '?' ∉ [c].getLast? := fun last => by
      obtain rfl : c = '?' := Option.some.inj last
      exact absurd start (by decide)
    have last := not_mem_getLast?_append isArgs.not_mem_getLast? isBrackets.not_mem_getLast?
    exact not_mem_getLast?_append first
      (not_mem_getLast?_append (not_mem_getLast?_of_all all (by decide)) last)

/-! ## The types of an expression -/

/-- The name of the type is an alternative of a type expression. -/
structure Written (t : LuaType) : Prop where
  named : t = .named t.text
  alternative : IsAlternative t.text.toList

theorem IsAlternative.written (alternative : IsAlternative cs) :
    Written (.named (String.ofList cs)) :=
  ⟨rfl, by rwa [LuaType.text, String.toList_ofList]⟩

/-- What the question mark adds could have been written. -/
theorem written_nil : Written .nil := by
  have start : isNameStart 'n' = true := by decide
  have all : ∀ c ∈ ['i', 'l'], isNameChar c = true := List.all_eq_true.mp (by decide)
  exact (IsAlternative.named start all .nothing .nothing).written

theorem written_of_scan (found : scan cs = some n) :
    Written (.named (String.ofList (cs.take n))) := by
  obtain ⟨name, rest, rfl, rfl, alternative⟩ := leads_scan found
  rw [List.take_left]
  exact alternative.written

/-- Every alternative that is read adds types that can be written. -/
theorem parseFrom_written {fuel : Nat} {found s : TypeSet} (before : ∀ t ∈ found.toList, Written t)
    (read : parseFrom fuel cs found = some s) :
    s.toList ≠ [] ∧ ∀ t ∈ s.toList, Written t := by
  induction fuel generalizing cs found with
  | zero => cases read
  | succ fuel ih =>
    unfold parseFrom at read
    split at read
    · cases read
    · rename_i n scanned
      dsimp only at read
      generalize added : (if (cs.drop n).head? = some '?' then
        (found.insert (.named (String.ofList (cs.take n)))).insert .nil
        else found.insert (.named (String.ofList (cs.take n)))) = more at read
      have withName := TypeSet.forall_insert before (written_of_scan scanned)
      have withNil := TypeSet.forall_insert withName.2 written_nil
      have after : more.toList ≠ [] ∧ ∀ t ∈ more.toList, Written t := by
        subst more
        split
        · exact withNil
        · exact withName
      split at read
      · exact ih after.2 read
      · cases read
        exact after

/-- The types of an expression are some, and they can be written. -/
theorem parse?_written {text : List Char} {s : TypeSet} (read : parse? text = some s) :
    s.toList ≠ [] ∧ ∀ t ∈ s.toList, Written t :=
  parseFrom_written (by simp) read

/-! ## Reading back -/

/-- The names of types with bars between them. -/
def joined (ts : List LuaType) : List Char :=
  [' ', '|', ' '].intercalate (ts.map fun t => t.text.toList)

section Reading

variable {fuel : Nat} {found : TypeSet} {t u : LuaType} {ts : List LuaType}

theorem joined_singleton (t : LuaType) : joined [t] = t.text.toList :=
  List.intercalate_singleton

theorem joined_cons_cons (t u : LuaType) (ts : List LuaType) :
    joined (t :: u :: ts) = t.text.toList ++ ' ' :: '|' :: ' ' :: joined (u :: ts) := by
  rw [joined, List.map_cons, List.map_cons, List.intercalate_cons_cons, List.append_assoc]
  rfl

theorem toList_text (s : TypeSet) : s.text.toList = joined s.toList := by
  rw [TypeSet.text, String.toList_intercalate, List.map_map]
  rfl

theorem dropBlanks_joined (written : Written t) (ts : List LuaType) :
    dropBlanks (joined (t :: ts)) = joined (t :: ts) := by
  refine dropBlanks_eq_self ?_
  cases ts with
  | nil =>
    rw [joined_singleton, ← List.append_nil t.text.toList]
    exact written.alternative.isBlank_first []
  | cons u ts =>
    rw [joined_cons_cons]
    exact written.alternative.isBlank_first _

/-- The last alternative is the end of an expression. -/
theorem parseFrom_last (written : Written t) :
    parseFrom (fuel + 1) t.text.toList found = some (found.insert t) := by
  have scanned : scan (t.text.toList ++ []) = some t.text.toList.length :=
    scan_append written.alternative nofun
  have nothing : dropBlanks [] = [] := rfl
  rw [List.append_nil] at scanned
  simp only [parseFrom, scanned, List.take_length, List.drop_length, List.head?_nil,
    String.ofList_toList, ← written.named, reduceCtorEq, ↓reduceIte, nothing]

/-- Behind a bar the next alternative is read. -/
theorem parseFrom_bar (written : Written t) (solid : dropBlanks rest = rest) :
    parseFrom (fuel + 1) (t.text.toList ++ ' ' :: '|' :: ' ' :: rest) found
      = parseFrom fuel rest (found.insert t) := by
  have scanned : scan (t.text.toList ++ ' ' :: '|' :: ' ' :: rest) = some t.text.toList.length :=
    scan_append written.alternative (by simp)
  have bar : dropBlanks (' ' :: '|' :: ' ' :: rest) = '|' :: ' ' :: rest := rfl
  have next : dropBlanks (' ' :: rest) = rest := solid
  have required : (' ' :: '|' :: ' ' :: rest).head? ≠ some '?' := by simp
  rw [parseFrom, scanned]
  simp only [List.take_left, List.drop_left, if_neg required, String.ofList_toList,
    ← written.named, bar, next]

/-- Names with bars between them are read as the types that they name. -/
theorem parseFrom_joined (written : ∀ u ∈ t :: ts, Written u)
    (room : (joined (t :: ts)).length < fuel) :
    parseFrom fuel (joined (t :: ts)) found = some (found.insertMany (t :: ts)) := by
  induction ts generalizing t fuel found with
  | nil =>
    obtain ⟨fuel, rfl⟩ := Nat.exists_eq_add_one_of_ne_zero (Nat.ne_zero_of_lt room)
    rw [joined_singleton, parseFrom_last (written t List.mem_cons_self)]
    rfl
  | cons u ts ih =>
    obtain ⟨fuel, rfl⟩ := Nat.exists_eq_add_one_of_ne_zero (Nat.ne_zero_of_lt room)
    have later : ∀ v ∈ u :: ts, Written v := fun v mem => written v (List.mem_cons_of_mem t mem)
    have solid := dropBlanks_joined (later u List.mem_cons_self) ts
    rw [joined_cons_cons, List.length_append, List.length_cons, List.length_cons, List.length_cons]
      at room
    rw [joined_cons_cons, parseFrom_bar (written t List.mem_cons_self) solid,
      ih later (by omega)]
    rfl

/-- Types that can be written are the types of an expression. -/
theorem parse?_joined (written : ∀ u ∈ t :: ts, Written u) :
    parse? (joined (t :: ts)) = some (.ofList (t :: ts)) := by
  rw [parse?, dropBlanks_joined (written t List.mem_cons_self)]
  exact parseFrom_joined written (Nat.lt_succ_self _)

end Reading

/-- The types of an expression are some, each has a name that starts with a letter or an underscore
and does not end in a question mark, and they are read back from their text. -/
theorem parse?_text {text : List Char} {s : TypeSet} (read : parse? text = some s) :
    s.toList ≠ []
      ∧ (∀ t ∈ s.toList, ∃ name : String, t = .named name
          ∧ (∃ c ∈ name.toList.head?, c.isAlpha = true ∨ c = '_')
          ∧ name.toList.getLast? ≠ some '?')
      ∧ parse? s.text.toList = some s := by
  obtain ⟨nonempty, written⟩ := parse?_written read
  refine ⟨nonempty, fun t mem => ⟨t.text, (written t mem).named, ?_, ?_⟩, ?_⟩
  · obtain ⟨c, rest, name, start⟩ := (written t mem).alternative.exists_start
    exact ⟨c, by rw [← name]; rfl, by simpa [isNameStart] using start⟩
  · exact (written t mem).alternative.not_mem_getLast?
  · obtain ⟨t, ts, types⟩ := List.exists_cons_of_ne_nil nonempty
    rw [types] at written
    rw [toList_text, types, parse?_joined written, ← types, TypeSet.ofList_toList]

/-- Bars and question marks between brackets belong to a name, and a question mark behind a name is
shown as one more type. -/
theorem parse?_text_optional :
    ∃ s, parse? "Foo<a|b?>[]? |fun(x: T?): U | nil | Foo<a|b?>[] of both".toList = some s
      ∧ s.text = "Foo<a|b?>[] | nil | fun(x: T?): U" ∧ parse? s.text.toList = some s := by
  have read : parse? "Foo<a|b?>[]? |fun(x: T?): U | nil | Foo<a|b?>[] of both".toList
      = some ⟨[.named "Foo<a|b?>[]", .nil, .named "fun(x: T?): U"], by decide⟩ := by
    decide +kernel
  exact ⟨_, read, by decide +kernel, (parse?_text read).2.2⟩

end TypeExpr

end LuaTyping

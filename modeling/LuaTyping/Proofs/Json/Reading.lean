import Mathlib.Data.List.Forall2
import Mathlib.Data.List.TakeWhile
import LuaTyping.Json.Printer
import LuaTyping.Json.Reader

/-!
# Texts of a value are read as the value

A JSON value has many texts: blanks may stand between all tokens, and the two printers differ in
nothing else.  The texts with any blanks are described by a grammar here (`Json.WrittenAs`), and the
reader is shown to take each of them for its value.

The characters of strings and names are the ones that the printers choose: what has to be escaped is
escaped, and nothing else.  For numbers there are only the naturals.  A number is the one value
whose end is not seen in its text, so it has to be said what may stand behind a value
(`Json.Reader.EndsNumber`); brackets, commas and blanks may.

The reader counts its steps.  Whatever a text consists of, one step for each of its characters is
enough, since every item and every member has at least one character beside those of its value
(`Json.Reader.reads`).

* `Json.Reader.stringTail_escapes`: the characters of a string are read back.
* `Json.Reader.number?_toString`: so are the digits of a number.
* `Json.parse?_of_writtenAs`: and so is every text of a value.
-/

namespace LuaTyping

theorem mapM_eq_some_iff {α β : Type} {f : α → Option β} {as : List α} {bs : List β} :
    as.mapM f = some bs ↔ List.Forall₂ (fun a b => f a = some b) as bs := by
  induction as generalizing bs with
  | nil => simp [List.mapM_nil, eq_comm]
  | cons a as ih =>
    rw [List.mapM_cons, List.forall₂_cons_left_iff]
    simp only [Option.bind_eq_bind, Option.bind_eq_some_iff, Option.pure_def, Option.some.injEq, ih,
      eq_comm (b := bs), exists_and_left]

namespace Json

namespace Reader

variable {fuel : Nat} {c : Char} {cs ds rest : List Char}

/-! ## Strings -/

theorem hexValue?_hexDigit : ∀ n < 16, hexValue? (hexDigit n) = some n := by decide

/-- No character is half of a pair. -/
theorem unitChar_toNat (c : Char) (cs : List Char) : unitChar c.toNat cs = (some c, cs) := by
  have valid : c.toNat < 0xd800 ∨ 0xdfff < c.toNat ∧ c.toNat < 0x110000 := c.valid
  have high : isHighHalf c.toNat = false := by
    rw [isHighHalf]
    simp
    omega
  have low : isLowHalf c.toNat = false := by
    rw [isLowHalf]
    simp
    omega
  simp [unitChar, high, low]

theorem escaped?_control (control : c.toNat < 32) (cs : List Char) :
    escaped? ('u' :: '0' :: '0' :: hexDigit (c.toNat / 16) :: hexDigit (c.toNat % 16) :: cs)
      = some (some c, cs) := by
  have zero : hexValue? '0' = some 0 := rfl
  have high := hexValue?_hexDigit (c.toNat / 16) (by omega)
  have low := hexValue?_hexDigit (c.toNat % 16) (by omega)
  have unit : ((0 * 16 + 0) * 16 + c.toNat / 16) * 16 + c.toNat % 16 = c.toNat := by omega
  simp only [escaped?, hexUnit?, zero, high, low, Option.bind_eq_bind, Option.bind_some,
    Option.pure_def, unit, unitChar_toNat]

/-- What is written for a character is read as the character. -/
theorem stringTail_escape (c : Char) (cs done : List Char) :
    stringTail (fuel + 1) ((escape c).toList ++ cs) (some done)
      = stringTail fuel cs (some (c :: done)) := by
  unfold escape
  split_ifs with quote backslash newline carriage tab back feed control
  -- Seven characters have an escape by a letter.
  iterate 7 (subst_vars; rfl)
  · rw [String.toList_push, String.toList_push]
    have step := escaped?_control control cs
    simp [stringTail, step]
  · simp [stringTail, quote, backslash, control]

theorem length_escape_pos (c : Char) : 0 < (escape c).toList.length := by
  unfold escape
  split_ifs <;> simp

/-- The characters of a string, escaped, up to the closing quote. -/
theorem stringTail_escapes (cs rest done : List Char)
    (enough : (cs.flatMap fun c => (escape c).toList).length < fuel) :
    stringTail fuel ((cs.flatMap fun c => (escape c).toList) ++ '"' :: rest) (some done)
      = some (some (String.ofList (done.reverse ++ cs)), rest) := by
  induction cs generalizing fuel done with
  | nil =>
    obtain ⟨fuel, rfl⟩ := Nat.exists_eq_add_of_lt enough
    simp [stringTail]
  | cons c cs ih =>
    have one := length_escape_pos c
    rw [List.flatMap_cons, List.length_append] at enough
    obtain ⟨fuel, rfl⟩ : ∃ n, fuel = n + 1 := Nat.exists_eq_add_one.mpr (by omega)
    rw [List.flatMap_cons, List.append_assoc, stringTail_escape, ih _ (by omega)]
    simp

theorem toList_quote (s : String) :
    (quote s).toList = '"' :: ((s.toList.flatMap fun c => (escape c).toList) ++ ['"']) := by
  have run (cs : List Char) (out : String) : (cs.foldl (fun out c => out ++ escape c) out).toList
      = out.toList ++ cs.flatMap fun c => (escape c).toList := by
    induction cs generalizing out with
    | nil => simp
    | cons c cs ih => rw [List.foldl_cons, ih]; simp
  rw [quote, String.toList_push, run]
  rfl

/-! ## Numbers -/

/-- What may stand behind a number. -/
def EndsNumber (rest : List Char) : Prop :=
  ∀ c ∈ rest.head?, c.isDigit = false ∧ c ≠ '.' ∧ c ≠ 'e' ∧ c ≠ 'E'

/-- Only the number zero is written with a leading zero. -/
theorem head?_toDigits {n : Nat} (pos : n ≠ 0) : (Nat.toDigits 10 n).head? ≠ some '0' := by
  induction n using Nat.strongRecOn with
  | ind n ih =>
    by_cases short : n < 10
    · have single : ∀ n < 10, n ≠ 0 → [n.digitChar].head? ≠ some '0' := by decide
      rw [Nat.toDigits_of_lt_base short]
      exact single n short pos
    · rw [Nat.toDigits_of_base_le (by omega) (by omega),
        List.head?_append_of_ne_nil _ Nat.toDigits_ne_nil]
      exact ih (n / 10) (by omega) (by omega)

theorem digits?_append (digit : ∀ c ∈ ds, c.isDigit = true) (nonempty : ds ≠ [])
    (ends : EndsNumber rest) : digits? (ds ++ rest) = some (ds, rest) := by
  have none : rest.takeWhile Char.isDigit = [] := by
    cases rest with
    | nil => rfl
    | cons c cs => simp [(ends c rfl).1]
  have all : rest.dropWhile Char.isDigit = rest := by
    cases rest with
    | nil => rfl
    | cons c cs => simp [(ends c rfl).1]
  rw [digits?, List.takeWhile_append_of_pos digit, List.dropWhile_append_of_pos digit, none, all,
    List.append_nil]
  cases ds with
  | nil => exact absurd rfl nonempty
  | cons d ds => rfl

theorem wholePart?_toDigits (n : Nat) (ends : EndsNumber rest) :
    wholePart? (Nat.toDigits 10 n ++ rest) = some (Nat.toDigits 10 n, rest) := by
  rw [wholePart?, digits?_append (fun c => Nat.isDigit_of_mem_toDigits (by decide) (by decide))
    Nat.toDigits_ne_nil ends]
  split
  · rename_i d ds rest' leading
    rw [Option.some.injEq, Prod.mk.injEq] at leading
    have zero : n = 0 := by
      by_contra pos
      exact head?_toDigits pos (by rw [leading.1]; rfl)
    rw [zero] at leading
    simp at leading
  · rfl

theorem digitsValue_toDigits (n : Nat) : digitsValue (Nat.toDigits 10 n) = n := by
  have same : digitsValue (Nat.toDigits 10 n) = Nat.ofDigitChars 10 (Nat.toDigits 10 n) 0 := by
    rw [Nat.ofDigitChars_eq_foldl, digitsValue]
    congr 1
    funext value c
    rw [Nat.mul_comm]
    rfl
  rw [same, Nat.ofDigitChars_ten_toDigits]

theorem fraction?_of_ends (ends : EndsNumber rest) : fraction? rest = some ([], rest) := by
  cases rest with
  | nil => rfl
  | cons c cs =>
    rw [fraction?]
    rintro cs' same
    exact (ends c rfl).2.1 (List.cons.inj same).1

theorem exponent?_of_ends (ends : EndsNumber rest) : exponent? rest = some ([], rest) := by
  cases rest with
  | nil => rfl
  | cons c cs =>
    obtain ⟨-, -, small, capital⟩ := ends c rfl
    rw [exponent?.eq_def]
    exact if_neg (not_or.mpr ⟨small, capital⟩)

theorem number?_toString (n : Nat) (ends : EndsNumber rest) :
    number? ((toString n).toList ++ rest) = some (.natural n, rest) := by
  have unsigned : (Nat.toDigits 10 n ++ rest).head? ≠ some '-' := by
    rw [List.head?_append_of_ne_nil _ Nat.toDigits_ne_nil]
    intro minus
    have digit := Nat.isDigit_of_mem_toDigits (by decide) (by decide) (List.mem_of_head? minus)
    exact absurd digit (by decide)
  rw [Nat.toString_eq_ofList_toDigits, String.toList_ofList]
  simp only [number?, unsigned, if_false, wholePart?_toDigits n ends, Option.bind_eq_bind,
    Option.bind_some, fraction?_of_ends ends, exponent?_of_ends ends, digitsValue_toDigits]
  simp

/-! ## Blanks -/

/-- Blanks of the grammar. -/
def IsSpaces (cs : List Char) : Prop := ∀ c ∈ cs, isSpace c = true

theorem isSpaces_nil : IsSpaces [] := nofun

theorem skipSpace_append {b : List Char} (blank : IsSpaces b) :
    skipSpace (b ++ cs) = skipSpace cs :=
  List.dropWhile_append_of_pos blank

theorem skipSpace_cons (solid : isSpace c = false) : skipSpace (c :: cs) = c :: cs :=
  List.dropWhile_cons_of_neg (by simp [solid])

end Reader

open Reader

/-! ## Texts of a value -/

/-- The texts of a name up to its value. -/
inductive NameWrittenAs (k : String) : List Char → Prop
  | name {b b'} (blank : IsSpaces b) (blank' : IsSpaces b') :
      NameWrittenAs k ((quote k).toList ++ (b ++ ':' :: b'))

mutual

/-- The texts of a value, with blanks between the tokens. -/
inductive WrittenAs : Json → List Char → Prop
  | null : WrittenAs .null "null".toList
  | bool (b : Bool) : WrittenAs (.bool b) (if b then "true" else "false").toList
  | natural (n : Nat) : WrittenAs (.natural n) (toString n).toList
  | string (s : String) : WrittenAs (.string s) (quote s).toList
  | noItems {b} (blank : IsSpaces b) : WrittenAs (.array []) ('[' :: (b ++ [']']))
  | array {items b cs} (blank : IsSpaces b) (written : ItemsWrittenAs items cs) :
      WrittenAs (.array items) ('[' :: (b ++ cs))
  | noMembers {b} (blank : IsSpaces b) : WrittenAs (.object []) ('\x7b' :: (b ++ ['\x7d']))
  | object {members b cs} (blank : IsSpaces b) (written : MembersWrittenAs members cs) :
      WrittenAs (.object members) ('\x7b' :: (b ++ cs))

/-- The texts of items up to the closing bracket. -/
inductive ItemsWrittenAs : List Json → List Char → Prop
  | last {x cs b} (written : WrittenAs x cs) (blank : IsSpaces b) :
      ItemsWrittenAs [x] (cs ++ (b ++ [']']))
  | more {x xs cs b b' ds} (written : WrittenAs x cs) (blank : IsSpaces b) (blank' : IsSpaces b')
      (others : ItemsWrittenAs xs ds) : ItemsWrittenAs (x :: xs) (cs ++ (b ++ ',' :: (b' ++ ds)))

/-- The texts of members up to the closing brace. -/
inductive MembersWrittenAs : List (String × Json) → List Char → Prop
  | last {k x ks cs b} (name : NameWrittenAs k ks) (written : WrittenAs x cs) (blank : IsSpaces b) :
      MembersWrittenAs [(k, x)] (ks ++ (cs ++ (b ++ ['\x7d'])))
  | more {k x ms ks cs b b' ds} (name : NameWrittenAs k ks) (written : WrittenAs x cs)
      (blank : IsSpaces b) (blank' : IsSpaces b') (others : MembersWrittenAs ms ds) :
      MembersWrittenAs ((k, x) :: ms) (ks ++ (cs ++ (b ++ ',' :: (b' ++ ds))))

end

theorem isSpace_of_isDigit {c : Char} (digit : c.isDigit = true) : isSpace c = false := by
  rw [Bool.eq_false_iff]
  intro space
  simp only [isSpace, Bool.or_eq_true, beq_iff_eq] at space
  obtain ((rfl | rfl) | rfl) | rfl := space <;> exact absurd digit (by decide)

theorem exists_toString (n : Nat) :
    ∃ c ds, (toString n).toList = c :: ds ∧ c.isDigit = true := by
  rw [Nat.toString_eq_ofList_toDigits, String.toList_ofList]
  cases digits : Nat.toDigits 10 n with
  | nil => exact absurd digits Nat.toDigits_ne_nil
  | cons c ds =>
    refine ⟨c, ds, rfl, Nat.isDigit_of_mem_toDigits (b := 10) (n := n) (by decide) (by decide) ?_⟩
    rw [digits]
    exact List.mem_cons_self

/-- How a text of a value starts. -/
theorem WrittenAs.exists_cons {j : Json} {cs : List Char} (written : WrittenAs j cs) :
    ∃ c ds, cs = c :: ds ∧ isSpace c = false ∧ c ≠ ']' := by
  cases written with
  | null => exact ⟨'n', _, rfl, by decide, by decide⟩
  | bool b =>
    cases b with
    | false => exact ⟨'f', _, rfl, by decide, by decide⟩
    | true => exact ⟨'t', _, rfl, by decide, by decide⟩
  | natural n =>
    obtain ⟨c, ds, eq, digit⟩ := exists_toString n
    refine ⟨c, ds, eq, isSpace_of_isDigit digit, ?_⟩
    rintro rfl
    exact absurd digit (by decide)
  | string s => exact ⟨'"', _, toList_quote s, by decide, by decide⟩
  | noItems | array => exact ⟨'[', _, rfl, by decide, by decide⟩
  | noMembers | object => exact ⟨'\x7b', _, rfl, by decide, by decide⟩

theorem ItemsWrittenAs.exists_cons {xs : List Json} {cs : List Char}
    (written : ItemsWrittenAs xs cs) : ∃ c ds, cs = c :: ds ∧ isSpace c = false ∧ c ≠ ']' := by
  cases written with
  | last first | more first =>
    obtain ⟨c, ds, rfl, start⟩ := first.exists_cons
    exact ⟨c, _, rfl, start⟩

theorem MembersWrittenAs.exists_cons {ms : List (String × Json)} {cs : List Char}
    (written : MembersWrittenAs ms cs) : ∃ ds, cs = '"' :: ds := by
  cases written with
  | last name | more name =>
    cases name with
    | name => exact ⟨_, by rw [toList_quote]; rfl⟩

/-! ## Reading -/

namespace Reader

/-- Texts are read with an amount of fuel, whatever stands behind them. -/
structure Reads (fuel : Nat) : Prop where
  value : ∀ {j cs} rest, WrittenAs j cs → EndsNumber rest → cs.length ≤ fuel →
    value? fuel (cs ++ rest) = some (j, rest)
  items : ∀ {xs cs} rest done, ItemsWrittenAs xs cs → cs.length ≤ fuel →
    items? fuel (cs ++ rest) done = some (.array (done.reverse ++ xs), rest)
  members : ∀ {ms cs} rest done, MembersWrittenAs ms cs → cs.length ≤ fuel →
    members? fuel (cs ++ rest) done
      = some (objectOf (done.reverse ++ ms.map fun m => (some m.1, m.2)), rest)

variable {fuel : Nat} {c : Char} {b cs rest : List Char} {j : Json}

theorem value?_of_isDigit (digit : c.isDigit = true) (cs : List Char) :
    value? (fuel + 1) (c :: cs) = number? (c :: cs) := by
  rw [value?]
  all_goals
    rintro _ same
    cases same
    exact absurd digit (by decide)

theorem endsNumber_nil : EndsNumber [] := nofun

theorem endsNumber_append (blank : IsSpaces b) (ends : EndsNumber rest) :
    EndsNumber (b ++ rest) := by
  cases b with
  | nil => exact ends
  | cons c b =>
    intro d first
    obtain rfl : c = d := Option.some.inj first
    have space := blank c List.mem_cons_self
    simp only [isSpace, Bool.or_eq_true, beq_iff_eq] at space
    obtain ((rfl | rfl) | rfl) | rfl := space <;> decide

theorem endsNumber_cons (mark : c = ',' ∨ c = ']' ∨ c = '\x7d') : EndsNumber (c :: cs) := by
  intro d first
  obtain rfl : c = d := Option.some.inj first
  obtain rfl | rfl | rfl := mark <;> decide

theorem objectOf_named (ms : List (String × Json)) :
    objectOf (ms.map fun m => (some m.1, m.2)) = .object ms := by
  have named : ((ms.map fun m => (some m.1, m.2)).mapM fun m => m.1.map fun name => (name, m.2))
      = some ms :=
    mapM_eq_some_iff.mpr (List.forall₂_map_left_iff.mpr (List.forall₂_same.mpr fun _ _ => rfl))
  rw [objectOf, named]

theorem Reads.zero : Reads 0 where
  value rest written _ enough := by
    obtain ⟨c, ds, rfl, -⟩ := written.exists_cons
    exact absurd enough (by simp)
  items rest done written enough := by
    obtain ⟨c, ds, rfl, -⟩ := written.exists_cons
    exact absurd enough (by simp)
  members rest done written enough := by
    obtain ⟨ds, rfl⟩ := written.exists_cons
    exact absurd enough (by simp)

theorem Reads.value_succ (h : Reads fuel) (rest : List Char) (written : WrittenAs j cs)
    (ends : EndsNumber rest) (enough : cs.length ≤ fuel + 1) :
    value? (fuel + 1) (cs ++ rest) = some (j, rest) := by
  cases written with
  | null => rfl
  | bool b => cases b <;> rfl
  | natural n =>
    obtain ⟨c, ds, eq, digit⟩ := exists_toString n
    rw [eq, List.cons_append, value?_of_isDigit digit, ← List.cons_append, ← eq,
      number?_toString n ends]
  | string s =>
    have tail : (s.toList.flatMap fun c => (escape c).toList).length < fuel := by
      rw [toList_quote, List.length_cons, List.length_append, List.length_singleton] at enough
      omega
    rw [toList_quote, List.cons_append, List.append_assoc, List.singleton_append, value?,
      stringTail_escapes _ _ _ tail]
    simp
  | noItems blank =>
    rw [List.cons_append, value?, List.append_assoc, skipSpace_append blank, List.singleton_append,
      skipSpace_cons (by decide)]
    rfl
  | array blank written =>
    rw [List.length_cons, List.length_append] at enough
    have step := h.items rest [] written (by omega)
    obtain ⟨c, ds, rfl, solid, other⟩ := written.exists_cons
    rw [List.cons_append, value?, List.append_assoc, skipSpace_append blank, List.cons_append,
      skipSpace_cons solid]
    -- No item starts with a closing bracket, so the array is not taken for an empty one.
    split
    · rename_i same
      exact absurd (List.cons.inj same).1 other
    · exact step
  | noMembers blank =>
    rw [List.cons_append, value?, List.append_assoc, skipSpace_append blank, List.singleton_append,
      skipSpace_cons (by decide)]
    rfl
  | object blank written =>
    rw [List.length_cons, List.length_append] at enough
    have step := h.members rest [] written (by omega)
    rw [List.reverse_nil, List.nil_append, objectOf_named] at step
    obtain ⟨ds, rfl⟩ := written.exists_cons
    rw [List.cons_append, value?, List.append_assoc, skipSpace_append blank, List.cons_append,
      skipSpace_cons (by decide)]
    exact step

/-- One item, and what stands behind it. -/
theorem Reads.item (h : Reads fuel) {x : Json} (done : List Json) (written : WrittenAs x cs)
    (ends : EndsNumber rest) (enough : cs.length ≤ fuel) :
    items? (fuel + 1) (cs ++ rest) done =
      match skipSpace rest with
      | ',' :: rest => items? fuel (skipSpace rest) (x :: done)
      | ']' :: rest => some (.array (x :: done).reverse, rest)
      | _ => none := by
  rw [items?, h.value rest written ends enough]
  rfl

theorem Reads.items_succ (h : Reads fuel) {xs : List Json} (rest : List Char) (done : List Json)
    (written : ItemsWrittenAs xs cs) (enough : cs.length ≤ fuel + 1) :
    items? (fuel + 1) (cs ++ rest) done = some (.array (done.reverse ++ xs), rest) := by
  cases written with
  | @last x cs b written blank =>
    have ends : EndsNumber (b ++ ']' :: rest) :=
      endsNumber_append blank (endsNumber_cons (.inr (.inl rfl)))
    simp only [List.length_append, List.length_singleton] at enough
    rw [List.append_assoc, List.append_assoc, List.singleton_append,
      h.item done written ends (by omega), skipSpace_append blank, skipSpace_cons (by decide)]
    simp
  | @more x xs cs b b' ds written blank blank' others =>
    have ends : EndsNumber (b ++ ',' :: (b' ++ (ds ++ rest))) :=
      endsNumber_append blank (endsNumber_cons (.inl rfl))
    simp only [List.length_append, List.length_cons] at enough
    have further := h.items rest (x :: done) others (by omega)
    rw [List.append_assoc, List.append_assoc, List.cons_append, List.append_assoc,
      h.item done written ends (by omega), skipSpace_append blank, skipSpace_cons (by decide)]
    obtain ⟨c, ds, rfl, solid, -⟩ := others.exists_cons
    simp only [skipSpace_append blank', List.cons_append, skipSpace_cons solid]
    simpa using further

/-- One member, and what stands behind it. -/
theorem Reads.member (h : Reads fuel) {k : String} {ks : List Char} {x : Json}
    (done : List (Option String × Json)) (name : NameWrittenAs k ks) (written : WrittenAs x cs)
    (ends : EndsNumber rest) (enough : ks.length + cs.length ≤ fuel + 1) :
    members? (fuel + 1) (ks ++ (cs ++ rest)) done =
      match skipSpace rest with
      | ',' :: rest => members? fuel (skipSpace rest) ((some k, x) :: done)
      | '\x7d' :: rest => some (objectOf ((some k, x) :: done).reverse, rest)
      | _ => none := by
  obtain @⟨b, b', blank, blank'⟩ := name
  simp only [toList_quote, List.length_append, List.length_cons, List.length_nil] at enough
  have value := h.value rest written ends (by omega)
  obtain ⟨c, ds, rfl, solid, -⟩ := written.exists_cons
  simp only [toList_quote, List.append_assoc, List.cons_append, List.nil_append] at value ⊢
  rw [members?, stringTail_escapes _ _ _ (by omega), Option.bind_eq_bind, Option.bind_some]
  simp only [skipSpace_append blank]
  rw [skipSpace_cons (by decide)]
  simp only [skipSpace_append blank', skipSpace_cons solid, value, List.reverse_nil,
    List.nil_append, String.ofList_toList]
  rfl

theorem Reads.members_succ (h : Reads fuel) {ms : List (String × Json)} (rest : List Char)
    (done : List (Option String × Json)) (written : MembersWrittenAs ms cs)
    (enough : cs.length ≤ fuel + 1) :
    members? (fuel + 1) (cs ++ rest) done
      = some (objectOf (done.reverse ++ ms.map fun m => (some m.1, m.2)), rest) := by
  cases written with
  | @last k x ks cs b name written blank =>
    have ends : EndsNumber (b ++ '\x7d' :: rest) :=
      endsNumber_append blank (endsNumber_cons (.inr (.inr rfl)))
    simp only [List.length_append] at enough
    rw [List.append_assoc, List.append_assoc, List.append_assoc, List.singleton_append,
      h.member done name written ends (by omega), skipSpace_append blank,
      skipSpace_cons (by decide)]
    simp
  | @more k x ms ks cs b b' ds name written blank blank' others =>
    have ends : EndsNumber (b ++ ',' :: (b' ++ (ds ++ rest))) :=
      endsNumber_append blank (endsNumber_cons (.inl rfl))
    simp only [List.length_append, List.length_cons] at enough
    have positive : 0 < ks.length := by
      cases name
      simp [toList_quote]
    have further := h.members rest ((some k, x) :: done) others (by omega)
    rw [List.append_assoc, List.append_assoc, List.append_assoc, List.cons_append,
      List.append_assoc, h.member done name written ends (by omega), skipSpace_append blank,
      skipSpace_cons (by decide)]
    obtain ⟨ds, rfl⟩ := others.exists_cons
    simp only [skipSpace_append blank', List.cons_append]
    rw [skipSpace_cons (by decide)]
    simpa using further

/-- Texts are read with one step of fuel for each of their characters. -/
theorem reads (fuel : Nat) : Reads fuel := by
  -- Values, items and members are read by each other, so the induction is on the fuel.
  induction fuel with
  | zero => exact Reads.zero
  | succ fuel h => exact ⟨h.value_succ, h.items_succ, h.members_succ⟩

end Reader

/-- A text of a value, with blanks around it, is read as the value. -/
theorem parse?_of_writtenAs {j : Json} {b cs b' : List Char} (written : WrittenAs j cs)
    (blank : IsSpaces b) (blank' : IsSpaces b') :
    parse? (String.ofList (b ++ (cs ++ b'))) = some j := by
  have ends : EndsNumber b' := by simpa using endsNumber_append blank' endsNumber_nil
  have step := (reads ((b ++ (cs ++ b')).length + 1)).value b' written ends (by simp; omega)
  obtain ⟨c, ds, rfl, solid, -⟩ := written.exists_cons
  rw [parse?, String.toList_ofList, skipSpace_append blank, List.cons_append, skipSpace_cons solid,
    ← List.cons_append, step, Option.bind_eq_bind, Option.bind_some]
  simp only [skipSpace, List.dropWhile_eq_nil_iff.mpr blank', if_true, Option.pure_def]

end Json

end LuaTyping

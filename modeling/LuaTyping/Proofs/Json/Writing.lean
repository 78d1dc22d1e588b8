import LuaTyping.Proofs.Json.Reading

/-!
# What is written is read back

Both printers put the text of a value behind what is already written.  They go through a value in
the same way and differ in the blanks that they put in front of items and members and behind the
last one, so what they have in common is said of printers with any blanks: if values are written by
their texts (`Json.Writes`), then so are arrays and objects of them.

A number that is no natural is written as it stands, whatever that is, and a value whose escapes
stand for no characters has no text.  All others are read back.

* `Json.writes_compact`, `Json.writes_pretty`: the printers write texts of a value.
* `Json.parse?_compact`, `Json.parse?_pretty`: which are read as the value.
-/

namespace LuaTyping.Json

open Reader

/-! ## Printers with any blanks -/

/-- Values without numbers of other forms than the naturals, and without escapes that stand for no
characters. -/
inductive IsPlain : Json → Prop
  | null : IsPlain .null
  | bool (b : Bool) : IsPlain (.bool b)
  | natural (n : Nat) : IsPlain (.natural n)
  | string (s : String) : IsPlain (.string s)
  | array {xs : List Json} (items : ∀ x ∈ xs, IsPlain x) : IsPlain (.array xs)
  | object {ms : List (String × Json)} (members : ∀ m ∈ ms, IsPlain m.2) : IsPlain (.object ms)

/-- Blanks are put behind what is written. -/
def Pads (pad : String → String) : Prop :=
  ∀ out, ∃ b, IsSpaces b ∧ (pad out).toList = out.toList ++ b

/-- A text of a value is put behind what is written. -/
def Writes (j : Json) (write : String → String) : Prop :=
  ∀ out, ∃ cs, WrittenAs j cs ∧ (write out).toList = out.toList ++ cs

/-- Items are put behind what is written, up to the blanks before the closing bracket. -/
def WritesItems (xs : List Json) (write : String → String) : Prop :=
  ∀ out, ∃ b cs, IsSpaces b ∧ (∀ e, IsSpaces e → ItemsWrittenAs xs (cs ++ (e ++ [']'])))
    ∧ (write out).toList = out.toList ++ (b ++ cs)

/-- A name is put behind what is written, up to its value. -/
def WritesName (k : String) (write : String → String) : Prop :=
  ∀ out, ∃ b ks, IsSpaces b ∧ NameWrittenAs k ks ∧ (write out).toList = out.toList ++ (b ++ ks)

/-- Members are put behind what is written, up to the blanks before the closing brace. -/
def WritesMembers (ms : List (String × Json)) (write : String → String) : Prop :=
  ∀ out, ∃ b cs, IsSpaces b ∧ (∀ e, IsSpaces e → MembersWrittenAs ms (cs ++ (e ++ ['\x7d'])))
    ∧ (write out).toList = out.toList ++ (b ++ cs)

variable {j x : Json} {xs : List Json} {k : String} {ms : List (String × Json)}
  {pad write others name : String → String}

theorem pads_id : Pads id := fun _ => ⟨[], isSpaces_nil, (List.append_nil _).symm⟩

theorem Writes.last (first : Writes x write) (pads : Pads pad) :
    WritesItems [x] fun out => write (pad out) := by
  intro out
  obtain ⟨b, blank, padded⟩ := pads out
  obtain ⟨cs, written, shown⟩ := first (pad out)
  exact ⟨b, cs, blank, fun e ends => .last written ends, by rw [shown, padded, List.append_assoc]⟩

theorem Writes.more (first : Writes x write) (pads : Pads pad) (rest : WritesItems xs others) :
    WritesItems (x :: xs) fun out => others ((write (pad out)).push ',') := by
  intro out
  obtain ⟨b, blank, padded⟩ := pads out
  obtain ⟨cs, written, shown⟩ := first (pad out)
  obtain ⟨b', ds, blank', writtenRest, shownRest⟩ := rest ((write (pad out)).push ',')
  refine ⟨b, cs ++ ',' :: (b' ++ ds), blank, fun e ends => ?_, ?_⟩
  · have := ItemsWrittenAs.more written isSpaces_nil blank' (writtenRest e ends)
    simpa using this
  · rw [shownRest, String.toList_push, shown, padded]
    simp

/-- Printers of items go on with a comma where there are more. -/
theorem writesItems {write : Json → String → String} {all : List Json → String → String}
    (pads : Pads pad) (last : ∀ x out, all [x] out = write x (pad out))
    (more : ∀ x y ys out, all (x :: y :: ys) out = all (y :: ys) ((write x (pad out)).push ','))
    (items : ∀ x ∈ xs, Writes x (write x)) (nonempty : xs ≠ []) : WritesItems xs (all xs) := by
  induction xs with
  | nil => exact absurd rfl nonempty
  | cons x xs ih =>
    have first := items x List.mem_cons_self
    cases xs with
    | nil =>
      rw [funext (last x)]
      exact first.last pads
    | cons y ys =>
      rw [funext (more x y ys)]
      exact first.more pads (ih (fun z mem => items z (List.mem_cons_of_mem _ mem)) nofun)

theorem WritesItems.array (items : WritesItems xs write) (pads : Pads pad) :
    Writes (.array xs) fun out => (pad (write (out.push '['))).push ']' := by
  intro out
  obtain ⟨b, cs, blank, written, shown⟩ := items (out.push '[')
  obtain ⟨e, ends, padded⟩ := pads (write (out.push '['))
  refine ⟨_, .array blank (written e ends), ?_⟩
  rw [String.toList_push, padded, shown, String.toList_push]
  simp

theorem WritesName.last (named : WritesName k name) (first : Writes x write) :
    WritesMembers [(k, x)] fun out => write (name out) := by
  intro out
  obtain ⟨b, ks, blank, writtenName, shownName⟩ := named out
  obtain ⟨cs, written, shown⟩ := first (name out)
  refine ⟨b, ks ++ cs, blank, fun e ends => ?_, by rw [shown, shownName]; simp⟩
  rw [List.append_assoc]
  exact .last writtenName written ends

theorem WritesName.more (named : WritesName k name) (first : Writes x write)
    (rest : WritesMembers ms others) :
    WritesMembers ((k, x) :: ms) fun out => others ((write (name out)).push ',') := by
  intro out
  obtain ⟨b, ks, blank, writtenName, shownName⟩ := named out
  obtain ⟨cs, written, shown⟩ := first (name out)
  obtain ⟨b', ds, blank', writtenRest, shownRest⟩ := rest ((write (name out)).push ',')
  refine ⟨b, ks ++ (cs ++ ',' :: (b' ++ ds)), blank, fun e ends => ?_, ?_⟩
  · have := MembersWrittenAs.more writtenName written isSpaces_nil blank' (writtenRest e ends)
    simpa using this
  · rw [shownRest, String.toList_push, shown, shownName]
    simp

/-- Printers of members do so too, and put the name in front of each value. -/
theorem writesMembers {write : Json → String → String} {name : String → String → String}
    {all : List (String × Json) → String → String} (named : ∀ k, WritesName k (name k))
    (last : ∀ m out, all [m] out = write m.2 (name m.1 out))
    (more : ∀ m n ns out,
      all (m :: n :: ns) out = all (n :: ns) ((write m.2 (name m.1 out)).push ','))
    (members : ∀ m ∈ ms, Writes m.2 (write m.2)) (nonempty : ms ≠ []) :
    WritesMembers ms (all ms) := by
  induction ms with
  | nil => exact absurd rfl nonempty
  | cons m ms ih =>
    have first := members m List.mem_cons_self
    cases ms with
    | nil =>
      rw [funext (last m)]
      exact (named m.1).last first
    | cons n ns =>
      rw [funext (more m n ns)]
      exact (named m.1).more first
        (ih (fun z mem => members z (List.mem_cons_of_mem _ mem)) nofun)

theorem WritesMembers.object (members : WritesMembers ms write) (pads : Pads pad) :
    Writes (.object ms) fun out => (pad (write (out.push '\x7b'))).push '\x7d' := by
  intro out
  obtain ⟨b, cs, blank, written, shown⟩ := members (out.push '\x7b')
  obtain ⟨e, ends, padded⟩ := pads (write (out.push '\x7b'))
  refine ⟨_, .object blank (written e ends), ?_⟩
  rw [String.toList_push, padded, shown, String.toList_push]
  simp

/-! ### Without blanks -/

theorem writesName_compact (k : String) : WritesName k fun out => (out ++ quote k).push ':' :=
  fun out => ⟨[], _, isSpaces_nil, .name isSpaces_nil isSpaces_nil, by simp⟩

theorem writes_compact (plain : IsPlain j) : Writes j (writeCompact j) := by
  induction plain with
  | null => exact fun out => ⟨_, .null, by simp [writeCompact]⟩
  | bool b => exact fun out => ⟨_, .bool b, by simp [writeCompact]⟩
  | natural n => exact fun out => ⟨_, .natural n, by simp [writeCompact]⟩
  | string s => exact fun out => ⟨_, .string s, by simp [writeCompact]⟩
  | @array xs items ih =>
    cases xs with
    | nil => exact fun out => ⟨_, .noItems isSpaces_nil, by simp [writeCompact, writeItems]⟩
    | cons x xs =>
      have written : WritesItems (x :: xs) (writeItems (x :: xs)) :=
        writesItems pads_id (fun _ _ => rfl) (fun _ _ _ _ => rfl) ih nofun
      intro out
      rw [writeCompact]
      exact written.array pads_id out
  | @object ms members ih =>
    cases ms with
    | nil => exact fun out => ⟨_, .noMembers isSpaces_nil, by simp [writeCompact, writeMembers]⟩
    | cons m ms =>
      have written : WritesMembers (m :: ms) (writeMembers (m :: ms)) :=
        writesMembers writesName_compact (fun _ _ => rfl) (fun _ _ _ _ => rfl) ih nofun
      intro out
      rw [writeCompact]
      exact written.object pads_id out

/-! ### On several lines -/

theorem pads_foldl (ns : List Nat) : Pads fun out => ns.foldl (fun out _ => out ++ "  ") out := by
  induction ns with
  | nil => exact pads_id
  | cons n ns ih =>
    intro out
    obtain ⟨b, blank, shown⟩ := ih (out ++ "  ")
    refine ⟨' ' :: ' ' :: b, ?_, shown.trans (by simp)⟩
    simpa [IsSpaces, isSpace] using blank

theorem pads_newline (level : Nat) : Pads (newline level) := by
  intro out
  obtain ⟨b, blank, shown⟩ := pads_foldl (List.range level) (out.push '\n')
  refine ⟨'\n' :: b, ?_, by rw [newline, shown]; simp⟩
  simpa [IsSpaces, isSpace] using blank

theorem writesName_pretty (level : Nat) (k : String) :
    WritesName k fun out => newline level out ++ quote k ++ ": " := by
  intro out
  obtain ⟨b, blank, shown⟩ := pads_newline level out
  have space : IsSpaces [' '] := by simp [IsSpaces, isSpace]
  exact ⟨b, _, blank, .name isSpaces_nil space, by simp [shown]⟩

theorem writes_pretty (plain : IsPlain j) (level : Nat) : Writes j (writePretty level j) := by
  induction plain generalizing level with
  | null => exact fun out => ⟨_, .null, by simp [writePretty]⟩
  | bool b => exact fun out => ⟨_, .bool b, by simp [writePretty]⟩
  | natural n => exact fun out => ⟨_, .natural n, by simp [writePretty]⟩
  | string s => exact fun out => ⟨_, .string s, by simp [writePretty]⟩
  | @array xs items ih =>
    cases xs with
    | nil => exact fun out => ⟨_, .noItems isSpaces_nil, by simp [writePretty]⟩
    | cons x xs =>
      have items := fun y mem => ih y mem (level + 1)
      have written : WritesItems (x :: xs) (prettyItems (level + 1) (x :: xs)) :=
        writesItems (pads_newline _) (fun _ _ => rfl) (fun _ _ _ _ => rfl) items nofun
      intro out
      rw [writePretty]
      exact written.array (pads_newline level) out
  | @object ms members ih =>
    cases ms with
    | nil => exact fun out => ⟨_, .noMembers isSpaces_nil, by simp [writePretty]⟩
    | cons m ms =>
      have members := fun n mem => ih n mem (level + 1)
      have written : WritesMembers (m :: ms) (prettyMembers (level + 1) (m :: ms)) :=
        writesMembers (writesName_pretty _) (fun _ _ => rfl) (fun _ _ _ _ => rfl) members nofun
      intro out
      rw [writePretty]
      exact written.object (pads_newline level) out

/-! ## Reading back -/

/-- What is put behind nothing is read back. -/
theorem Writes.parse?_eq (writes : Writes j write) : parse? (write "") = some j := by
  obtain ⟨cs, written, shown⟩ := writes ""
  have text : write "" = String.ofList ([] ++ (cs ++ [])) := by
    rw [List.nil_append, List.append_nil, ← String.ofList_toList (s := write ""), shown]
    rfl
  rw [text]
  exact parse?_of_writtenAs written isSpaces_nil isSpaces_nil

theorem parse?_compact (plain : IsPlain j) : parse? (compact j) = some j :=
  (writes_compact plain).parse?_eq

theorem parse?_pretty (plain : IsPlain j) : parse? (pretty j) = some j :=
  (writes_pretty plain 0).parse?_eq

end LuaTyping.Json

import Mathlib.Data.List.Forall2
import LuaTyping.TypeSet.Json
import LuaTyping.Proofs.Json.Writing
import LuaTyping.Proofs.TypeSet.Insertion

/-!
# Sets of types through JSON

A set of types is written in one way and may be read from many values.  The members of an object may
stand in any order, with others between them; a type or a site may be the array of its members
without their names; and a type may be listed again.  All these values are described first, without
the reader (`TypeSet.Spelled`): where a name is given twice the last one counts, and the numbers of
a site are below the limit of numbers.

The reader takes a value for a set just if the value spells the set.  So what is read has numbers
below the limit, and what is written for it spells it again, with the types in their order.

* `Json.Holds`: the values under some names, in an object or in an array.
* `Site.ofJson?_eq_some_iff`, `LuaType.ofJson?_eq_some_iff`, `TypeSet.ofJson?_eq_some_iff`: what is
  read is what is spelled.
* `LuaType.spelled_toJson`: what is written for a type spells it.
* `TypeSet.json_round_trip`: what is written for a set is read back, as a value and as a text.
-/

namespace LuaTyping

/-! ## Members -/

namespace Json

variable {name kind : String} {names : List String} {v j : Json} {values : List Json}
  {ms : List (String × Json)}

/-- The last value that is given for a name. -/
def IsLast (ms : List (String × Json)) (name : String) (v : Json) : Prop :=
  ∃ before behind, ms = before ++ (name, v) :: behind ∧ ∀ m ∈ behind, m.1 ≠ name

theorem lookup_eq_some_iff : lookup name ms = some v ↔ IsLast ms name v := by
  simp only [lookup, Option.map_eq_some_iff, List.find?_eq_some_iff_append, beq_iff_eq]
  -- The search goes through the members from the last one.
  constructor
  · rintro ⟨⟨_, _⟩, ⟨rfl, behind, before, split, other⟩, rfl⟩
    refine ⟨before.reverse, behind.reverse, ?_, fun m mem => ?_⟩
    · rw [← List.reverse_reverse ms, split]
      simp
    · simpa using other m (List.mem_reverse.mp mem)
  · rintro ⟨before, behind, rfl, other⟩
    refine ⟨(name, v), ⟨rfl, behind.reverse, before.reverse, by simp, fun m mem => ?_⟩, rfl⟩
    simpa using other m (List.mem_reverse.mp mem)

/-- The values that an object has under some names, or that are the items of an array. -/
inductive Holds (names : List String) (values : List Json) : Json → Prop
  | object {ms : List (String × Json)} (named : List.Forall₂ (IsLast ms) names values) :
      Holds names values (.object ms)
  | array (length : values.length = names.length) : Holds names values (.array values)

theorem fieldsOfJson?_eq_some_iff : fieldsOfJson? names j = some values ↔ Holds names values j := by
  constructor
  · intro read
    cases j with
    | object ms =>
      simp only [fieldsOfJson?, mapM_eq_some_iff, lookup_eq_some_iff] at read
      exact .object read
    | array items =>
      simp only [fieldsOfJson?, Option.ite_none_right_eq_some, Option.some.injEq] at read
      obtain ⟨length, rfl⟩ := read
      exact .array length
    | null | bool | natural | number | string | illFormed => cases read
  · rintro (named | length)
    · simpa only [fieldsOfJson?, mapM_eq_some_iff, lookup_eq_some_iff] using named
    · rw [fieldsOfJson?, if_pos length]

/-- A kind, and the value that the other members are read from. -/
inductive Tagged (kind : String) : Json → Json → Prop
  | object {ms : List (String × Json)} (last : IsLast ms "kind" (.string kind)) :
      Tagged kind (.object ms) (.object ms)
  | array {items : List Json} : Tagged kind (.array items) (.array (.string kind :: items))

/-- The kind is one more member in front of the others. -/
theorem holds_kind_iff :
    Holds ("kind" :: names) (.string kind :: values) j ↔
      ∃ rest, Tagged kind rest j ∧ Holds names values rest := by
  constructor
  · rintro (@⟨ms, named⟩ | length)
    · obtain ⟨last, named⟩ := List.forall₂_cons.mp named
      exact ⟨.object ms, .object last, .object named⟩
    · exact ⟨.array values, .array, .array (Nat.succ.inj length)⟩
  · rintro ⟨rest, tagged, holds⟩
    cases tagged with
    | object last =>
      cases holds with
      | object named => exact .object (.cons last named)
    | array =>
      cases holds with
      | array length => exact .array (congrArg Nat.succ length)

/-- Names that are given once have the values that they are given with. -/
theorem holds_zip (nodup : names.Nodup) (length : values.length = names.length) :
    Holds names values (.object (names.zip values)) := by
  refine .object ?_
  -- Further in, the object has the members that are done in front of the others.
  suffices named : ∀ before, List.Forall₂ (IsLast (before ++ names.zip values)) names values from
    named []
  induction names generalizing values with
  | nil =>
    obtain rfl := List.eq_nil_of_length_eq_zero length
    exact fun _ => .nil
  | cons name names ih =>
    obtain ⟨v, values, rfl⟩ := List.exists_cons_of_length_eq_add_one length
    obtain ⟨new, nodup⟩ := List.nodup_cons.mp nodup
    intro before
    refine .cons ⟨before, names.zip values, rfl, fun m mem => ?_⟩ ?_
    · rintro rfl
      exact new (List.of_mem_zip mem).1
    · rw [List.zip_cons_cons, List.append_cons]
      exact ih nodup (Nat.succ.inj length) _

theorem string?_eq_some_iff {s : String} : j.string? = some s ↔ j = .string s := by
  cases j <;> simp [string?]

end Json

open Json

/-! ## Sites -/

namespace Site

variable {s : Site} {j : Json}

/-- The numbers of a site that can be named. -/
structure InRange (s : Site) : Prop where
  file_lt : s.file < UInt32.size
  node_lt : s.node < UInt32.size

/-- The values that a site is read from. -/
structure Spelled (s : Site) (j : Json) : Prop where
  holds : Holds ["file", "node"] [.natural s.file, .natural s.node] j
  inRange : s.InRange

theorem idOfJson?_eq_some_iff {n : Nat} :
    idOfJson? j = some n ↔ j = .natural n ∧ n < UInt32.size := by
  have limit : idLimit = UInt32.size := rfl
  cases j <;> simp [idOfJson?, natural?, Option.filter_eq_some_iff, limit]

/-- A site is read from the values that spell it. -/
theorem ofJson?_eq_some_iff : Site.ofJson? j = some s ↔ s.Spelled j := by
  constructor
  · intro read
    rw [Site.ofJson?] at read
    split at read
    · rename_i f n fields
      simp only [Option.bind_eq_bind, Option.bind_eq_some_iff, idOfJson?_eq_some_iff,
        Option.pure_def, Option.some.injEq] at read
      obtain ⟨file, ⟨rfl, file_lt⟩, node, ⟨rfl, node_lt⟩, rfl⟩ := read
      exact ⟨fieldsOfJson?_eq_some_iff.mp fields, file_lt, node_lt⟩
    · cases read
  · intro spelled
    have file := idOfJson?_eq_some_iff.mpr ⟨rfl, spelled.inRange.file_lt⟩
    have node := idOfJson?_eq_some_iff.mpr ⟨rfl, spelled.inRange.node_lt⟩
    simp only [Site.ofJson?, fieldsOfJson?_eq_some_iff.mpr spelled.holds, file, node]
    rfl

/-- What is written for a site spells it. -/
theorem spelled_toJson (inRange : s.InRange) : s.Spelled s.toJson where
  holds := holds_zip (by decide) rfl
  inRange := inRange

end Site

/-! ## Types -/

namespace LuaType

variable {t : LuaType} {kind : String} {rest j : Json}

/-- The numbers of the site of a type, if it has one, can be named. -/
def InRange (t : LuaType) : Prop := ∀ s, t.site? = some s → s.InRange

/-- The values that a type is read from. -/
inductive Spelled : LuaType → Json → Prop
  | named {n : String} {j : Json} (holds : Holds ["kind", "name"] [.string "named", .string n] j) :
      Spelled (.named n) j
  | table {s : Site} {j x : Json} (holds : Holds ["kind", "site"] [.string "table", x] j)
      (site : s.Spelled x) : Spelled (.table s) j
  | global {n : String} {s : Site} {j x : Json}
      (holds : Holds ["kind", "name", "site"] [.string "global", .string n, x] j)
      (site : s.Spelled x) : Spelled (.global n s) j
  | function {s : Site} {j x : Json} (holds : Holds ["kind", "site"] [.string "function", x] j)
      (site : s.Spelled x) : Spelled (.function s) j

/-- First the kind is read, then what belongs to it. -/
theorem ofJson?_eq_some_iff_tagged :
    LuaType.ofJson? j = some t ↔ ∃ kind rest, Tagged kind rest j ∧ ofKind? kind rest = some t := by
  constructor
  · intro read
    rw [LuaType.ofJson?.eq_def] at read
    split at read
    · simp only [Option.bind_eq_bind, Option.bind_eq_some_iff, lookup_eq_some_iff,
        string?_eq_some_iff] at read
      obtain ⟨kind, ⟨v, last, rfl⟩, read⟩ := read
      exact ⟨kind, _, .object last, read⟩
    · simp only [Option.bind_eq_bind, Option.bind_eq_some_iff, string?_eq_some_iff] at read
      obtain ⟨kind, rfl, read⟩ := read
      exact ⟨kind, _, .array, read⟩
    · cases read
  · rintro ⟨kind, rest, last | _, read⟩
    · simp only [LuaType.ofJson?, lookup_eq_some_iff.mpr last, Option.bind_eq_bind,
        Option.bind_some, string?, read]
    · simp only [LuaType.ofJson?, string?, Option.bind_eq_bind, Option.bind_some, read]

theorem spelled_of_ofKind? (tagged : Tagged kind rest j) (read : ofKind? kind rest = some t) :
    t.Spelled j := by
  -- Whatever the kind needs, the kind itself is put in front of it.
  have spelled {names : List String} {values : List Json}
      (fields : fieldsOfJson? names rest = some values) :
      Holds ("kind" :: names) (.string kind :: values) j :=
    holds_kind_iff.mpr ⟨rest, tagged, fieldsOfJson?_eq_some_iff.mp fields⟩
  unfold ofKind? at read
  split_ifs at read with isNamed isTable isGlobal isFunction
  · subst isNamed
    split at read
    · rename_i n fields
      obtain ⟨n, name, rfl⟩ := Option.map_eq_some_iff.mp read
      obtain rfl := string?_eq_some_iff.mp name
      exact .named (spelled fields)
    · cases read
  · subst isTable
    split at read
    · rename_i x fields
      obtain ⟨s, site, rfl⟩ := Option.map_eq_some_iff.mp read
      exact .table (spelled fields) (Site.ofJson?_eq_some_iff.mp site)
    · cases read
  · subst isGlobal
    split at read
    · rename_i n x fields
      simp only [Option.bind_eq_bind, Option.bind_eq_some_iff, string?_eq_some_iff,
        Site.ofJson?_eq_some_iff, Option.pure_def, Option.some.injEq] at read
      obtain ⟨n, rfl, s, site, rfl⟩ := read
      exact .global (spelled fields) site
    · cases read
  · subst isFunction
    split at read
    · rename_i x fields
      obtain ⟨s, site, rfl⟩ := Option.map_eq_some_iff.mp read
      exact .function (spelled fields) (Site.ofJson?_eq_some_iff.mp site)
    · cases read

theorem Spelled.exists_tagged (spelled : t.Spelled j) :
    ∃ kind rest, Tagged kind rest j ∧ ofKind? kind rest = some t := by
  cases spelled with
  | named holds =>
    obtain ⟨rest, tagged, fields⟩ := holds_kind_iff.mp holds
    refine ⟨_, rest, tagged, ?_⟩
    simp [ofKind?, fieldsOfJson?_eq_some_iff.mpr fields, string?]
  | table holds site | function holds site =>
    obtain ⟨rest, tagged, fields⟩ := holds_kind_iff.mp holds
    refine ⟨_, rest, tagged, ?_⟩
    simp [ofKind?, fieldsOfJson?_eq_some_iff.mpr fields, Site.ofJson?_eq_some_iff.mpr site]
  | global holds site =>
    obtain ⟨rest, tagged, fields⟩ := holds_kind_iff.mp holds
    refine ⟨_, rest, tagged, ?_⟩
    simp [ofKind?, fieldsOfJson?_eq_some_iff.mpr fields, Site.ofJson?_eq_some_iff.mpr site, string?]

/-- A type is read from the values that spell it. -/
theorem ofJson?_eq_some_iff : LuaType.ofJson? j = some t ↔ t.Spelled j := by
  rw [ofJson?_eq_some_iff_tagged]
  exact ⟨fun ⟨_, _, tagged, read⟩ => spelled_of_ofKind? tagged read, Spelled.exists_tagged⟩

/-- Only numbers that can be named are read. -/
theorem Spelled.inRange (spelled : t.Spelled j) : t.InRange := by
  cases spelled with
  | named => exact nofun
  | table _ site | global _ site | function _ site =>
    rintro _ ⟨⟩
    exact site.inRange

theorem inRange_of_spelled {items : List Json} {types : List LuaType}
    (all : List.Forall₂ (fun item (t : LuaType) => t.Spelled item) items types) :
    ∀ t ∈ types, t.InRange := by
  induction all with
  | nil => exact nofun
  | cons spelled _ ih => exact List.forall_mem_cons.mpr ⟨spelled.inRange, ih⟩

/-- What is written for a type spells it. -/
theorem spelled_toJson (inRange : t.InRange) : t.Spelled t.toJson := by
  cases t with
  | named n => exact .named (holds_zip (by decide) rfl)
  | table s => exact .table (holds_zip (by decide) rfl) (s.spelled_toJson (inRange s rfl))
  | global n s => exact .global (holds_zip (by decide) rfl) (s.spelled_toJson (inRange s rfl))
  | function s => exact .function (holds_zip (by decide) rfl) (s.spelled_toJson (inRange s rfl))

end LuaType

/-! ## Sets of types -/

namespace TypeSet

variable {s : TypeSet} {j : Json}

/-- The values that a set is read from: arrays whose items spell types, and these come to the set,
whether they are listed once or more often. -/
def Spelled (s : TypeSet) (j : Json) : Prop :=
  ∃ items types, j = .array items ∧ List.Forall₂ (fun item t => t.Spelled item) items types
    ∧ s.Lists types

/-- A set is read from the values that spell it. -/
theorem ofJson?_eq_some_iff : TypeSet.ofJson? j = some s ↔ s.Spelled j := by
  have spelled {items types} : items.mapM LuaType.ofJson? = some types ↔
      List.Forall₂ (fun item (t : LuaType) => t.Spelled item) items types := by
    simp only [mapM_eq_some_iff, LuaType.ofJson?_eq_some_iff]
  constructor
  · intro read
    simp only [TypeSet.ofJson?, Option.bind_eq_bind, Option.bind_eq_some_iff, spelled,
      Option.pure_def, Option.some.injEq] at read
    obtain ⟨items, array, types, all, rfl⟩ := read
    cases j <;> cases array
    exact ⟨items, types, rfl, all, lists_ofList types⟩
  · rintro ⟨items, types, rfl, all, lists⟩
    rw [lists_iff.mp lists]
    simp only [TypeSet.ofJson?, array?, Option.bind_eq_bind, Option.bind_some, spelled.mpr all]
    rfl

theorem Spelled.inRange (spelled : s.Spelled j) : ∀ t ∈ s.toList, t.InRange := by
  obtain ⟨items, types, -, all, lists⟩ := spelled
  exact fun t mem => LuaType.inRange_of_spelled all t
    ((lists.contains_iff t).mp (contains_iff.mpr mem))

/-- What is written for a set spells it. -/
theorem spelled_toJson (inRange : ∀ t ∈ s.toList, t.InRange) : s.Spelled s.toJson := by
  refine ⟨_, s.toList, rfl, ?_, lists_iff.mpr (ofList_toList s).symm⟩
  rw [List.forall₂_map_left_iff, List.forall₂_same]
  exact fun t mem => t.spelled_toJson (inRange t mem)

theorem isPlain_toJson (s : TypeSet) : s.toJson.IsPlain := by
  have site (x : Site) : x.toJson.IsPlain := .object (by simp [Json.IsPlain.natural])
  refine .array fun j mem => ?_
  obtain ⟨t, -, rfl⟩ := List.mem_map.mp mem
  cases t <;> exact .object (by simp [Json.IsPlain.string, site])

/-- The set is read back from what is written for it, and so it is from the texts of that. -/
structure ReadBack (s : TypeSet) : Prop where
  value : TypeSet.ofJson? s.toJson = some s
  compact : (Json.parse? s.toJson.compact).bind TypeSet.ofJson? = some s
  pretty : (Json.parse? s.toJson.pretty).bind TypeSet.ofJson? = some s

theorem readBack (inRange : ∀ t ∈ s.toList, t.InRange) : s.ReadBack := by
  have value := ofJson?_eq_some_iff.mpr (spelled_toJson inRange)
  have plain := isPlain_toJson s
  exact ⟨value, by rwa [parse?_compact plain], by rwa [parse?_pretty plain]⟩

/-- A set whose numbers can be named is read back, its types in their order, from what is written
for it, both as a value and as a text.  A set is read just from the values that spell it: the kind
of a type stands anywhere among its members, other members are passed over, a type or a site may be
the array of its members, and a type may be listed again.  Whatever value a set is read from, it
lists no type twice, and it is read back from what is written for it. -/
theorem json_round_trip :
    (∀ s : TypeSet, (∀ t ∈ s.toList, t.InRange) → s.ReadBack)
    ∧ (∀ j s, TypeSet.ofJson? j = some s ↔ s.Spelled j)
    ∧ (∀ j s, TypeSet.ofJson? j = some s → s.toList.Nodup ∧ s.ReadBack) :=
  ⟨fun _ => readBack, fun _ _ => ofJson?_eq_some_iff,
    fun _ s read => ⟨s.nodup, readBack (ofJson?_eq_some_iff.mp read).inRange⟩⟩

/-- Two types at the ends of the range of numbers, one of them under a name that has to be escaped.
In the value that they are read from this one is listed twice, once with its kind behind all else
and a member that is passed over; the other one is an array. -/
theorem json_round_trip_spellings :
    let name := "a\"\\\n\x01é😀"
    let first : LuaType := .global name ⟨4294967295, 0⟩
    let second : LuaType := .table ⟨0, 4294967295⟩
    let s := ofList [first, second]
    let j : Json := .array [
      .object [("site", .array [.natural 4294967295, .natural 0]), ("note", .null),
        ("name", .string name), ("kind", .string "global")],
      .array [.string "table",
        .object [("node", .natural 4294967295), ("file", .natural 0), ("kind", .bool true)]],
      first.toJson]
    ((∀ t ∈ s.toList, t.InRange) ∧ s.ReadBack)
      ∧ TypeSet.ofJson? j = some s ∧ s.toList.Nodup ∧ s.ReadBack := by
  intro name first second s j
  have inRange : ∀ t ∈ s.toList, t.InRange := by
    intro t mem
    rcases List.mem_cons.mp (mem_ofList.mp mem) with rfl | mem
    · rintro _ ⟨⟩
      exact ⟨by decide, by decide⟩
    · obtain rfl := List.mem_singleton.mp mem
      rintro _ ⟨⟩
      exact ⟨by decide, by decide⟩
  have read : TypeSet.ofJson? j = some s := by decide +kernel
  exact ⟨⟨inRange, json_round_trip.1 s inRange⟩, read, json_round_trip.2.2 j s read⟩

end TypeSet

end LuaTyping

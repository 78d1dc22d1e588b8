import LuaTyping.Workspace.Basic
import LuaTyping.Proofs.Project.Insert

/-!
# Histories of a workspace

What a workspace goes through: files get new texts, some of the paths do not lead into the root, and
now and then the project is taken out to answer questions about it.  The answers of `update` are put
one behind the other here, and what all of them together make of the first project is the map of
`Project.Keeps`.

* `Workspace.History.after`: a workspace after some events, with the projects that were taken out.
* `Workspace.History.Kept.step`, `Workspace.History.kept_after`: the project is the map of the texts
  that were accepted.
* `Workspace.History.workspace_refines_map`: what holds of the project at every time, what the next
  update does to it, and what stays forever.
-/

namespace LuaTyping

namespace Workspace

/-! ## One update -/

variable {w : Workspace} {disk : Disk} {path text rel : String} {e : WorkspaceError}

/-- A path that leads into the root is inserted. -/
theorem update_of_ok (inside : w.projectPath disk path = .ok rel) :
    w.update disk path text
      = .ok ((w.project.insert rel text).1,
        { w with project := (w.project.insert rel text).2 }) := by
  rw [update, inside]
  rfl

theorem update_of_error (outside : w.projectPath disk path = .error e) :
    w.update disk path text = .error e := by
  rw [update, outside]
  rfl

/-- What leads into the root depends on the root alone. -/
theorem projectPath_congr {w' : Workspace} (same : w.root = w'.root) (disk : Disk) (path : String) :
    w.projectPath disk path = w'.projectPath disk path := by
  simp only [projectPath, absolute, same]

/-- What happens to a workspace: a file gets a new text, or the project is taken out. -/
inductive Event
  | update (disk : Disk) (path text : String)
  | snapshot

/-- The path inside the project and the text that an event inserts, if it inserts one. -/
def Event.insertion? (start : Workspace) : Event → Option (String × String)
  | .update disk path text =>
    match start.projectPath disk path with
    | .ok rel => some (rel, text)
    | .error _ => none
  | .snapshot => none

/-- A workspace, and the projects that were taken out of it. -/
structure History where
  current : Workspace
  snapshots : List Project

namespace History

/-- One more event.  An update that fails leaves everything as it was. -/
def step (h : History) : Event → History
  | .update disk path text =>
    match h.current.update disk path text with
    | .ok (_, w) => { h with current := w }
    | .error _ => h
  | .snapshot => { h with snapshots := h.snapshots ++ [h.current.project] }

/-- What some events make of a workspace. -/
def after (start : Workspace) (events : List Event) : History := events.foldl step ⟨start, []⟩

/-- The texts that are inserted by some events. -/
def insertions (start : Workspace) (events : List Event) : List (String × String) :=
  events.filterMap (Event.insertion? start)

theorem after_append (start : Workspace) (events later : List Event) :
    after start (events ++ later) = later.foldl step (after start events) := by
  rw [after, List.foldl_append, after]

theorem after_concat (start : Workspace) (events : List Event) (event : Event) :
    after start (events ++ [event]) = (after start events).step event :=
  after_append start events [event]

theorem insertions_concat (start : Workspace) (events : List Event) (event : Event) :
    insertions start (events ++ [event])
      = insertions start events ++ (event.insertion? start).toList := by
  rw [insertions, List.filterMap_append, ← insertions]
  cases found : event.insertion? start with
  | none => rw [List.filterMap_cons_none found, List.filterMap_nil, Option.toList_none]
  | some inserted =>
    rw [List.filterMap_cons_some found, List.filterMap_nil, Option.toList_some]

variable {h : History} {start : Workspace} {inserts : List (String × String)}

/-! ## What an event does -/

/-- The root and the configuration are the first ones, and the project is what insertions made. -/
structure Kept (start : Workspace) (inserts : List (String × String)) (h : History) : Prop where
  root_eq : h.current.root = start.root
  config_eq : h.current.config = start.config
  keeps : h.current.project.Keeps inserts

/-- What an event inserts is kept, and nothing else is changed. -/
theorem Kept.step (k : Kept start inserts h) (event : Event) :
    Kept start (inserts ++ (event.insertion? start).toList) (h.step event) := by
  cases event with
  | snapshot =>
    rw [Event.insertion?, Option.toList_none, List.append_nil]
    exact ⟨k.root_eq, k.config_eq, k.keeps⟩
  | update disk path text =>
    have same := projectPath_congr k.root_eq disk path
    cases leads : start.projectPath disk path with
    | error e =>
      rw [leads] at same
      simp only [Event.insertion?, leads, Option.toList_none, List.append_nil, History.step,
        update_of_error same]
      exact k
    | ok rel =>
      rw [leads] at same
      simp only [Event.insertion?, leads, Option.toList_some, History.step, update_of_ok same]
      exact ⟨k.root_eq, k.config_eq, k.keeps.insert rel text⟩

/-- After all events, the project is the map of the texts that were inserted. -/
theorem kept_after (keeps : start.project.Keeps inserts) (events : List Event) :
    Kept start (inserts ++ insertions start events) (after start events) := by
  induction events using List.reverseRecOn with
  | nil => exact ⟨rfl, rfl, by rwa [insertions, List.filterMap_nil, List.append_nil]⟩
  | append_singleton events event ih =>
    rw [after_concat, insertions_concat, ← List.append_assoc]
    exact ih.step event

/-! ## What was taken out -/

theorem snapshots_step (h : History) (event : Event) :
    h.snapshots <+: (h.step event).snapshots := by
  cases event with
  | snapshot => exact List.prefix_append _ _
  | update disk path text =>
    rw [step]
    split
    · exact List.prefix_rfl
    · exact List.prefix_rfl

/-- Whatever happens later, what was taken out is still there. -/
theorem snapshots_foldl (h : History) (later : List Event) :
    h.snapshots <+: (later.foldl step h).snapshots := by
  induction later generalizing h with
  | nil => exact List.prefix_rfl
  | cons event later ih => exact (h.snapshots_step event).trans (ih (h.step event))

/-- A project that is taken out stays what it was. -/
theorem snapshot_after (start : Workspace) (events later : List Event) :
    (after start (events ++ .snapshot :: later)).snapshots[(after start events).snapshots.length]?
      = some (after start events).current.project := by
  rw [after_append, List.foldl_cons]
  set h := after start events
  have taken : (h.step .snapshot).snapshots[h.snapshots.length]? = some h.current.project :=
    List.getElem?_concat_length
  obtain ⟨inside, at_place⟩ := List.getElem?_eq_some_iff.mp taken
  rw [List.prefix_iff_getElem?.mp (snapshots_foldl (h.step .snapshot) later) _ inside, at_place]

/-! ## The next update -/

/-- An update fails just when the path does not lead into the root. -/
theorem Kept.update_eq_error_iff (k : Kept start inserts h) :
    h.current.update disk path text = .error e ↔ start.projectPath disk path = .error e := by
  rw [← projectPath_congr k.root_eq]
  cases leads : h.current.projectPath disk path with
  | error e' => rw [update_of_error leads, Except.error.injEq, Except.error.injEq]
  | ok rel =>
    rw [update_of_ok leads]
    exact iff_of_false nofun nofun

/-- What an update does that does not fail. -/
theorem Kept.update (k : Kept start inserts h) {id : Nat} {w : Workspace}
    (done : h.current.update disk path text = .ok (id, w)) :
    ∃ rel, start.projectPath disk path = .ok rel
      ∧ h.step (.update disk path text) = { h with current := w }
      ∧ w.root = start.root
      ∧ w.config = start.config
      ∧ w.project.file? id = some (.parse id (normalizePath rel) text)
      ∧ (∀ i, i ≠ id → w.project.file? i = h.current.project.file? i)
      ∧ (∀ old, h.current.project.fileId? rel = some old →
          id = old ∧ w.project.size = h.current.project.size)
      ∧ (h.current.project.fileId? rel = none →
          id = h.current.project.size ∧ w.project.size = h.current.project.size + 1) := by
  have same := projectPath_congr k.root_eq disk path
  cases leads : start.projectPath disk path with
  | error e =>
    rw [leads] at same
    rw [update_of_error same] at done
    exact absurd done nofun
  | ok rel =>
    rw [leads] at same
    have moved : h.step (.update disk path text) = { h with current := w } := by
      rw [History.step, done]
    rw [update_of_ok same] at done
    cases done
    refine ⟨rel, rfl, moved, k.root_eq, k.config_eq, k.keeps.indexed.file?_insert_self rel text,
      fun i other => Project.file?_insert_of_ne other, fun old known => ?_, fun new => ?_⟩
    · exact ⟨by rw [Project.insert_known known], Project.size_insert_known known⟩
    · exact ⟨by rw [Project.insert_new new], Project.size_insert new⟩

/-- At every time, the project of a workspace that was made by insertions is the map from paths to
the texts that were inserted last.  File `i` has the number `i`, the paths are different and in
their form, and a path leads to the file that has its form.  An update fails just when the path does
not lead into the root, and changes nothing then; otherwise a known path keeps its number and gets
the new text, a new path gets the next number, and no other file is changed.  What happens later
changes neither the number of a path nor a project that was taken out. -/
theorem workspace_refines_map (root : String) (config : Config) (patterns : List String)
    (files : List (String × String)) (events : List Event) :
    let start : Workspace := ⟨root, config, Project.ofFiles patterns files⟩
    let h := after start events
    let p := h.current.project
    ((∀ i f, p.file? i = some f → f.id = i ∧ normalizePath f.path = f.path)
      ∧ p.paths.Nodup
      ∧ (∀ path i, p.fileId? path = some i ↔ ∃ f, p.file? i = some f ∧ f.path = normalizePath path)
      ∧ (∀ path, p.text? path = Project.lastText? (files ++ insertions start events) path))
    ∧ (∀ disk path text e,
        (h.current.update disk path text = .error e ↔ start.projectPath disk path = .error e)
        ∧ (h.current.update disk path text = .error e → h.step (.update disk path text) = h))
    ∧ (∀ disk path text id w, h.current.update disk path text = .ok (id, w) →
        ∃ rel, start.projectPath disk path = .ok rel
          ∧ h.step (.update disk path text) = { h with current := w }
          ∧ w.root = root
          ∧ w.config = config
          ∧ w.project.file? id = some (.parse id (normalizePath rel) text)
          ∧ (∀ i, i ≠ id → w.project.file? i = p.file? i)
          ∧ (∀ old, p.fileId? rel = some old → id = old ∧ w.project.size = p.size)
          ∧ (p.fileId? rel = none → id = p.size ∧ w.project.size = p.size + 1))
    ∧ (∀ later,
        (∀ path i, p.fileId? path = some i →
          (after start (events ++ later)).current.project.fileId? path = some i)
        ∧ (after start (events ++ .snapshot :: later)).snapshots[h.snapshots.length]?
          = some p) := by
  intro start h p
  have first : start.project.Keeps files := Project.keeps_ofFiles patterns files
  have kept := kept_after first events
  have keeps := kept.keeps
  refine ⟨⟨fun i f found => ⟨keeps.numbered i f found, keeps.normalizePath_path found⟩,
    keeps.indexed.nodup_paths, fun path i => keeps.fileId?_eq_some_iff, keeps.text?_eq⟩,
    fun disk path text e => ⟨kept.update_eq_error_iff, fun failed => ?_⟩,
    fun disk path text id w => kept.update, fun later => ⟨?_, ?_⟩⟩
  · rw [step, failed]
  · intro path i found
    have later' := (kept_after first (events ++ later)).keeps
    rw [insertions, List.filterMap_append, ← List.append_assoc] at later'
    exact keeps.fileId?_of_later later' found
  · exact snapshot_after start events later

end History

end Workspace

end LuaTyping

import Anwesen.Vault.Dotfiles
import Anwesen.Watcher.Normalization

/-! What the dot-directories of a vault have to do with its notes.

An event path is filtered by its own components. Its text is not: with slashes for
the backslashes it may lead where the path does not.
-/

set_option autoImplicit false

namespace Anwesen.Watcher

open Foundation Vault

/-- Nothing of what is read from a vault tells it from a sibling: no walk, and no window
of events over the given paths. -/
structure Unaffected (ext : External) (fs other : Fs) (vaultRoot : PathBuf) (paths : Set PathBuf) :
    Prop where
  scanned : (scan ext other vaultRoot).notes = (scan ext fs vaultRoot).notes
  walked : ∀ start, Undotted vaultRoot start →
    (scanFrom ext other vaultRoot start).notes = (scanFrom ext fs vaultRoot start).notes
  stored : ∀ events store, (∀ event ∈ events, ∀ path ∈ event.paths, path ∈ paths) →
    applyWindow ext other vaultRoot events store = applyWindow ext fs vaultRoot events store
  inserted : ∀ before between after store,
    (∀ event ∈ between, ∀ path ∈ event.paths, ¬ Undotted vaultRoot path) →
      applyWindow ext other vaultRoot (before ++ between ++ after) store =
        applyWindow ext other vaultRoot (before ++ after) store

/-- A note is read on a walk from the path. -/
def Yields (ext : External) (fs : Fs) (vaultRoot start : PathBuf) : Prop :=
  ∃ entries, walkDir fs start = .ok entries ∧
    ∃ entry ∈ entries, (entryNote ext fs vaultRoot entry).isSome = true

/-- The text of an event path leads through no hidden place, or it is only ever walked
and no note is read there. -/
def Sealed (ext : External) (fs : Fs) (real : Location) (vaultRoot path : PathBuf) : Prop :=
  ∀ rel, relative vaultRoot path = some rel → Clear fs real (absolutePath vaultRoot rel) ∨
    isMarkdown path = false ∧
      (isDir fs path = true → ¬ Yields ext fs vaultRoot (absolutePath vaultRoot rel))

section Mapping

variable {fs other : Fs} {real : Location} {vaultRoot path : PathBuf} {rel : Text} {event : Event}

theorem undotted_of_relative (printed : relative vaultRoot path = some rel) : Undotted vaultRoot path := by
  unfold relative at printed
  split at printed
  · cases printed
  · rename_i inner stripped
    split at printed
    · rename_i passes
      refine ⟨inner, stripped, fun segment member first => ?_⟩
      obtain ⟨⟨part, rfl⟩, shows⟩ := shown_iff.mp (List.all_eq_true.mp passes segment member)
      rw [isDotPrefixed_utf8 first] at shows
      cases shows
    · cases printed

theorem relative_of_dotted (dots : ¬ Undotted vaultRoot path) : relative vaultRoot path = none := by
  cases printed : relative vaultRoot path with
  | none => rfl
  | some rel => exact absurd (undotted_of_relative printed) dots

/-- Every action is about one of the event's paths. -/
theorem mem_mapEvent {action : WatchAction} (listed : action ∈ mapEvent fs vaultRoot event) :
    ∃ path ∈ event.paths, (noteRelative vaultRoot path).map .upsert = some action ∨
      appear fs vaultRoot path = some action ∨ action ∈ vanish vaultRoot path := by
  unfold mapEvent at listed
  split at listed
  · cases listed
  split at listed
  · obtain ⟨path, member, said⟩ := List.mem_filterMap.mp listed
    exact ⟨path, member, .inl said⟩
  · obtain ⟨path, member, said⟩ := List.mem_filterMap.mp listed
    exact ⟨path, member, .inr (.inl said)⟩
  · obtain ⟨path, member, said⟩ := List.mem_flatMap.mp listed
    exact ⟨path, member, .inr (.inr said)⟩
  · rcases List.mem_append.mp listed with gone | came
    · cases first : event.paths.head? with
      | none => simp [first] at gone
      | some path => exact ⟨path, List.mem_of_head? first, .inr (.inr (by simpa [first] using gone))⟩
    · obtain ⟨path, second, said⟩ := Option.bind_eq_some_iff.mp (Option.mem_toList.mp came)
      exact ⟨path, List.mem_of_getElem? second, .inr (.inl said)⟩
  · obtain ⟨path, member, said⟩ := List.mem_flatMap.mp listed
    split at said
    · exact ⟨path, member, .inr (.inl (Option.mem_toList.mp said))⟩
    · exact ⟨path, member, .inr (.inr said)⟩
  · cases listed

/-- An event over hidden and foreign paths says nothing. -/
theorem mapEvent_dotted (dots : ∀ path ∈ event.paths, ¬ Undotted vaultRoot path) :
    mapEvent fs vaultRoot event = [] := by
  refine List.eq_nil_iff_forall_not_mem.mpr fun action listed => ?_
  obtain ⟨path, member, said⟩ := mem_mapEvent listed
  have none_ := relative_of_dotted (dots path member)
  simp [noteRelative, appear, vanish, treeRelative, none_] at said

theorem relative_of_note (noted : noteRelative vaultRoot path = some rel) :
    isMarkdown path = true ∧ relative vaultRoot path = some rel := by
  unfold noteRelative at noted
  split at noted
  · cases noted
  · rename_i markdown
    exact ⟨by simpa using markdown, noted⟩

theorem relative_of_tree (noted : treeRelative vaultRoot path = some rel) :
    relative vaultRoot path = some rel := by
  unfold treeRelative at noted
  split at noted
  · cases noted
  · split at noted
    · cases noted
    · rename_i printed _
      rw [printed, noted]

/-- The upserts of an event are the texts of its note paths. -/
theorem path_of_upsert (listed : .upsert rel ∈ mapEvent fs vaultRoot event) :
    ∃ path ∈ event.paths, isMarkdown path = true ∧ relative vaultRoot path = some rel := by
  obtain ⟨path, member, modified | came | gone⟩ := mem_mapEvent listed
  · obtain ⟨_, noted, same⟩ := Option.map_eq_some_iff.mp modified
    cases same
    exact ⟨path, member, relative_of_note noted⟩
  · unfold appear at came
    split at came
    · obtain ⟨_, -, same⟩ := Option.map_eq_some_iff.mp came
      cases same
    · obtain ⟨_, noted, same⟩ := Option.map_eq_some_iff.mp came
      cases same
      exact ⟨path, member, relative_of_note noted⟩
  · simp [vanish] at gone

/-- The trees to walk are the texts of its directories. -/
theorem path_of_upsertTree (listed : .upsertTree rel ∈ mapEvent fs vaultRoot event) :
    ∃ path ∈ event.paths, isDir fs path = true ∧ relative vaultRoot path = some rel := by
  obtain ⟨path, member, modified | came | gone⟩ := mem_mapEvent listed
  · obtain ⟨_, -, same⟩ := Option.map_eq_some_iff.mp modified
    cases same
  · unfold appear at came
    split at came
    · rename_i directory
      obtain ⟨_, noted, same⟩ := Option.map_eq_some_iff.mp came
      cases same
      exact ⟨path, member, directory, relative_of_tree noted⟩
    · obtain ⟨_, -, same⟩ := Option.map_eq_some_iff.mp came
      cases same
  · simp [vanish] at gone

/-- The paths that are probed for an event have no dots, and so they are clear. -/
theorem resolve_sibling (linkless : Linkless fs real)
    (reached : resolve fs true vaultRoot = .ok (real, .dir)) (clear : Clear fs real vaultRoot)
    (sibling : Sibling real fs other) (printed : relative vaultRoot path = some rel) :
    resolve other true path = resolve fs true path :=
  (Clear.undotted linkless reached clear (undotted_of_relative printed)).resolve_eq sibling true

theorem mapEvent_sibling (linkless : Linkless fs real)
    (reached : resolve fs true vaultRoot = .ok (real, .dir)) (clear : Clear fs real vaultRoot)
    (sibling : Sibling real fs other) (event : Event) :
    mapEvent other vaultRoot event = mapEvent fs vaultRoot event := by
  have probes (path : PathBuf) (rel : Text) (printed : relative vaultRoot path = some rel) :
      isDir other path = isDir fs path ∧ exists_ other path = exists_ fs path := by
    have same := resolve_sibling linkless reached clear sibling printed
    exact ⟨by rw [isDir, isDir, same], by rw [exists_, exists_, same]⟩
  have appears : appear other vaultRoot = appear fs vaultRoot := by
    funext path
    cases printed : relative vaultRoot path with
    | none => simp [appear, treeRelative, noteRelative, printed]
    | some rel => rw [appear, appear, (probes path rel printed).1]
  have sides : (fun path => if exists_ other path = true then (appear fs vaultRoot path).toList
        else vanish vaultRoot path) =
      fun path => if exists_ fs path = true then (appear fs vaultRoot path).toList
        else vanish vaultRoot path := by
    funext path
    cases printed : relative vaultRoot path with
    | none => simp [appear, vanish, treeRelative, noteRelative, printed]
    | some rel => rw [(probes path rel printed).2]
  simp only [mapEvent, appears, sides]

end Mapping

section Windows

variable {ext : External} {fs other : Fs} {real : Location} {vaultRoot path : PathBuf} {rel : Text}
  {paths : Set PathBuf} {store : NoteStore}

theorem scanFrom_notes_eq_nil {start : PathBuf} (none_ : ¬ Yields ext fs vaultRoot start) :
    (scanFrom ext fs vaultRoot start).notes = [] := by
  cases walked : walkDir fs start with
  | error kind => simp [scanFrom_listed, walked]
  | ok entries =>
    rw [scanFrom_notes ext fs vaultRoot walked]
    refine List.filterMap_eq_nil_iff.mpr fun entry member => ?_
    by_contra noted
    exact none_ ⟨entries, walked, entry, member, Option.isSome_iff_ne_none.mpr noted⟩

theorem exists_note_of_yields {start : PathBuf} (yields : Yields ext fs vaultRoot start) :
    ∃ note, note ∈ (scanFrom ext fs vaultRoot start).notes := by
  obtain ⟨entries, walked, entry, member, noted⟩ := yields
  obtain ⟨note, noted⟩ := Option.isSome_iff_exists.mp noted
  refine ⟨note, ?_⟩
  rw [scanFrom_notes ext fs vaultRoot walked]
  exact List.mem_filterMap.mpr ⟨entry, member, noted⟩

theorem eq_of_noteAction {action : WatchAction} (about : noteAction rel action = some .upsert) :
    action = .upsert rel := by
  cases action with
  | upsert other => simpa [noteAction] using about
  | delete other => simp [noteAction] at about
  | upsertTree other | deleteTree other => cases about

theorem eq_of_treeAction {action : WatchAction} (about : treeAction rel action = some .upsert) :
    action = .upsertTree rel := by
  cases action with
  | upsertTree other => simpa [treeAction] using about
  | deleteTree other => simp [treeAction] at about
  | upsert other | delete other => cases about

theorem path_of_mem_upserts {events : List Event}
    (member : rel ∈ (coalesce (events.flatMap (mapEvent fs vaultRoot))).upserts) :
    ∃ event ∈ events, ∃ path ∈ event.paths, isMarkdown path = true ∧ relative vaultRoot path = some rel := by
  obtain ⟨action, listed, about⟩ := mem_of_lastOf (mem_upserts.mp member)
  obtain ⟨event, held, inside⟩ := List.mem_flatMap.mp listed
  exact ⟨event, held, path_of_upsert (eq_of_noteAction about ▸ inside)⟩

theorem path_of_mem_upsertTrees {events : List Event}
    (member : rel ∈ (coalesce (events.flatMap (mapEvent fs vaultRoot))).upsertTrees) :
    ∃ event ∈ events, ∃ path ∈ event.paths, isDir fs path = true ∧ relative vaultRoot path = some rel := by
  obtain ⟨action, listed, about⟩ := mem_of_lastOf (mem_upsertTrees.mp member)
  obtain ⟨event, held, inside⟩ := List.mem_flatMap.mp listed
  exact ⟨event, held, path_of_upsertTree (eq_of_treeAction about ▸ inside)⟩

/-- The text of a sealed note path is re-read alike, -/
theorem reread_sibling (sibling : Sibling real fs other) (closed : Sealed ext fs real vaultRoot path)
    (markdown : isMarkdown path = true) (printed : relative vaultRoot path = some rel) :
    reread ext other vaultRoot rel = reread ext fs vaultRoot rel := by
  rcases closed rel printed with shut | ⟨other_, -⟩
  · exact shut.scanOne_eq sibling
  · rw [markdown] at other_
    cases other_

/-- and the text of a sealed directory is walked alike. -/
theorem walked_sibling (linkless : Linkless fs real) (sibling : Sibling real fs other)
    (reached : resolve fs true vaultRoot = .ok (real, .dir))
    (reached' : resolve other true vaultRoot = .ok (real, .dir)) (clear : Clear fs real vaultRoot)
    (closed : Sealed ext fs real vaultRoot path) (closed' : Sealed ext other real vaultRoot path)
    (directory : isDir fs path = true) (printed : relative vaultRoot path = some rel) :
    (scanFrom ext other vaultRoot (absolutePath vaultRoot rel)).notes =
      (scanFrom ext fs vaultRoot (absolutePath vaultRoot rel)).notes := by
  have directory' : isDir other path = true := by
    rw [isDir, resolve_sibling linkless reached clear sibling printed]
    exact directory
  rcases closed rel printed with shut | ⟨-, silent⟩
  · exact shut.scanFrom_eq sibling reached reached'
  rcases closed' rel printed with shut | ⟨-, silent'⟩
  · exact (shut.scanFrom_eq (sibling.symm linkless) reached' reached).symm
  · rw [scanFrom_notes_eq_nil (silent directory), scanFrom_notes_eq_nil (silent' directory')]

/-- Sealed paths make one batch of both trees. -/
theorem buildIndexBatch_sibling (linkless : Linkless fs real) (sibling : Sibling real fs other)
    (reached : resolve fs true vaultRoot = .ok (real, .dir))
    (reached' : resolve other true vaultRoot = .ok (real, .dir)) (clear : Clear fs real vaultRoot)
    (closed : ∀ path ∈ paths, Sealed ext fs real vaultRoot path)
    (closed' : ∀ path ∈ paths, Sealed ext other real vaultRoot path) {events : List Event}
    (within : ∀ event ∈ events, ∀ path ∈ event.paths, path ∈ paths) :
    buildIndexBatch ext other vaultRoot (coalesce (events.flatMap (mapEvent fs vaultRoot))) =
      buildIndexBatch ext fs vaultRoot (coalesce (events.flatMap (mapEvent fs vaultRoot))) := by
  have rereads : ∀ rel ∈ (coalesce (events.flatMap (mapEvent fs vaultRoot))).upserts,
      reread ext other vaultRoot rel = reread ext fs vaultRoot rel := by
    intro rel member
    obtain ⟨event, held, path, named, markdown, printed⟩ := path_of_mem_upserts member
    exact reread_sibling sibling (closed path (within event held path named)) markdown printed
  have walks : ∀ dir ∈ (coalesce (events.flatMap (mapEvent fs vaultRoot))).upsertTrees,
      (scanFrom ext other vaultRoot (absolutePath vaultRoot dir)).notes =
        (scanFrom ext fs vaultRoot (absolutePath vaultRoot dir)).notes := by
    intro dir member
    obtain ⟨event, held, path, named, directory, printed⟩ := path_of_mem_upsertTrees member
    have known := within event held path named
    exact walked_sibling linkless sibling reached reached' clear (closed path known)
      (closed' path known) directory printed
  simp only [buildIndexBatch]
  congr 1
  · exact congr (congrArg _ (List.filterMap_congr fun rel member => by rw [rereads rel member]))
      (List.flatMap_congr walks)
  · exact congrArg _ (List.filter_congr fun rel member => by rw [rereads rel member])

theorem unaffected_of_sealed (linkless : Linkless fs real) (sibling : Sibling real fs other)
    (reached : ∀ other, Sibling real fs other → resolve other true vaultRoot = .ok (real, .dir))
    (closed : ∀ other, Sibling real fs other → ∀ path ∈ paths, Sealed ext other real vaultRoot path) :
    Unaffected ext fs other vaultRoot paths := by
  have clear := clear_root linkless reached
  have self := Sibling.refl linkless
  have here := reached fs self
  refine ⟨clear.scanFrom_eq sibling here (reached other sibling), fun start undotted => ?_,
    fun events store within => ?_, fun before between after store dots => ?_⟩
  · exact (Clear.undotted linkless here clear undotted).scanFrom_eq sibling here (reached other sibling)
  · have actions : mapEvent other vaultRoot = mapEvent fs vaultRoot :=
      funext (mapEvent_sibling linkless here clear sibling)
    rw [applyWindow_eq, applyWindow_eq, actions, buildIndexBatch_sibling linkless sibling here
      (reached other sibling) clear (closed fs self) (closed other sibling) within]
  · have silent : between.flatMap (mapEvent other vaultRoot) = [] :=
      List.flatMap_eq_nil_iff.mpr fun event member => mapEvent_dotted (dots event member)
    rw [applyWindow_eq, applyWindow_eq, List.flatMap_append, List.flatMap_append, silent,
      List.append_nil, List.flatMap_append]

/-! A text that leads through a hidden place tells siblings apart. -/

def touched (path : PathBuf) : Event := ⟨.modify .data, [path], false⟩

def appeared (path : PathBuf) : Event := ⟨.create, [path], false⟩

theorem mapEvent_touched (markdown : isMarkdown path = true) (printed : relative vaultRoot path = some rel) :
    mapEvent fs vaultRoot (touched path) = [.upsert rel] := by
  simp [mapEvent, isOverflow, touched, classify, noteRelative, markdown, printed]

theorem mapEvent_appeared (directory : isDir fs path = true) (printed : relative vaultRoot path = some rel)
    (below : rel ≠ []) : mapEvent fs vaultRoot (appeared path) = [.upsertTree rel] := by
  simp [mapEvent, isOverflow, appeared, classify, appear, treeRelative, directory, printed, below]

theorem applyWindow_touched (markdown : isMarkdown path = true)
    (printed : relative vaultRoot path = some rel) :
    applyWindow ext fs vaultRoot [touched path] store =
      applyIndexBatch store (buildIndexBatch ext fs vaultRoot ⟨[rel], [], [], []⟩) := by
  have single : coalesce [.upsert rel] = ⟨[rel], [], [], []⟩ := rfl
  rw [applyWindow_eq, List.flatMap_singleton, mapEvent_touched markdown printed, single]

theorem applyWindow_appeared (directory : isDir fs path = true)
    (printed : relative vaultRoot path = some rel) (below : rel ≠ []) :
    applyWindow ext fs vaultRoot [appeared path] store =
      applyIndexBatch store (buildIndexBatch ext fs vaultRoot ⟨[], [], [rel], []⟩) := by
  have single : coalesce [.upsertTree rel] = ⟨[], [], [rel], []⟩ := rfl
  rw [applyWindow_eq, List.flatMap_singleton, mapEvent_appeared directory printed below, single]

/-- A re-read that finds nothing drops the entry, one that fails otherwise keeps it. -/
theorem get_after_touched (markdown : isMarkdown path = true)
    (printed : relative vaultRoot path = some rel) {kind : IoErrorKind}
    (failed : readFile fs (absolutePath vaultRoot rel) = .error kind) :
    (applyWindow ext fs vaultRoot [touched path] store).get rel =
      if kind = .notFound then none else store.get rel := by
  have read : reread ext fs vaultRoot rel = .error (.io kind) := scanOne_of_unread failed
  rw [applyWindow_touched markdown printed, get_applyIndexBatch]
  cases kind <;> simp [buildIndexBatch, read, Except.toOption, isNotFound, NoteStore.lastAt]

theorem clear_of_components (reached : resolve fs true vaultRoot = .ok (real, .dir))
    (clear : Clear fs real vaultRoot) (same : PathBuf.components path = vaultRoot.components) :
    Clear fs real path := by
  obtain ⟨left, onward⟩ := leadsOn reached
  intro seen looked
  rw [← List.append_nil path] at looked
  rcases (onward path same []).2 seen looked with inRoot | below
  · exact clear seen inRoot
  · cases below

/-- The text that names a hidden place is not that of the root. -/
theorem below_of_not_clear (reached : resolve fs true vaultRoot = .ok (real, .dir))
    (clear : Clear fs real vaultRoot) (leads : ¬ Clear fs real (absolutePath vaultRoot rel)) : rel ≠ [] := by
  rintro rfl
  refine leads (clear_of_components reached clear ?_)
  exact (PathBuf.components_push vaultRoot [[]]).trans (List.append_nil _)

theorem within_single {event : Event} (only : event.paths = [path]) (named : path ∈ paths) :
    ∀ other ∈ [event], ∀ inner ∈ other.paths, inner ∈ paths := by
  intro other member inner listed
  rw [List.mem_singleton.mp member, only, List.mem_singleton] at listed
  exact listed ▸ named

/-- A note that is read in a hidden place: an entry is dropped where nothing stands
there, and kept where something does that cannot be read. -/
theorem clear_of_unaffected_note (same : ∀ other, Sibling real fs other → Unaffected ext fs other vaultRoot paths)
    (sibling : Sibling real fs other) (named : path ∈ paths) (markdown : isMarkdown path = true)
    (printed : relative vaultRoot path = some rel) : Clear other real (absolutePath vaultRoot rel) := by
  by_contra leads
  obtain ⟨emptied, first, missing⟩ := exists_emptied sibling.linkless leads
  obtain ⟨blocked, kind, second, failed, present⟩ := exists_blocked sibling.linkless leads
  have gone : readFile emptied (absolutePath vaultRoot rel) = .error .notFound := by
    simp [readFile, missing]
  let store := NoteStore.new.upsert ⟨rel, ∅, [], [], ⟨0, 0⟩, [], 0⟩
  have dropped := @get_after_touched ext _ _ _ _ store markdown printed _ gone
  have kept := @get_after_touched ext _ _ _ _ store markdown printed _ failed
  have within := @within_single _ _ (touched path) rfl named
  rw [(same _ (sibling.trans first)).stored _ _ within, if_pos rfl] at dropped
  rw [(same _ (sibling.trans second)).stored _ _ within, if_neg present, dropped, NoteStore.get_upsert,
    if_pos rfl] at kept
  cases kept

/-- A walk through a hidden place: nothing is indexed where nothing stands there. -/
theorem silent_of_unaffected_tree
    (reached : ∀ other, Sibling real fs other → resolve other true vaultRoot = .ok (real, .dir))
    (same : ∀ other, Sibling real fs other → Unaffected ext fs other vaultRoot paths)
    (sibling : Sibling real fs other) (named : path ∈ paths) (printed : relative vaultRoot path = some rel)
    (leads : ¬ Clear other real (absolutePath vaultRoot rel)) (directory : isDir other path = true) :
    ¬ Yields ext other vaultRoot (absolutePath vaultRoot rel) := by
  intro yields
  obtain ⟨note, member⟩ := exists_note_of_yields yields
  obtain ⟨emptied, first, missing⟩ := exists_emptied sibling.linkless leads
  have clear := clear_root sibling.linkless fun last second => reached last (sibling.trans second)
  have below := below_of_not_clear (reached other sibling) clear leads
  have directory' : isDir emptied path = true := by
    rw [isDir, resolve_sibling sibling.linkless (reached other sibling) clear first printed]
    exact directory
  have nothing : (scanFrom ext emptied vaultRoot (absolutePath vaultRoot rel)).notes = [] :=
    scanFrom_notes_of_error missing
  have within := @within_single _ _ (appeared path) rfl named
  have stored := ((same _ (sibling.trans first)).stored _ .new within).trans
    ((same _ sibling).stored _ .new within).symm
  rw [applyWindow_appeared directory' printed below, applyWindow_appeared directory printed below]
    at stored
  have entry := congrArg (·.get note.path) stored
  have absent : NoteStore.lastAt [] note.path = none := rfl
  simp only [get_applyIndexBatch, buildIndexBatch, List.flatMap_cons, List.flatMap_nil, nothing,
    List.filterMap_nil, List.nil_append, List.append_nil, NoteStore.get_new, ite_self, absent,
    Option.or_none] at entry
  exact NoteStore.lastAt_eq_none.mp entry.symm note member rfl

theorem sealed_of_unaffected
    (reached : ∀ other, Sibling real fs other → resolve other true vaultRoot = .ok (real, .dir))
    (same : ∀ other, Sibling real fs other → Unaffected ext fs other vaultRoot paths)
    (sibling : Sibling real fs other) (named : path ∈ paths) : Sealed ext other real vaultRoot path := by
  intro rel printed
  by_cases leads : Clear other real (absolutePath vaultRoot rel)
  · exact .inl leads
  · refine .inr ⟨?_, silent_of_unaffected_tree reached same sibling named printed leads⟩
    by_contra markdown
    exact leads (clear_of_unaffected_note same sibling named (by simpa using markdown) printed)

/-- Dot-directories leave no trace in the notes, up to the paths whose text leads into one.

The paths are those that events may name, and the vault any of those that differ from a
given one in hidden places. -/
theorem unaffected_iff (linkless : Linkless fs real)
    (reached : ∀ other, Sibling real fs other → resolve other true vaultRoot = .ok (real, .dir)) :
    (∀ other, Sibling real fs other → Unaffected ext fs other vaultRoot paths) ↔
      ∀ other, Sibling real fs other → ∀ path ∈ paths, Sealed ext other real vaultRoot path := by
  constructor
  · exact fun same other sibling path named => sealed_of_unaffected reached same sibling named
  · exact fun closed other sibling => unaffected_of_sealed linkless sibling reached closed

/-- Without backslashes the text leads where the path does. -/
theorem sealed_of_noBackslash {root location : Location} (linkless : Linkless fs real)
    (reached : resolve fs true root.raw = .ok (real, .dir)) (clear : Clear fs real root.raw)
    (clean : NoBackslash location) : Sealed ext fs real root.raw (Location.raw (root ++ location)) := by
  intro rel printed
  cases shown_ : shownAll location with
  | false =>
    rw [relative_hidden root shown_] at printed
    cases printed
  | true =>
    have undotted := undotted_of_relative printed
    rw [relative_shown root shown_] at printed
    obtain rfl := Option.some.inj printed
    refine .inl ?_
    by_cases below : location = []
    · subst below
      exact clear_of_components reached clear
        ((PathBuf.components_push root.raw [[]]).trans (List.append_nil _))
    · rw [absolutePath, Location.join_key (plain_of_shown clean shown_) below]
      exact Clear.undotted linkless reached clear undotted

end Windows

/-- A directory's own path is the root of all siblings. -/
theorem reached_raw {fs : Fs} {real : Location} (found : fs.lookup real = some .dir) (other : Fs)
    (sibling : Sibling real fs other) : resolve other true real.raw = .ok (real, .dir) := by
  have shows : hidden real real = false := by simpa using @hidden_append real []
  exact resolve_found ((sibling.lookup shows).trans found) (.inr fun _ same => by cases same)

def gitName : FileName := ⟨Text.utf8 ".git".toList, by decide⟩

/-- The name `D\.git\x.md`. -/
def sneakyName : FileName := ⟨Text.utf8 "D\\.git\\x.md".toList, by decide⟩

def gitless : Fs where
  entries := [([vaultName], .dir), ([vaultName, folderName], .dir),
    ([vaultName, sneakyName], .leaf (.file (plainFile "shown")))]
  unique := by decide
  rooted := by decide

def gitted : Fs where
  entries := [([vaultName], .dir), ([vaultName, folderName], .dir),
    ([vaultName, folderName, gitName], .dir),
    ([vaultName, folderName, gitName, noteName], .leaf (.file (plainFile "secret"))),
    ([vaultName, sneakyName], .leaf (.file (plainFile "shown")))]
  unique := by decide
  rooted := by decide

theorem linkless_of_entries {fs : Fs} {real : Location}
    (files : ∀ entry ∈ fs.entries, ∀ target, entry.2 ≠ .leaf (.symlink target)) : Linkless fs real := by
  intro tail target found
  by_cases top : real ++ tail = []
  · rw [top, FileTree.lookup_root] at found
    cases found
  · exact files _ ((FileTree.lookup_eq_some top).mp found) target rfl

theorem gitless_linkless : Linkless gitless [vaultName] := linkless_of_entries (by simp [gitless])

theorem gitted_sibling : Sibling [vaultName] gitless gitted :=
  ⟨by decide, linkless_of_entries (by simp [gitted])⟩

theorem unaffected_iff_gitted : Unaffected .bare gitless gitted (Location.raw [vaultName])
    {Location.raw [vaultName, folderName, noteName]} := by
  have reached := reached_raw (show gitless.lookup [vaultName] = some .dir by decide)
  refine (unaffected_iff gitless_linkless reached).mpr (fun other sibling path named => ?_) gitted
    gitted_sibling
  rw [named, show [vaultName, folderName, noteName] = [vaultName] ++ [folderName, noteName] from rfl]
  exact sealed_of_noBackslash sibling.linkless (reached other sibling)
    (clear_root sibling.linkless fun last second => reached last (sibling.trans second)) (by decide)

/-- What stands in a dot-directory is served after an event for a visible note. -/
theorem hidden_note_served :
    Linkless gitless [vaultName] ∧ Sibling [vaultName] gitless gitted ∧
      (((applyWindow .bare gitted (Location.raw [vaultName])
          [touched (Location.raw [vaultName, sneakyName])] .new).get "D/.git/x.md".toList).map
        (·.rawBytes) = some (Text.utf8 "secret".toList)) ∧
      (applyWindow .bare gitless (Location.raw [vaultName])
        [touched (Location.raw [vaultName, sneakyName])] .new).get "D/.git/x.md".toList = none := by
  refine ⟨gitless_linkless, gitted_sibling, ?_, ?_⟩
  · decide +kernel
  · decide +kernel

end Anwesen.Watcher

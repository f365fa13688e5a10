import Anwesen.Daemon.Walks

/-! What holds in every state of the daemon whose steps were timely. -/

set_option autoImplicit false

namespace Anwesen.Daemon

open Foundation Vault Watcher

/-! One window of the debouncer. -/

section Windows

variable {ext : External} {fs : Fs} {root : Location}

/-- The path of a notice: a name in a directory that is there, and no directory itself. -/
structure Placed (fs : Fs) (root path : Location) : Prop where
  below : path ≠ []
  plain : path.Plain
  parent : fs.lookup (root ++ path.dropLast) = some .dir
  other : fs.lookup (root ++ path) ≠ some .dir

/-- Single files come and go, directories stay. -/
theorem Placed.changed {fs' : Fs} {change : FileChange} {path : Location} (placed : Placed fs root path)
    (done : change.apply fs = some fs') : Placed fs' root path where
  below := placed.below
  plain := placed.plain
  parent := (FileChange.lookup_dir done _).mpr placed.parent
  other directory := placed.other ((FileChange.lookup_dir done _).mp directory)

/-- The notice says of its path what holds of it now. -/
def Truthful (fs : Fs) (root : Location) : Notice FileName → Prop
  | .vanished path => fs.lookup (root ++ path) = none
  | .appeared path | .changed path => (fs.lookup (root ++ path)).isSome = true
  | .renamed _ => False

theorem mapEvent_eventOf (tame : Tame ext fs root) {entry : Option (Notice FileName)}
    (placed : ∀ notice ∈ entry, notice.path ≠ [] ∧ Location.Plain notice.path) :
    mapEvent fs root.raw (eventOf root entry) = entry.toList.flatMap (noticeActions fs root) := by
  cases entry with
  | none => rfl
  | some notice =>
    have plain := placed notice rfl
    have single : ∀ report : Report, report.notices = [notice] → report.Plain := by
      intro report same other member
      rw [same] at member
      exact List.mem_singleton.mp member ▸ plain
    cases notice with
    | appeared at_ => exact mapEvent_report tame (single (.create at_) rfl)
    | changed at_ => exact mapEvent_report tame (single (.modify at_) rfl)
    | vanished at_ => exact mapEvent_report tame (single (.remove at_) rfl)
    | renamed at_ => exact mapEvent_report tame (single (.renameAny at_) rfl)

variable (ext) in
/-- A window asks for a rescan when it reads an overflow notice, and casts the batch
of the other notices unless the batch would change nothing. -/
theorem debounce_entries (tame : Tame ext fs root) {entries : List (Option (Notice FileName))}
    (named : Named (entries.filterMap id)) :
    (debounce ext fs root.raw ((entries.map (eventOf root)).map .ok)).1 = decide (none ∈ entries) ∧
      ((debounce ext fs root.raw ((entries.map (eventOf root)).map .ok)).2 =
          some (batchOf ext fs root (entries.filterMap id)) ∨
        (debounce ext fs root.raw ((entries.map (eventOf root)).map .ok)).2 = none ∧
          ∀ store, applyIndexBatch store (batchOf ext fs root (entries.filterMap id)) = store) := by
  have overflow : (entries.map (eventOf root)).any isOverflow = decide (none ∈ entries) := by
    rw [List.any_map, Bool.eq_iff_iff, List.any_eq_true, decide_eq_true_eq]
    constructor
    · rintro ⟨entry, member, flagged⟩
      cases entry with
      | none => exact member
      | some notice => cases notice <;> cases flagged
    · exact fun member => ⟨none, member, rfl⟩
  have actions : (entries.map (eventOf root)).flatMap (mapEvent fs root.raw) =
      actionsOf fs root (entries.filterMap id) := by
    have each : ∀ entry ∈ entries, mapEvent fs root.raw (eventOf root entry) =
        entry.toList.flatMap (noticeActions fs root) := fun entry member =>
      mapEvent_eventOf tame fun notice same =>
        named notice (List.mem_filterMap.mpr ⟨entry, member, same⟩)
    rw [List.flatMap_map, List.flatMap_congr each, actionsOf, List.filterMap_eq_flatMap_toList,
      List.flatMap_assoc]
    rfl
  rw [debounce_ok]
  simp only [overflow, actions, true_and]
  split
  · rename_i empty
    exact .inr ⟨rfl, fun store => applyIndexBatch_empty ext fs root.raw store empty⟩
  · exact .inl rfl

/-- The batch leaves at the path of its last truthful notice what is there. -/
theorem window_carries (tame : Tame ext fs root) {notices before after : List (Notice FileName)}
    {notice : Notice FileName} (placed : ∀ other ∈ notices, Placed fs root other.path)
    (split : notices = before ++ notice :: after) (eligible : Eligible notice.path)
    (last : ∀ later ∈ after, later.path ≠ notice.path) (truthful : Truthful fs root notice)
    (store : NoteStore) :
    held (applyIndexBatch store (batchOf ext fs root notices)) notice.path =
      current (load ext) (view fs root) notice.path := by
  have named : Named notices := fun other member => ⟨(placed other member).below, (placed other member).plain⟩
  have laws := window_laws tame named store
  have here := placed notice (by simp [split])
  -- Whatever lies above the path is a directory, which no notice names.
  have quiet : ∀ later ∈ after, ¬ later.Touches notice.path := by
    intro later member above
    have place := placed later (by simp [split, member])
    have inside : later.path <+: notice.path.dropLast := by
      have whole := List.dropLast_append_getLast here.below
      rw [← whole] at above
      rcases List.prefix_concat_iff.mp above with same | shorter
      · exact absurd (same.trans whole) (last later member)
      · exact shorter
    rcases FileTree.lookup_above inside here.parent with same | directory
    · exact place.other (same ▸ here.parent)
    · exact place.other directory
  have unread : ∀ later ∈ after, ¬ later.Reads (view fs root) notice.path := by
    intro later member reads
    cases later with
    | changed path => exact last _ member reads
    | appeared path => exact last _ member reads.1
    | renamed path => exact last _ member reads.1
    | vanished path => cases reads
  -- A notice that something is there, where something is, announces the note.
  have announced : notice.Announces notice.path →
      (∃ node, fs.lookup (root ++ notice.path) = some node) →
      held (applyIndexBatch store (batchOf ext fs root notices)) notice.path =
        current (load ext) (view fs root) notice.path := by
    rintro announces ⟨node, found⟩
    cases node with
    | dir => exact absurd found here.other
    | leaf content =>
      cases now : current (load ext) (view fs root) notice.path with
      | none => exact absurd found (not_leaf_of_current tame.loads_view eligible now content)
      | some note => exact laws.announced _ note before notice after eligible split announces quiet now
  cases notice with
  | vanished path =>
    have empty : current (load ext) (view fs root) path = none := by
      simp only [current, view, show fs.lookup (root ++ path) = none from truthful]
    exact (laws.dropped path before (.vanished path) after eligible split (List.prefix_refl _) unread
      empty).trans empty.symm
  | renamed path => cases truthful
  | appeared path => exact announced (List.prefix_refl _) (Option.isSome_iff_exists.mp truthful)
  | changed path => exact announced rfl (Option.isSome_iff_exists.mp truthful)

end Windows

/-! The invariant. -/

/-- The paths under which the index may hold a note. -/
abbrev Place := {location : Location // Eligible location}

def entryAt (store : NoteStore) (place : Place) : Option Note := held store place.1

/-- Something still to come reads what is now at the place. -/
def Due (ext : External) (root : Location) (state : State) (place : Place) : Prop :=
  (∃ notice, some notice ∈ state.queue ∧ notice.path = place.1) ∨ none ∈ state.queue ∨
    0 < state.rescans ∨ ∃ walk ∈ state.walk, walk.Knows ext state.fs root place.1

/-- The daemon as senders that keep a store up to date. -/
def relay (ext : External) (root : Location) (state : State) :
    Relay NoteStore Place (Option Note) where
  actual place := current (load ext) (view state.fs root) place.1
  store := state.store
  flight := state.rebuilds.map (fun notes _ => NoteStore.replace notes) ++
    state.batches.map fun batch store => applyIndexBatch store batch
  due := Due ext root state

def Keyed (notes : List Note) : Prop :=
  ∀ note ∈ notes, ∃ location, Eligible location ∧ note.path = location.key

section Conditions

variable (ext : External) (root : Location) (state : State)

/-- The vault stays a tree of directories and readable notes. -/
def Admissible : Label → Prop
  | .change change => ∀ fs, change.apply state.fs = some fs → Tame ext fs root
  | _ => True

/-- No handled message outdates an entry for which nothing else is outstanding. -/
def Timely : Label → Prop
  | .rebuild => ∀ notes rest, state.rebuilds = notes :: rest →
      (relay ext root { state with rebuilds := rest }).Timely entryAt fun _ => .replace notes
  | .batch => ∀ batch rest, state.batches = batch :: rest →
      (relay ext root { state with batches := rest }).Timely entryAt fun store =>
        applyIndexBatch store batch
  | _ => True

/-- Without a watch only places that will still be read change, and no event is lost
that alone accounts for an entry. -/
def Heard : Label → Prop
  | .change change => state.watching = true ∨ ∀ location ∈ below root change.path,
      Eligible location → 0 < state.rescans ∨ ∃ walk ∈ state.walk, walk.Ahead location
  | .unwatch => ∀ place : Place,
      ((∃ notice, some notice ∈ state.queue ∧ notice.path = place.1) ∨ none ∈ state.queue) →
      entryAt state.store place = current (load ext) (view state.fs root) place.1 ∨
        (relay ext root { state with queue := [] }).Expected entryAt place
  | _ => True

/-- Each entry is right or accounted for, and each queued notice tells the truth
about its path unless a later one does or events were lost after it. -/
structure Consistent : Prop where
  tame : Tame ext state.fs root
  deaf : state.watching = false → state.queue = []
  placed : ∀ notice, some notice ∈ state.queue → Placed state.fs root notice.path
  last : ∀ before notice after, state.queue = before ++ some notice :: after →
    (∀ later, some later ∈ after → later.path ≠ notice.path) →
    Truthful state.fs root notice ∨ none ∈ after
  walks : ∀ walk ∈ state.walk, walk.Orderly state.fs root
  rebuilds : ∀ notes ∈ state.rebuilds, Keyed notes
  batches : ∀ batch ∈ state.batches, Keyed batch.upserts
  keys : ∀ path note, state.store.get path = some note →
    ∃ location, Eligible location ∧ path = location.key
  sound : (relay ext root state).Sound entryAt

end Conditions

section Steps

variable {ext : External} {root : Location} {state next : State}

theorem below_iff {path location : Location} (below_ : location ≠ []) :
    below root path = some location ↔ root ++ location = path := by
  constructor
  · exact fun found => (below_eq_some found).1.symm
  · rintro rfl
    exact below_append below_

/-! One change of a file. -/

theorem path_noticeAt (change : FileChange) (location : Location) :
    (change.noticeAt location).path = location := by
  cases change <;> rfl

theorem exists_notice (change : FileChange) {location : Location} (nonempty : location ≠ [])
    (here : root ++ location = change.path) :
    ∃ notice ∈ change.notices root, notice.path = location :=
  ⟨change.noticeAt location, Option.mem_toList.mpr (Option.map_eq_some_iff.mpr
    ⟨location, (below_iff nonempty).mpr here, rfl⟩), path_noticeAt change location⟩

/-- The notice of a change names its file, which lies in a directory, and is true of it. -/
theorem notice_arrived {fs fs' : Fs} (tame : Tame ext fs root) (tame' : Tame ext fs' root)
    {change : FileChange} (done : change.apply fs = some fs') {notice : Notice FileName}
    (member : notice ∈ change.notices root) :
    root ++ notice.path = change.path ∧ Placed fs' root notice.path ∧ Truthful fs' root notice := by
  obtain ⟨location, found, rfl⟩ := Option.map_eq_some_iff.mp (Option.mem_toList.mp member)
  obtain ⟨path, nonempty⟩ := below_eq_some found
  rw [path_noticeAt]
  refine ⟨path.symm, ⟨nonempty, ?_, ?_, ?_⟩, ?_⟩
  · have listed : change.path ∈ change.operation.paths := by
      cases change <;> exact List.mem_cons_self
    rcases present_of_apply (FileChange.apply_eq_some done).2 listed with present | present
    · obtain ⟨node, found⟩ := Option.isSome_iff_exists.mp present
      exact tame.plain location node (path ▸ found)
    · obtain ⟨node, found⟩ := Option.isSome_iff_exists.mp present
      exact tame'.plain location node (path ▸ found)
  · have parent := FileChange.lookup_parent done
    rwa [path, List.dropLast_append_of_ne_nil nonempty] at parent
  · exact path ▸ FileChange.not_dir_after done
  · have now := FileChange.lookup_path done
    rw [path] at now
    cases change with
    | create at_ content | edit at_ content => exact Option.isSome_iff_exists.mpr ⟨_, now⟩
    | remove at_ => exact now

theorem Truthful.elsewhere {fs fs' : Fs} {notice : Notice FileName}
    (truthful : Truthful fs root notice)
    (quiet : fs'.lookup (root ++ notice.path) = fs.lookup (root ++ notice.path)) :
    Truthful fs' root notice := by
  cases notice with
  | renamed path => exact truthful
  | vanished path | appeared path | changed path =>
    rw [Notice.path] at quiet
    simpa only [Truthful, quiet] using truthful

/-- The state after a change: what is queued of it depends on the watch. -/
abbrev State.changed (state : State) (root : Location) (change : FileChange) (fs : Fs) : State :=
  { state with
    fs
    queue := if state.watching then state.queue ++ (change.notices root).map some else state.queue }

theorem mem_queue_changed {change : FileChange} {fs : Fs} {entry : Option (Notice FileName)}
    (member : entry ∈ state.queue) : entry ∈ (state.changed root change fs).queue := by
  simp only
  split
  · exact List.mem_append_left _ member
  · exact member

/-- At the path of a change a read is due: by its notice, or by the walk. -/
theorem due_of_change {change : FileChange} {fs : Fs}
    (heard : Heard ext root state (.change change)) {place : Place}
    (here : root ++ place.1 = change.path) : Due ext root (state.changed root change fs) place := by
  have nonempty := nonempty_of_isNote place.2.1
  cases on : state.watching with
  | true =>
    obtain ⟨notice, listed, path⟩ := exists_notice change nonempty here
    exact .inl ⟨notice, by simp [on, listed], path⟩
  | false =>
    rcases heard.resolve_left (by simp [on]) place.1 ((below_iff nonempty).mpr here) place.2 with
      rescan | ⟨walk, member, ahead⟩
    · exact .inr (.inr (.inl rescan))
    · exact .inr (.inr (.inr ⟨walk, member, .inl ahead⟩))

theorem sound_change (sound : (relay ext root state).Sound entryAt) {change : FileChange} {fs : Fs}
    (done : change.apply state.fs = some fs) (heard : Heard ext root state (.change change)) :
    (relay ext root (state.changed root change fs)).Sound entryAt := by
  have kept : ∀ place : Place, root ++ place.1 ≠ change.path →
      current (load ext) (view fs root) place.1 = current (load ext) (view state.fs root) place.1 :=
    fun place apart => current_of_lookup (FileChange.lookup_apply done apart :
      (view fs root).lookup place.1 = (view state.fs root).lookup place.1)
  refine sound.changed rfl rfl (fun place waits => ?_) fun place => ?_
  · by_cases here : root ++ place.1 = change.path
    · exact due_of_change heard here
    · rcases waits with ⟨notice, member, path⟩ | lost | rescan | ⟨walk, member, ahead | read⟩
      · exact .inl ⟨notice, mem_queue_changed member, path⟩
      · exact .inr (.inl (mem_queue_changed lost))
      · exact .inr (.inr (.inl rescan))
      · exact .inr (.inr (.inr ⟨walk, member, .inl ahead⟩))
      · exact .inr (.inr (.inr ⟨walk, member, .inr (read.trans (kept place here).symm)⟩))
  · by_cases here : root ++ place.1 = change.path
    · exact .inr (due_of_change heard here)
    · exact .inl (kept place here)

theorem consistent_change (consistent : Consistent ext root state) {change : FileChange}
    (admissible : Admissible ext root state (.change change))
    (heard : Heard ext root state (.change change))
    (taken : step ext root state (.change change) = some next) : Consistent ext root next := by
  obtain ⟨fs, done, rfl⟩ := Option.map_eq_some_iff.mp taken
  have tame := admissible fs done
  constructor
  case tame => exact tame
  case walks => exact fun walk member => (consistent.walks walk member).changed done
  case rebuilds => exact consistent.rebuilds
  case batches => exact consistent.batches
  case keys => exact consistent.keys
  case sound => exact sound_change consistent.sound done heard
  case deaf =>
    intro unwatched
    simp only at unwatched
    simp only [unwatched, Bool.false_eq_true, if_false, consistent.deaf unwatched]
  case placed =>
    intro notice member
    have old : some notice ∈ state.queue → Placed fs root notice.path := fun listed =>
      (consistent.placed notice listed).changed done
    simp only at member
    split at member
    · rcases List.mem_append.mp member with listed | listed
      · exact old listed
      · exact (notice_arrived consistent.tame tame done (by simpa using listed)).2.1
    · exact old member
  case last =>
    intro before notice after around alone
    simp only at around
    split at around
    · rcases append_eq_around around with ⟨middle, same, rfl⟩ | ⟨middle, same⟩
      · have nonempty := (consistent.placed notice (by simp [same])).below
        -- the last notice of its path cannot share it with the new one
        have apart : root ++ notice.path ≠ change.path := fun here => by
          obtain ⟨new, listed, path⟩ := exists_notice change nonempty here
          exact alone new (List.mem_append_right _ (List.mem_map_of_mem listed)) path
        rcases consistent.last before notice middle same fun later member =>
          alone later (List.mem_append_left _ member) with truthful | lost
        · exact .inl (truthful.elsewhere (FileChange.lookup_apply done apart))
        · exact .inr (List.mem_append_left _ lost)
      · have listed : some notice ∈ (change.notices root).map some := by simp [same]
        exact .inl (notice_arrived consistent.tame tame done (by simpa using listed)).2.2
    · rename_i unwatched
      rw [consistent.deaf (by simpa using unwatched)] at around
      simp at around

theorem consistent_overflow (consistent : Consistent ext root state)
    {kept : List (Option (Notice FileName))}
    (taken : step ext root state (.overflow kept) = some next) : Consistent ext root next := by
  simp only [step, Option.ite_none_right_eq_some, Option.some.injEq] at taken
  obtain ⟨⟨watching, sublist⟩, rfl⟩ := taken
  -- the overflow notice is now the last entry and accounts for every place
  have lost : none ∈ kept ++ [none] := by simp
  refine { consistent with deaf := ?_, placed := ?_, last := ?_, sound := ?_ }
  · simp [watching]
  · intro notice member
    exact consistent.placed notice (sublist.subset (by simpa using member))
  · intro before notice after around _
    right
    rcases append_eq_around around with ⟨middle, _, rfl⟩ | ⟨middle, same⟩
    · simp
    · have single : some notice ∈ [none] := same ▸ by simp
      simp at single
  · exact fun place => .inr (.inl (.inr (.inl lost)))

/-! One window over the front of the queue. -/

/-- The state after a window: the rest of the queue, and what reading the front led to. -/
abbrev State.windowed (state : State) (rest : List (Option (Notice FileName)))
    (result : Bool × Option IndexBatch) : State :=
  { state with
    queue := rest
    rescans := if result.1 then state.rescans + 1 else state.rescans
    batches := state.batches ++ result.2.toList }

section

variable {window rest : List (Option (Notice FileName))} {result : Bool × Option IndexBatch}

theorem placed_of_window (consistent : Consistent ext root state)
    (parts : state.queue = window ++ rest) :
    ∀ notice ∈ window.filterMap id, Placed state.fs root notice.path :=
  fun notice member => consistent.placed notice
    (parts ▸ List.mem_append_left _ (by simpa using member))

theorem named_of_window (consistent : Consistent ext root state)
    (parts : state.queue = window ++ rest) : Named (window.filterMap id) := by
  intro notice member
  have placed := placed_of_window consistent parts notice member
  exact ⟨placed.below, placed.plain⟩

/-- A notice of lost events that was read asks for a rescan. -/
theorem rescans_of_lost (overflow : result.1 = decide (none ∈ window))
    (lost : none ∈ window ++ rest) :
    none ∈ rest ∨ 0 < (state.windowed rest result).rescans := by
  rcases List.mem_append.mp lost with here | later
  · right
    simp only [overflow, decide_eq_true here, if_true]
    exact Nat.succ_pos _
  · exact .inl later

/-- The last notice of a place has the batch carry what is there, unless nothing had to
change or events were lost after it. -/
theorem entry_of_notice (consistent : Consistent ext root state)
    (parts : state.queue = window ++ rest)
    (read : result = debounce ext state.fs root.raw ((window.map (eventOf root)).map .ok))
    {place : Place} (noticed : ∃ notice, some notice ∈ window ∧ notice.path = place.1)
    (final : ∀ notice, some notice ∈ rest → notice.path ≠ place.1) :
    entryAt state.store place = current (load ext) (view state.fs root) place.1 ∨
      (relay ext root (state.windowed rest result)).Expected entryAt place := by
  obtain ⟨overflow, sent⟩ := debounce_entries ext consistent.tame (named_of_window consistent parts)
  rw [← read] at overflow sent
  have here : ∃ entry ∈ window, ∃ notice, entry = some notice ∧ notice.path = place.1 := by
    obtain ⟨notice, member, path⟩ := noticed
    exact ⟨_, member, notice, rfl, path⟩
  obtain ⟨before, _, after, around, ⟨notice, rfl, path⟩, last⟩ := last_with _ here
  have alone : ∀ other, some other ∈ after ++ rest → other.path ≠ notice.path := by
    intro other listed same
    rcases List.mem_append.mp listed with inside | outside
    · exact last _ inside ⟨other, rfl, same.trans path⟩
    · exact final other outside (same.trans path)
  rcases consistent.last before notice (after ++ rest) (by simp [parts, around]) alone with
    truthful | lost
  · have carries := window_carries consistent.tame (placed_of_window consistent parts)
      (show window.filterMap id = before.filterMap id ++ notice :: after.filterMap id by
        simp [around])
      (path ▸ place.2)
      (fun other listed => alone other (List.mem_append_left _ (by simpa using listed))) truthful
    rw [path] at carries
    -- the batch under way carries it, unless it was empty and nothing had to change
    rcases sent with sent | ⟨_, same⟩
    · exact .inr (.inr ⟨_, List.mem_append_right _ (List.mem_map.mpr
        ⟨_, List.mem_append_right _ (by simp [sent]), rfl⟩), carries⟩)
    · left
      have unchanged := carries state.store
      rwa [same] at unchanged
  · -- events were lost after it: a rescan is due
    have queued : none ∈ window ++ rest := by
      rw [around, List.append_assoc, List.cons_append]
      exact List.mem_append_right _ (List.mem_cons_of_mem _ lost)
    exact .inr (.inl (.inr ((rescans_of_lost overflow queued).imp_right .inl)))

theorem sound_read (consistent : Consistent ext root state) (parts : state.queue = window ++ rest)
    (read : result = debounce ext state.fs root.raw ((window.map (eventOf root)).map .ok)) :
    (relay ext root (state.windowed rest result)).Sound entryAt := by
  have overflow :=
    (debounce_entries ext consistent.tame (named_of_window consistent parts)).1
  rw [← read] at overflow
  refine consistent.sound.sent rfl rfl ?_ fun place waits => ?_
  · intro message member
    rcases List.mem_append.mp member with rebuilt | batched
    · exact List.mem_append_left _ rebuilt
    · refine List.mem_append_right _ ?_
      simp only [List.map_append]
      exact List.mem_append_left _ batched
  · rcases waits with ⟨notice, member, path⟩ | lost | rescan | walking
    · by_cases later : ∃ notice, some notice ∈ rest ∧ notice.path = place.1
      · exact .inr (.inl (.inl later))
      · rcases List.mem_append.mp (parts ▸ member) with inside | outside
        · exact entry_of_notice consistent parts read ⟨notice, inside, path⟩
            fun other listed same => later ⟨other, listed, same⟩
        · exact absurd ⟨notice, outside, path⟩ later
    · exact .inr (.inl (.inr ((rescans_of_lost overflow (parts ▸ lost)).imp_right .inl)))
    · refine .inr (.inl (.inr (.inr (.inl ?_))))
      simp only
      split
      · exact Nat.succ_pos _
      · exact rescan
    · exact .inr (.inl (.inr (.inr (.inr walking))))

theorem consistent_read (consistent : Consistent ext root state)
    (parts : state.queue = window ++ rest)
    (read : result = debounce ext state.fs root.raw ((window.map (eventOf root)).map .ok)) :
    Consistent ext root (state.windowed rest result) := by
  constructor
  case tame => exact consistent.tame
  case deaf =>
    intro unwatched
    have empty := consistent.deaf unwatched
    rw [parts] at empty
    exact (List.append_eq_nil_iff.mp empty).2
  case placed => exact fun notice member => consistent.placed notice (parts ▸ List.mem_append_right _ member)
  case last =>
    intro before notice after around alone
    simp only at around
    exact consistent.last (window ++ before) notice after (by simp [parts, around]) alone
  case walks => exact consistent.walks
  case rebuilds => exact consistent.rebuilds
  case batches =>
    have named := named_of_window consistent parts
    have sent := (debounce_entries ext consistent.tame named).2
    rw [← read] at sent
    intro batch member
    rcases List.mem_append.mp member with old | new
    · exact consistent.batches batch old
    · rcases sent with sent | ⟨sent, _⟩ <;> rw [sent] at new
      · obtain rfl := List.mem_singleton.mp new
        intro note listed
        obtain ⟨_, _, location, _, eligible, noted⟩ := source_of_note consistent.tame named listed
        exact ⟨location, eligible, key_of_current noted⟩
      · cases new
  case keys => exact consistent.keys
  case sound => exact sound_read consistent parts read

end

theorem consistent_window (consistent : Consistent ext root state) {size : Nat}
    (taken : step ext root state (.window size) = some next) : Consistent ext root next := by
  simp only [step, Option.ite_none_right_eq_some, Option.some.injEq] at taken
  obtain ⟨_, rfl⟩ := taken
  exact consistent_read consistent (List.take_append_drop size state.queue).symm rfl

theorem consistent_rescanNow (consistent : Consistent ext root state)
    (taken : step ext root state .rescanNow = some next) : Consistent ext root next := by
  simp only [step, Option.ite_none_right_eq_some, Option.some.injEq] at taken
  obtain ⟨_, rfl⟩ := taken
  refine { consistent with walks := ?_, sound := ?_ }
  · rintro walk ⟨⟩
    exact Walk.orderly_start consistent.tame
  · -- the new walk has everything still ahead of it
    exact fun place => .inr (.inl (.inr (.inr (.inr ⟨.start, rfl, Walk.knows_start _⟩))))

theorem consistent_visit (consistent : Consistent ext root state)
    (taken : step ext root state .visit = some next) : Consistent ext root next := by
  obtain ⟨walk, visited, rfl⟩ := Option.map_eq_some_iff.mp taken
  obtain ⟨old, walking, visited⟩ := Option.bind_eq_some_iff.mp visited
  have orderly := consistent.walks old walking
  refine { consistent with walks := ?_, sound := ?_ }
  · rintro other ⟨⟩
    exact orderly.visited consistent.tame visited
  · refine consistent.sound.sent rfl rfl (fun _ member => member) fun place waits => ?_
    rcases waits with noticed | lost | rescan | ⟨other, member, knows⟩
    · exact .inr (.inl (.inl noticed))
    · exact .inr (.inl (.inr (.inl lost)))
    · exact .inr (.inl (.inr (.inr (.inl rescan))))
    · obtain rfl : old = other := Option.some.inj (walking.symm.trans member)
      exact .inr (.inl (.inr (.inr (.inr
        ⟨walk, rfl, orderly.knows_visited consistent.tame visited place.2 knows⟩))))

theorem consistent_finish (consistent : Consistent ext root state)
    (taken : step ext root state .finish = some next) : Consistent ext root next := by
  simp only [step] at taken
  split at taken
  · rename_i notes walking
    cases taken
    have orderly := consistent.walks _ walking
    refine { consistent with walks := ?_, rebuilds := ?_, sound := ?_ }
    · rintro walk ⟨⟩
    · intro other member
      rcases List.mem_append.mp member with old | new
      · exact consistent.rebuilds other old
      · obtain rfl := List.mem_singleton.mp new
        intro note listed
        obtain ⟨location, eligible, path, _⟩ := orderly.read note listed
        exact ⟨location, eligible, path⟩
    · refine consistent.sound.sent rfl rfl ?_ fun place waits => ?_
      · intro message member
        rcases List.mem_append.mp member with rebuilt | batched
        · refine List.mem_append_left _ ?_
          simp only [List.map_append]
          exact List.mem_append_left _ rebuilt
        · exact List.mem_append_right _ batched
      · rcases waits with noticed | lost | rescan | ⟨walk, member, knows⟩
        · exact .inr (.inl (.inl noticed))
        · exact .inr (.inl (.inr (.inl lost)))
        · exact .inr (.inl (.inr (.inr (.inl rescan))))
        · -- The finished walk has read every place: its message carries what is there.
          obtain rfl := Option.some.inj (walking.symm.trans member)
          have read := knows.resolve_left fun ⟨_, pending, _⟩ => by cases pending
          refine .inr (.inr ⟨fun _ => .replace notes, List.mem_append_left _ (List.mem_map.mpr
            ⟨notes, by simp, rfl⟩), fun _ => ?_⟩)
          exact (NoteStore.get_replace notes _).trans read
  · cases taken

theorem consistent_rebuild (consistent : Consistent ext root state)
    (timely : Timely ext root state .rebuild)
    (taken : step ext root state .rebuild = some next) : Consistent ext root next := by
  simp only [step] at taken
  split at taken
  · rename_i notes rest waiting
    cases taken
    refine { consistent with rebuilds := ?_, keys := ?_, sound := ?_ }
    · exact fun other member => consistent.rebuilds other (waiting ▸ List.mem_cons_of_mem _ member)
    · intro path note found
      rw [NoteStore.get_replace] at found
      obtain ⟨member, same⟩ := NoteStore.lastAt_mem found
      obtain ⟨location, eligible, placed⟩ :=
        consistent.rebuilds notes (waiting ▸ List.mem_cons_self) note member
      exact ⟨location, eligible, same.symm.trans placed⟩
    · refine consistent.sound.delivered rfl (fun _ waits => waits) ?_ rfl (timely notes rest waiting)
      intro message member
      simp only [relay, waiting, List.map_cons, List.cons_append, List.mem_cons] at member
      exact member
  · cases taken

theorem consistent_batch (consistent : Consistent ext root state)
    (timely : Timely ext root state .batch)
    (taken : step ext root state .batch = some next) : Consistent ext root next := by
  simp only [step] at taken
  split at taken
  · rename_i batch rest waiting
    cases taken
    refine { consistent with batches := ?_, keys := ?_, sound := ?_ }
    · exact fun other member => consistent.batches other (waiting ▸ List.mem_cons_of_mem _ member)
    · intro path note found
      rw [get_applyIndexBatch] at found
      cases inserted : NoteStore.lastAt batch.upserts path with
      | some other =>
        obtain ⟨member, same⟩ := NoteStore.lastAt_mem inserted
        obtain ⟨location, eligible, placed⟩ :=
          consistent.batches batch (waiting ▸ List.mem_cons_self) other member
        exact ⟨location, eligible, same.symm.trans placed⟩
      | none =>
        rw [inserted, Option.none_or] at found
        split at found
        · cases found
        · exact consistent.keys path note found
    · refine consistent.sound.delivered rfl (fun _ waits => waits) ?_ rfl (timely batch rest waiting)
      intro message member
      rcases List.mem_append.mp member with rebuilt | batched
      · exact .inr (List.mem_append_left _ rebuilt)
      · simp only [waiting, List.map_cons, List.mem_cons] at batched
        exact batched.imp_right fun later => List.mem_append_right _ later
  · cases taken

theorem consistent_unwatch (consistent : Consistent ext root state)
    (heard : Heard ext root state .unwatch)
    (taken : step ext root state .unwatch = some next) : Consistent ext root next := by
  simp only [step, Option.ite_none_right_eq_some, Option.some.injEq] at taken
  obtain ⟨_, rfl⟩ := taken
  refine { consistent with deaf := ?_, placed := ?_, last := ?_, sound := ?_ }
  · exact fun _ => rfl
  · exact fun _ member => by cases member
  · exact fun before _ after around => by simp at around
  · refine consistent.sound.sent rfl rfl (fun _ member => member) fun place waits => ?_
    rcases waits with noticed | lost | rescan | walking
    · exact heard place (.inl noticed)
    · exact heard place (.inr lost)
    · exact .inr (.inl (.inr (.inr (.inl rescan))))
    · exact .inr (.inl (.inr (.inr (.inr walking))))

theorem consistent_watch (consistent : Consistent ext root state)
    (taken : step ext root state .watch = some next) : Consistent ext root next := by
  simp only [step, Option.ite_none_right_eq_some, Option.some.injEq] at taken
  obtain ⟨_, rfl⟩ := taken
  exact { consistent with deaf := fun off => by cases off }

theorem consistent_step (consistent : Consistent ext root state) {label : Label}
    (admissible : Admissible ext root state label) (timely : Timely ext root state label)
    (heard : Heard ext root state label) (taken : step ext root state label = some next) :
    Consistent ext root next := by
  cases label with
  | change change => exact consistent_change consistent admissible heard taken
  | overflow kept => exact consistent_overflow consistent taken
  | window size => exact consistent_window consistent taken
  | rescanNow => exact consistent_rescanNow consistent taken
  | visit => exact consistent_visit consistent taken
  | finish => exact consistent_finish consistent taken
  | rebuild => exact consistent_rebuild consistent timely taken
  | batch => exact consistent_batch consistent timely taken
  | unwatch => exact consistent_unwatch consistent heard taken
  | watch => exact consistent_watch consistent taken

/-- An idle daemon holds what a full scan would. -/
theorem Consistent.eq_scanned (consistent : Consistent ext root state) (idle : Idle state) :
    state.store = scanned ext state.fs root := by
  refine scanned_of_agree consistent.tame consistent.keys fun location eligible => ?_
  refine consistent.sound.settled ?_ ?_ ⟨location, eligible⟩
  · simp [relay, idle.rebuilds, idle.batches]
  · rintro place (⟨notice, member, _⟩ | lost | rescan | ⟨walk, member, _⟩)
    · rw [idle.queue] at member
      cases member
    · rw [idle.queue] at lost
      cases lost
    · rw [idle.rescans] at rescan
      cases rescan
    · rw [idle.walk] at member
      cases member

end Steps

end Anwesen.Daemon

import Anwesen.Daemon.System

/-! What a change of one file leaves alone, and what a walk knows on its way. -/

set_option autoImplicit false

namespace Anwesen.Daemon

open Foundation Vault Watcher

/-! Changes of one file. -/

namespace FileChange

variable {fs fs' : Fs} {change : FileChange}

theorem apply_eq_some (done : change.apply fs = some fs') :
    fs.hasDir change.path = false ∧ change.operation.apply fs = some fs' := by
  unfold apply at done
  split at done
  · cases done
  · rename_i other
    exact ⟨by simpa using other, done⟩

/-- Only the path of the change is affected. -/
theorem lookup_apply (done : change.apply fs = some fs') {location : Location}
    (apart : location ≠ change.path) : fs'.lookup location = fs.lookup location := by
  obtain ⟨other, done⟩ := apply_eq_some done
  cases change with
  | create at_ content =>
    simp only [operation, Operation.apply, Option.dite_none_right_eq_some, Option.some.injEq] at done
    obtain ⟨fits, rfl⟩ := done
    rw [FileTree.lookup_attach]
    split
    · rename_i above
      obtain ⟨tail, rfl⟩ := above
      have nonempty : tail ≠ [] := by
        rintro rfl
        exact apart (by simp [path])
      rw [fits.nothing_under (List.prefix_append _ _), List.drop_left, Subtree.lookup, if_neg nonempty]
      simp [soleFile, FileTree.lookup, FileTree.empty, nonempty]
    · rfl
  | edit at_ content =>
    simp only [operation, Operation.apply, Option.dite_none_right_eq_some, Option.some.injEq] at done
    obtain ⟨regular, rfl⟩ := done
    exact (FileTree.lookup_write regular location).trans (if_neg apart)
  | remove at_ =>
    simp only [operation, Operation.apply, Option.ite_none_right_eq_some, Option.some.injEq] at done
    obtain ⟨⟨nonempty, present⟩, rfl⟩ := done
    rw [FileTree.lookup_remove _ nonempty]
    split
    · rename_i above
      obtain ⟨node, found⟩ := Option.isSome_iff_exists.mp present
      -- what is removed is a leaf, so nothing else goes with it
      cases node with
      | dir =>
        rw [path, FileTree.hasDir_iff.mpr found] at other
        cases other
      | leaf content => exact (FileTree.lookup_under_leaf found above (Ne.symm apart)).symm
    · rfl

/-- The path holds no directory, before and after. -/
theorem not_dir_before (done : change.apply fs = some fs') : fs.lookup change.path ≠ some .dir := by
  intro directory
  have other := (apply_eq_some done).1
  rw [FileTree.hasDir_iff.mpr directory] at other
  cases other

theorem path_nonempty (done : change.apply fs = some fs') : change.path ≠ [] := by
  intro root
  exact not_dir_before done (by rw [root, FileTree.lookup_root])

theorem lookup_path (done : change.apply fs = some fs') :
    match change with
    | .create _ content | .edit _ content => fs'.lookup change.path = some (.leaf (.file content))
    | .remove _ => fs'.lookup change.path = none := by
  obtain ⟨_, done⟩ := apply_eq_some done
  cases change with
  | create at_ content =>
    simp only [operation, Operation.apply, Option.dite_none_right_eq_some, Option.some.injEq] at done
    obtain ⟨fits, rfl⟩ := done
    rw [path, FileTree.lookup_attach, if_pos (List.prefix_refl _), List.drop_length]
    rfl
  | edit at_ content =>
    simp only [operation, Operation.apply, Option.dite_none_right_eq_some, Option.some.injEq] at done
    obtain ⟨regular, rfl⟩ := done
    rw [path, FileTree.lookup_write, if_pos rfl]
  | remove at_ =>
    simp only [operation, Operation.apply, Option.ite_none_right_eq_some, Option.some.injEq] at done
    obtain ⟨⟨nonempty, _⟩, rfl⟩ := done
    rw [path, FileTree.lookup_remove _ nonempty, if_pos (List.prefix_refl _)]

theorem not_dir_after (done : change.apply fs = some fs') : fs'.lookup change.path ≠ some .dir := by
  have found := lookup_path done
  cases change with
  | create at_ content | edit at_ content =>
    simp only at found
    rw [found]
    simp
  | remove at_ =>
    simp only at found
    rw [found]
    simp

/-- Directories stay. -/
theorem lookup_dir (done : change.apply fs = some fs') (location : Location) :
    fs'.lookup location = some .dir ↔ fs.lookup location = some .dir := by
  by_cases here : location = change.path
  · subst here
    exact iff_of_false (not_dir_after done) (not_dir_before done)
  · rw [lookup_apply done here]

theorem lookup_parent (done : change.apply fs = some fs') :
    fs'.lookup change.path.dropLast = some .dir := by
  rw [lookup_dir done]
  have nonempty := path_nonempty done
  obtain ⟨_, done⟩ := apply_eq_some done
  cases change with
  | create at_ content =>
    simp only [operation, Operation.apply, Option.dite_none_right_eq_some] at done
    exact FileTree.hasDir_iff.mp done.1.2.2
  | edit at_ content =>
    simp only [operation, Operation.apply, Option.dite_none_right_eq_some] at done
    obtain ⟨node, found⟩ := Option.isSome_iff_exists.mp done.1.1
    exact FileTree.lookup_dropLast nonempty found
  | remove at_ =>
    simp only [operation, Operation.apply, Option.ite_none_right_eq_some] at done
    obtain ⟨node, found⟩ := Option.isSome_iff_exists.mp done.1.2
    exact FileTree.lookup_dropLast nonempty found

end FileChange

/-! Walks. -/

theorem mem_listed {fs : Fs} {root location : Location} {item : Location × Bool} :
    item ∈ listed fs root location ↔ ∃ name, item.1 = location ++ [name] ∧
      isDotPrefixed name.bytes = false ∧
      ((item.2 = true ∧ fs.lookup (root ++ item.1) = some .dir) ∨
        (item.2 = false ∧ ∃ content, fs.lookup (root ++ item.1) = some (.leaf (.file content)))) := by
  obtain ⟨place, directory⟩ := item
  have listed_iff : ∀ (name : FileName) node, ([name], node) ∈ fs.under (root ++ location) ↔
      fs.lookup (root ++ (location ++ [name])) = some node := by
    intro name node
    rw [FileTree.mem_under, List.append_assoc, FileTree.lookup_eq_some (by simp)]
    simp
  simp only [listed, List.mem_filterMap, Prod.exists]
  constructor
  · rintro ⟨tail, node, member, kept⟩
    split at kept
    · rename_i name same
      cases same
      split at kept
      · cases kept
      · rename_i visible_
        cases kept
        exact ⟨name, rfl, by simpa using visible_, .inl ⟨rfl, (listed_iff name _).mp member⟩⟩
    · rename_i name content same
      cases same
      split at kept
      · cases kept
      · rename_i visible_
        cases kept
        exact ⟨name, rfl, by simpa using visible_, .inr ⟨rfl, content, (listed_iff name _).mp member⟩⟩
    · cases kept
  · rintro ⟨name, rfl, visible_, ⟨rfl, found⟩ | ⟨rfl, content, found⟩⟩
    · exact ⟨[name], _, (listed_iff name _).mpr found, by simp [visible_]⟩
    · exact ⟨[name], _, (listed_iff name _).mpr found, by simp [visible_]⟩

/-- A directory lists no name twice. -/
theorem listed_distinct (fs : Fs) (root location : Location) :
    (listed fs root location).Pairwise fun first second => first.1 ≠ second.1 := by
  have unique := List.pairwise_map.mp (FileTree.under_unique fs (root ++ location))
  refine unique.filterMap _ fun first second different firstItem fromFirst secondItem fromSecond => ?_
  obtain ⟨firstTail, firstNode⟩ := first
  obtain ⟨secondTail, secondNode⟩ := second
  split at fromFirst <;> split at fromSecond <;> simp_all
  all_goals
    obtain ⟨_, rfl⟩ := fromFirst
    obtain ⟨_, rfl⟩ := fromSecond
    simpa using different

namespace Walk

/-- What is pending lies apart, and apart from what was read. -/
structure Orderly (fs : Fs) (root : Location) (walk : Walk) : Prop where
  places : ∀ item ∈ walk.pending, visible item.1 = true ∧ Location.Plain item.1 ∧
    (item.2 = true → fs.lookup (root ++ item.1) = some .dir)
  apart : walk.pending.Pairwise fun first second =>
    ¬ first.1 <+: second.1 ∧ ¬ second.1 <+: first.1
  read : ∀ note ∈ walk.notes, ∃ location, Eligible location ∧ note.path = location.key ∧
    ∀ item ∈ walk.pending, ¬ item.1 <+: location

variable {ext : External} {fs fs' : Fs} {root : Location} {walk next : Walk}

theorem orderly_start (tame : Tame ext fs root) : Orderly fs root .start where
  places item member := by
    obtain rfl := List.mem_singleton.mp member
    exact ⟨rfl, by simp [Location.Plain], fun _ => by simpa using tame.directory⟩
  apart := List.pairwise_singleton _ _
  read note member := by cases member

/-- No note of a place that is still ahead has been read. -/
theorem Orderly.unread (orderly : Orderly fs root walk) {location : Location}
    (eligible : Eligible location) (ahead : walk.Ahead location) :
    NoteStore.lastAt walk.notes location.key = none := by
  refine NoteStore.lastAt_eq_none.mpr fun note member same => ?_
  obtain ⟨place, placed, path, away⟩ := orderly.read note member
  have here : place = location := Location.key_injective placed.2 eligible.2 (path.symm.trans same)
  subst here
  obtain ⟨item, pending, same | ⟨_, above⟩⟩ := ahead
  · exact away item pending (same ▸ List.prefix_refl _)
  · exact away item pending above

theorem Orderly.changed (orderly : Orderly fs root walk) {change : FileChange}
    (done : change.apply fs = some fs') : Orderly fs' root walk where
  places item member := by
    obtain ⟨visible_, plain, directory⟩ := orderly.places item member
    exact ⟨visible_, plain, fun dir => (FileChange.lookup_dir done _).mpr (directory dir)⟩
  apart := orderly.apart
  read := orderly.read

theorem entryNote_eligible (tame : Tame ext fs root) {location : Location}
    (eligible : Eligible location) :
    entryNote ext fs root.raw ⟨Location.raw (root ++ location), true⟩ =
      current (load ext) (view fs root) location := by
  have below := nonempty_of_isNote eligible.1
  rw [← reread_tame tame eligible, reread_key below eligible.2]
  have markdown : isMarkdown location.raw = true := ((Bool.and_eq_true _ _).mp eligible.1).2
  simp only [entryNote, isMarkdown_raw root below, markdown, Bool.and_self, if_true]

/-- A file that is read gives a note under its own key, where it gives one. -/
theorem entryNote_place {location : Location} (visible_ : visible location = true)
    (plain : location.Plain) {note : Note} (tame : Tame ext fs root)
    (noted : entryNote ext fs root.raw ⟨Location.raw (root ++ location), true⟩ = some note) :
    Eligible location ∧ note.path = location.key := by
  obtain ⟨-, markdown, read⟩ := entryNote_eq_some.mp noted
  have below : location ≠ [] := by
    rintro rfl
    obtain ⟨_, _, arrives⟩ := exists_of_scanOne read
    have settled : Settled true (Node.dir : Node Leaf) := .inr fun _ same => by cases same
    rw [List.append_nil, resolve_found tame.directory settled] at arrives
    cases arrives
  rw [isMarkdown_raw root below] at markdown
  have eligible : Eligible location := ⟨by simp [isNote, visible_, markdown], plain⟩
  rw [entryNote_eligible tame eligible] at noted
  exact ⟨eligible, key_of_current noted⟩

theorem under_listed {location : Location} {item : Location × Bool}
    (member : item ∈ listed fs root location) : location <+: item.1 := by
  obtain ⟨name, same, _⟩ := mem_listed.mp member
  exact same ▸ List.prefix_append _ _

theorem listed_places (tame : Tame ext fs root) {location : Location} (visible_ : visible location = true)
    {item : Location × Bool} (member : item ∈ listed fs root location) :
    visible item.1 = true ∧ Location.Plain item.1 ∧
      (item.2 = true → fs.lookup (root ++ item.1) = some .dir) := by
  obtain ⟨name, same, shown_, kind⟩ := mem_listed.mp member
  have there : ∃ node, fs.lookup (root ++ item.1) = some node := by
    rcases kind with ⟨_, found⟩ | ⟨_, _, found⟩ <;> exact ⟨_, found⟩
  obtain ⟨node, found⟩ := there
  refine ⟨?_, tame.plain _ node found, fun dir => ?_⟩
  · simp only [visible] at visible_
    simp only [same, visible, List.all_append, visible_, Bool.true_and, List.all_cons, shown_,
      Bool.not_false, List.all_nil]
  · rcases kind with ⟨_, found⟩ | ⟨file, _⟩
    · exact found
    · rw [file] at dir
      cases dir

/-- Children lie apart from each other, -/
theorem listed_apart (fs : Fs) (root location : Location) : (listed fs root location).Pairwise
    fun first second => ¬ first.1 <+: second.1 ∧ ¬ second.1 <+: first.1 := by
  refine List.Pairwise.imp_of_mem (R := fun first second => first.1 ≠ second.1) ?_
    (listed_distinct fs root location)
  intro first second memberFirst memberSecond different
  obtain ⟨name, same, _⟩ := mem_listed.mp memberFirst
  obtain ⟨other, sameOther, _⟩ := mem_listed.mp memberSecond
  have lengths : first.1.length = second.1.length := by simp [same, sameOther]
  exact ⟨fun above => different (above.eq_of_length lengths),
    fun above => different (above.eq_of_length lengths.symm).symm⟩

/-- and from what their directory lies apart from. -/
theorem listed_away {location other : Location} {item : Location × Bool}
    (member : item ∈ listed fs root location) (away : ¬ location <+: other ∧ ¬ other <+: location) :
    ¬ item.1 <+: other ∧ ¬ other <+: item.1 := by
  refine ⟨fun above => away.1 ((under_listed member).trans above), fun above => ?_⟩
  obtain ⟨name, same, _⟩ := mem_listed.mp member
  rw [same] at above
  rcases List.prefix_concat_iff.mp above with whole | shorter
  · exact away.1 (whole ▸ List.prefix_append _ _)
  · exact away.2 shorter

theorem Orderly.visited (tame : Tame ext fs root) (orderly : Orderly fs root walk)
    (taken : walk.visit ext fs root = some next) : Orderly fs root next := by
  obtain ⟨pending, notes⟩ := walk
  obtain ⟨places, apart, read⟩ := orderly
  cases pending with
  | nil => cases taken
  | cons item rest =>
    obtain ⟨location, directory⟩ := item
    obtain ⟨away, restApart⟩ := List.pairwise_cons.mp apart
    obtain ⟨visible_, plain, isDirectory⟩ := places _ List.mem_cons_self
    cases directory with
    | true =>
      cases taken
      -- the children take their directory's place: below it, apart from each other
      refine ⟨fun item member => ?_, ?_, fun note member => ?_⟩
      · rcases List.mem_append.mp member with new | old
        · exact listed_places tame visible_ new
        · exact places item (List.mem_cons_of_mem _ old)
      · exact List.pairwise_append.mpr ⟨listed_apart fs root location, restApart,
          fun first new second old => listed_away new (away second old)⟩
      · obtain ⟨place, eligible, path, clear⟩ := read note member
        refine ⟨place, eligible, path, fun item listed_ above => ?_⟩
        rcases List.mem_append.mp listed_ with new | old
        · exact clear _ List.mem_cons_self ((under_listed new).trans above)
        · exact clear item (List.mem_cons_of_mem _ old) above
    | false =>
      cases taken
      -- the file leaves the pending places and its note joins the ones read
      refine ⟨fun item member => places item (List.mem_cons_of_mem _ member), restApart, ?_⟩
      intro note member
      rcases List.mem_append.mp member with old | new
      · obtain ⟨place, eligible, path, clear⟩ := read note old
        exact ⟨place, eligible, path, fun item listed_ => clear item (List.mem_cons_of_mem _ listed_)⟩
      · obtain ⟨eligible, path⟩ := entryNote_place visible_ plain tame (by simpa using new)
        exact ⟨location, eligible, path, fun item listed_ => (away item listed_).2⟩

/-- The walk will read the location, or has read what is there now. -/
def Knows (ext : External) (fs : Fs) (root : Location) (walk : Walk) (location : Location) : Prop :=
  walk.Ahead location ∨
    NoteStore.lastAt walk.notes location.key = current (load ext) (view fs root) location

theorem knows_start (location : Location) : Walk.start.Knows ext fs root location :=
  .inl ⟨([], true), List.mem_cons_self, .inr ⟨rfl, List.nil_prefix⟩⟩

/-- Below a directory that is listed, a location is ahead, or there is no note. -/
theorem ahead_listed (tame : Tame ext fs root) {directory location : Location}
    {rest : List (Location × Bool)} {notes : List Note}
    (found : fs.lookup (root ++ directory) = some .dir) (above : directory <+: location)
    (eligible : Eligible location) :
    Ahead ⟨listed fs root directory ++ rest, notes⟩ location ∨
      current (load ext) (view fs root) location = none := by
  obtain ⟨tail, rfl⟩ := above
  cases tail with
  | nil =>
    right
    simp only [List.append_nil, current, view, found]
  | cons name tail =>
    have initial : directory ++ [name] <+: directory ++ name :: tail := ⟨tail, by simp⟩
    have shown_ : isDotPrefixed name.bytes = false := by
      have visible_ := List.all_eq_true.mp eligible.visible name (by simp)
      simpa using visible_
    cases child : fs.lookup (root ++ (directory ++ [name])) with
    | none =>
      right
      cases noted : current (load ext) (view fs root) (directory ++ name :: tail) with
      | none => rfl
      | some note =>
        obtain ⟨content, leaf⟩ := leaf_of_current noted
        by_cases last : tail = []
        · subst last
          cases child.symm.trans leaf
        · have middle := FileTree.lookup_ancestor leaf
            (show root ++ (directory ++ [name]) <+: root ++ (directory ++ name :: tail) from
              (List.prefix_append_right_inj root).mpr initial) (by simp [last])
          rw [child] at middle
          cases middle
    | some node =>
      cases node with
      | dir =>
        left
        refine ⟨(directory ++ [name], true), List.mem_append_left _ (mem_listed.mpr ?_),
          .inr ⟨rfl, initial⟩⟩
        exact ⟨name, rfl, shown_, .inl ⟨rfl, child⟩⟩
      | leaf content =>
        cases content with
        | symlink target => exact absurd child (tame.linkless _ target)
        | file content =>
          by_cases last : tail = []
          · subst last
            left
            refine ⟨(directory ++ [name], false), List.mem_append_left _ (mem_listed.mpr ?_), .inl rfl⟩
            exact ⟨name, rfl, shown_, .inr ⟨rfl, content, child⟩⟩
          · right
            have nothing : fs.lookup (root ++ (directory ++ name :: tail)) = none :=
              FileTree.lookup_under_leaf child ((List.prefix_append_right_inj root).mpr initial)
                (by simp [Ne.symm last])
            simp only [current, view, nothing]

theorem Orderly.knows_visited (tame : Tame ext fs root) (orderly : Orderly fs root walk)
    (taken : walk.visit ext fs root = some next) {location : Location} (eligible : Eligible location)
    (knows : walk.Knows ext fs root location) : next.Knows ext fs root location := by
  have unread := orderly.unread eligible
  obtain ⟨pending, notes⟩ := walk
  cases pending with
  | nil => cases taken
  | cons item rest =>
    obtain ⟨place, directory⟩ := item
    obtain ⟨visible_, plain, isDirectory⟩ := orderly.places _ List.mem_cons_self
    cases directory with
    | true =>
      cases taken
      rcases knows with ahead | read
      · -- listing turns a place below the directory into one below a child, or finds none there
        have none_ := unread ahead
        obtain ⟨item, member, covers⟩ := ahead
        rcases List.mem_cons.mp member with rfl | old
        · have above : place <+: location := covers.elim (fun same => same ▸ List.prefix_refl _) And.right
          exact (ahead_listed tame (isDirectory rfl) above eligible).imp_right
            fun empty => none_.trans empty.symm
        · exact .inl ⟨item, List.mem_append_right _ old, covers⟩
      · exact .inr read
    | false =>
      cases taken
      by_cases here : place = location
      · subst here
        right
        have noted := entryNote_eligible tame eligible
        rw [noted]
        cases now : current (load ext) (view fs root) place with
        | some note => simp [NoteStore.lastAt, key_of_current now]
        | none =>
          rw [Option.toList_none, List.append_nil]
          rcases knows with ahead | read
          · exact unread ahead
          · exact read.trans now
      · rcases knows with ⟨item, member, covers⟩ | read
        · rcases List.mem_cons.mp member with rfl | old
          · exact absurd (covers.resolve_right fun both => Bool.noConfusion both.1) here
          · exact .inl ⟨item, old, covers⟩
        · -- a note read elsewhere has another key
          right
          rw [← read]
          cases noted : entryNote ext fs root.raw ⟨Location.raw (root ++ place), true⟩ with
          | none => rw [Option.toList_none, List.append_nil]
          | some note =>
            obtain ⟨placed, path⟩ := entryNote_place visible_ plain tame noted
            have other : note.path ≠ location.key := fun same =>
              here (Location.key_injective placed.2 eligible.2 (path.symm.trans same))
            simp [NoteStore.lastAt, other]

end Walk

end Anwesen.Daemon

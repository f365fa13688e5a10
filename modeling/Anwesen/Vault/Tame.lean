import Anwesen.Foundation.Mirror
import Anwesen.Store

/-! A vault of directories and readable files, and what its full scan holds.

The paths of such a vault and the keys of its notes determine each other, so a
scan is a value for every path: `current` over the `load` of one file.
-/

set_option autoImplicit false

namespace Anwesen.Vault

open Foundation

/-- Nothing on the way from the root is dot-prefixed. -/
def visible (location : Location) : Bool := location.all fun name => !isDotPrefixed name.bytes

theorem visible_append {location tail : Location} :
    visible (location ++ tail) = true ↔ visible location = true ∧ visible tail = true := by
  simp only [visible, List.all_append, Bool.and_eq_true]

def isNote (location : Location) : Bool := visible location && isMarkdown location.raw

/-- The locations whose texts are the keys of the index. -/
def Eligible (location : Location) : Prop := isNote location = true ∧ location.Plain

/-- The tree below the vault root. -/
def view (fs : Fs) (root : Location) : View FileName Leaf where
  lookup location := fs.lookup (root ++ location)
  ancestor found above proper := FileTree.lookup_ancestor found
    ((List.prefix_append_right_inj root).mpr above) (fun same => proper (List.append_cancel_left same))

section

variable (ext : External)

def load (location : Location) : Leaf → Option Note
  | .file content => (loadFile ext (some location.key) content).toOption.map Prod.fst
  | .symlink _ => none

/-- Directories and regular files under plain names, every visible note loading. -/
structure Tame (fs : Fs) (root : Location) : Prop where
  directory : fs.lookup root = some .dir
  linkless : ∀ location target, fs.lookup (root ++ location) ≠ some (.leaf (.symlink target))
  plain : ∀ (location : Location) node, fs.lookup (root ++ location) = some node → location.Plain
  loads : ∀ location content, isNote location = true →
    fs.lookup (root ++ location) = some (.leaf (.file content)) →
    content.readable = true ∧ (load ext location (.file content)).isSome = true

end

theorem isMarkdown_raw (root : Location) {location : Location} (below : location ≠ []) :
    isMarkdown (Location.raw (root ++ location)) = isMarkdown location.raw := by
  have nonempty : location.raw ≠ [] := by simpa [Location.raw] using below
  simp only [isMarkdown, PathBuf.extension, Location.components_raw]
  rw [Location.raw_append, List.getLast?_append_of_ne_nil _ nonempty]

theorem nonempty_of_isNote {location : Location} (note : isNote location = true) :
    location ≠ [] := by
  rintro rfl
  simp [isNote, isMarkdown, PathBuf.extension, PathBuf.components] at note

theorem ends_of_extension {name : FileName} (markdown : isMarkdown [name.bytes] = true) :
    ∃ front, name.bytes = front ++ [UInt8.ofNat 'd'.toNat] := by
  have solid := name.not_trivial
  simp only [isMarkdown, PathBuf.extension, PathBuf.components, List.filter_cons, solid,
    List.filter_nil, Bool.not_false, if_true, List.getLast?_singleton, decide_eq_true_eq] at markdown
  split at markdown
  · cases markdown
  · rw [List.span_eq_takeWhile_dropWhile] at markdown
    dsimp only at markdown
    split at markdown
    · cases markdown
    · split at markdown
      · cases markdown
      · have suffix : name.bytes.reverse.takeWhile (· != dot) = (Text.utf8 "md".toList).reverse :=
          List.reverse_eq_iff.mp (Option.some.inj markdown)
        have parts : (Text.utf8 "md".toList).reverse ++ name.bytes.reverse.dropWhile (· != dot) =
            name.bytes.reverse := suffix ▸ List.takeWhile_append_dropWhile
        rw [eq_comm, List.reverse_eq_iff, List.reverse_append, List.reverse_reverse] at parts
        exact ⟨_ ++ [UInt8.ofNat 'm'.toNat], by rw [parts, List.append_assoc]; rfl⟩

/-- The path of a note ends in the last byte of its extension. -/
theorem ends_of_isMarkdown {location : Location} (markdown : isMarkdown location.raw = true) :
    ∃ front, [slash].intercalate location.raw = front ++ [UInt8.ofNat 'd'.toNat] := by
  induction location with
  | nil => simp [isMarkdown, PathBuf.extension, PathBuf.components] at markdown
  | cons name rest ih =>
    cases rest with
    | nil =>
      obtain ⟨front, ends⟩ := ends_of_extension markdown
      exact ⟨front, by simp [ends]⟩
    | cons next rest =>
      rw [show name :: next :: rest = [name] ++ (next :: rest) from rfl,
        isMarkdown_raw [name] (List.cons_ne_nil _ _)] at markdown
      obtain ⟨front, ends⟩ := ih markdown
      refine ⟨name.bytes ++ [slash] ++ front, ?_⟩
      simp only [Location.raw, List.map_cons] at ends ⊢
      rw [List.intercalate_cons_cons, ends, List.append_assoc, List.append_assoc, List.append_assoc]

theorem visible_of_above {outer location : Location} (shown : visible location = true)
    (above : outer <+: location) : visible outer = true :=
  List.all_eq_true.mpr fun name member => List.all_eq_true.mp shown name (above.subset member)

theorem Eligible.visible {location : Location} (eligible : Eligible location) :
    visible location = true :=
  ((Bool.and_eq_true _ _).mp eligible.1).1

theorem toStr_raw {location : Location} (plain : location.Plain) :
    (PathBuf.toStr location.raw).map forwardSlashes = some location.key := by
  obtain ⟨texts, names⟩ := plain.texts
  rw [Location.key, names.toStr]
  rfl

/-- Below its root, what the scan prints is the rest of the location. -/
theorem notePath_append {root : PathBuf} {base : Location} (same : root.components = base.raw)
    (location : Location) : notePath root (Location.raw (base ++ location)) =
      (PathBuf.toStr location.raw).map forwardSlashes := by
  rw [notePath, same, Location.stripPrefix_append]

theorem notePath_raw (root : Location) {location : Location} (plain : location.Plain) :
    notePath root.raw (Location.raw (root ++ location)) = some location.key := by
  rw [notePath_append root.components_raw, toStr_raw plain]

section Scanning

variable {ext : External} {fs : Fs} {root : Location}

/-- The loader gives a note its own key. -/
theorem path_of_load {location : Location} {leaf : Leaf} {note : Note}
    (loaded : load ext location leaf = some note) : note.path = location.key := by
  cases leaf with
  | symlink target => cases loaded
  | file content =>
    simp only [load] at loaded
    cases result : loadFile ext (some location.key) content with
    | error kind => simp [result, Except.toOption] at loaded
    | ok value =>
      simp only [result, Except.toOption, Option.map_some, Option.some.injEq] at loaded
      have path := loadFile_path ext result
      rw [← loaded]
      exact (Option.some.inj path).symm

theorem Tame.linkFree (tame : Tame ext fs root) (location : Location) :
    LinkFree fs (root ++ location) := by
  intro outer target above link
  rcases List.prefix_or_prefix_of_prefix above (List.prefix_append root location) with inside | ⟨tail, rfl⟩
  · exact not_leaf_above tame.directory inside link
  · exact tame.linkless tail target link

theorem Tame.loads_view (tame : Tame ext fs root) : Loads Eligible (load ext) (view fs root) := by
  intro location leaf wanted found
  cases leaf with
  | symlink target => exact absurd found (tame.linkless location target)
  | file content => exact (tame.loads location content wanted.1 found).2

/-- Reading the file of a note gives what the full scan holds for it. -/
theorem scanOne_tame {location : Location} {content : File} (plain : location.Plain)
    (found : fs.lookup (root ++ location) = some (.leaf (.file content)))
    (readable : content.readable = true) :
    (scanOne ext fs root.raw (Location.raw (root ++ location))).toOption =
      load ext location (.file content) := by
  rw [scanOne, scanOneAudit, readFile_raw found readable, notePath_raw root plain]
  simp only [load]
  cases loadFile ext (some location.key) content <;> rfl

theorem entryNote_tame (tame : Tame ext fs root) {location : Location} {node : Node Leaf}
    (below : location ≠ []) (shown : visible location = true)
    (found : fs.lookup (root ++ location) = some node) :
    entryNote ext fs root.raw ⟨Location.raw (root ++ location), isFile node⟩ =
      if isNote location then current (load ext) (view fs root) location else none := by
  have plain := tame.plain location node found
  simp only [entryNote, isMarkdown_raw root below, isNote, shown, Bool.true_and, current, view, found]
  cases node with
  | dir => simp [isFile]
  | leaf leaf =>
    cases leaf with
    | symlink target => exact absurd found (tame.linkless location target)
    | file content =>
      cases markdown : isMarkdown location.raw with
      | false => simp
      | true =>
        have note : isNote location = true := by simp [isNote, shown, markdown]
        have readable := (tame.loads location content note found).1
        simpa [isFile] using scanOne_tame plain found readable

/-- A walk from a visible directory collects the notes strictly below it. -/
theorem mem_scanFrom_notes (tame : Tame ext fs root) {start : Location}
    (directory : fs.lookup (root ++ start) = some .dir) (shown : visible start = true) {note : Note} :
    note ∈ (scanFrom ext fs root.raw (Location.raw (root ++ start))).notes ↔
      ∃ location, start <+: location ∧ start ≠ location ∧ Eligible location ∧
        current (load ext) (view fs root) location = some note := by
  rw [scanFrom_notes ext fs root.raw (walkDir_raw directory), List.mem_filterMap]
  constructor
  · rintro ⟨entry, member, noted⟩
    rcases List.mem_cons.mp member with rfl | member
    · simp [entryNote] at noted
    · obtain ⟨tail, node, nonempty, found, clear, rfl⟩ := mem_visibleBelow.mp member
      rw [List.append_assoc] at found noted
      have shownBelow : visible (start ++ tail) = true := by
        exact visible_append.mpr ⟨shown, by simpa [visible] using clear⟩
      rw [entryNote_tame tame (by simp [nonempty]) shownBelow found] at noted
      split at noted
      · rename_i eligible
        exact ⟨start ++ tail, List.prefix_append _ _, by simpa using Ne.symm nonempty,
          ⟨eligible, tame.plain _ node found⟩, noted⟩
      · cases noted
  · rintro ⟨location, ⟨tail, rfl⟩, proper, eligible, noted⟩
    obtain ⟨content, found⟩ := leaf_of_current noted
    have nonempty : tail ≠ [] := by
      rintro rfl
      exact proper (by simp)
    have shownBelow : visible (start ++ tail) = true := (Bool.and_eq_true _ _ ▸ eligible.1).1
    refine ⟨⟨Location.raw (root ++ (start ++ tail)), isFile (.leaf content)⟩,
      List.mem_cons_of_mem _ (mem_visibleBelow.mpr
        ⟨tail, .leaf content, nonempty, by rw [List.append_assoc]; exact found, ?_, by simp⟩), ?_⟩
    · simpa [visible] using (visible_append.mp shownBelow).2
    · rw [entryNote_tame tame (by simp [nonempty]) shownBelow found, if_pos eligible.1, noted]

theorem mem_scan_notes (tame : Tame ext fs root) {note : Note} :
    note ∈ (scan ext fs root.raw).notes ↔
      ∃ location, Eligible location ∧ current (load ext) (view fs root) location = some note := by
  have whole : note ∈ (scanFrom ext fs root.raw (Location.raw (root ++ []))).notes ↔ _ :=
    mem_scanFrom_notes tame (by simpa using tame.directory) rfl
  rw [List.append_nil] at whole
  rw [scan, whole]
  constructor
  · rintro ⟨location, _, _, eligible, noted⟩
    exact ⟨location, eligible, noted⟩
  · rintro ⟨location, eligible, noted⟩
    exact ⟨location, List.nil_prefix, (nonempty_of_isNote eligible.1).symm, eligible, noted⟩

theorem key_of_current {location : Location} {note : Note}
    (noted : current (load ext) (view fs root) location = some note) : note.path = location.key := by
  unfold current at noted
  split at noted
  · exact path_of_load noted
  · cases noted

/-- The store a full scan fills. -/
def scanned (ext : External) (fs : Fs) (root : Location) : NoteStore :=
  NoteStore.replace (scan ext fs root.raw).notes

theorem get_scanned (tame : Tame ext fs root) {location : Location} (eligible : Eligible location) :
    (scanned ext fs root).get location.key = current (load ext) (view fs root) location := by
  rw [scanned, NoteStore.get_replace]
  have agree : ∀ note ∈ (scan ext fs root.raw).notes, note.path = location.key →
      current (load ext) (view fs root) location = some note := by
    intro note member same
    obtain ⟨other, otherEligible, noted⟩ := (mem_scan_notes tame).mp member
    rw [key_of_current noted] at same
    rwa [← Location.key_injective otherEligible.2 eligible.2 same]
  cases noted : current (load ext) (view fs root) location with
  | some note =>
    refine NoteStore.lastAt_of_agree ((mem_scan_notes tame).mpr ⟨location, eligible, noted⟩)
      (key_of_current noted) fun other member same => ?_
    rw [agree other member same] at noted
    exact Option.some.inj noted
  | none =>
    refine NoteStore.lastAt_eq_none.mpr fun note member same => ?_
    rw [agree note member same] at noted
    cases noted

theorem key_of_scanned (tame : Tame ext fs root) {path : Text} {note : Note}
    (found : (scanned ext fs root).get path = some note) :
    ∃ location, Eligible location ∧ path = location.key := by
  rw [scanned, NoteStore.get_replace] at found
  obtain ⟨member, same⟩ := NoteStore.lastAt_mem found
  obtain ⟨location, eligible, noted⟩ := (mem_scan_notes tame).mp member
  exact ⟨location, eligible, same.symm.trans (key_of_current noted)⟩

/-- A store under keys of the index that agrees with the files is that of a scan. -/
theorem scanned_of_agree (tame : Tame ext fs root) {store : NoteStore}
    (keys : ∀ path note, store.get path = some note → ∃ location, Eligible location ∧ path = location.key)
    (agree : ∀ location, Eligible location →
      store.get location.key = current (load ext) (view fs root) location) :
    store = scanned ext fs root := by
  refine NoteStore.eq_of_get fun path => ?_
  cases left : store.get path with
  | some note =>
    obtain ⟨location, eligible, rfl⟩ := keys path note left
    rw [← left, agree location eligible, get_scanned tame eligible]
  | none =>
    cases right : (scanned ext fs root).get path with
    | none => rfl
    | some note =>
      obtain ⟨location, eligible, rfl⟩ := key_of_scanned tame right
      rw [← left, ← right, agree location eligible, get_scanned tame eligible]

end Scanning

/-! Deciding whether a vault is tame. -/

/-- What an entry below the root has to be like. -/
def TameEntry (ext : External) (location : Location) : Node Leaf → Prop
  | .dir => location.Plain
  | .leaf (.symlink _) => False
  | .leaf (.file content) => location.Plain ∧ (isNote location = true →
      content.readable = true ∧ (load ext location (.file content)).isSome = true)

instance (ext : External) (location : Location) (node : Node Leaf) :
    Decidable (TameEntry ext location node) :=
  match node with
  | .dir => inferInstanceAs (Decidable (Location.Plain location))
  | .leaf (.symlink _) => inferInstanceAs (Decidable False)
  | .leaf (.file _) => inferInstanceAs (Decidable (_ ∧ (_ → _)))

theorem tame_iff_entries {ext : External} {fs : Fs} {root : Location} :
    Tame ext fs root ↔ fs.lookup root = some .dir ∧
      ∀ entry ∈ fs.entries, root <+: entry.1 →
        TameEntry ext (entry.1.drop root.length) entry.2 := by
  constructor
  · intro tame
    refine ⟨tame.directory, ?_⟩
    rintro ⟨location, node⟩ member ⟨tail, rfl⟩
    have found := FileTree.lookup_of_mem member
    have plain := tame.plain tail node found
    rw [List.drop_left]
    cases node with
    | dir => exact plain
    | leaf leaf =>
      cases leaf with
      | symlink target => exact absurd found (tame.linkless tail target)
      | file content => exact ⟨plain, fun note => tame.loads tail content note found⟩
  · rintro ⟨directory, checks⟩
    have check : ∀ (tail : Location) node, tail ≠ [] → fs.lookup (root ++ tail) = some node →
        TameEntry ext tail node := by
      intro tail node nonempty found
      have entry := checks (root ++ tail, node)
        ((FileTree.lookup_eq_some (by simp [nonempty])).mp found) (List.prefix_append _ _)
      rwa [List.drop_left] at entry
    refine ⟨directory, fun tail target link => ?_, fun tail node found => ?_, fun tail content note found => ?_⟩
    · by_cases nonempty : tail = []
      · subst nonempty
        rw [List.append_nil, directory] at link
        cases link
      · exact check tail _ nonempty link
    · by_cases nonempty : tail = []
      · subst nonempty
        exact fun _ member => by cases member
      · have entry := check tail node nonempty found
        cases node with
        | dir => exact entry
        | leaf leaf =>
          cases leaf with
          | symlink target => exact entry.elim
          | file content => exact entry.1
    · exact (check tail _ (nonempty_of_isNote note) found).2 note

instance (ext : External) (fs : Fs) (root : Location) : Decidable (Tame ext fs root) :=
  decidable_of_iff' _ tame_iff_entries

/-! A vault with one note, in a directory. -/

def vaultName : FileName := ⟨Text.utf8 "v".toList, by decide⟩
def folderName : FileName := ⟨Text.utf8 "D".toList, by decide⟩
def otherName : FileName := ⟨Text.utf8 "E".toList, by decide⟩
def noteName : FileName := ⟨Text.utf8 "x.md".toList, by decide⟩

def plainFile (content : String) : File := ⟨Text.utf8 content.toList, ⟨0, 0⟩, true⟩

def oneNote : Fs where
  entries := [([vaultName], .dir), ([vaultName, folderName], .dir),
    ([vaultName, folderName, noteName], .leaf (.file (plainFile "old")))]
  unique := by decide
  rooted := by decide

theorem oneNote_tame : Tame .bare oneNote [vaultName] := by decide +kernel

/-- A regular file as what an operation creates. -/
def soleFile (content : File) : Subtree FileName Leaf :=
  ⟨.leaf (.file content), FileTree.empty, fun _ _ => rfl⟩

end Anwesen.Vault

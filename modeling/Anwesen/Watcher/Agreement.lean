import Anwesen.Vault.Footprint
import Anwesen.Watcher.Window

/-! What one event indexes, against what a full scan holds at the same path.

The vault may hold symbolic links and names in any encoding. The scan follows a
link at its start only; the watcher probes and reads through links.
-/

set_option autoImplicit false

namespace Anwesen.Watcher

open Foundation Vault

/-- No name of the location holds a backslash. -/
def NoBackslash (location : Location) : Prop :=
  ∀ name ∈ location, UInt8.ofNat '\\'.toNat ∉ name.bytes

instance (location : Location) : Decidable (NoBackslash location) :=
  inferInstanceAs (Decidable (∀ name ∈ location, UInt8.ofNat '\\'.toNat ∉ name.bytes))

/-- The names `relative` lets pass. -/
def shownAll (location : Location) : Bool := location.raw.all shown

theorem shown_iff {bytes : Bytes} :
    shown bytes = true ↔ (∃ text, bytes = Text.utf8 text) ∧ isDotPrefixed bytes = false := by
  unfold shown isDotPrefixed
  cases decoded : Bytes.fromUtf8 bytes with
  | none =>
    simp only [Bool.false_eq_true, false_iff, not_and]
    rintro ⟨text, rfl⟩
    simp at decoded
  | some text =>
    have encoded := Bytes.fromUtf8_eq_some.mp decoded
    cases text with
    | nil => simp [encoded]
    | cons char rest =>
      by_cases dot : char = '.'
      · subst dot
        simp
      · simp only [dot, decide_false, and_true]
        exact ⟨fun _ => ⟨_, encoded⟩, fun _ => by split <;> simp_all⟩

section

variable {location : Location}

theorem shown_name (shown_ : shownAll location = true) {name : FileName} (member : name ∈ location) :
    (∃ text, name.bytes = Text.utf8 text) ∧ isDotPrefixed name.bytes = false :=
  shown_iff.mp (List.all_eq_true.mp shown_ name.bytes (List.mem_map_of_mem member))

/-- A shown location prints. -/
theorem toStr_shown (shown_ : shownAll location = true) :
    (PathBuf.toStr location.raw).map forwardSlashes = some location.key := by
  obtain ⟨text, printed⟩ := toStr_isSome fun name member => (shown_name shown_ member).1
  rw [Location.key, printed]
  rfl

theorem notePath_shown {root : PathBuf} {base : Location} (same : root.components = base.raw)
    (shown_ : shownAll location = true) :
    notePath root (Location.raw (base ++ location)) = some location.key := by
  rw [notePath_append same, toStr_shown shown_]

theorem plain_of_shown (clean : NoBackslash location) (shown_ : shownAll location = true) :
    location.Plain := by
  intro name member
  obtain ⟨⟨text, bytes⟩, -⟩ := shown_name shown_ member
  refine ⟨text, bytes, fun backslash => clean name member ?_⟩
  rw [bytes]
  exact (Text.mem_utf8_ascii (by decide)).mpr backslash

theorem shownAll_append {tail : Location} :
    shownAll (location ++ tail) = true ↔ shownAll location = true ∧ shownAll tail = true := by
  simp only [shownAll, Location.raw_append, List.all_append, Bool.and_eq_true]

theorem visible_of_shown (shown_ : shownAll location = true) : visible location = true := by
  refine List.all_eq_true.mpr fun name member => ?_
  simpa using (shown_name shown_ member).2

theorem shown_of_visible {text : Text} (shown_ : visible location = true)
    (printed : PathBuf.toStr location.raw = some text) : shownAll location = true := by
  refine List.all_eq_true.mpr fun bytes member => ?_
  obtain ⟨name, listed, rfl⟩ := List.mem_map.mp member
  exact shown_iff.mpr ⟨utf8_of_toStr printed listed,
    by simpa using List.all_eq_true.mp shown_ name listed⟩

theorem relative_hidden (root : Location) (hidden : shownAll location = false) :
    relative root.raw (Location.raw (root ++ location)) = none := by
  have fails : (Location.raw location).all shown = false := hidden
  simp only [relative, Location.components_raw, Location.stripPrefix_append, fails, Bool.false_eq_true,
    if_false]

end

theorem relative_shown (root : Location) {location : Location} (shown_ : shownAll location = true) :
    relative root.raw (Location.raw (root ++ location)) = some location.key := by
  have passes : (Location.raw location).all shown = true := shown_
  simp only [relative, Location.components_raw, Location.stripPrefix_append, passes, if_true,
    toStr_shown shown_]

theorem key_nonempty {location : Location} (below : location ≠ []) (shown_ : shownAll location = true) :
    location.key ≠ [] := by
  obtain ⟨text, printed⟩ := toStr_isSome fun name member => (shown_name shown_ member).1
  simpa [Location.key, printed, forwardSlashes] using toStr_nonempty below printed

/-! What an appearing path puts into a batch. -/

section Appearing

variable (ext : External) (fs : Fs) (root : Location)

def batchOfEvent (event : Event) : IndexBatch :=
  buildIndexBatch ext fs root.raw (coalesce (mapEvent fs root.raw event))

/-- The path that the text of a location leads back to: a backslash in a name
separates there. -/
def readBack (location : Location) : PathBuf := absolutePath root.raw location.key

/-- The notes an event for the location gathers when it reads at `start`. -/
def gathered (location : Location) (start : PathBuf) : List Note :=
  if isDir fs (Location.raw (root ++ location)) then (scanFrom ext fs root.raw start).notes
  else if isNote location then (scanOne ext fs root.raw start).toOption.toList
  else []

variable {ext fs root} {location : Location} {event : Event}

theorem readBack_plain (below : location ≠ []) (plain : location.Plain) :
    readBack root location = Location.raw (root ++ location) :=
  Location.join_key plain below

theorem mem_gathered_of_dir {start : PathBuf} {note : Note}
    (directory : isDir fs (Location.raw (root ++ location)) = true) :
    note ∈ gathered ext fs root location start ↔ note ∈ (scanFrom ext fs root.raw start).notes := by
  rw [gathered, if_pos directory]

theorem mem_gathered_of_other {start : PathBuf} {note : Note}
    (other : isDir fs (Location.raw (root ++ location)) = false) :
    note ∈ gathered ext fs root location start ↔
      isNote location = true ∧ scanOne ext fs root.raw start = .ok note := by
  rw [gathered, other, if_neg Bool.false_ne_true]
  cases isNote location <;> cases scanOne ext fs root.raw start <;> simp [Except.toOption, eq_comm]

/-- Where the path leads nowhere nothing is gathered. -/
theorem not_mem_gathered {kind : IoErrorKind} {note : Note}
    (failed : resolve fs true (Location.raw (root ++ location)) = .error kind) :
    note ∉ gathered ext fs root location (Location.raw (root ++ location)) := by
  have other : isDir fs (Location.raw (root ++ location)) = false := by rw [isDir, failed]
  rw [mem_gathered_of_other other]
  rintro ⟨_, read⟩
  obtain ⟨target, content, arrives⟩ := exists_of_scanOne read
  rw [failed] at arrives
  cases arrives

theorem mapEvent_appear (kind : classify event.kind = some .appear)
    (named : event.paths = [Location.raw (root ++ location)]) (kept : event.rescan = false) :
    mapEvent fs root.raw event =
      (appear fs root.raw (Location.raw (root ++ location))).toList := by
  simp only [mapEvent, isOverflow, kept, kind, named, Bool.false_eq_true, if_false,
    List.filterMap_cons, List.filterMap_nil]
  cases appear fs root.raw (Location.raw (root ++ location)) <;> rfl

theorem appear_hidden (hidden : shownAll location = false) :
    appear fs root.raw (Location.raw (root ++ location)) = none := by
  simp only [appear, treeRelative, noteRelative, relative_hidden root hidden]
  cases isDir fs (Location.raw (root ++ location)) <;> simp

theorem upserts_of_appear (below : location ≠ []) (kind : classify event.kind = some .appear)
    (named : event.paths = [Location.raw (root ++ location)]) (kept : event.rescan = false) :
    (batchOfEvent ext fs root event).upserts =
      if shownAll location then gathered ext fs root location (readBack root location) else [] := by
  rw [batchOfEvent, mapEvent_appear kind named kept]
  cases shown_ : shownAll location with
  | false =>
    rw [appear_hidden shown_]
    rfl
  | true =>
    simp only [appear, treeRelative, noteRelative, relative_shown root shown_,
      isMarkdown_raw root below, if_neg (key_nonempty below shown_), Option.map_some, if_true,
      gathered, isNote, visible_of_shown shown_, Bool.true_and]
    split
    · have single : coalesce [.upsertTree location.key] = ⟨[], [], [location.key], []⟩ := rfl
      simp [single, buildIndexBatch, readBack]
    · cases markdown : isMarkdown location.raw with
      | false => rfl
      | true =>
        have single : coalesce [.upsert location.key] = ⟨[location.key], [], [], []⟩ := rfl
        simp only [Bool.not_true, Bool.false_eq_true, if_false, if_true, Option.map_some,
          Option.toList_some, single, buildIndexBatch, List.flatMap_nil, List.append_nil, reread,
          readBack, List.filterMap_cons, List.filterMap_nil]
        cases scanOne ext fs root.raw (absolutePath root.raw location.key) <;> rfl

end Appearing

/-! What a full scan holds at and below a path. -/

section Scanned

variable (ext : External) (fs : Fs)

/-- The notes of the walk's entries at or under a path. -/
def scannedAt (root : PathBuf) (path : PathBuf) : List Note :=
  match walkDir fs root with
  | .error _ => []
  | .ok entries => (entries.filter fun entry => path.isPrefixOf entry.path).filterMap
      (entryNote ext fs root)

variable {ext fs} {root real location : Location}

theorem mem_scannedAt (reached : resolve fs true root.raw = .ok (real, .dir))
    (below : location ≠ []) {note : Note} :
    note ∈ scannedAt ext fs root.raw (Location.raw (root ++ location)) ↔
      ∃ tail node, location <+: tail ∧ visible tail = true ∧ fs.lookup (real ++ tail) = some node ∧
        entryNote ext fs root.raw ⟨Location.raw (root ++ tail), isFile node⟩ = some note := by
  simp only [scannedAt, walkDir_of_dir reached, List.mem_filterMap, List.mem_filter, List.mem_cons,
    List.isPrefixOf_iff_prefix]
  constructor
  · rintro ⟨entry, ⟨rfl | member, above⟩, noted⟩
    · simp [entryNote] at noted
    · simp only [visibleBelow, List.mem_map, List.mem_filter, Prod.exists, FileTree.mem_under,
        Location.push_raw] at member
      obtain ⟨tail, node, ⟨⟨nonempty, listed⟩, shown_⟩, rfl⟩ := member
      refine ⟨tail, node, ?_, shown_, FileTree.lookup_of_mem listed, noted⟩
      rw [Location.raw_append, Location.raw_append, List.prefix_append_right_inj] at above
      exact Location.raw_prefix_iff.mp above
  · rintro ⟨tail, node, above, shown_, found, noted⟩
    have nonempty : tail ≠ [] := fun empty => below (List.prefix_nil.mp (empty ▸ above))
    refine ⟨⟨Location.raw (root ++ tail), isFile node⟩, ⟨.inr ?_, ?_⟩, noted⟩
    · simp only [visibleBelow, List.mem_map, List.mem_filter, Prod.exists, FileTree.mem_under,
        Location.push_raw]
      exact ⟨tail, node, ⟨⟨nonempty, (FileTree.lookup_eq_some (by simp [nonempty])).mp found⟩, shown_⟩, rfl⟩
    · rw [Location.raw_append, Location.raw_append, List.prefix_append_right_inj]
      exact Location.raw_prefix_iff.mpr above

/-- The notes of a walk from a path that resolves to a directory. -/
theorem mem_walked {reachedAt : Location}
    (reached : resolve fs true (Location.raw (root ++ location)) = .ok (reachedAt, .dir)) {note : Note} :
    note ∈ (scanFrom ext fs root.raw (Location.raw (root ++ location))).notes ↔
      ∃ tail node, tail ≠ [] ∧ visible tail = true ∧ fs.lookup (reachedAt ++ tail) = some node ∧
        entryNote ext fs root.raw ⟨Location.raw (root ++ location ++ tail), isFile node⟩ = some note := by
  rw [scanFrom_notes ext fs root.raw (walkDir_of_dir reached), List.mem_filterMap]
  simp only [List.mem_cons, visibleBelow, List.mem_map, List.mem_filter, Prod.exists,
    FileTree.mem_under, Location.push_raw]
  constructor
  · rintro ⟨entry, rfl | ⟨tail, node, ⟨⟨nonempty, listed⟩, shown_⟩, rfl⟩, noted⟩
    · simp [entryNote] at noted
    · exact ⟨tail, node, nonempty, shown_, FileTree.lookup_of_mem listed, noted⟩
  · rintro ⟨tail, node, nonempty, shown_, found, noted⟩
    exact ⟨_, .inr ⟨tail, node,
      ⟨⟨nonempty, (FileTree.lookup_eq_some (by simp [nonempty])).mp found⟩, shown_⟩, rfl⟩, noted⟩

/-- A note of the scan has a path the watcher lets pass. -/
theorem shown_of_note {tail : Location} {node : Node Leaf} {note : Note} (shown_ : visible tail = true)
    (noted : entryNote ext fs root.raw ⟨Location.raw (root ++ tail), isFile node⟩ = some note) :
    shownAll tail = true := by
  obtain ⟨-, -, read⟩ := entryNote_eq_some.mp noted
  have printed := notePath_of_scanOne read
  rw [notePath_append root.components_raw] at printed
  obtain ⟨text, printed, -⟩ := Option.map_eq_some_iff.mp printed
  exact shown_of_visible shown_ printed

theorem shownAll_of_above {tail : Location} (above : location <+: tail)
    (shown_ : shownAll tail = true) : shownAll location = true := by
  refine List.all_eq_true.mpr fun bytes member => ?_
  exact List.all_eq_true.mp shown_ bytes ((Location.raw_prefix_iff.mpr above).subset member)

/-- Some segment on the way from the vault's directory to the location is a symbolic link. -/
def Linked (fs : Fs) (real location : Location) : Prop :=
  ∃ outer target, outer <+: location ∧ fs.lookup (real ++ outer) = some (.leaf (.symlink target))

theorem scannedAt_linked (reached : resolve fs true root.raw = .ok (real, .dir))
    (below : location ≠ []) (linked : Linked fs real location) (note : Note) :
    note ∉ scannedAt ext fs root.raw (Location.raw (root ++ location)) := by
  intro member
  obtain ⟨tail, node, above, _, found, noted⟩ := (mem_scannedAt reached below).mp member
  -- the walk neither reads the link itself nor goes below it
  obtain ⟨outer, target, inside, link⟩ := linked
  rcases FileTree.lookup_above (inside.trans above) found with rfl | directory
  · rw [link] at found
    cases found
    simp [entryNote, isFile] at noted
  · rw [link] at directory
    cases directory

theorem linkFree_of_not_linked (directory : fs.lookup real = some .dir)
    (free : ¬ Linked fs real location) : LinkFree fs (real ++ location) := by
  intro outer target above link
  rcases List.prefix_or_prefix_of_prefix above (List.prefix_append real location) with inside | ⟨tail, rfl⟩
  · exact not_leaf_above directory inside link
  · exact free ⟨tail, target, (List.prefix_append_right_inj real).mp above, link⟩

theorem not_mem_scannedAt (reached : resolve fs true root.raw = .ok (real, .dir))
    (below : location ≠ []) (missing : fs.lookup (real ++ location) = none) (note : Note) :
    note ∉ scannedAt ext fs root.raw (Location.raw (root ++ location)) := by
  intro member
  obtain ⟨tail, node, above, _, inner, _⟩ := (mem_scannedAt reached below).mp member
  rcases FileTree.lookup_above above inner with rfl | directory
  · rw [missing] at inner
    cases inner
  · rw [missing] at directory
    cases directory

/-- At and under a directory the scan holds the notes of a walk from there. -/
theorem mem_scannedAt_of_dir (reached : resolve fs true root.raw = .ok (real, .dir))
    (below : location ≠ []) (visible_ : visible location = true)
    (found : fs.lookup (real ++ location) = some .dir) {note : Note} :
    note ∈ scannedAt ext fs root.raw (Location.raw (root ++ location)) ↔
      ∃ tail node, tail ≠ [] ∧ visible tail = true ∧ fs.lookup (real ++ location ++ tail) = some node ∧
        entryNote ext fs root.raw ⟨Location.raw (root ++ location ++ tail), isFile node⟩ = some note := by
  rw [mem_scannedAt reached below]
  constructor
  · rintro ⟨tail, node, ⟨rest, rfl⟩, visibleAll, inner, noted⟩
    have nonempty : rest ≠ [] := by
      rintro rfl
      rw [List.append_nil, found] at inner
      cases inner
      simp [entryNote, isFile] at noted
    exact ⟨rest, node, nonempty, (visible_append.mp visibleAll).2, by simpa using inner, by simpa using noted⟩
  · rintro ⟨rest, node, _, restVisible, inner, noted⟩
    exact ⟨location ++ rest, node, List.prefix_append _ _, visible_append.mpr ⟨visible_, restVisible⟩,
      by simpa using inner, by simpa using noted⟩

/-- Nothing stands below a file, so there the walk meets the file's own entry only. -/
theorem mem_scannedAt_of_file (reached : resolve fs true root.raw = .ok (real, .dir))
    (below : location ≠ []) (visible_ : visible location = true) {content : File}
    (found : fs.lookup (real ++ location) = some (.leaf (.file content))) {note : Note} :
    note ∈ scannedAt ext fs root.raw (Location.raw (root ++ location)) ↔
      isNote location = true ∧
        scanOne ext fs root.raw (Location.raw (root ++ location)) = .ok note := by
  have own : entryNote ext fs root.raw ⟨Location.raw (root ++ location), true⟩ = some note ↔
      isNote location = true ∧
        scanOne ext fs root.raw (Location.raw (root ++ location)) = .ok note := by
    simp only [entryNote, Bool.true_and, isMarkdown_raw root below, isNote, visible_]
    cases isMarkdown location.raw <;>
      cases scanOne ext fs root.raw (Location.raw (root ++ location)) <;> simp [Except.toOption]
  rw [mem_scannedAt reached below, ← own]
  constructor
  · rintro ⟨tail, node, above, _, inner, noted⟩
    rcases FileTree.lookup_above above inner with rfl | directory
    · rw [found] at inner
      cases inner
      exact noted
    · rw [found] at directory
      cases directory
  · exact fun noted => ⟨location, _, List.prefix_refl _, visible_, found, noted⟩

/-- Where no link stands on the way, the scan holds what is gathered at the path itself. -/
theorem scannedAt_linkFree (reached : resolve fs true root.raw = .ok (real, .dir))
    (below : location ≠ []) (shown_ : shownAll location = true) (free : ¬ Linked fs real location)
    (note : Note) :
    note ∈ scannedAt ext fs root.raw (Location.raw (root ++ location)) ↔
      note ∈ gathered ext fs root location (Location.raw (root ++ location)) := by
  have directory := lookup_of_resolve reached
  have linkFree := linkFree_of_not_linked directory free
  have visible_ := visible_of_shown shown_
  cases found : fs.lookup (real ++ location) with
  | none =>
    obtain ⟨kind, failed⟩ : ∃ kind, resolve fs true (Location.raw (root ++ location)) = .error kind := by
      rw [Location.raw_append]
      -- no link can lead elsewhere, so the probes fail too
      rcases resolve_append_missing true reached directory found linkFree with
        ⟨_, failed⟩ | ⟨_, failed⟩ <;> exact ⟨_, failed⟩
    exact iff_of_false (not_mem_scannedAt reached below found note) (not_mem_gathered failed)
  | some node =>
    have arrives : resolve fs true (Location.raw (root ++ location)) = .ok (real ++ location, node) := by
      rw [Location.raw_append]
      exact resolve_append true reached directory below found (settled_of_free linkFree found)
    cases node with
    | dir =>
      have here : isDir fs (Location.raw (root ++ location)) = true := by rw [isDir, arrives]
      rw [mem_gathered_of_dir here, mem_walked arrives, mem_scannedAt_of_dir reached below visible_ found]
    | leaf leaf =>
      have other : isDir fs (Location.raw (root ++ location)) = false := by rw [isDir, arrives]
      cases leaf with
      | file content =>
        rw [mem_gathered_of_other other, mem_scannedAt_of_file reached below visible_ found]
      | symlink target => exact absurd found (linkFree _ target (List.prefix_refl _))

end Scanned

/-! When reading through a link finds a note. -/

section Leading

variable (ext : External) (fs : Fs)

/-- The content of a file makes a note, under whatever path. -/
def MakesNote (content : File) : Prop :=
  content.readable = true ∧ (loadFile ext (some []) content).isOk = true

/-- The path of the location, read through links, is a note or a directory with notes in it. -/
def Leads (root location : Location) : Prop :=
  (∃ target content, resolve fs true (Location.raw (root ++ location)) = .ok (target, .leaf (.file content)) ∧
      isNote location = true ∧ MakesNote ext content) ∨
    ∃ target tail content, resolve fs true (Location.raw (root ++ location)) = .ok (target, .dir) ∧
      shownAll tail = true ∧ isMarkdown (Location.raw tail) = true ∧
      fs.lookup (target ++ tail) = some (.leaf (.file content)) ∧ MakesNote ext content

variable {ext fs} {root location : Location}

theorem loadFile_isOk (ext : External) (path : Option Text) (content : File) :
    (loadFile ext path content).isOk = true ↔
      path.isSome = true ∧ (loadFile ext (some []) content).isOk = true := by
  unfold loadFile
  cases Bytes.fromUtf8 content.bytes with
  | none => simp [Except.isOk, Except.toBool]
  | some text =>
    dsimp only
    split
    · simp [Except.isOk, Except.toBool]
    · cases path <;> simp [Except.isOk, Except.toBool]

/-- Reading a path that resolves to a file. -/
theorem scanOne_isSome (shown_ : shownAll location = true) {target : Location} {content : File}
    (arrives : resolve fs true (Location.raw (root ++ location)) = .ok (target, .leaf (.file content))) :
    (∃ note, scanOne ext fs root.raw (Location.raw (root ++ location)) = .ok note) ↔
      MakesNote ext content := by
  have path := notePath_shown root.components_raw shown_
  have loads := loadFile_isOk ext (some location.key) content
  simp only [Option.isSome_some, true_and] at loads
  rw [MakesNote, ← loads]
  simp only [scanOne_eq_ok, readFile_eq_ok, arrives, path]
  cases loaded : loadFile ext (some location.key) content with
  | error kind => simp [loaded, Except.isOk, Except.toBool]
  | ok value =>
    have pair : ∃ note warning, value = (note, warning) := ⟨_, _, rfl⟩
    simp [loaded, Except.isOk, Except.toBool, pair]

/-- What is gathered in a directory: a file below it, on a shown way, that makes a note. -/
theorem gathered_dir_iff (shown_ : shownAll location = true) {target : Location}
    (arrives : resolve fs true (Location.raw (root ++ location)) = .ok (target, .dir)) :
    (∃ note, note ∈ gathered ext fs root location (Location.raw (root ++ location))) ↔
      ∃ tail content, shownAll tail = true ∧ isMarkdown (Location.raw tail) = true ∧
        fs.lookup (target ++ tail) = some (.leaf (.file content)) ∧ MakesNote ext content := by
  have here : isDir fs (Location.raw (root ++ location)) = true := by rw [isDir, arrives]
  simp only [mem_gathered_of_dir here, mem_walked arrives]
  -- A file below the directory is read where the walk found it.
  have inside : ∀ (tail : Location) content, tail ≠ [] →
      fs.lookup (target ++ tail) = some (.leaf (.file content)) →
      resolve fs true (Location.raw (root ++ (location ++ tail))) =
        .ok (target ++ tail, .leaf (.file content)) := by
    intro tail content nonempty found
    rw [← List.append_assoc, Location.raw_append (root ++ location)]
    exact resolve_append true arrives (lookup_of_resolve arrives) nonempty found
      (.inr fun _ same => by cases same)
  have markdown_iff : ∀ tail : Location, tail ≠ [] →
      isMarkdown (Location.raw (root ++ (location ++ tail))) = isMarkdown tail.raw := by
    intro tail nonempty
    rw [isMarkdown_raw root (show location ++ tail ≠ [] by simp [nonempty]),
      isMarkdown_raw location nonempty]
  constructor
  · rintro ⟨note, tail, node, nonempty, visible_, found, noted⟩
    rw [List.append_assoc] at noted
    have passes := shown_of_note (visible_append.mpr ⟨visible_of_shown shown_, visible_⟩) noted
    obtain ⟨file, markdown, read⟩ := entryNote_eq_some.mp noted
    rw [markdown_iff tail nonempty] at markdown
    obtain ⟨content, rfl⟩ := isFile_iff.mp file
    refine ⟨tail, content, (shownAll_append.mp passes).2, markdown, found, ?_⟩
    exact (scanOne_isSome passes (inside tail content nonempty found)).mp ⟨note, read⟩
  · rintro ⟨tail, content, passes, markdown, found, makes⟩
    have nonempty : tail ≠ [] := by
      rintro rfl
      simp [isMarkdown, PathBuf.extension, PathBuf.components] at markdown
    obtain ⟨note, read⟩ := (scanOne_isSome (shownAll_append.mpr ⟨shown_, passes⟩)
      (inside tail content nonempty found)).mpr makes
    refine ⟨note, tail, _, nonempty, visible_of_shown passes, found, ?_⟩
    rw [List.append_assoc]
    exact entryNote_eq_some.mpr ⟨rfl, (markdown_iff tail nonempty).trans markdown, read⟩

theorem gathered_file_iff (shown_ : shownAll location = true) {target : Location} {content : File}
    (arrives : resolve fs true (Location.raw (root ++ location)) = .ok (target, .leaf (.file content))) :
    (∃ note, note ∈ gathered ext fs root location (Location.raw (root ++ location))) ↔
      isNote location = true ∧ MakesNote ext content := by
  have other : isDir fs (Location.raw (root ++ location)) = false := by rw [isDir, arrives]
  simp only [mem_gathered_of_other other, exists_and_left]
  exact and_congr_right fun _ => scanOne_isSome shown_ arrives

theorem gathered_iff_leads (shown_ : shownAll location = true) :
    (∃ note, note ∈ gathered ext fs root location (Location.raw (root ++ location))) ↔
      Leads ext fs root location := by
  cases arrives : resolve fs true (Location.raw (root ++ location)) with
  | error kind =>
    refine iff_of_false ?_ (by simp [Leads, arrives, -Location.raw_append])
    rintro ⟨note, member⟩
    exact not_mem_gathered arrives member
  | ok reached =>
    obtain ⟨target, node⟩ := reached
    cases node with
    | dir =>
      rw [gathered_dir_iff shown_ arrives]
      simp [Leads, arrives, -Location.raw_append]
    | leaf leaf =>
      cases leaf with
      | file content =>
        rw [gathered_file_iff shown_ arrives]
        simp [Leads, arrives, -Location.raw_append]
      | symlink link =>
        have other : isDir fs (Location.raw (root ++ location)) = false := by rw [isDir, arrives]
        simp only [mem_gathered_of_other other]
        refine iff_of_false ?_ (by simp [Leads, arrives, -Location.raw_append])
        rintro ⟨note, _, read⟩
        obtain ⟨_, _, leads⟩ := exists_of_scanOne read
        rw [arrives] at leads
        cases leads

end Leading

/-! Where the two agree. -/

section Agreeing

variable (ext : External) (fs : Fs) (root real location : Location)

/-- A symbolic link on the way leads to a note. -/
def Smuggled : Prop := Linked fs real location ∧ Leads ext fs root location

/-- How reading under the text of the path, slashes for its backslashes, goes wrong. -/
inductive Garbled : Prop
  /-- The directory holds a note that the walk under the text does not come to. -/
  | passedBy {note : Note} (directory : isDir fs (Location.raw (root ++ location)) = true)
      (free : ¬ Linked fs real location)
      (held : note ∈ (scanFrom ext fs root.raw (Location.raw (root ++ location))).notes)
      (unwalked : note ∉ (scanFrom ext fs root.raw (readBack root location)).notes)
  /-- The walk under the text comes to a note that the directory does not hold. -/
  | walkedInto {note : Note} (directory : isDir fs (Location.raw (root ++ location)) = true)
      (walked : note ∈ (scanFrom ext fs root.raw (readBack root location)).notes)
      (unheld : Linked fs real location ∨
        note ∉ (scanFrom ext fs root.raw (Location.raw (root ++ location))).notes)
  /-- The path loads as a note, and the text does not load as the same. -/
  | notRead {note : Note} (other : isDir fs (Location.raw (root ++ location)) = false)
      (named : isNote location = true) (free : ¬ Linked fs real location)
      (loads : scanOne ext fs root.raw (Location.raw (root ++ location)) = .ok note)
      (fails : scanOne ext fs root.raw (readBack root location) ≠ .ok note)
  /-- The text loads as a note, and the path does not load as the same, or a link is on the way. -/
  | misread {note : Note} (other : isDir fs (Location.raw (root ++ location)) = false)
      (named : isNote location = true)
      (loads : scanOne ext fs root.raw (readBack root location) = .ok note)
      (fails : Linked fs real location ∨
        scanOne ext fs root.raw (Location.raw (root ++ location)) ≠ .ok note)

variable {fs root real location}

theorem mem_scannedAt_iff (reached : resolve fs true root.raw = .ok (real, .dir))
    (below : location ≠ []) (shown_ : shownAll location = true) (note : Note) :
    note ∈ scannedAt ext fs root.raw (Location.raw (root ++ location)) ↔
      ¬ Linked fs real location ∧
        note ∈ gathered ext fs root location (Location.raw (root ++ location)) := by
  by_cases linked : Linked fs real location
  · simp only [linked, not_true_eq_false, false_and, iff_false]
    exact scannedAt_linked reached below linked note
  · simp only [linked, not_false_eq_true, true_and]
    exact scannedAt_linkFree reached below shown_ linked note

theorem garbled_iff :
    Garbled ext fs root real location ↔
      ∃ note, ¬ (note ∈ gathered ext fs root location (readBack root location) ↔
        ¬ Linked fs real location ∧
          note ∈ gathered ext fs root location (Location.raw (root ++ location))) := by
  constructor
  · intro garbled
    cases garbled with
    | @passedBy note directory free held unwalked =>
      refine ⟨note, fun same => unwalked ?_⟩
      rw [mem_gathered_of_dir directory, mem_gathered_of_dir directory] at same
      exact same.mpr ⟨free, held⟩
    | @walkedInto note directory walked unheld =>
      refine ⟨note, fun same => ?_⟩
      rw [mem_gathered_of_dir directory, mem_gathered_of_dir directory] at same
      obtain ⟨free, held⟩ := same.mp walked
      exact unheld.elim free fun absent => absent held
    | @notRead note other named free loads fails =>
      refine ⟨note, fun same => fails ?_⟩
      rw [mem_gathered_of_other other, mem_gathered_of_other other] at same
      exact (same.mpr ⟨free, named, loads⟩).2
    | @misread note other named loads fails =>
      refine ⟨note, fun same => ?_⟩
      rw [mem_gathered_of_other other, mem_gathered_of_other other] at same
      obtain ⟨free, _, read⟩ := same.mp ⟨named, loads⟩
      exact fails.elim free fun absent => absent read
  · rintro ⟨note, differs⟩
    cases here : isDir fs (Location.raw (root ++ location)) with
    | true =>
      rw [mem_gathered_of_dir here, mem_gathered_of_dir here] at differs
      by_cases walked : note ∈ (scanFrom ext fs root.raw (readBack root location)).notes
      · refine .walkedInto here walked (Classical.or_iff_not_imp_left.mpr fun free held => differs ?_)
        exact iff_of_true walked ⟨free, held⟩
      · have both : ¬ Linked fs real location ∧
            note ∈ (scanFrom ext fs root.raw (Location.raw (root ++ location))).notes := by
          by_contra neither
          exact differs (iff_of_false walked neither)
        exact .passedBy here both.1 both.2 walked
    | false =>
      rw [mem_gathered_of_other here, mem_gathered_of_other here] at differs
      by_cases loads : isNote location = true ∧ scanOne ext fs root.raw (readBack root location) = .ok note
      · refine .misread here loads.1 loads.2
          (Classical.or_iff_not_imp_left.mpr fun free read => differs ?_)
        exact iff_of_true loads ⟨free, loads.1, read⟩
      · have both : ¬ Linked fs real location ∧ isNote location = true ∧
            scanOne ext fs root.raw (Location.raw (root ++ location)) = .ok note := by
          by_contra neither
          exact differs (iff_of_false loads neither)
        exact .notRead here both.2.1 both.1 both.2.2 fun read => loads ⟨both.2.1, read⟩

theorem scannedAt_hidden (reached : resolve fs true root.raw = .ok (real, .dir))
    (below : location ≠ []) (hidden : shownAll location = false) (note : Note) :
    note ∉ scannedAt ext fs root.raw (Location.raw (root ++ location)) := by
  intro member
  obtain ⟨tail, node, above, visible_, _, noted⟩ := (mem_scannedAt reached below).mp member
  rw [shownAll_of_above above (shown_of_note visible_ noted)] at hidden
  cases hidden

/-- An event for an appearing path inserts the notes a scan holds at or under it,
unless it reads through a link or under another name. -/
theorem upserts_eq_scanned_iff {event : Event} (reached : resolve fs true root.raw = .ok (real, .dir))
    (below : location ≠ []) (kind : classify event.kind = some .appear)
    (named : event.paths = [Location.raw (root ++ location)]) (kept : event.rescan = false) :
    (∀ note, note ∈ (batchOfEvent ext fs root event).upserts ↔
        note ∈ scannedAt ext fs root.raw (Location.raw (root ++ location))) ↔
      (shownAll location = true →
        (NoBackslash location → ¬ Smuggled ext fs root real location) ∧
          (¬ NoBackslash location → ¬ Garbled ext fs root real location)) := by
  rw [upserts_of_appear below kind named kept]
  cases shown_ : shownAll location with
  | false => simp [-Location.raw_append, scannedAt_hidden ext reached below shown_]
  | true =>
    simp only [if_true, mem_scannedAt_iff ext reached below shown_, true_implies]
    by_cases clean : NoBackslash location
    · rw [readBack_plain below (plain_of_shown clean shown_)]
      simp only [clean, true_implies, not_true_eq_false, false_implies, and_true, Smuggled,
        ← gathered_iff_leads shown_, not_and, not_exists]
      by_cases linked : Linked fs real location <;> simp [linked, -Location.raw_append]
    · simp only [clean, false_implies, not_false_eq_true, true_implies, true_and, garbled_iff, not_exists,
        not_not]

/-- A vault whose only entry is a link to a file outside. -/
def linkName : FileName := ⟨Text.utf8 "l.md".toList, by decide⟩

def linkedVault : Fs where
  entries := [([vaultName], .dir), ([noteName], .leaf (.file (plainFile "secret"))),
    ([vaultName, linkName], .leaf (.symlink ⟨true, [noteName.bytes]⟩))]
  unique := by decide
  rooted := by decide

def created (location : Location) : Event := ⟨.create, [location.raw], false⟩

/-- The event for the note brings what the scan holds there, and nothing else. -/
theorem upserts_eq_scanned_iff_oneNote :
    (batchOfEvent .bare oneNote [vaultName] (created [vaultName, folderName, noteName])).upserts ⊆
        scannedAt .bare oneNote (Location.raw [vaultName])
          (Location.raw [vaultName, folderName, noteName]) ∧
      scannedAt .bare oneNote (Location.raw [vaultName])
          (Location.raw [vaultName, folderName, noteName]) ⊆
        (batchOfEvent .bare oneNote [vaultName] (created [vaultName, folderName, noteName])).upserts := by
  have linkless : ¬ Smuggled .bare oneNote [vaultName] [vaultName] [folderName, noteName] :=
    fun ⟨⟨outer, target, _, link⟩, _⟩ => oneNote_tame.linkless outer target link
  have clean : NoBackslash [folderName, noteName] := by decide
  have named : (created [vaultName, folderName, noteName]).paths =
      [Location.raw ([vaultName] ++ [folderName, noteName])] := rfl
  have same := (upserts_eq_scanned_iff .bare (resolve_found (by decide) (.inr fun _ same => by cases same))
    (by decide) rfl named rfl).mpr fun _ => ⟨fun _ => linkless, fun garbled => absurd clean garbled⟩
  exact ⟨fun note => (same note).mp, fun note => (same note).mpr⟩

/-- The event for the link indexes what it leads to, and the scan skips it. -/
theorem linked_note_upserted :
    ((batchOfEvent .bare linkedVault [vaultName] (created [vaultName, linkName])).upserts.map
        Note.path) = ["l.md".toList] ∧
      (scan .bare linkedVault (Location.raw [vaultName])).notes.map Note.path = [] := by
  decide +kernel

end Agreeing

end Anwesen.Watcher

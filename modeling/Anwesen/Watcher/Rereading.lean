import Anwesen.Watcher.Agreement

/-! The entry of one note after an event that names it, whatever its bytes are.

A re-read that succeeds, or finds nothing, leaves what a rebuild would; any other
failure leaves what was there.
-/

set_option autoImplicit false

namespace Anwesen.Watcher

open Foundation Vault

section Rereading

variable (ext : External) (fs : Fs) (root real location : Location)

/-- No other note of the vault is printed like this one. -/
def Alone : Prop :=
  ∀ other content, isNote other = true → shownAll other = true →
    fs.lookup (real ++ other) = some (.leaf (.file content)) → other.key = location.key →
    other = location

/-- What the visible files that are printed with one text load as, in the order of the walk. -/
def printedNotes (key : Text) : List Note :=
  (fs.under real).filterMap fun (tail, node) =>
    if isFile node && isNote tail && shownAll tail && decide (Location.key tail = key) then
      (scanOne ext fs root.raw (Location.raw (root ++ tail))).toOption
    else none

/-- The event reports an appearance, and a directory is there. -/
def Walked (event : Event) : Prop :=
  classify event.kind = some .appear ∧ isDir fs (Location.raw (root ++ location)) = true

instance (event : Event) : Decidable (Walked fs root location event) :=
  inferInstanceAs (Decidable (_ ∧ _))

/-- The entry under the text of the location after its event. -/
def entryLeft (store : NoteStore) (event : Event) : Option Note :=
  if Walked fs root location event then
    (NoteStore.lastAt (scanFrom ext fs root.raw (readBack root location)).notes location.key).or
      (if NoteStore.dirPrefix location.key <+: location.key then none else store.get location.key)
  else
    match scanOne ext fs root.raw (readBack root location) with
    | .ok note => if note.path = location.key then some note else store.get location.key
    | .error (.io .notFound) => none
    | .error _ => store.get location.key

/-- The event brings a note under the text of the location. -/
def Brings (event : Event) (note : Note) : Prop :=
  if Walked fs root location event then
    NoteStore.lastAt (scanFrom ext fs root.raw (readBack root location)).notes location.key = some note
  else scanOne ext fs root.raw (readBack root location) = .ok note ∧ note.path = location.key

/-- The event finds that nothing is there to read. -/
def Vanishes (event : Event) : Prop :=
  ¬ Walked fs root location event ∧
    scanOne ext fs root.raw (readBack root location) = .error (.io .notFound)

/-- The event leaves the entry alone: the read fails, or is of another text. -/
def Skips (event : Event) : Prop :=
  (∀ note, ¬ Brings ext fs root location event note) ∧ ¬ Vanishes ext fs root location event

/-- What the read under the text comes to is right for the files that are printed with it,
the last of which a scan keeps. -/
structure ReadsRight (store : NoteStore) (event : Event) : Prop where
  loads : ∀ note, Brings ext fs root location event note →
    (printedNotes ext fs root real location.key).getLast? = some note
  notFound : Vanishes ext fs root location event →
    printedNotes ext fs root real location.key = []
  held : ∀ note, Skips ext fs root location event → store.get location.key = some note →
    (printedNotes ext fs root real location.key).getLast? = some note
  unheld : Skips ext fs root location event → store.get location.key = none →
    printedNotes ext fs root real location.key = []

variable {ext fs root real location}

theorem mapEvent_note (note : isNote location = true) (shown_ : shownAll location = true)
    {event : Event}
    (kind : classify event.kind = some .appear ∨ classify event.kind = some .modify)
    (named : event.paths = [Location.raw (root ++ location)]) (kept : event.rescan = false) :
    mapEvent fs root.raw event =
      if Walked fs root location event then [.upsertTree location.key] else [.upsert location.key] := by
  have below := nonempty_of_isNote note
  have markdown : isMarkdown location.raw = true := ((Bool.and_eq_true _ _).mp note).2
  have rel := relative_shown root shown_
  rcases kind with kind | kind
  · rw [mapEvent_appear kind named kept]
    cases here : isDir fs (Location.raw (root ++ location)) <;>
      simp only [appear, treeRelative, noteRelative, rel, isMarkdown_raw root below, markdown,
        if_neg (key_nonempty below shown_), Option.map_some, Option.toList_some, Walked, kind, here,
        Bool.not_true, Bool.false_eq_true, and_false, and_true, if_true, if_false]
  · simp only [mapEvent, isOverflow, kept, kind, named, List.filterMap_cons, List.filterMap_nil,
      noteRelative, rel, isMarkdown_raw root below, markdown, Walked, Bool.not_true,
      Bool.false_eq_true, if_false, Option.map_some, Option.some.injEq, reduceCtorEq, false_and]

theorem entry_after_event (note : isNote location = true) (shown_ : shownAll location = true)
    {event : Event}
    (kind : classify event.kind = some .appear ∨ classify event.kind = some .modify)
    (named : event.paths = [Location.raw (root ++ location)]) (kept : event.rescan = false)
    (store : NoteStore) :
    (applyIndexBatch store (batchOfEvent ext fs root event)).get location.key =
      entryLeft ext fs root location store event := by
  rw [get_applyIndexBatch, batchOfEvent, mapEvent_note note shown_ kind named kept, entryLeft]
  by_cases walked : Walked fs root location event
  · have single : coalesce [.upsertTree location.key] = ⟨[], [], [location.key], []⟩ := rfl
    simp [walked, single, buildIndexBatch, readBack]
  · have single : coalesce [.upsert location.key] = ⟨[location.key], [], [], []⟩ := rfl
    simp only [walked, if_false, single, buildIndexBatch, reread, ← show readBack root location =
      absolutePath root.raw location.key from rfl, List.flatMap_nil, List.append_nil, List.nil_append,
      List.not_mem_nil, false_and, exists_false, or_false, List.filterMap_cons, List.filterMap_nil,
      List.filter_cons, List.filter_nil]
    cases again : scanOne ext fs root.raw (readBack root location) with
    | ok fresh =>
      by_cases same : fresh.path = location.key <;>
        simp [Except.toOption, isNotFound, NoteStore.lastAt, same]
    | error failure =>
      cases failure with
      | io failed => cases failed <;> simp [Except.toOption, NoteStore.lastAt, isNotFound]
      | nonUtf8Path | frontmatterParse | nonUtf8Body =>
        simp [Except.toOption, NoteStore.lastAt, isNotFound]

/-- The loaded note of a location has its text as path. -/
theorem path_of_scanOne (shown_ : shownAll location = true) {note : Note}
    (read : scanOne ext fs root.raw (Location.raw (root ++ location)) = .ok note) :
    note.path = location.key := by
  have path := notePath_shown root.components_raw shown_
  exact Option.some.inj ((notePath_of_scanOne read).symm.trans path)

/-- Where the walk's note comes from. -/
theorem source_of_entry {tail : Location} {node : Node Leaf} {note : Note} (below : tail ≠ [])
    (visible_ : visible tail = true)
    (noted : entryNote ext fs root.raw ⟨Location.raw (root ++ tail), isFile node⟩ = some note) :
    isNote tail = true ∧ shownAll tail = true ∧ (∃ content, node = .leaf (.file content)) ∧
      scanOne ext fs root.raw (Location.raw (root ++ tail)) = .ok note ∧ note.path = tail.key := by
  have shown_ := shown_of_note visible_ noted
  obtain ⟨file, markdown, read⟩ := entryNote_eq_some.mp noted
  rw [isMarkdown_raw root below] at markdown
  exact ⟨by simp [isNote, visible_, markdown], shown_, isFile_iff.mp file, read,
    path_of_scanOne shown_ read⟩

theorem entryNote_printed {tail : Location} (below : tail ≠ []) (visible_ : visible tail = true)
    (node : Node Leaf) (key : Text) :
    (entryNote ext fs root.raw ⟨Location.raw (root ++ tail), isFile node⟩).filter (·.path = key) =
      if isFile node && isNote tail && shownAll tail && decide (tail.key = key) then
        (scanOne ext fs root.raw (Location.raw (root ++ tail))).toOption
      else none := by
  cases noted : entryNote ext fs root.raw ⟨Location.raw (root ++ tail), isFile node⟩ with
  | some note =>
    obtain ⟨isNote_, shown_, ⟨content, rfl⟩, read, path⟩ := source_of_entry below visible_ noted
    by_cases same : tail.key = key
    · simp [isFile, isNote_, shown_, read, path, same, Except.toOption, -Location.raw_append]
    · simp [path, same]
  | none =>
    split
    · rename_i kept
      simp only [Bool.and_eq_true, isNote] at kept
      obtain ⟨⟨⟨file, -, markdown⟩, -⟩, -⟩ := kept
      simp only [entryNote, isMarkdown_raw root below, file, markdown, Bool.and_self, if_true] at noted
      rw [noted, Option.filter_none]
    · rfl

/-- The scan's entry is what the last file printed like it loads as. -/
theorem scanned_eq_printed (reached : resolve fs true root.raw = .ok (real, .dir)) (key : Text) :
    (scanned ext fs root).get key = (printedNotes ext fs root real key).getLast? := by
  have start : entryNote ext fs root.raw ⟨root.raw, false⟩ = none := rfl
  rw [scanned, NoteStore.get_replace, NoteStore.lastAt, ← List.head?_filter, List.filter_reverse,
    List.head?_reverse, scan, scanFrom_notes ext fs root.raw (walkDir_of_dir reached),
    List.filterMap_cons, start, List.filter_filterMap, visibleBelow, List.filterMap_map,
    List.filterMap_filter, printedNotes]
  congr 1
  refine List.filterMap_congr fun entry member => ?_
  obtain ⟨tail, node⟩ := entry
  have below := (FileTree.mem_under.mp member).1
  simp only [Function.comp_apply, Location.push_raw]
  change (if visible tail = true then _ else none) = _
  cases visible_ : visible tail with
  | true =>
    rw [if_pos rfl]
    exact entryNote_printed below visible_ node key
  | false =>
    rw [if_neg Bool.false_ne_true]
    simp [isNote, visible_]

/-- The scan's entry for a note that is printed like no other is what reading it gives. -/
theorem scanned_alone (reached : resolve fs true root.raw = .ok (real, .dir))
    (note : isNote location = true) (shown_ : shownAll location = true)
    (free : ¬ Linked fs real location) (alone : Alone fs real location) :
    (scanned ext fs root).get location.key =
      (scanOne ext fs root.raw (Location.raw (root ++ location))).toOption := by
  have below := nonempty_of_isNote note
  have directory := lookup_of_resolve reached
  have arrives : resolve fs true (Location.raw (root ++ [])) = .ok (real, .dir) := by
    rw [List.append_nil]
    exact reached
  have members : ∀ found, found ∈ (scan ext fs root.raw).notes ↔
      ∃ tail node, tail ≠ [] ∧ visible tail = true ∧ fs.lookup (real ++ tail) = some node ∧
        entryNote ext fs root.raw ⟨Location.raw (root ++ tail), isFile node⟩ = some found := by
    intro found
    have walked : found ∈ (scanFrom ext fs root.raw (Location.raw (root ++ []))).notes ↔ _ :=
      mem_walked arrives
    rwa [List.append_nil] at walked
  -- Whatever the scan holds under the text was read at the location.
  have unique : ∀ found ∈ (scan ext fs root.raw).notes, found.path = location.key →
      scanOne ext fs root.raw (Location.raw (root ++ location)) = .ok found := by
    intro found member path
    obtain ⟨tail, node, nonempty, visible_, listed, noted⟩ := (members found).mp member
    obtain ⟨isNote_, tailShown, ⟨content, rfl⟩, read, same⟩ := source_of_entry nonempty visible_ noted
    obtain rfl := alone tail content isNote_ tailShown listed (same.symm.trans path)
    exact read
  rw [scanned, NoteStore.get_replace]
  cases read : scanOne ext fs root.raw (Location.raw (root ++ location)) with
  | error kind =>
    refine NoteStore.lastAt_eq_none.mpr fun found member path => ?_
    rw [read] at unique
    cases unique found member path
  | ok fresh =>
    have inScan : fresh ∈ (scan ext fs root.raw).notes := by
      refine (members fresh).mpr ?_
      have gatheredHere : fresh ∈ gathered ext fs root location (Location.raw (root ++ location)) :=
        (mem_gathered_of_other (isDir_of_scanOne read)).mpr ⟨note, read⟩
      obtain ⟨tail, node, above, visible_, listed, noted⟩ := (mem_scannedAt reached below).mp
        ((scannedAt_linkFree reached below shown_ free fresh).mpr gatheredHere)
      refine ⟨tail, node, ?_, visible_, listed, noted⟩
      rintro rfl
      exact below (List.prefix_nil.mp above)
    refine NoteStore.lastAt_of_agree inScan (path_of_scanOne shown_ read) fun other member path => ?_
    have same := unique other member path
    rw [read] at same
    cases same
    rfl

/-- Without a link on the way, a directory stands where its path says. -/
theorem lookup_of_isDir (reached : resolve fs true root.raw = .ok (real, .dir))
    (below : location ≠ []) (free : ¬ Linked fs real location)
    (here : isDir fs (Location.raw (root ++ location)) = true) :
    resolve fs true (Location.raw (root ++ location)) = .ok (real ++ location, .dir) := by
  have directory := lookup_of_resolve reached
  have linkFree := linkFree_of_not_linked directory free
  unfold isDir at here
  rw [Location.raw_append] at here ⊢
  cases found : fs.lookup (real ++ location) with
  | none =>
    rcases resolve_append_missing true reached directory found linkFree with
      ⟨_, failed⟩ | ⟨_, failed⟩ <;> simp [failed] at here
  | some node =>
    have arrives := resolve_append true reached directory below found
      (settled_of_free linkFree found)
    rw [arrives] at here ⊢
    cases node with
    | dir => rfl
    | leaf leaf => cases here

/-- A walk of the location itself holds no note under its text. -/
theorem lastAt_walked (reached : resolve fs true root.raw = .ok (real, .dir))
    (note : isNote location = true) (shown_ : shownAll location = true)
    (free : ¬ Linked fs real location) (alone : Alone fs real location)
    (here : isDir fs (Location.raw (root ++ location)) = true) :
    NoteStore.lastAt (scanFrom ext fs root.raw (Location.raw (root ++ location))).notes location.key =
      none := by
  refine NoteStore.lastAt_eq_none.mpr fun found member path => ?_
  obtain ⟨tail, node, nonempty, visible_, listed, noted⟩ :=
    (mem_walked (lookup_of_isDir reached (nonempty_of_isNote note) free here)).mp member
  rw [List.append_assoc] at listed noted
  have both : visible (location ++ tail) = true := visible_append.mpr ⟨visible_of_shown shown_, visible_⟩
  obtain ⟨isNote_, tailShown, ⟨content, rfl⟩, _, same⟩ := source_of_entry (by simp [nonempty]) both noted
  have whole := alone _ content isNote_ tailShown listed (same.symm.trans path)
  exact nonempty (by simpa using whole)

theorem entryLeft_plain (reached : resolve fs true root.raw = .ok (real, .dir))
    (note : isNote location = true) (shown_ : shownAll location = true)
    (free : ¬ Linked fs real location) (alone : Alone fs real location)
    (clean : NoBackslash location) (store : NoteStore) (event : Event) :
    entryLeft ext fs root location store event =
        (scanOne ext fs root.raw (Location.raw (root ++ location))).toOption ↔
      (∃ fresh, scanOne ext fs root.raw (Location.raw (root ++ location)) = .ok fresh) ∨
        scanOne ext fs root.raw (Location.raw (root ++ location)) = .error (.io .notFound) ∨
        store.get location.key = none := by
  have below := nonempty_of_isNote note
  have plain := plain_of_shown clean shown_
  rw [entryLeft, readBack_plain below plain]
  by_cases walked : Walked fs root location event
  · have arrives := lookup_of_isDir reached below free walked.2
    have notPrefix : ¬ NoteStore.dirPrefix location.key <+: location.key := fun above =>
      ((dirPrefix_key plain plain below below).mp above).2 rfl
    have failed : scanOne ext fs root.raw (Location.raw (root ++ location)) =
        .error (.io .isADirectory) := by
      simp only [scanOne, scanOneAudit, readFile, arrives, Except.map]
    rw [if_pos walked, lastAt_walked reached note shown_ free alone walked.2, if_neg notPrefix, failed]
    simp [Except.toOption]
  · rw [if_neg walked]
    cases read : scanOne ext fs root.raw (Location.raw (root ++ location)) with
    | ok fresh => simp [path_of_scanOne shown_ read, Except.toOption]
    | error failure =>
      cases failure with
      | io failed => cases failed <;> simp [Except.toOption]
      | nonUtf8Path | frontmatterParse | nonUtf8Body => simp [Except.toOption]

theorem key_ends_of_note (note : isNote location = true) (shown_ : shownAll location = true) :
    ∃ front, location.key = front ++ ['d'] := by
  obtain ⟨front, ends⟩ := ends_of_isMarkdown ((Bool.and_eq_true _ _).mp note).2
  obtain ⟨text, printed⟩ := toStr_isSome fun name member => (shown_name shown_ member).1
  have bytes := Bytes.fromUtf8_eq_some.mp printed
  obtain ⟨initial, rfl, -⟩ := Text.exists_concat_of_utf8 (by decide) (bytes.symm.trans ends)
  exact ⟨forwardSlashes initial, by simp [Location.key, printed, forwardSlashes]⟩

/-- A note is not below its own text as a directory. -/
theorem not_below_itself (note : isNote location = true) (shown_ : shownAll location = true) :
    ¬ NoteStore.dirPrefix location.key <+: location.key := by
  obtain ⟨front, ends⟩ := key_ends_of_note note shown_
  intro above
  have longer := above.length_le
  simp [NoteStore.dirPrefix, ends] at longer

section Left

variable {event : Event} (store : NoteStore)

theorem entryLeft_brings {fresh : Note} (brings : Brings ext fs root location event fresh) :
    entryLeft ext fs root location store event = some fresh := by
  by_cases walked : Walked fs root location event
  · rw [Brings, if_pos walked] at brings
    rw [entryLeft, if_pos walked, brings, Option.some_or]
  · rw [Brings, if_neg walked] at brings
    simp only [entryLeft, walked, brings.1, brings.2, if_true, if_false]

theorem entryLeft_vanishes (vanishes : Vanishes ext fs root location event) :
    entryLeft ext fs root location store event = none := by
  rw [entryLeft, if_neg vanishes.1, vanishes.2]

theorem entryLeft_skips (note : isNote location = true) (shown_ : shownAll location = true)
    (skips : Skips ext fs root location event) :
    entryLeft ext fs root location store event = store.get location.key := by
  obtain ⟨unbrought, present⟩ := skips
  by_cases walked : Walked fs root location event
  · simp only [Brings, walked, if_true] at unbrought
    rw [entryLeft, if_pos walked, Option.eq_none_iff_forall_ne_some.mpr unbrought, Option.none_or,
      if_neg (not_below_itself note shown_)]
  · simp only [Brings, walked, if_false, not_and] at unbrought
    simp only [Vanishes, walked, not_false_eq_true, true_and] at present
    rw [entryLeft, if_neg walked]
    cases read : scanOne ext fs root.raw (readBack root location) with
    | ok fresh => exact if_neg (unbrought fresh read)
    | error failure =>
      rw [read] at present
      cases failure with
      | io failed => cases failed <;> first | rfl | exact absurd rfl present
      | nonUtf8Path | frontmatterParse | nonUtf8Body => rfl

theorem readsRight_iff (note : isNote location = true) (shown_ : shownAll location = true) :
    entryLeft ext fs root location store event =
        (printedNotes ext fs root real location.key).getLast? ↔
      ReadsRight ext fs root real location store event := by
  constructor
  · intro same
    constructor
    · intro fresh brings
      rw [← same, entryLeft_brings store brings]
    · intro vanishes
      rw [← List.getLast?_eq_none_iff, ← same, entryLeft_vanishes store vanishes]
    · intro entry skips held
      rw [← same, entryLeft_skips store note shown_ skips, held]
    · intro skips unheld
      rw [← List.getLast?_eq_none_iff, ← same, entryLeft_skips store note shown_ skips, unheld]
  · rintro ⟨loads, notFound, held, unheld⟩
    by_cases brings : ∃ fresh, Brings ext fs root location event fresh
    · obtain ⟨fresh, brings⟩ := brings
      rw [entryLeft_brings store brings, loads fresh brings]
    · by_cases vanishes : Vanishes ext fs root location event
      · rw [entryLeft_vanishes store vanishes, notFound vanishes, List.getLast?_nil]
      · have skips : Skips ext fs root location event := ⟨not_exists.mp brings, vanishes⟩
        rw [entryLeft_skips store note shown_ skips]
        cases entry : store.get location.key with
        | none => rw [unheld skips entry, List.getLast?_nil]
        | some kept => rw [held kept skips entry]

end Left

variable (ext)

/-- After an event for a note its entry is that of a full scan, unless the file is
there and fails to load while an entry is held. A name with a backslash, or a second
file printed like this one, is read under the path of the text; that has to leave what
the last of the files with this text loads as. -/
theorem entry_eq_scanned_iff (reached : resolve fs true root.raw = .ok (real, .dir))
    (note : isNote location = true) (shown_ : shownAll location = true)
    (free : ¬ Linked fs real location) {event : Event}
    (kind : classify event.kind = some .appear ∨ classify event.kind = some .modify)
    (named : event.paths = [Location.raw (root ++ location)]) (kept : event.rescan = false)
    (store : NoteStore) :
    (applyIndexBatch store (batchOfEvent ext fs root event)).get location.key =
        (scanned ext fs root).get location.key ↔
      (NoBackslash location ∧ Alone fs real location →
        (∃ fresh, scanOne ext fs root.raw (Location.raw (root ++ location)) = .ok fresh) ∨
          scanOne ext fs root.raw (Location.raw (root ++ location)) = .error (.io .notFound) ∨
          store.get location.key = none) ∧
      (¬ (NoBackslash location ∧ Alone fs real location) →
        ReadsRight ext fs root real location store event) := by
  rw [entry_after_event note shown_ kind named kept]
  by_cases own : NoBackslash location ∧ Alone fs real location
  · rw [scanned_alone reached note shown_ free own.2]
    simp only [own, true_implies, not_true_eq_false, false_implies, and_true]
    exact entryLeft_plain reached note shown_ free own.2 own.1 store event
  · rw [scanned_eq_printed reached, readsRight_iff store note shown_]
    simp only [own, false_implies, not_false_eq_true, true_implies, true_and]

/-- The note of `oneNote` overwritten with bytes that are no text. -/
def brokenNote : Fs where
  entries := [([vaultName], .dir), ([vaultName, folderName], .dir),
    ([vaultName, folderName, noteName], .leaf (.file ⟨[0xFF], ⟨1, 0⟩, true⟩))]
  unique := by decide
  rooted := by decide

def written (location : Location) : Event := ⟨.modify .data, [location.raw], false⟩

theorem alone_oneNote : Alone oneNote [vaultName] [folderName, noteName] := by
  intro other content note shown_ listed _
  have member := (FileTree.lookup_eq_some (by simp)).mp listed
  simp [oneNote] at member
  exact member.1

theorem entry_eq_scanned_iff_oneNote :
    (applyIndexBatch .new (batchOfEvent .bare oneNote [vaultName]
          (written [vaultName, folderName, noteName]))).get (Location.key [folderName, noteName]) =
      (scanned .bare oneNote [vaultName]).get (Location.key [folderName, noteName]) := by
  have free : ¬ Linked oneNote [vaultName] [folderName, noteName] :=
    fun ⟨outer, target, _, link⟩ => oneNote_tame.linkless outer target link
  have own : NoBackslash [folderName, noteName] ∧ Alone oneNote [vaultName] [folderName, noteName] :=
    ⟨by decide, alone_oneNote⟩
  exact (entry_eq_scanned_iff .bare (resolve_found (by decide) (.inr fun _ same => by cases same))
    (by decide +kernel) (by decide +kernel) free (.inr rfl) rfl rfl .new).mpr
    ⟨fun _ => .inr (.inr (by simp)), fun other => absurd own other⟩

/-- The old note stays in the store, where a rescan of the vault holds none. -/
theorem broken_note_stays :
    ((applyIndexBatch (scanned .bare oneNote [vaultName]) (batchOfEvent .bare brokenNote [vaultName]
        (written [vaultName, folderName, noteName]))).get "D/x.md".toList).isSome = true ∧
      ((scanned .bare brokenNote [vaultName]).get "D/x.md".toList).isSome = false := by
  decide +kernel

end Rereading

end Anwesen.Watcher

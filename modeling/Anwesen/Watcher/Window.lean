import Anwesen.Vault.Tame
import Anwesen.Watcher.Batch

/-! One debouncer window over a tame vault obeys the laws of a mirror window.

A report is one backend event about locations below the root. Its notices say
what the event names; `noticeActions` is what the watcher makes of each of them.
-/

set_option autoImplicit false

namespace Anwesen.Watcher

open Foundation Vault

/-- What a backend reports, by location relative to the root. -/
inductive Report where
  | create (at_ : Location)
  | modify (at_ : Location)
  | remove (at_ : Location)
  | renameFrom (at_ : Location)
  | renameTo (at_ : Location)
  | renameBoth (source target : Location)
  | renameAny (at_ : Location)

namespace Report

def event (root : Location) : Report → Event
  | .create at_ => ⟨.create, [Location.raw (root ++ at_)], false⟩
  | .modify at_ => ⟨.modify .data, [Location.raw (root ++ at_)], false⟩
  | .remove at_ => ⟨.remove, [Location.raw (root ++ at_)], false⟩
  | .renameFrom at_ => ⟨.modify (.name .from), [Location.raw (root ++ at_)], false⟩
  | .renameTo at_ => ⟨.modify (.name .to), [Location.raw (root ++ at_)], false⟩
  | .renameBoth source target =>
      ⟨.modify (.name .both), [Location.raw (root ++ source), Location.raw (root ++ target)], false⟩
  | .renameAny at_ => ⟨.modify (.name .any), [Location.raw (root ++ at_)], false⟩

def notices : Report → List (Notice FileName)
  | .create at_ | .renameTo at_ => [.appeared at_]
  | .modify at_ => [.changed at_]
  | .remove at_ | .renameFrom at_ => [.vanished at_]
  | .renameBoth source target => [.vanished source, .appeared target]
  | .renameAny at_ => [.renamed at_]

/-- The report names plain locations strictly below the root. -/
def Plain (report : Report) : Prop :=
  ∀ notice ∈ report.notices, notice.path ≠ [] ∧ Location.Plain notice.path

end Report

/-! Relative paths. -/

theorem shown_plain {name : FileName} (plain : name.Plain) :
    shown name.bytes = !isDotPrefixed name.bytes := by
  obtain ⟨text, bytes, _⟩ := plain
  rw [bytes, shown, isDotPrefixed, Bytes.fromUtf8_utf8]
  cases text with
  | nil => rfl
  | cons char rest =>
    by_cases dot : char = '.'
    · subst dot
      rfl
    · have apart : shown (Text.utf8 (char :: rest)) = true := by
        rw [shown, Bytes.fromUtf8_utf8]
        split <;> simp_all
      rw [shown, Bytes.fromUtf8_utf8] at apart
      simp only [apart]
      simp [dot]

theorem relative_raw (root : Location) {at_ : Location} (plain : at_.Plain) :
    relative root.raw (Location.raw (root ++ at_)) = if visible at_ then some at_.key else none := by
  have clear : (Location.raw at_).all shown = visible at_ := by
    rw [visible, Location.raw, List.all_map, Bool.eq_iff_iff, List.all_eq_true, List.all_eq_true]
    exact forall₂_congr fun name member => by rw [Function.comp_apply, shown_plain (plain name member)]
  simp only [relative, Location.components_raw, Location.stripPrefix_append, clear, toStr_raw plain]

theorem noteRelative_raw (root : Location) {at_ : Location} (below : at_ ≠ []) (plain : at_.Plain) :
    noteRelative root.raw (Location.raw (root ++ at_)) = if isNote at_ then some at_.key else none := by
  rw [noteRelative, isMarkdown_raw root below, relative_raw root plain, isNote]
  cases isMarkdown at_.raw <;> simp

theorem treeRelative_raw (root : Location) {at_ : Location} (below : at_ ≠ []) (plain : at_.Plain) :
    treeRelative root.raw (Location.raw (root ++ at_)) = if visible at_ then some at_.key else none := by
  have nonempty : at_.key ≠ [] := fun empty => below ((Location.key_eq_nil_iff plain).mp empty)
  simp only [treeRelative, relative_raw root plain]
  cases visible at_ <;> simp [nonempty]

/-! The actions of a notice. -/

section Actions

variable (fs : Fs) (root : Location)

def appearActions (at_ : Location) : List WatchAction :=
  if fs.hasDir (root ++ at_) then if visible at_ then [.upsertTree at_.key] else []
  else if isNote at_ then [.upsert at_.key] else []

def vanishActions (at_ : Location) : List WatchAction :=
  (if isNote at_ then [.delete at_.key] else []) ++ if visible at_ then [.deleteTree at_.key] else []

def noticeActions : Notice FileName → List WatchAction
  | .changed at_ => if isNote at_ then [.upsert (Location.key at_)] else []
  | .appeared at_ => appearActions fs root at_
  | .vanished at_ => vanishActions at_
  | .renamed at_ =>
      if (fs.lookup (root ++ at_)).isSome then appearActions fs root at_ else vanishActions at_

variable {fs root} {ext : External} {at_ : Location}

theorem appear_raw (tame : Tame ext fs root) (below : at_ ≠ []) (plain : at_.Plain) :
    (appear fs root.raw (Location.raw (root ++ at_))).toList = appearActions fs root at_ := by
  have dir : isDir fs (Location.raw (root ++ at_)) = fs.hasDir (root ++ at_) := by
    rw [Bool.eq_iff_iff, isDir_raw (tame.linkFree at_), FileTree.hasDir_iff]
  rw [appear, appearActions, dir, treeRelative_raw root below plain, noteRelative_raw root below plain]
  cases fs.hasDir (root ++ at_) <;> cases visible at_ <;> cases isNote at_ <;> rfl

theorem vanish_raw (below : at_ ≠ []) (plain : at_.Plain) :
    vanish root.raw (Location.raw (root ++ at_)) = vanishActions at_ := by
  rw [vanish, vanishActions, treeRelative_raw root below plain, noteRelative_raw root below plain]
  cases visible at_ <;> cases isNote at_ <;> rfl

theorem mapEvent_report (tame : Tame ext fs root) {report : Report} (plain : report.Plain) :
    mapEvent fs root.raw (report.event root) = report.notices.flatMap (noticeActions fs root) := by
  cases report with
  | create at_ | renameTo at_ =>
    obtain ⟨below, clean⟩ := plain (.appeared at_) List.mem_cons_self
    have actions := appear_raw tame below clean
    simp only [Notice.path] at actions
    simp only [mapEvent, isOverflow, Report.event, classify, Report.notices, List.flatMap_cons,
      List.flatMap_nil, noticeActions, ← actions, List.filterMap_cons, List.filterMap_nil]
    cases appear fs root.raw (Location.raw (root ++ at_)) <;> rfl
  | modify at_ =>
    obtain ⟨below, clean⟩ := plain (.changed at_) List.mem_cons_self
    have rel := noteRelative_raw root below clean
    simp only [Notice.path] at rel
    simp only [mapEvent, isOverflow, Report.event, classify, Report.notices, List.flatMap_cons,
      List.flatMap_nil, noticeActions, List.filterMap_cons, List.filterMap_nil, rel]
    by_cases note : isNote at_ = true <;> simp [note]
  | remove at_ | renameFrom at_ =>
    obtain ⟨below, clean⟩ := plain (.vanished at_) List.mem_cons_self
    have actions : vanish root.raw (Location.raw (root ++ at_)) = vanishActions at_ :=
      vanish_raw below clean
    simp only [mapEvent, isOverflow, Report.event, classify, Report.notices, List.flatMap_cons,
      List.flatMap_nil, noticeActions, actions]
    rfl
  | renameBoth source target =>
    obtain ⟨sourceBelow, sourceClean⟩ := plain (.vanished source) List.mem_cons_self
    obtain ⟨targetBelow, targetClean⟩ := plain (.appeared target)
      (List.mem_cons_of_mem _ List.mem_cons_self)
    have gone : vanish root.raw (Location.raw (root ++ source)) = vanishActions source :=
      vanish_raw sourceBelow sourceClean
    have here := appear_raw tame targetBelow targetClean
    simp only [Notice.path] at here
    simp only [mapEvent, isOverflow, Report.event, classify, Report.notices, List.flatMap_cons,
      List.flatMap_nil, noticeActions, ← gone, ← here, List.append_nil]
    rfl
  | renameAny at_ =>
    obtain ⟨below, clean⟩ := plain (.renamed at_) List.mem_cons_self
    have gone : vanish root.raw (Location.raw (root ++ at_)) = vanishActions at_ :=
      vanish_raw below clean
    have here := appear_raw tame below clean
    simp only [Notice.path] at here
    simp only [mapEvent, isOverflow, Report.event, classify, Report.notices, List.flatMap_cons,
      List.flatMap_nil, noticeActions, ← gone, ← here, exists_raw (tame.linkFree at_)]
    rfl

/-- Where an action of a notice comes from. -/
theorem mem_noticeActions {notice : Notice FileName} {action : WatchAction}
    (member : action ∈ noticeActions fs root notice) :
    (action = .upsert (Location.key notice.path) ∧ isNote notice.path = true ∧
        notice.Reads (view fs root) notice.path) ∨
      (action = .delete (Location.key notice.path) ∧ isNote notice.path = true) ∨
      (action = .upsertTree (Location.key notice.path) ∧ visible notice.path = true ∧
        fs.lookup (root ++ notice.path) = some .dir) ∨
      (action = .deleteTree (Location.key notice.path) ∧ visible notice.path = true) := by
  have appears : ∀ at_, action ∈ appearActions fs root at_ →
      (action = .upsert at_.key ∧ isNote at_ = true ∧ fs.lookup (root ++ at_) ≠ some .dir) ∨
        (action = .upsertTree at_.key ∧ visible at_ = true ∧ fs.lookup (root ++ at_) = some .dir) := by
    intro at_ member
    unfold appearActions at member
    split at member
    · rename_i directory
      split at member <;> simp_all [FileTree.hasDir_iff]
    · rename_i other
      split at member <;> simp_all [FileTree.hasDir_iff]
  have vanishes : ∀ at_, action ∈ vanishActions at_ →
      (action = .delete at_.key ∧ isNote at_ = true) ∨
        (action = .deleteTree at_.key ∧ visible at_ = true) := by
    intro at_ member
    unfold vanishActions at member
    rcases List.mem_append.mp member with member | member <;> split at member <;> simp_all
  cases notice with
  | changed at_ =>
    simp only [noticeActions] at member
    split at member
    · rename_i note
      exact .inl ⟨List.mem_singleton.mp member, note, rfl⟩
    · cases member
  | appeared at_ =>
    rcases appears at_ member with ⟨same, note, other⟩ | ⟨same, shown, directory⟩
    · exact .inl ⟨same, note, rfl, other⟩
    · exact .inr (.inr (.inl ⟨same, shown, directory⟩))
  | vanished at_ =>
    rcases vanishes at_ member with gone | gone
    · exact .inr (.inl gone)
    · exact .inr (.inr (.inr gone))
  | renamed at_ =>
    simp only [noticeActions] at member
    split at member
    · rename_i present
      rcases appears at_ member with ⟨same, note, other⟩ | ⟨same, shown, directory⟩
      · exact .inl ⟨same, note, rfl, present, other⟩
      · exact .inr (.inr (.inl ⟨same, shown, directory⟩))
    · rcases vanishes at_ member with gone | gone
      · exact .inr (.inl gone)
      · exact .inr (.inr (.inr gone))

end Actions

/-! The batch of a list of notices. -/

theorem mem_of_lastOf {subject : WatchAction → Option Last} {actions : List WatchAction} {last : Last}
    (found : lastOf subject actions = some last) : ∃ action ∈ actions, subject action = some last := by
  obtain ⟨action, member, acts⟩ := List.mem_filterMap.mp (List.mem_of_getLast? found)
  exact ⟨action, member, acts⟩

/-- The path of a notice is one the watcher can name. -/
def Named (notices : List (Notice FileName)) : Prop :=
  ∀ notice ∈ notices, notice.path ≠ [] ∧ Location.Plain notice.path

section Batch

variable (ext : External) (fs : Fs) (root : Location) (notices : List (Notice FileName))

def actionsOf : List WatchAction := notices.flatMap (noticeActions fs root)

def batchOf : IndexBatch := buildIndexBatch ext fs root.raw (coalesce (actionsOf fs root notices))

variable {ext fs root notices}

theorem mem_actionsOf {action : WatchAction} : action ∈ actionsOf fs root notices ↔
    ∃ notice ∈ notices, action ∈ noticeActions fs root notice := List.mem_flatMap

/-- An action on a note comes from a notice at it. -/
theorem source_of_noteAction {rel : Text} {last : Last}
    (latest : lastOf (noteAction rel) (actionsOf fs root notices) = some last) :
    ∃ notice ∈ notices, rel = Location.key notice.path ∧ isNote notice.path = true := by
  obtain ⟨action, listed, acts⟩ := mem_of_lastOf latest
  obtain ⟨notice, named, listed⟩ := mem_actionsOf.mp listed
  rcases mem_noticeActions listed with
    ⟨rfl, note, _⟩ | ⟨rfl, note⟩ | ⟨rfl, _, _⟩ | ⟨rfl, _⟩ <;> simp [noteAction] at acts
  · exact ⟨notice, named, acts.1.symm, note⟩
  · exact ⟨notice, named, acts.1.symm, note⟩

theorem source_of_upsert {rel : Text} (member : rel ∈ (coalesce (actionsOf fs root notices)).upserts) :
    ∃ notice ∈ notices, rel = Location.key notice.path ∧ isNote notice.path = true :=
  source_of_noteAction (mem_upserts.mp member)

theorem source_of_delete {rel : Text} (member : rel ∈ (coalesce (actionsOf fs root notices)).deletes) :
    ∃ notice ∈ notices, rel = Location.key notice.path ∧ isNote notice.path = true :=
  source_of_noteAction (mem_deletes.mp member)

theorem source_of_upsertTree {dir : Text}
    (member : dir ∈ (coalesce (actionsOf fs root notices)).upsertTrees) :
    ∃ notice ∈ notices, dir = Location.key notice.path ∧ visible notice.path = true ∧
      fs.lookup (root ++ notice.path) = some .dir := by
  obtain ⟨action, listed, acts⟩ := mem_of_lastOf (mem_upsertTrees.mp member)
  obtain ⟨notice, named, listed⟩ := mem_actionsOf.mp listed
  rcases mem_noticeActions listed with
    ⟨rfl, _, _⟩ | ⟨rfl, _⟩ | ⟨rfl, shown, directory⟩ | ⟨rfl, _⟩ <;> simp [treeAction] at acts
  exact ⟨notice, named, acts.symm, shown, directory⟩

theorem source_of_deleteTree {dir : Text}
    (member : dir ∈ (coalesce (actionsOf fs root notices)).deleteTrees) :
    ∃ notice ∈ notices, dir = Location.key notice.path ∧ visible notice.path = true := by
  obtain ⟨action, listed, acts⟩ := mem_of_lastOf (mem_deleteTrees.mp member)
  obtain ⟨notice, named, listed⟩ := mem_actionsOf.mp listed
  rcases mem_noticeActions listed with
    ⟨rfl, _, _⟩ | ⟨rfl, _⟩ | ⟨rfl, _, _⟩ | ⟨rfl, shown⟩ <;> simp [treeAction] at acts
  exact ⟨notice, named, acts.symm, shown⟩

theorem reread_key {at_ : Location} (below : at_ ≠ []) (plain : at_.Plain) :
    reread ext fs root.raw at_.key = scanOne ext fs root.raw (Location.raw (root ++ at_)) := by
  rw [reread, absolutePath, Location.join_key plain below]

/-- Rereading a note is taking its current value, when there is one. -/
theorem reread_tame (tame : Tame ext fs root) {at_ : Location} (eligible : Eligible at_) :
    (reread ext fs root.raw at_.key).toOption = current (load ext) (view fs root) at_ := by
  rw [reread_key (nonempty_of_isNote eligible.1) eligible.2]
  cases found : fs.lookup (root ++ at_) with
  | none =>
    obtain ⟨kind, failed⟩ := resolve_error true found (tame.linkFree at_)
    simp only [scanOne, scanOneAudit, readFile, failed, current, view, found]
    rfl
  | some node =>
    cases node with
    | dir =>
      have settled : Settled true (Node.dir : Node Leaf) := .inr fun _ same => by cases same
      simp only [scanOne, scanOneAudit, readFile, resolve_found found settled, current, view, found]
      rfl
    | leaf leaf =>
      cases leaf with
      | symlink target => exact absurd found (tame.linkless at_ target)
      | file content =>
        have readable := (tame.loads at_ content eligible.1 found).1
        rw [scanOne_tame eligible.2 found readable]
        simp only [current, view, found]

/-- Every note a batch inserts is a current one, at or below a path a notice names. -/
theorem source_of_note (tame : Tame ext fs root) (named : Named notices) {note : Note}
    (member : note ∈ (batchOf ext fs root notices).upserts) :
    ∃ notice ∈ notices, ∃ location, notice.Touches location ∧ Eligible location ∧
      current (load ext) (view fs root) location = some note := by
  rcases List.mem_append.mp member with member | member
  · obtain ⟨rel, listed, read⟩ := List.mem_filterMap.mp member
    obtain ⟨notice, known, rfl, note_⟩ := source_of_upsert listed
    have eligible : Eligible notice.path := ⟨note_, (named notice known).2⟩
    rw [reread_tame tame eligible] at read
    exact ⟨notice, known, notice.path, List.prefix_refl _, eligible, read⟩
  · obtain ⟨dir, listed, walked⟩ := List.mem_flatMap.mp member
    obtain ⟨notice, known, rfl, shown, directory⟩ := source_of_upsertTree listed
    rw [absolutePath, Location.join_key (named notice known).2 (named notice known).1,
      mem_scanFrom_notes tame directory shown] at walked
    obtain ⟨location, above, _, eligible, noted⟩ := walked
    exact ⟨notice, known, location, above, eligible, noted⟩

theorem source_of_key {path : Text} (member : path ∈ (batchOf ext fs root notices).deletes) :
    ∃ notice ∈ notices, path = Location.key notice.path ∧ isNote notice.path = true := by
  rcases List.mem_append.mp member with member | member
  · exact source_of_delete member
  · exact source_of_upsert (List.mem_of_mem_filter member)

theorem source_of_dropped {dir : Text} (member : dir ∈ (batchOf ext fs root notices).deletePrefixes) :
    ∃ notice ∈ notices, dir = Location.key notice.path ∧ visible notice.path = true := by
  rcases List.mem_append.mp member with member | member
  · exact source_of_deleteTree member
  · obtain ⟨notice, known, same, shown, _⟩ := source_of_upsertTree member
    exact ⟨notice, known, same, shown⟩

/-- Under a directory's prefix lie the keys of what is strictly below it. -/
theorem dirPrefix_key {outer inner : Location} (left : outer.Plain) (right : inner.Plain)
    (outerBelow : outer ≠ []) (innerBelow : inner ≠ []) :
    NoteStore.dirPrefix outer.key <+: inner.key ↔ outer <+: inner ∧ outer ≠ inner := by
  obtain ⟨texts, names⟩ := left.texts
  obtain ⟨_, start, last, same, notSlash⟩ := names.key_ends outerBelow
  have trimmed : NoteStore.dirPrefix outer.key = outer.key ++ ['/'] := by
    simp [NoteStore.dirPrefix, same, notSlash]
  rw [trimmed, Location.key_prefix_iff left right outerBelow innerBelow]

/-- The note a batch leaves under a key it inserts at is the current one. -/
theorem lastAt_current (tame : Tame ext fs root) (named : Named notices) {location : Location}
    (eligible : Eligible location) {note : Note}
    (found : NoteStore.lastAt (batchOf ext fs root notices).upserts location.key = some note) :
    current (load ext) (view fs root) location = some note ∧
      ∃ notice ∈ notices, notice.Touches location := by
  obtain ⟨member, path⟩ := NoteStore.lastAt_mem found
  obtain ⟨notice, known, other, touches, otherEligible, noted⟩ := source_of_note tame named member
  have same : other = location := Location.key_injective otherEligible.2 eligible.2
    ((key_of_current noted).symm.trans path)
  subst same
  exact ⟨noted, notice, known, touches⟩

/-! The four laws. -/

/-- What a store holds at a location. -/
def held (store : NoteStore) (location : Location) : Option Note := store.get location.key

variable {store : NoteStore} {location : Location}

theorem get_batch_kept (tame : Tame ext fs root) (named : Named notices) (eligible : Eligible location)
    {note : Note}
    (found : held (applyIndexBatch store (batchOf ext fs root notices)) location = some note) :
    current (load ext) (view fs root) location = some note ∨ held store location = some note := by
  rw [held, get_applyIndexBatch] at found
  cases inserted : NoteStore.lastAt (batchOf ext fs root notices).upserts location.key with
  | some other =>
    rw [inserted, Option.some_or] at found
    exact .inl (found ▸ (lastAt_current tame named eligible inserted).1)
  | none =>
    rw [inserted, Option.none_or] at found
    split at found
    · cases found
    · exact .inr found

theorem get_batch_untouched (tame : Tame ext fs root) (named : Named notices)
    (eligible : Eligible location) (untouched : ∀ notice ∈ notices, ¬ notice.Touches location) :
    held (applyIndexBatch store (batchOf ext fs root notices)) location = held store location := by
  rw [held, get_applyIndexBatch]
  have noInsert : NoteStore.lastAt (batchOf ext fs root notices).upserts location.key = none := by
    cases inserted : NoteStore.lastAt (batchOf ext fs root notices).upserts location.key with
    | none => rfl
    | some note =>
      obtain ⟨_, notice, known, touches⟩ := lastAt_current tame named eligible inserted
      exact absurd touches (untouched notice known)
  have noDelete : ¬ (location.key ∈ (batchOf ext fs root notices).deletes ∨
      ∃ dir ∈ (batchOf ext fs root notices).deletePrefixes,
        NoteStore.dirPrefix dir <+: location.key) := by
    rintro (member | ⟨dir, member, above⟩)
    · obtain ⟨notice, known, same, _⟩ := source_of_key member
      have path := Location.key_injective eligible.2 (named notice known).2 same
      exact untouched notice known (path ▸ List.prefix_refl _)
    · obtain ⟨notice, known, rfl, _⟩ := source_of_dropped member
      obtain ⟨below, plain⟩ := named notice known
      exact untouched notice known ((dirPrefix_key plain eligible.2 below
        (nonempty_of_isNote eligible.1)).mp above).1
  rw [noInsert, if_neg noDelete, Option.none_or, held]

/-- A batch that names a current note leaves it in the store. -/
theorem get_batch_inserted (tame : Tame ext fs root) (named : Named notices)
    (eligible : Eligible location) {note : Note}
    (noted : current (load ext) (view fs root) location = some note)
    (member : note ∈ (batchOf ext fs root notices).upserts) :
    held (applyIndexBatch store (batchOf ext fs root notices)) location = some note := by
  have inserted : NoteStore.lastAt (batchOf ext fs root notices).upserts location.key = some note := by
    refine NoteStore.lastAt_of_agree member (key_of_current noted) fun other listed same => ?_
    obtain ⟨_, _, place, _, otherEligible, otherNoted⟩ := source_of_note tame named listed
    have path := Location.key_injective otherEligible.2 eligible.2
      ((key_of_current otherNoted).symm.trans same)
    rw [path, noted] at otherNoted
    exact (Option.some.inj otherNoted).symm
  rw [held, get_applyIndexBatch, inserted, Option.some_or]

theorem lastOf_around (subject : WatchAction → Option Last) (before after : List (Notice FileName))
    (notice : Notice FileName) :
    lastOf subject (actionsOf fs root (before ++ notice :: after)) =
      (lastOf subject (actionsOf fs root after)).or
        ((lastOf subject (noticeActions fs root notice)).or
          (lastOf subject (actionsOf fs root before))) := by
  have split : actionsOf fs root (before ++ notice :: after) =
      actionsOf fs root before ++ (noticeActions fs root notice ++ actionsOf fs root after) := by
    simp [actionsOf]
  rw [split, lastOf_append, lastOf_append, Option.or_assoc]

theorem lastOf_after {subject : WatchAction → Option Last} {before after : List (Notice FileName)}
    {notice : Notice FileName}
    (silent : ∀ later ∈ after, ∀ action ∈ noticeActions fs root later, subject action = none) :
    lastOf subject (actionsOf fs root (before ++ notice :: after)) =
      (lastOf subject (noticeActions fs root notice)).or (lastOf subject (actionsOf fs root before)) := by
  have none_ : lastOf subject (actionsOf fs root after) = none := by
    refine lastOf_eq_none.mpr fun action member => ?_
    obtain ⟨later, listed, acts⟩ := mem_actionsOf.mp member
    exact silent later listed action acts
  rw [lastOf_around, none_, Option.none_or]

theorem note_silent {later : Notice FileName} (below : later.path ≠ [] ∧ Location.Plain later.path)
    (plain : location.Plain) (apart : later.path ≠ location) :
    ∀ action ∈ noticeActions fs root later, noteAction location.key action = none := by
  intro action member
  have different : Location.key later.path ≠ location.key :=
    fun same => apart (Location.key_injective below.2 plain same)
  rcases mem_noticeActions member with
    ⟨rfl, _⟩ | ⟨rfl, _⟩ | ⟨rfl, _⟩ | ⟨rfl, _⟩ <;> simp [noteAction, different]

theorem tree_silent {later : Notice FileName} (below : later.path ≠ [] ∧ Location.Plain later.path)
    (plain : location.Plain) (apart : later.path ≠ location) :
    ∀ action ∈ noticeActions fs root later, treeAction location.key action = none := by
  intro action member
  have different : Location.key later.path ≠ location.key :=
    fun same => apart (Location.key_injective below.2 plain same)
  rcases mem_noticeActions member with
    ⟨rfl, _⟩ | ⟨rfl, _⟩ | ⟨rfl, _⟩ | ⟨rfl, _⟩ <;> simp [treeAction, different]

/-- An announcing notice makes the watcher read the note, or walk a directory above it. -/
theorem noticeActions_announcing (eligible : Eligible location) {notice : Notice FileName}
    (announces : notice.Announces location) {content : Leaf}
    (leaf : (view fs root).lookup location = some (.leaf content)) :
    (notice.path = location ∧ noticeActions fs root notice = [.upsert location.key]) ∨
      (notice.path ≠ location ∧ fs.lookup (root ++ notice.path) = some .dir ∧
        noticeActions fs root notice = [.upsertTree (Location.key notice.path)]) := by
  have appears : ∀ path, path <+: location →
      (path = location ∧ appearActions fs root path = [.upsert location.key]) ∨
        (path ≠ location ∧ fs.lookup (root ++ path) = some .dir ∧
          appearActions fs root path = [.upsertTree (Location.key path)]) := by
    intro path above
    by_cases here : path = location
    · subst here
      have other : fs.hasDir (root ++ path) = false := by
        rw [Bool.eq_false_iff, ne_eq, FileTree.hasDir_iff, show fs.lookup (root ++ path) = _ from leaf]
        simp
      exact .inl ⟨rfl, by simp [appearActions, other, eligible.1]⟩
    · have directory : fs.lookup (root ++ path) = some .dir := (view fs root).ancestor leaf above here
      have shown := visible_of_above eligible.visible above
      exact .inr ⟨here, directory, by simp [appearActions, FileTree.hasDir_iff.mpr directory, shown]⟩
  cases notice with
  | changed path =>
    obtain rfl : path = location := announces
    exact .inl ⟨rfl, by simp [noticeActions, eligible.1]⟩
  | appeared path => exact appears path announces
  | vanished path => cases announces
  | renamed path =>
    have present : (fs.lookup (root ++ path)).isSome = true := by
      by_cases here : path = location
      · rw [here, show fs.lookup (root ++ location) = _ from leaf]
        rfl
      · have directory : fs.lookup (root ++ path) = some .dir :=
          (view fs root).ancestor leaf announces here
        rw [directory]
        rfl
    rw [noticeActions, if_pos present]
    exact appears path announces

theorem get_batch_announced (tame : Tame ext fs root) (named : Named notices)
    (eligible : Eligible location) {note : Note} {before after : List (Notice FileName)}
    {notice : Notice FileName} (split : notices = before ++ notice :: after)
    (announces : notice.Announces location) (quiet : ∀ later ∈ after, ¬ later.Touches location)
    (noted : current (load ext) (view fs root) location = some note) :
    held (applyIndexBatch store (batchOf ext fs root notices)) location = some note := by
  refine get_batch_inserted tame named eligible noted ?_
  obtain ⟨content, leaf⟩ := leaf_of_current noted
  obtain ⟨below, plain⟩ := named notice (by simp [split])
  have namedAfter : ∀ later ∈ after, later.path ≠ [] ∧ Location.Plain later.path :=
    fun later member => named later (by simp [split, member])
  rcases noticeActions_announcing eligible announces leaf with ⟨_, acts⟩ | ⟨apart, directory, acts⟩
  · -- no later action has the note's key, so its upsert is the last one and it is read
    have last : lastOf (noteAction location.key) (actionsOf fs root notices) = some .upsert := by
      rw [split, lastOf_after fun later member => note_silent (namedAfter later member) eligible.2
        fun same => quiet later member (same ▸ List.prefix_refl _), acts]
      simp [lastOf, noteAction]
    refine List.mem_append_left _ (List.mem_filterMap.mpr ⟨location.key, mem_upserts.mpr last, ?_⟩)
    rw [reread_tame tame eligible, noted]
  · -- the walk of a directory above brings the note in
    have touches : notice.path <+: location := by
      cases notice with
      | changed path => exact absurd announces apart
      | vanished path => cases announces
      | appeared path => exact announces
      | renamed path => exact announces
    have last : lastOf (treeAction (Location.key notice.path)) (actionsOf fs root notices) =
        some .upsert := by
      rw [split, lastOf_after fun later member => tree_silent (namedAfter later member) plain
        fun same => quiet later member (show later.path <+: location from same ▸ touches), acts]
      simp [lastOf, treeAction]
    refine List.mem_append_right _ (List.mem_flatMap.mpr
      ⟨Location.key notice.path, mem_upsertTrees.mpr last, ?_⟩)
    rw [absolutePath, Location.join_key plain below, mem_scanFrom_notes tame directory
      (visible_of_above eligible.visible touches)]
    exact ⟨location, touches, apart, eligible, noted⟩

/-- A dropping notice deletes the note, or the prefix of a directory above it. -/
theorem noticeActions_dropping (eligible : Eligible location) {notice : Notice FileName}
    (drops : notice.Drops (view fs root) location) :
    (notice.path = location ∧ noticeActions fs root notice =
        [.delete location.key, .deleteTree location.key]) ∨
      (notice.path ≠ location ∧ notice.path <+: location ∧
        lastOf (treeAction (Location.key notice.path)) (noticeActions fs root notice) ≠ none) := by
  have vanishes : ∀ path, path <+: location →
      (path = location ∧ vanishActions path = [.delete location.key, .deleteTree location.key]) ∨
        (path ≠ location ∧ path <+: location ∧
          lastOf (treeAction (Location.key path)) (vanishActions path) ≠ none) := by
    intro path above
    have shown := visible_of_above eligible.visible above
    by_cases here : path = location
    · subst here
      exact .inl ⟨rfl, by simp [vanishActions, eligible.1, shown]⟩
    · refine .inr ⟨here, above, ?_⟩
      rw [vanishActions, lastOf_append, if_pos shown]
      simp [lastOf, treeAction]
  have walks : ∀ path, fs.lookup (root ++ path) = some .dir → path <+: location →
      lastOf (treeAction (Location.key path)) (appearActions fs root path) ≠ none := by
    intro path directory above
    have shown := visible_of_above eligible.visible above
    simp [appearActions, FileTree.hasDir_iff.mpr directory, shown, lastOf, treeAction]
  cases notice with
  | changed path => cases drops
  | appeared path =>
    obtain ⟨directory, above, apart⟩ := drops
    exact .inr ⟨apart, above, walks path directory above⟩
  | vanished path => exact vanishes path drops
  | renamed path =>
    obtain ⟨above, missing | ⟨directory, apart⟩⟩ := drops
    · have absent : (fs.lookup (root ++ path)).isSome = false := by
        rw [show fs.lookup (root ++ path) = none from missing]
        rfl
      simp only [noticeActions, absent, Bool.false_eq_true, if_false]
      exact vanishes path above
    · have present : (fs.lookup (root ++ path)).isSome = true := by
        rw [show fs.lookup (root ++ path) = some .dir from directory]
        rfl
      rw [noticeActions, if_pos present]
      exact .inr ⟨apart, above, walks path directory above⟩

theorem lastOf_ne_none {subject : WatchAction → Option Last} {notice : Notice FileName}
    (known : notice ∈ notices) (speaks : lastOf subject (noticeActions fs root notice) ≠ none) :
    lastOf subject (actionsOf fs root notices) ≠ none := by
  intro silent
  refine speaks (lastOf_eq_none.mpr fun action member => ?_)
  exact lastOf_eq_none.mp silent action (mem_actionsOf.mpr ⟨notice, known, member⟩)

/-- An upsert of a note comes from a notice that looks for a leaf there. -/
theorem reads_of_upsert {after : List (Notice FileName)} (named : Named after) (plain : location.Plain)
    (final : lastOf (noteAction location.key) (actionsOf fs root after) = some .upsert) :
    ∃ later ∈ after, later.Reads (view fs root) location := by
  obtain ⟨action, listed, acts⟩ := mem_of_lastOf final
  obtain ⟨later, member, listed⟩ := mem_actionsOf.mp listed
  rcases mem_noticeActions listed with
    ⟨rfl, _, reads⟩ | ⟨rfl, _⟩ | ⟨rfl, _, _⟩ | ⟨rfl, _⟩ <;> simp [noteAction] at acts
  exact ⟨later, member, Location.key_injective (named later member).2 plain acts ▸ reads⟩

theorem get_batch_dropped (tame : Tame ext fs root) (named : Named notices)
    (eligible : Eligible location) {before after : List (Notice FileName)}
    {notice : Notice FileName} (split : notices = before ++ notice :: after)
    (drops : notice.Drops (view fs root) location)
    (unread : ∀ later ∈ after, ¬ later.Reads (view fs root) location)
    (empty : current (load ext) (view fs root) location = none) :
    held (applyIndexBatch store (batchOf ext fs root notices)) location = none := by
  -- a batch inserts current notes only, and there is none
  have noInsert : NoteStore.lastAt (batchOf ext fs root notices).upserts location.key = none := by
    cases inserted : NoteStore.lastAt (batchOf ext fs root notices).upserts location.key with
    | none => rfl
    | some note =>
      rw [(lastAt_current tame named eligible inserted).1] at empty
      cases empty
  have known : notice ∈ notices := by simp [split]
  obtain ⟨below, plain⟩ := named notice known
  rw [held, get_applyIndexBatch, noInsert, Option.none_or, if_pos]
  rcases noticeActions_dropping eligible drops with ⟨_, acts⟩ | ⟨apart, above, speaks⟩
  · left
    refine List.mem_append_left _ (mem_deletes.mpr ?_)
    rw [split, lastOf_around, acts]
    cases final : lastOf (noteAction location.key) (actionsOf fs root after) with
    | none => simp [lastOf, noteAction, List.filterMap_cons]
    | some last =>
      cases last with
      | delete => rfl
      | upsert =>
        -- only a later notice that looks for a note there could win over the delete
        obtain ⟨later, member, reads⟩ := reads_of_upsert
          (fun later member => named later (by simp [split, member])) eligible.2 final
        exact absurd reads (unread later member)
  · -- either last action on the directory deletes its prefix: a walk does so too
    right
    have last := lastOf_ne_none known speaks
    refine ⟨Location.key notice.path, ?_, (dirPrefix_key plain eligible.2 below
      (nonempty_of_isNote eligible.1)).mpr ⟨above, apart⟩⟩
    cases which : lastOf (treeAction (Location.key notice.path)) (actionsOf fs root notices) with
    | none => exact absurd which last
    | some action =>
      cases action with
      | upsert => exact List.mem_append_right _ (mem_upsertTrees.mpr which)
      | delete => exact List.mem_append_left _ (mem_deleteTrees.mpr which)

/-- A window over a tame vault is a window of the mirror. -/
theorem window_laws (tame : Tame ext fs root) (named : Named notices) (store : NoteStore) :
    Window Eligible (load ext) (view fs root) notices (held store)
      (held (applyIndexBatch store (batchOf ext fs root notices))) where
  untouched _ eligible := get_batch_untouched tame named eligible
  announced _ _ _ _ _ eligible split announces quiet noted :=
    get_batch_announced tame named eligible split announces quiet noted
  dropped _ _ _ _ eligible split drops unread empty :=
    get_batch_dropped tame named eligible split drops unread empty
  kept _ _ eligible found := get_batch_kept tame named eligible found

/-- A batch inserts under keys of the index only. -/
theorem key_of_batch (tame : Tame ext fs root) (named : Named notices) {path : Text} {note : Note}
    (found : (applyIndexBatch store (batchOf ext fs root notices)).get path = some note) :
    (∃ location, Eligible location ∧ path = location.key) ∨ store.get path = some note := by
  rw [get_applyIndexBatch] at found
  cases inserted : NoteStore.lastAt (batchOf ext fs root notices).upserts path with
  | some other =>
    obtain ⟨member, same⟩ := NoteStore.lastAt_mem inserted
    obtain ⟨_, _, location, _, eligible, noted⟩ := source_of_note tame named member
    exact .inl ⟨location, eligible, same.symm.trans (key_of_current noted)⟩
  | none =>
    rw [inserted, Option.none_or] at found
    split at found
    · cases found
    · exact .inr found

end Batch

/-- The reports of a window, run through the watcher, are the batch of their notices. -/
theorem applyWindow_reports {ext : External} {fs : Fs} {root : Location} (tame : Tame ext fs root)
    {reports : List Report} (named : Named (reports.flatMap Report.notices)) (store : NoteStore) :
    applyWindow ext fs root.raw (reports.map (Report.event root)) store =
      applyIndexBatch store (batchOf ext fs root (reports.flatMap Report.notices)) := by
  have actions : (reports.map (Report.event root)).flatMap (mapEvent fs root.raw) =
      actionsOf fs root (reports.flatMap Report.notices) := by
    rw [actionsOf, List.flatMap_map, List.flatMap_assoc]
    refine List.flatMap_congr fun report member => ?_
    exact mapEvent_report tame fun notice listed =>
      named notice (List.mem_flatMap.mpr ⟨report, member, listed⟩)
  rw [applyWindow_eq, actions, batchOf]

end Anwesen.Watcher

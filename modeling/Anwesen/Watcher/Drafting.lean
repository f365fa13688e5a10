import Anwesen.Watcher.Window

/-! The batch of a window while its notes are still being read.

`build_index_batch` reads one note after the other, and files may change between two
reads. A draft is the batch so far; completed, it is what the rest would make of it now.
-/

set_option autoImplicit false

namespace Anwesen.Watcher

open Foundation Vault

section

variable (ext : External) (fs : Fs) (root : Location)

/-- One turn of the loop over the upserts. -/
def readUpsert (batch : IndexBatch) (rel : Text) : IndexBatch :=
  match reread ext fs root.raw rel with
  | .ok note => { batch with upserts := batch.upserts ++ [note] }
  | .error (.io .notFound) => { batch with deletes := batch.deletes ++ [rel] }
  | .error _ => batch

/-- One turn of the loop over the directories. -/
def readTree (batch : IndexBatch) (dir : Text) : IndexBatch :=
  { batch with
    upserts := batch.upserts ++ (scanFrom ext fs root.raw (absolutePath root.raw dir)).notes }

/-- The draft of a window before anything is read. -/
def unreadBatch (batch : WatchBatch) : IndexBatch :=
  ⟨[], batch.deletes, batch.deleteTrees ++ batch.upsertTrees⟩

/-- The draft with everything that is left to read read now. -/
def complete (upserts upsertTrees : List Text) (batch : IndexBatch) : IndexBatch :=
  upsertTrees.foldl (readTree ext fs root) (upserts.foldl (readUpsert ext fs root) batch)

end

section

variable {ext : External} {fs fs' : Fs} {root : Location}

theorem readUpsert_eq (batch : IndexBatch) (rel : Text) : readUpsert ext fs root batch rel =
    ⟨batch.upserts ++ [rel].filterMap fun rel => (reread ext fs root.raw rel).toOption,
      batch.deletes ++ [rel].filter fun rel => isNotFound (reread ext fs root.raw rel),
      batch.deletePrefixes⟩ := by
  cases read : reread ext fs root.raw rel with
  | ok note => simp [readUpsert, read, isNotFound, Except.toOption]
  | error kind =>
    cases kind with
    | io kind => cases kind <;> simp [readUpsert, read, isNotFound, Except.toOption]
    | nonUtf8Path | frontmatterParse | nonUtf8Body => simp [readUpsert, read, isNotFound, Except.toOption]

theorem foldl_readUpsert (upserts : List Text) (batch : IndexBatch) :
    upserts.foldl (readUpsert ext fs root) batch =
      ⟨batch.upserts ++ upserts.filterMap fun rel => (reread ext fs root.raw rel).toOption,
        batch.deletes ++ upserts.filter fun rel => isNotFound (reread ext fs root.raw rel),
        batch.deletePrefixes⟩ := by
  induction upserts generalizing batch with
  | nil => simp
  | cons rel rest ih =>
    rw [List.foldl_cons, ih, readUpsert_eq, List.append_assoc, List.append_assoc, ← List.filterMap_append,
      ← List.filter_append, List.singleton_append]

theorem foldl_readTree (dirs : List Text) (batch : IndexBatch) :
    dirs.foldl (readTree ext fs root) batch =
      { batch with upserts := batch.upserts ++ dirs.flatMap fun dir =>
          (scanFrom ext fs root.raw (absolutePath root.raw dir)).notes } := by
  induction dirs generalizing batch with
  | nil => simp
  | cons dir rest ih => rw [List.foldl_cons, ih, readTree, List.flatMap_cons, List.append_assoc]

/-- Read all at once, a window gives the batch of that moment. -/
theorem complete_unread (batch : WatchBatch) :
    complete ext fs root batch.upserts batch.upsertTrees (unreadBatch batch) =
      buildIndexBatch ext fs root.raw batch := by
  rw [complete, foldl_readUpsert, foldl_readTree]
  rfl

/-! How much there is to read. -/

theorem size_record (seen : Coalescing) (action : WatchAction) :
    (seen.record action).notes.size + (seen.record action).trees.size ≤
      seen.notes.size + seen.trees.size + 1 := by
  have grows : ∀ (map : Std.ExtTreeMap Text Last) (path : Text) (last : Last),
      (map.insert path last).size ≤ map.size + 1 := fun _ _ _ => Std.ExtTreeMap.size_insert_le
  cases action with
  | upsert path | delete path =>
    have more := grows seen.notes path
    simp only [Coalescing.record]
    grind
  | upsertTree path | deleteTree path =>
    have more := grows seen.trees path
    simp only [Coalescing.record]
    grind

theorem size_foldl_record (actions : List WatchAction) (seen : Coalescing) :
    (actions.foldl Coalescing.record seen).notes.size + (actions.foldl Coalescing.record seen).trees.size ≤
      seen.notes.size + seen.trees.size + actions.length := by
  induction actions generalizing seen with
  | nil => simp
  | cons action rest ih =>
    have first := size_record seen action
    have later := ih (seen.record action)
    rw [List.foldl_cons, List.length_cons]
    omega

/-- A window reads no more than it has actions. -/
theorem length_coalesce (actions : List WatchAction) :
    (coalesce actions).upserts.length + (coalesce actions).upsertTrees.length ≤ actions.length := by
  have listed : ∀ (map : Std.ExtTreeMap Text Last) (last : Last), (pathsOf map last).length ≤ map.size := by
    intro map last
    rw [← Std.ExtTreeMap.length_toList]
    exact List.length_filterMap_le _ _
  have sizes := size_foldl_record actions ⟨∅, ∅⟩
  simp only [Std.ExtTreeMap.size_empty, Nat.zero_add] at sizes
  exact Nat.le_trans (Nat.add_le_add (listed _ _) (listed _ _)) sizes

theorem length_noticeActions (notice : Notice FileName) : (noticeActions fs root notice).length ≤ 2 := by
  have appears : ∀ at_, (appearActions fs root at_).length ≤ 2 := by
    intro at_
    unfold appearActions
    split <;> split <;> simp
  have vanishes : ∀ at_, (vanishActions at_).length ≤ 2 := by
    intro at_
    unfold vanishActions
    split <;> split <;> simp
  cases notice with
  | changed at_ =>
    simp only [noticeActions]
    split <;> simp
  | appeared at_ => exact appears at_
  | vanished at_ => exact vanishes at_
  | renamed at_ =>
    simp only [noticeActions]
    split
    · exact appears at_
    · exact vanishes at_

/-! What a read depends on. -/

/-- The key of a note whose directory is there. -/
def Filed (fs : Fs) (root : Location) (rel : Text) : Prop :=
  ∃ location, Eligible location ∧ rel = location.key ∧ fs.lookup (root ++ location.dropLast) = some .dir

/-- In a directory that is there, a missing note is not found. -/
theorem reread_missing (tame : Tame ext fs root) {location : Location} (eligible : Eligible location)
    (parent : fs.lookup (root ++ location.dropLast) = some .dir)
    (missing : fs.lookup (root ++ location) = none) :
    reread ext fs root.raw location.key = .error (.io .notFound) := by
  have nonempty := nonempty_of_isNote eligible.1
  have clear : ¬ Blocked fs (root ++ location) := by
    rintro ⟨outer, content, above, leaf⟩
    rcases List.prefix_concat_iff.mp (show outer <+: (root ++ location.dropLast) ++
        [location.getLast nonempty] by
      rwa [List.append_assoc, List.dropLast_append_getLast]) with same | higher
    · rw [same, List.append_assoc, List.dropLast_append_getLast, missing] at leaf
      cases leaf
    · exact not_leaf_above parent higher leaf
  have failed : resolve fs true (Location.raw (root ++ location)) = .error .notFound :=
    ((resolve_missing missing (tame.linkFree location)).resolve_left fun blocked => clear blocked.1).2
  rw [reread_key nonempty eligible.2, scanOne, scanOneAudit, readFile, failed]
  rfl

/-- Rereading a note looks at its file only, if its directory is there. -/
theorem reread_same (tame : Tame ext fs root) (tame' : Tame ext fs' root) {location : Location}
    (eligible : Eligible location) (parent : fs.lookup (root ++ location.dropLast) = some .dir)
    (parent' : fs'.lookup (root ++ location.dropLast) = some .dir)
    (same : fs'.lookup (root ++ location) = fs.lookup (root ++ location)) :
    reread ext fs' root.raw location.key = reread ext fs root.raw location.key := by
  cases found : fs.lookup (root ++ location) with
  | none => rw [reread_missing tame eligible parent found, reread_missing tame' eligible parent' (same.trans found)]
  | some node =>
    have settled : Settled true node := .inr fun target link =>
      tame.linkless location target (link ▸ found)
    rw [reread_key (nonempty_of_isNote eligible.1) eligible.2, reread_key (nonempty_of_isNote eligible.1)
      eligible.2, scanOne, scanOne, scanOneAudit, scanOneAudit, readFile, readFile,
      resolve_found found settled, resolve_found (same.trans found) settled]

theorem path_of_reread (tame : Tame ext fs root) {rel : Text} (filed : Filed fs root rel) {note : Note}
    (read : (reread ext fs root.raw rel).toOption = some note) : note.path = rel := by
  obtain ⟨location, eligible, rfl, _⟩ := filed
  rw [reread_tame tame eligible] at read
  exact key_of_current read

/-- What a completed draft leaves at a note depends on the file of that note only. -/
theorem held_complete (tame : Tame ext fs root) (tame' : Tame ext fs' root) {upserts : List Text}
    (filed : ∀ rel ∈ upserts, Filed fs root rel) (filed' : ∀ rel ∈ upserts, Filed fs' root rel)
    {location : Location} (eligible : Eligible location)
    (same : fs'.lookup (root ++ location) = fs.lookup (root ++ location)) (batch : IndexBatch)
    (store : NoteStore) :
    held (applyIndexBatch store (complete ext fs' root upserts [] batch)) location =
      held (applyIndexBatch store (complete ext fs root upserts [] batch)) location := by
  have reads : location.key ∈ upserts →
      reread ext fs' root.raw location.key = reread ext fs root.raw location.key := by
    intro listed
    obtain ⟨other, eligible', key, parent⟩ := filed _ listed
    obtain ⟨another, eligible'', key', parent'⟩ := filed' _ listed
    obtain rfl := Location.key_injective eligible.2 eligible'.2 key
    obtain rfl := Location.key_injective eligible.2 eligible''.2 key'
    exact reread_same tame tame' eligible parent parent' same
  have named : ∀ rel ∈ upserts, ∀ note, (reread ext fs root.raw rel).toOption = some note → note.path = rel :=
    fun rel member _ => path_of_reread tame (filed rel member)
  have named' : ∀ rel ∈ upserts, ∀ note, (reread ext fs' root.raw rel).toOption = some note →
      note.path = rel := fun rel member _ => path_of_reread tame' (filed' rel member)
  simp only [held, get_applyIndexBatch, complete, List.foldl_nil, foldl_readUpsert, List.mem_append,
    List.mem_filter, NoteStore.lastAt_append_or, NoteStore.lastAt_filterMap named,
    NoteStore.lastAt_filterMap named']
  by_cases listed : location.key ∈ upserts
  · simp only [listed, if_true, true_and, reads listed]
  · simp only [listed, if_false, false_and]

end

end Anwesen.Watcher

import Anwesen.Doctor
import Anwesen.Store

/-! What `doctor` reports about paths that more than one file has.

The store keeps one note for each path, the one inserted last, so that the
surplus of the reported paths is what it loses of a list of notes.
-/

set_option autoImplicit false

namespace Anwesen.Doctor

open Foundation Vault

structure PathCollision where
  path : Text
  count : Nat
  deriving DecidableEq

def pathCounts (paths : List Text) : Std.ExtTreeMap Text Nat :=
  grouped id (fun count _ => count.getD 0 + 1) ∅ paths

def detectPathCollisions (paths : List Text) : List PathCollision :=
  ((pathCounts paths).toList.filter fun entry => 1 < entry.2).map fun entry => ⟨entry.1, entry.2⟩

structure Report where
  noteCount : Nat
  issues : List ScanIssue
  warnings : List ScanWarning
  pathCollisions : List PathCollision
  typeDrifts : List TypeDrift

def Report.isClean (report : Report) : Bool :=
  report.issues.isEmpty && report.warnings.isEmpty && report.pathCollisions.isEmpty &&
    report.typeDrifts.isEmpty

def run (ext : External) (disk : Disk) (vaultRoot : PathBuf) : Report :=
  let scan := scan ext disk vaultRoot
  { noteCount := scan.notes.length
    issues := scan.issues
    warnings := scan.warnings
    pathCollisions := detectPathCollisions (scan.notes.map Note.path)
    typeDrifts := detectTypeDrift scan.notes }

/-- The collisions account for the notes a store loses of a list. -/
structure Accounted (notes : List Note) (collisions : List PathCollision) : Prop where
  size : (NoteStore.replace notes).len + (collisions.map fun c => c.count - 1).sum = notes.length
  counted : ∀ c ∈ collisions, 2 ≤ c.count ∧ (notes.map Note.path).count c.path = c.count
  reported : ∀ path, 2 ≤ (notes.map Note.path).count path → path ∈ collisions.map PathCollision.path
  ascending : collisions.Pairwise fun a b => compare a.path.utf8 b.path.utf8 = .lt
  held : ∀ before note after, notes = before ++ note :: after →
    (∀ later ∈ after, later.path ≠ note.path) → (NoteStore.replace notes).get note.path = some note
  lossless : collisions = [] → (NoteStore.replace notes).len = notes.length ∧
    ∀ note ∈ notes, (NoteStore.replace notes).get note.path = some note

section

variable {paths : List Text} {notes : List Note}

theorem foldl_count (items : List Text) (count : Option Nat) :
    items.foldl (fun count _ => some (count.getD 0 + 1)) count =
      if items = [] then count else some (count.getD 0 + items.length) := by
  induction items generalizing count with
  | nil => rfl
  | cons _ items ih =>
    rw [List.foldl_cons, ih]
    by_cases last : items = []
    · simp [last]
    · simp [last, Nat.add_assoc, Nat.add_comm]

theorem count_eq_length (paths : List Text) (path : Text) :
    paths.count path = (paths.filter (· = path)).length := by
  rw [List.count_eq_length_filter]
  exact congrArg List.length (List.filter_congr fun other _ => beq_eq_decide other path)

theorem pathCounts_getElem? (paths : List Text) (path : Text) :
    (pathCounts paths)[path]? = if path ∈ paths then some (paths.count path) else none := by
  rw [pathCounts, getElem?_grouped, foldl_count]
  by_cases member : path ∈ paths
  · have some_ : paths.filter (fun other => id other = path) ≠ [] :=
      List.ne_nil_of_mem (List.mem_filter.mpr ⟨member, by simp⟩)
    rw [if_neg some_, if_pos member, count_eq_length]
    simp
  · have none_ : paths.filter (fun other => id other = path) = [] :=
      List.filter_eq_nil_iff.mpr fun other listed => by
        simpa using ne_of_mem_of_not_mem listed member
    rw [if_pos none_, if_neg member]
    simp

theorem mem_pathCounts {entry : Text × Nat} : entry ∈ (pathCounts paths).toList ↔
    entry.1 ∈ paths ∧ entry.2 = paths.count entry.1 := by
  rw [Std.ExtTreeMap.mem_toList_iff_getElem?_eq_some, pathCounts_getElem?]
  by_cases member : entry.1 ∈ paths <;> simp [member, eq_comm]

/-- The paths of the counts are those of the list, and the counts add up to its length. -/
theorem pathCounts_spec (paths : List Text) :
    ((pathCounts paths).toList.map Prod.fst).Perm paths.dedup ∧
      ((pathCounts paths).toList.map Prod.snd).sum = paths.length := by
  refine sum_counts ?_ fun entry => ?_
  · rw [Std.ExtTreeMap.map_fst_toList_eq_keys]
    exact Std.ExtTreeMap.nodup_keys
  · rw [mem_pathCounts, count_eq_length]

/-- Only what occurs more than once has a surplus. -/
theorem sum_surplus (entries : List (Text × Nat)) (positive : ∀ entry ∈ entries, 0 < entry.2) :
    entries.length + (((entries.filter fun entry => 1 < entry.2).map fun entry => entry.2 - 1).sum) =
      (entries.map Prod.snd).sum := by
  induction entries with
  | nil => rfl
  | cons entry entries ih =>
    rw [List.forall_mem_cons] at positive
    have rest := ih positive.2
    have here := positive.1
    by_cases several : 1 < entry.2
    · rw [List.filter_cons_of_pos (by simpa using several)]
      simp only [List.length_cons, List.map_cons, List.sum_cons]
      omega
    · rw [List.filter_cons_of_neg (by simpa using several)]
      simp only [List.length_cons, List.map_cons, List.sum_cons]
      omega

theorem inner_replace (notes : List Note) :
    (NoteStore.replace notes).inner = inserted (notes.map fun note => (note.path, note)) := by
  have step : ∀ store : NoteStore, (store.upsertAll notes).inner =
      notes.foldl (fun inner note => inner.insert note.path note) store.inner := by
    induction notes with
    | nil => exact fun _ => rfl
    | cons note notes ih =>
      intro store
      rw [NoteStore.upsertAll, List.foldl_cons, ← NoteStore.upsertAll, ih, List.foldl_cons]
      rfl
  rw [NoteStore.replace, step, inserted, List.foldl_map]
  rfl

/-- The store of a list holds one note for each of its paths. -/
theorem len_replace (notes : List Note) :
    (NoteStore.replace notes).len = (pathCounts (notes.map Note.path)).toList.length := by
  have keys := keys_inserted (notes.map fun note => (note.path, note))
  have paths : (notes.map fun note => (note.path, note)).map Prod.fst = notes.map Note.path := by
    rw [List.map_map]
    rfl
  rw [paths, ← inner_replace] at keys
  rw [NoteStore.len, ← Std.ExtTreeMap.length_keys, keys.length_eq,
    ← (pathCounts_spec _).1.length_eq, List.length_map]

theorem mem_detectPathCollisions {c : PathCollision} : c ∈ detectPathCollisions paths ↔
    2 ≤ c.count ∧ paths.count c.path = c.count := by
  simp only [detectPathCollisions, List.mem_map, List.mem_filter, mem_pathCounts, decide_eq_true_eq]
  constructor
  · rintro ⟨entry, ⟨⟨-, count⟩, several⟩, rfl⟩
    exact ⟨several, count.symm⟩
  · rintro ⟨several, count⟩
    have member : c.path ∈ paths := List.count_pos_iff.mp (by omega)
    exact ⟨(c.path, c.count), ⟨⟨member, count.symm⟩, several⟩, rfl⟩

/-- The surplus of the reported paths is what the store is short of. -/
theorem surplus_accounted (notes : List Note) : (NoteStore.replace notes).len +
    ((detectPathCollisions (notes.map Note.path)).map fun c => c.count - 1).sum = notes.length := by
  have positive : ∀ entry ∈ (pathCounts (notes.map Note.path)).toList, 0 < entry.2 := by
    intro entry listed
    obtain ⟨member, count⟩ := mem_pathCounts.mp listed
    rw [count]
    exact List.count_pos_iff.mpr member
  have total := sum_surplus _ positive
  rw [(pathCounts_spec _).2, List.length_map, ← len_replace] at total
  rw [detectPathCollisions, List.map_map]
  exact total

theorem detectPathCollisions_accounted (notes : List Note) :
    Accounted notes (detectPathCollisions (notes.map Note.path)) := by
  let paths := notes.map Note.path
  have reported : ∀ path, 2 ≤ paths.count path →
      path ∈ (detectPathCollisions paths).map PathCollision.path := fun path several =>
    List.mem_map.mpr ⟨⟨path, paths.count path⟩, mem_detectPathCollisions.mpr ⟨several, rfl⟩, rfl⟩
  have held : ∀ before note after, notes = before ++ note :: after →
      (∀ later ∈ after, later.path ≠ note.path) →
      (NoteStore.replace notes).get note.path = some note := by
    intro before note after parts last
    rw [NoteStore.get_replace, parts, NoteStore.lastAt_append last]
  refine ⟨surplus_accounted notes, fun c listed => mem_detectPathCollisions.mp listed, reported, ?_, held,
    fun clean => ⟨?_, fun note member => ?_⟩⟩
  · rw [detectPathCollisions, List.pairwise_map]
    refine (Std.ExtTreeMap.ordered_keys_toList.filter _).imp fun before => ?_
    rw [Text.compare_utf8, before]
  · have size := surplus_accounted notes
    rw [clean] at size
    exact size
  · -- without a collision every note is the last of its path
    obtain ⟨before, after, parts⟩ := List.append_of_mem member
    refine held before note after parts fun later listed same => ?_
    have several : 2 ≤ paths.count note.path := by
      have further : 0 < (after.map Note.path).count note.path :=
        List.count_pos_iff.mpr (List.mem_map.mpr ⟨later, listed, same⟩)
      simp only [paths, parts, List.map_append, List.map_cons, List.count_append, List.count_cons_self]
      omega
    have listed := reported note.path several
    rw [clean] at listed
    cases listed

/-- The collisions of any list account for what a store loses of it, and after a clean
report it loses nothing of the vault. -/
theorem collisions_account :
    (∀ notes : List Note, Accounted notes (detectPathCollisions (notes.map Note.path))) ∧
    ∀ (ext : External) (disk : Disk) (vaultRoot : PathBuf), (run ext disk vaultRoot).isClean = true →
      let notes := (scan ext disk vaultRoot).notes
      (NoteStore.replace notes).len = (run ext disk vaultRoot).noteCount ∧
        ∀ note ∈ notes, (NoteStore.replace notes).get note.path = some note := by
  refine ⟨detectPathCollisions_accounted, fun ext disk vaultRoot clean => ?_⟩
  have none_ : (run ext disk vaultRoot).pathCollisions = [] := by
    simp only [Report.isClean, Bool.and_eq_true, List.isEmpty_iff] at clean
    exact clean.1.2
  exact (detectPathCollisions_accounted _).lossless none_

end

end Anwesen.Doctor

import Anwesen.Store
import Anwesen.Watcher.Events

/-! From a coalesced batch of paths to the notes and keys the index writer receives. -/

set_option autoImplicit false

namespace Anwesen.Watcher

open Foundation Vault

structure IndexBatch where
  upserts : List Note
  deletes : List Text
  deletePrefixes : List Text

section Building

variable (ext : External) (fs : Fs) (vaultRoot : PathBuf)

def reread (rel : Text) : Except ScanIssueKind Note :=
  scanOne ext fs vaultRoot (absolutePath vaultRoot rel)

def isNotFound : Except ScanIssueKind Note → Bool
  | .error (.io .notFound) => true
  | _ => false

/-- A note that is gone when it is read becomes a delete, any other failure is skipped. -/
def buildIndexBatch (batch : WatchBatch) : IndexBatch where
  upserts := (batch.upserts.filterMap fun rel => (reread ext fs vaultRoot rel).toOption) ++
    batch.upsertTrees.flatMap fun dir =>
      (scanFrom ext fs vaultRoot (absolutePath vaultRoot dir)).notes
  deletes := batch.deletes ++ batch.upserts.filter fun rel => isNotFound (reread ext fs vaultRoot rel)
  deletePrefixes := batch.deleteTrees ++ batch.upsertTrees

/-- What `run_debouncer` makes of the entries of one window: whether it asks for a
rescan, and the batch it casts, if there is one. -/
def debounce (entries : List (Except Text Event)) : Bool × Option IndexBatch :=
  let overflow := entries.any fun
    | .ok event => isOverflow event
    | .error _ => false
  let actions := entries.flatMap fun
    | .ok event => mapEvent fs vaultRoot event
    | .error _ => []
  let batch := coalesce actions
  if batch.upserts = [] ∧ batch.deletes = [] ∧ batch.upsertTrees = [] ∧ batch.deleteTrees = [] then
    (overflow, none)
  else (overflow, some (buildIndexBatch ext fs vaultRoot batch))

end Building

/-- The index writer's handling of a batch. -/
def applyIndexBatch (store : NoteStore) (batch : IndexBatch) : NoteStore :=
  (store.applyBatch batch.upserts batch.deletes batch.deletePrefixes).1

theorem get_applyIndexBatch (store : NoteStore) (batch : IndexBatch) (path : Text) :
    (applyIndexBatch store batch).get path =
      (NoteStore.lastAt batch.upserts path).or
        (if path ∈ batch.deletes ∨ ∃ dir ∈ batch.deletePrefixes, NoteStore.dirPrefix dir <+: path
          then none else store.get path) :=
  NoteStore.get_applyBatch store _ _ _ path

/-- An empty batch is not cast, and would change nothing. -/
theorem applyIndexBatch_empty (ext : External) (fs : Fs) (vaultRoot : PathBuf) (store : NoteStore)
    {batch : WatchBatch} (empty : batch.upserts = [] ∧ batch.deletes = [] ∧
      batch.upsertTrees = [] ∧ batch.deleteTrees = []) :
    applyIndexBatch store (buildIndexBatch ext fs vaultRoot batch) = store := by
  obtain ⟨upserts, deletes, upsertTrees, deleteTrees⟩ := empty
  refine NoteStore.eq_of_get fun path => ?_
  simp [get_applyIndexBatch, buildIndexBatch, upserts, deletes, upsertTrees, deleteTrees,
    NoteStore.lastAt]

theorem debounce_ok (ext : External) (fs : Fs) (vaultRoot : PathBuf) (events : List Event) :
    debounce ext fs vaultRoot (events.map .ok) =
      let batch := coalesce (events.flatMap (mapEvent fs vaultRoot))
      (events.any isOverflow,
        if batch.upserts = [] ∧ batch.deletes = [] ∧ batch.upsertTrees = [] ∧ batch.deleteTrees = []
          then none else some (buildIndexBatch ext fs vaultRoot batch)) := by
  have overflow : (events.map (.ok : Event → Except Text Event)).any (fun
      | .ok event => isOverflow event
      | .error _ => false) = events.any isOverflow := by
    rw [List.any_map]
    rfl
  have actions : (events.map (.ok : Event → Except Text Event)).flatMap (fun
      | .ok event => mapEvent fs vaultRoot event
      | .error _ => []) = events.flatMap (mapEvent fs vaultRoot) := by
    rw [List.flatMap_map]
  simp only [debounce, overflow, actions]
  split <;> rfl

/-- One window's worth of events taken from the file system to the store. -/
def applyWindow (ext : External) (fs : Fs) (vaultRoot : PathBuf) (events : List Event)
    (store : NoteStore) : NoteStore :=
  match (debounce ext fs vaultRoot (events.map .ok)).2 with
  | none => store
  | some batch => applyIndexBatch store batch

theorem applyWindow_eq (ext : External) (fs : Fs) (vaultRoot : PathBuf) (events : List Event)
    (store : NoteStore) :
    applyWindow ext fs vaultRoot events store = applyIndexBatch store
      (buildIndexBatch ext fs vaultRoot (coalesce (events.flatMap (mapEvent fs vaultRoot)))) := by
  rw [applyWindow, debounce_ok]
  dsimp only
  split
  · rename_i none_
    split at none_
    · rename_i empty
      exact (applyIndexBatch_empty ext fs vaultRoot store empty).symm
    · cases none_
  · rename_i batch some_
    split at some_
    · cases some_
    · cases some_
      rfl

end Anwesen.Watcher

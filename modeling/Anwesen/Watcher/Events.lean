import Anwesen.Vault.FileSystem

/-! From file system events to one coalesced batch of paths. -/

set_option autoImplicit false

namespace Anwesen.Watcher

open Vault

inductive RenameMode where
  | any | to | from | both | other
  deriving DecidableEq

inductive ModifyKind where
  | any | data | metadata | name (mode : RenameMode) | other
  deriving DecidableEq

inductive AccessMode where
  | any | execute | read | write | other
  deriving DecidableEq

inductive AccessKind where
  | any | read | open | close (mode : AccessMode) | other
  deriving DecidableEq

inductive EventKind where
  | any | access (kind : AccessKind) | create | modify (kind : ModifyKind) | remove | other
  deriving DecidableEq

/-- `rescan` is the flag a backend sets when it lost events. -/
structure Event where
  kind : EventKind
  paths : List PathBuf
  rescan : Bool
  deriving DecidableEq

inductive WatchAction where
  | upsert (path : Text)
  | delete (path : Text)
  | upsertTree (path : Text)
  | deleteTree (path : Text)
  deriving DecidableEq

inductive EventAction where
  | modify | appear | vanish | rename | renameUnpaired
  deriving DecidableEq

def classify : EventKind → Option EventAction
  | .modify .data | .modify .metadata | .modify .any | .access (.close .write) => some .modify
  | .create | .modify (.name .to) => some .appear
  | .modify (.name .from) | .remove => some .vanish
  | .modify (.name .both) => some .rename
  | .modify (.name .any) | .modify (.name .other) => some .renameUnpaired
  | _ => none

def isOverflow (event : Event) : Bool := event.rescan

section Mapping

variable (fs : Fs) (vaultRoot : PathBuf)

/-- A component that `relative` lets pass. -/
def shown (component : Bytes) : Bool :=
  match Bytes.fromUtf8 component with
  | none => false
  | some ('.' :: _) => false
  | some _ => true

def relative (abs : PathBuf) : Option Text :=
  match PathBuf.stripPrefix vaultRoot.components abs with
  | none => none
  | some rel => if rel.components.all shown then rel.toStr.map forwardSlashes else none

def noteRelative (abs : PathBuf) : Option Text :=
  if !isMarkdown abs then none else relative vaultRoot abs

def treeRelative (abs : PathBuf) : Option Text :=
  match relative vaultRoot abs with
  | none => none
  | some rel => if rel = [] then none else some rel

def appear (abs : PathBuf) : Option WatchAction :=
  if isDir fs abs then (treeRelative vaultRoot abs).map .upsertTree
  else (noteRelative vaultRoot abs).map .upsert

def vanish (abs : PathBuf) : List WatchAction :=
  ((noteRelative vaultRoot abs).map .delete).toList ++
    ((treeRelative vaultRoot abs).map .deleteTree).toList

def mapEvent (event : Event) : List WatchAction :=
  if isOverflow event then []
  else
    match classify event.kind with
    | some .modify => event.paths.filterMap fun p => (noteRelative vaultRoot p).map .upsert
    | some .appear => event.paths.filterMap (appear fs vaultRoot)
    | some .vanish => event.paths.flatMap (vanish vaultRoot)
    | some .rename =>
        -- the paths come as (from, to)
        (event.paths.head?.map (vanish vaultRoot)).getD [] ++
          (event.paths[1]?.bind (appear fs vaultRoot)).toList
    | some .renameUnpaired =>
        -- the two sides arrive apart: whether the path is there tells the direction
        event.paths.flatMap fun p =>
          if exists_ fs p then (appear fs vaultRoot p).toList else vanish vaultRoot p
    | none => []

end Mapping

def absolutePath (vaultRoot : PathBuf) (rel : Text) : PathBuf := vaultRoot.join rel

/-! Coalescing. -/

structure WatchBatch where
  upserts : List Text
  deletes : List Text
  upsertTrees : List Text
  deleteTrees : List Text
  deriving DecidableEq

inductive Last where
  | upsert | delete
  deriving DecidableEq

structure Coalescing where
  notes : Std.ExtTreeMap Text Last
  trees : Std.ExtTreeMap Text Last

def Coalescing.record (seen : Coalescing) : WatchAction → Coalescing
  | .upsert path => { seen with notes := seen.notes.insert path .upsert }
  | .delete path => { seen with notes := seen.notes.insert path .delete }
  | .upsertTree path => { seen with trees := seen.trees.insert path .upsert }
  | .deleteTree path => { seen with trees := seen.trees.insert path .delete }

/-- The paths of a map, in order, whose last action is the given one. -/
def pathsOf (map : Std.ExtTreeMap Text Last) (last : Last) : List Text :=
  map.toList.filterMap fun entry => if entry.2 = last then some entry.1 else none

def coalesce (actions : List WatchAction) : WatchBatch :=
  let seen := actions.foldl Coalescing.record ⟨∅, ∅⟩
  { upserts := pathsOf seen.notes .upsert
    deletes := pathsOf seen.notes .delete
    upsertTrees := pathsOf seen.trees .upsert
    deleteTrees := pathsOf seen.trees .delete }

theorem mem_pathsOf {map : Std.ExtTreeMap Text Last} {last : Last} {path : Text} :
    path ∈ pathsOf map last ↔ map[path]? = some last := by
  simp only [pathsOf, List.mem_filterMap, Prod.exists, Option.ite_none_right_eq_some,
    Option.some.injEq, Std.ExtTreeMap.mem_toList_iff_getElem?_eq_some]
  constructor
  · rintro ⟨other, action, found, rfl, rfl⟩
    exact found
  · exact fun found => ⟨path, last, found, rfl, rfl⟩

/-- What an action does to the note at a path. -/
def noteAction (path : Text) : WatchAction → Option Last
  | .upsert other => if other = path then some .upsert else none
  | .delete other => if other = path then some .delete else none
  | .upsertTree _ | .deleteTree _ => none

def treeAction (path : Text) : WatchAction → Option Last
  | .upsertTree other => if other = path then some .upsert else none
  | .deleteTree other => if other = path then some .delete else none
  | .upsert _ | .delete _ => none

/-- The last action of a list on a subject. -/
def lastOf (subject : WatchAction → Option Last) (actions : List WatchAction) : Option Last :=
  (actions.filterMap subject).getLast?

theorem lastOf_cons (subject : WatchAction → Option Last) (action : WatchAction)
    (rest : List WatchAction) : lastOf subject (action :: rest) = (lastOf subject rest).or (subject action) := by
  unfold lastOf
  cases said : subject action with
  | none => simp [said]
  | some last => simp [said, List.getLast?_cons, Option.or_some]

theorem lastOf_append (subject : WatchAction → Option Last) (first rest : List WatchAction) :
    lastOf subject (first ++ rest) = (lastOf subject rest).or (lastOf subject first) := by
  simp [lastOf, List.getLast?_append]

theorem lastOf_eq_none {subject : WatchAction → Option Last} {actions : List WatchAction} :
    lastOf subject actions = none ↔ ∀ action ∈ actions, subject action = none := by
  simp [lastOf]

theorem record_notes (seen : Coalescing) (action : WatchAction) (path : Text) :
    (seen.record action).notes[path]? = (noteAction path action).or seen.notes[path]? := by
  cases action with
  | upsert other | delete other =>
    simp only [Coalescing.record, noteAction, Std.ExtTreeMap.getElem?_insert,
      Std.LawfulEqOrd.compare_eq_iff_eq]
    split <;> simp
  | upsertTree other | deleteTree other => simp [Coalescing.record, noteAction]

theorem record_trees (seen : Coalescing) (action : WatchAction) (path : Text) :
    (seen.record action).trees[path]? = (treeAction path action).or seen.trees[path]? := by
  cases action with
  | upsert other | delete other => simp [Coalescing.record, treeAction]
  | upsertTree other | deleteTree other =>
    simp only [Coalescing.record, treeAction, Std.ExtTreeMap.getElem?_insert,
      Std.LawfulEqOrd.compare_eq_iff_eq]
    split <;> simp

theorem notes_foldl (actions : List WatchAction) (seen : Coalescing) (path : Text) :
    (actions.foldl Coalescing.record seen).notes[path]? =
      (lastOf (noteAction path) actions).or seen.notes[path]? := by
  induction actions generalizing seen with
  | nil => simp [lastOf]
  | cons action rest ih => rw [List.foldl_cons, ih, lastOf_cons, Option.or_assoc, record_notes]

theorem trees_foldl (actions : List WatchAction) (seen : Coalescing) (path : Text) :
    (actions.foldl Coalescing.record seen).trees[path]? =
      (lastOf (treeAction path) actions).or seen.trees[path]? := by
  induction actions generalizing seen with
  | nil => simp [lastOf]
  | cons action rest ih => rw [List.foldl_cons, ih, lastOf_cons, Option.or_assoc, record_trees]

section Coalesced

variable {actions : List WatchAction} {path : Text}

theorem mem_upserts : path ∈ (coalesce actions).upserts ↔
    lastOf (noteAction path) actions = some .upsert := by
  simp [coalesce, mem_pathsOf, notes_foldl]

theorem mem_deletes : path ∈ (coalesce actions).deletes ↔
    lastOf (noteAction path) actions = some .delete := by
  simp [coalesce, mem_pathsOf, notes_foldl]

theorem mem_upsertTrees : path ∈ (coalesce actions).upsertTrees ↔
    lastOf (treeAction path) actions = some .upsert := by
  simp [coalesce, mem_pathsOf, trees_foldl]

theorem mem_deleteTrees : path ∈ (coalesce actions).deleteTrees ↔
    lastOf (treeAction path) actions = some .delete := by
  simp [coalesce, mem_pathsOf, trees_foldl]

end Coalesced

end Anwesen.Watcher

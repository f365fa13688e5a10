import Anwesen.Foundation.Relay
import Anwesen.Watcher.Convergence

/-! The daemon's processes: the scanner, the watcher and the index writer.

Single files change while the scanner walks the vault one directory or file at a
time, the watcher turns queued events into batches, and the writer handles what
both of them cast. Casts of one sender stay in order.
-/

set_option autoImplicit false

namespace Anwesen.Daemon

open Foundation Vault Watcher

/-- What happens to one file. -/
inductive FileChange where
  | create (at_ : Location) (content : File)
  | edit (at_ : Location) (content : File)
  | remove (at_ : Location)

namespace FileChange

def path : FileChange → Location
  | .create at_ _ | .edit at_ _ | .remove at_ => at_

def operation : FileChange → Operation
  | .create at_ content => .create at_ (soleFile content)
  | .edit at_ content => .write at_ content
  | .remove at_ => .remove at_

def apply (fs : Fs) (change : FileChange) : Option Fs :=
  if fs.hasDir change.path then none else change.operation.apply fs

def noticeAt (location : Location) : FileChange → Notice FileName
  | .create _ _ => .appeared location
  | .edit _ _ => .changed location
  | .remove _ => .vanished location

/-- What the backend queues for a change within the vault. -/
def notices (root : Location) (change : FileChange) : List (Notice FileName) :=
  ((below root change.path).map fun location => change.noticeAt location).toList

end FileChange

/-! The scanner's walk. -/

/-- A walk: the directories still to list, the files still to read, the notes read. -/
structure Walk where
  pending : List (Location × Bool)
  notes : List Note

/-- What a directory lists that is not filtered out: directories and regular files. -/
def listed (fs : Fs) (root location : Location) : List (Location × Bool) :=
  (fs.under (root ++ location)).filterMap fun
    | ([name], .dir) => if isDotPrefixed name.bytes then none else some (location ++ [name], true)
    | ([name], .leaf (.file _)) =>
        if isDotPrefixed name.bytes then none else some (location ++ [name], false)
    | _ => none

namespace Walk

def start : Walk := ⟨[([], true)], []⟩

/-- List the next directory, or read the next file. -/
def visit (ext : External) (fs : Fs) (root : Location) (walk : Walk) : Option Walk :=
  match walk.pending with
  | [] => none
  | (location, true) :: rest => some { walk with pending := listed fs root location ++ rest }
  | (location, false) :: rest => some
      { pending := rest
        notes := walk.notes ++
          (entryNote ext fs root.raw ⟨Location.raw (root ++ location), true⟩).toList }

/-- The walk has still to look where the location is. -/
def Ahead (walk : Walk) (location : Location) : Prop :=
  ∃ item ∈ walk.pending, item.1 = location ∨ (item.2 = true ∧ item.1 <+: location)

instance (walk : Walk) (location : Location) : Decidable (walk.Ahead location) :=
  inferInstanceAs (Decidable (∃ item ∈ walk.pending, _ ∨ (_ ∧ _)))

end Walk

/-! The processes together. -/

/-- `up` holds once the scanner's first walk is done. An entry `none` of the queue
is an overflow notice; `rescans` counts the casts the scanner has not handled. -/
structure State where
  fs : Fs
  watching : Bool
  up : Bool
  queue : List (Option (Notice FileName))
  rescans : Nat
  walk : Option Walk
  rebuilds : List (List Note)
  batches : List IndexBatch
  store : NoteStore

inductive Label where
  | change (change : FileChange)
  | overflow (kept : List (Option (Notice FileName)))
  | window (size : Nat)
  | rescanNow
  | visit
  | finish
  | rebuild
  | batch
  | unwatch
  | watch

def eventOf (root : Location) : Option (Notice FileName) → Event
  | some (.appeared at_) => Report.event root (.create at_)
  | some (.changed at_) => Report.event root (.modify at_)
  | some (.vanished at_) => Report.event root (.remove at_)
  | some (.renamed at_) => Report.event root (.renameAny at_)
  | none => ⟨.other, [], true⟩

def step (ext : External) (root : Location) (state : State) : Label → Option State
  | .change change => (change.apply state.fs).map fun fs =>
      { state with
        fs
        queue := if state.watching then state.queue ++ (change.notices root).map some else state.queue }
  | .overflow kept =>
      -- what arrived since the queue ran full is lost, and a notice of it is queued
      if state.watching = true ∧ kept.Sublist state.queue then
        some { state with queue := kept ++ [none] }
      else none
  | .window size =>
      if 0 < size ∧ size ≤ state.queue.length then
        -- the events are mapped and read at the tree of this moment
        let result := debounce ext state.fs root.raw
          (((state.queue.take size).map (eventOf root)).map .ok)
        some { state with
          queue := state.queue.drop size
          rescans := if result.1 then state.rescans + 1 else state.rescans
          batches := state.batches ++ result.2.toList }
      else none
  | .rescanNow =>
      -- one walk at a time: a further cast waits until it is done
      if state.up = true ∧ state.walk.isNone = true ∧ 0 < state.rescans then
        some { state with rescans := state.rescans - 1, walk := some .start }
      else none
  | .visit => (state.walk.bind (Walk.visit ext state.fs root)).map fun walk =>
      { state with walk := some walk }
  | .finish =>
      match state.walk with
      | some ⟨[], notes⟩ =>
          some { state with walk := none, up := true, rebuilds := state.rebuilds ++ [notes] }
      | _ => none
  | .rebuild =>
      match state.rebuilds with
      | notes :: rest => some { state with rebuilds := rest, store := .replace notes }
      | [] => none
  | .batch =>
      match state.batches with
      | batch :: rest =>
          some { state with batches := rest, store := applyIndexBatch state.store batch }
      | [] => none
  -- the watcher's channel goes with it, and what it still held
  | .unwatch => if state.watching then some { state with watching := false, queue := [] } else none
  -- a watcher starts after the scanner's first walk
  | .watch => if state.up && !state.watching then some { state with watching := true } else none

/-- Nothing is queued, under way or being walked. -/
structure Idle (state : State) : Prop where
  watching : state.watching = true
  queue : state.queue = []
  rescans : state.rescans = 0
  walk : state.walk = none
  rebuilds : state.rebuilds = []
  batches : state.batches = []

/-- A running daemon whose store is that of a scan. -/
def synced (ext : External) (fs : Fs) (root : Location) : State :=
  ⟨fs, true, true, [], 0, none, [], [], scanned ext fs root⟩

/-- The daemon as it starts: the writer is there, the scanner's first walk begins. -/
def starting (fs : Fs) : State := ⟨fs, false, false, [], 0, some .start, [], [], .new⟩

end Anwesen.Daemon

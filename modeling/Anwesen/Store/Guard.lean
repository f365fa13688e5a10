import Anwesen.Foundation.Locking
import Anwesen.Store

/-! The store under its lock: what each method does step by step while it has the guard.

The guard is taken for the whole of a method, so that a method whose steps interleave
with those of others is still the one function of the store it is meant to be.
-/

set_option autoImplicit false

namespace Anwesen

open Foundation
open Vault (Note)

/-- What a method of the store returns; `Answer` is what the closures passed to
`with_read` return. -/
inductive Reply (Answer : Type) where
  | unit
  | dropped (count : Nat)
  | note (found : Option Note)
  | size (len : Nat)
  | answer (answer : Answer)

/-- A method of the store with its arguments. -/
inductive Method (Answer : Type) where
  | replace (notes : List Note)
  | applyBatch (upserts : List Note) (deletes deletePrefixes : List Text)
  | upsert (note : Note)
  | delete (path : Text)
  | get (path : Text)
  | len
  | withRead (closure : Routine NoteStore Answer) (reads : closure.Reads)

namespace NoteStore

variable {Answer : Type}

/-- Each directory's notes are collected from the guard and removed one by one. -/
def dropping : List Text → Nat → (Nat → Routine NoteStore (Reply Answer)) →
    Routine NoteStore (Reply Answer)
  | [], dropped, next => next dropped
  | dir :: rest, dropped, next => .step id fun guard =>
      .each ((guard.doomed dir).map fun path store => store.delete path)
        (dropping rest (dropped + (guard.doomed dir).length) next)

theorem exec_dropping (dirs : List Text) (dropped : Nat) (next : Nat → Routine NoteStore (Reply Answer))
    (store : NoteStore) :
    (dropping dirs dropped next).exec store =
      (next (dropped + (store.dropPrefixes dirs).2)).exec (store.dropPrefixes dirs).1 := by
  induction dirs generalizing dropped store with
  | nil => rfl
  | cons dir rest ih =>
    rw [dropping, Routine.exec_step, Routine.exec_each, List.foldl_map, id, ih, dropPrefixes, Nat.add_assoc]
    rfl

end NoteStore

namespace Method

variable {Answer : Type}

def mode : Method Answer → Mode
  | .replace _ | .applyBatch _ _ _ | .upsert _ | .delete _ => .writing
  | .get _ | .len | .withRead _ _ => .reading

/-- What the method does while it has the guard. -/
def routine : Method Answer → Routine NoteStore (Reply Answer)
  | .replace notes => .step (fun _ => .new) fun _ =>
      .each (notes.map fun note store => store.upsert note) (.done .unit)
  | .applyBatch upserts deletes deletePrefixes =>
      .each (deletes.map fun path store => store.delete path)
        (NoteStore.dropping deletePrefixes 0 fun dropped =>
          .each (upserts.map fun note store => store.upsert note) (.done (.dropped dropped)))
  | .upsert note => .step (·.upsert note) fun _ => .done .unit
  | .delete path => .step (·.delete path) fun _ => .done .unit
  | .get path => .look fun store => .note (store.get path)
  | .len => .look fun store => .size store.len
  | .withRead closure _ => closure.map .answer

/-- The method, made at once. -/
def result : Method Answer → NoteStore → NoteStore × Reply Answer
  | .replace notes, _ => (.replace notes, .unit)
  | .applyBatch upserts deletes deletePrefixes, store =>
      let (after, dropped) := store.applyBatch upserts deletes deletePrefixes
      (after, .dropped dropped)
  | .upsert note, store => (store.upsert note, .unit)
  | .delete path, store => (store.delete path, .unit)
  | .get path, store => (store, .note (store.get path))
  | .len, store => (store, .size store.len)
  | .withRead closure _, store => (store, .answer (closure.exec store).2)

theorem reads_of_reading {method : Method Answer} (reading : method.mode = .reading) : method.routine.Reads := by
  cases method with
  | replace | applyBatch | upsert | delete => cases reading
  | get path => exact Routine.reads_look _
  | len => exact Routine.reads_look _
  | withRead closure reads => exact reads.map _

def call (method : Method Answer) : Call NoteStore (Reply Answer) :=
  ⟨method.mode, method.routine, reads_of_reading⟩

theorem exec_routine (method : Method Answer) (store : NoteStore) :
    method.routine.exec store = method.result store := by
  cases method with
  | replace notes =>
    rw [routine, Routine.exec_step, Routine.exec_each, List.foldl_map]
    rfl
  | applyBatch upserts deletes deletePrefixes =>
    rw [routine, Routine.exec_each, List.foldl_map, NoteStore.exec_dropping, Routine.exec_each,
      List.foldl_map, Nat.zero_add]
    rfl
  | upsert note | delete path | get path | len => rfl
  | withRead closure reads =>
    rw [routine, Routine.exec_map, reads.exec_fst]
    rfl

end Method

end Anwesen

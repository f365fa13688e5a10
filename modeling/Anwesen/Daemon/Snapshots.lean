import Anwesen.Daemon.IndexWriter
import Anwesen.Store.Guard

/-! What readers see while the index writer works.

The writer handles its messages one after the other, and any number of requests read
the store meanwhile. Whatever the interleaving, a reader sees the store as it was
after some number of whole messages.
-/

set_option autoImplicit false

namespace Anwesen.Daemon

open Foundation
open Vault (Note)

/-- The method with which the writer handles a message. -/
def IndexWriterMessage.method {Answer : Type} : IndexWriterMessage → Method Answer
  | .rebuild notes => .replace notes
  | .batch changes => .applyBatch changes.upserts changes.deletes changes.deletePrefixes
  | .upsert note => .upsert note
  | .delete path => .delete path

section

variable {Answer Thread : Type}

theorem method_result (message : IndexWriterMessage) (store : NoteStore) :
    ((message.method : Method Answer).result store).1 = handleCast store message := by
  cases message <;> rfl

/-- The messages of the first calls are the first messages. -/
theorem foldl_calls (messages : List IndexWriterMessage) (store : NoteStore) :
    (messages.map fun message => (message.method : Method Answer).call).foldl
        (fun store call => (call.routine.exec store).1) store =
      messages.foldl handleCast store := by
  induction messages generalizing store with
  | nil => rfl
  | cons message rest ih =>
    have first : ((message.method : Method Answer).call.routine.exec store).1 = handleCast store message := by
      rw [Method.call, Method.exec_routine, method_result]
    rw [List.map_cons, List.foldl_cons, List.foldl_cons, first, ih]

/-- Where the writing calls are those of the messages, the first of them leave what the
first messages leave. -/
theorem written_of_replays {before after : List (Returned Thread NoteStore (Reply Answer))} {store : NoteStore}
    {messages : List IndexWriterMessage}
    (writes : ((before ++ after).map Returned.call).filter (fun call => call.mode = .writing) <+:
      messages.map fun message => message.method.call)
    (replays : Replays .new before store) :
    store = written (messages.take (before.countP fun entry => entry.call.mode = .writing)) := by
  have count : (before.countP fun entry => entry.call.mode = .writing) =
      ((before.map Returned.call).filter fun call => call.mode = .writing).length := by
    rw [List.countP_eq_length_filter, List.filter_map, List.length_map]
    rfl
  rw [List.map_append, List.filter_append] at writes
  have first : (before.map Returned.call).filter (fun call => call.mode = .writing) =
      (messages.take (before.countP fun entry => entry.call.mode = .writing)).map
        fun message => message.method.call := by
    rw [List.map_take, count]
    exact List.prefix_iff_eq_take.mp ((List.prefix_append _ _).trans writes)
  rw [replays.eq_foldl, first, foldl_calls, written]

/-- Every method returned what it returns of the store after some first messages, as
many as had been handled when it returned; once nobody holds the guard the store is
that of all messages. -/
theorem methods_see_whole_messages [DecidableEq Thread]
    {labels : List (Locked.Label Thread NoteStore (Reply Answer))}
    {final : Locked Thread NoteStore (Reply Answer)} (messages : List IndexWriterMessage)
    (reached : run Locked.step (.start .new) labels = some final)
    (writes : labels.filterMap Locked.Label.write = messages.map fun message => message.method.call) :
    (∀ before thread (method : Method Answer) result after,
      final.log = before ++ ⟨thread, method.call, result⟩ :: after →
      result = (method.result (written (messages.take
        (before.countP fun entry => entry.call.mode = .writing)))).2) ∧
    (final.holders = [] → final.shared = written messages) := by
  obtain ⟨last, linear⟩ := Locked.linear_run reached
  have calls : final.writes = messages.map fun message => message.method.call :=
    (Locked.writes_run (Locked.linear_start _) reached).trans writes
  rw [Locked.writes, List.filter_append] at calls
  have logged : (final.log.map Returned.call).filter (fun call => call.mode = .writing) <+:
      messages.map fun message => message.method.call := calls ▸ List.prefix_append _ _
  constructor
  · intro before thread method result after entry
    have replays := linear.replays
    rw [entry] at replays logged
    obtain ⟨store, first, returned, _⟩ := replays_append.mp replays
    rw [← written_of_replays logged first]
    exact returned.symm.trans (congrArg Prod.snd (Method.exec_routine method store))
  · intro idle
    rw [idle, List.map_nil, List.filter_nil, List.append_nil] at calls
    rw [linear.still (by simp [idle]), linear.replays.eq_foldl, calls, foldl_calls, written]

end

/-- A window takes out a note and a directory while two requests wait to look. -/
def lookedAt : List (Locked.Label Nat NoteStore (Reply Unit)) :=
  [.acquire 0 (Method.delete "a.md".toList).call, .advance 0, .release 0,
    .acquire 1 Method.len.call,
    .acquire 2 (Method.get "b.md".toList).call, .advance 2, .advance 1, .release 1, .release 2,
    .acquire 0 (Method.applyBatch [] ["b.md".toList] ["d".toList]).call, .advance 0, .advance 0, .release 0]

def lookedAtEnd : Locked Nat NoteStore (Reply Unit) :=
  (run Locked.step (.start .new) lookedAt).get (by decide +kernel)

theorem methods_see_whole_messages_lookedAt :
    let messages := [.delete "a.md".toList, .batch ⟨[], ["b.md".toList], ["d".toList]⟩]
    (∀ before thread (method : Method Unit) result after,
      lookedAtEnd.log = before ++ ⟨thread, method.call, result⟩ :: after →
      result = (method.result (written (messages.take
        (before.countP fun entry => entry.call.mode = .writing)))).2) ∧
    (lookedAtEnd.holders = [] → lookedAtEnd.shared = written messages) :=
  methods_see_whole_messages [.delete "a.md".toList, .batch ⟨[], ["b.md".toList], ["d".toList]⟩]
    (show run Locked.step (.start .new) lookedAt = some lookedAtEnd from (Option.some_get _).symm) rfl

end Anwesen.Daemon

import Anwesen.Watcher.Batch

/-! The index writer: the one process that changes the store. -/

set_option autoImplicit false

namespace Anwesen.Daemon

open Foundation Vault Watcher

inductive IndexWriterMessage where
  | rebuild (notes : List Note)
  | batch (batch : IndexBatch)
  | upsert (note : Note)
  | delete (path : Text)

namespace IndexWriterMessage

/-- The notes a message brings in. -/
def notes : IndexWriterMessage → List Note
  | .rebuild walked => walked
  | .batch changes => changes.upserts
  | .upsert note => [note]
  | .delete _ => []

end IndexWriterMessage

def handleCast (store : NoteStore) : IndexWriterMessage → NoteStore
  | .rebuild notes => .replace notes
  | .batch batch => applyIndexBatch store batch
  | .upsert note => store.upsert note
  | .delete path => store.delete path

/-- The store after the writer has handled these messages from its start. -/
def written (messages : List IndexWriterMessage) : NoteStore := messages.foldl handleCast .new

section

variable (ext : External)

/-- A note that was read from a file, at whatever state of the tree. -/
def Scanned (note : Note) : Prop :=
  ∃ fs vaultRoot abs warning, scanOneAudit ext fs vaultRoot abs = .ok (note, warning)

/-- An entry goes with its key, and what is derived from the bytes with the bytes. -/
structure Sound (path : Text) (note : Note) : Prop where
  keyed : note.path = path
  size : note.size = note.rawBytes.length
  etag : note.etag = '"' :: (ext.hashHex note.rawBytes ++ ['"'])
  derived : ∃ text yaml warning, Bytes.fromUtf8 note.rawBytes = some text ∧
    splitFrontmatter text = some (yaml, note.body) ∧
    parseFrontmatterAudit ext yaml = .ok (note.frontmatter, warning)

end

section

variable {ext : External} {store : NoteStore} {note : Note} {path : Text}

theorem sound_of_scanned (scanned : Scanned ext note) : Sound ext note.path note := by
  obtain ⟨fs, vaultRoot, abs, warning, scanned⟩ := scanned
  unfold scanOneAudit at scanned
  split at scanned
  · cases scanned
  · rename_i file _
    unfold loadFile at scanned
    split at scanned
    · cases scanned
    · rename_i text decoded
      dsimp only at scanned
      split at scanned
      · cases scanned
      · rename_i frontmatter warning' parsed
        split at scanned
        · cases scanned
        · obtain ⟨rfl, rfl⟩ := Prod.mk.inj (Except.ok.inj scanned)
          exact ⟨rfl, rfl, rfl, text, _, warning', decoded, (Option.some_get _).symm, parsed⟩

/-- What one message leaves under a path: a note it brings, or the entry before. -/
theorem get_handleCast {message : IndexWriterMessage} (found : (handleCast store message).get path = some note) :
    note ∈ message.notes ∧ note.path = path ∨ store.get path = some note := by
  cases message with
  | rebuild notes =>
    rw [handleCast, NoteStore.get_replace] at found
    exact .inl (NoteStore.lastAt_mem found)
  | batch batch =>
    rw [handleCast, get_applyIndexBatch, Option.or_eq_some_iff] at found
    rcases found with brought | ⟨-, kept⟩
    · exact .inl (NoteStore.lastAt_mem brought)
    · split at kept
      · cases kept
      · exact .inr kept
  | upsert other =>
    rw [handleCast, NoteStore.get_upsert] at found
    split at found
    · rename_i same
      obtain rfl := Option.some.inj found
      exact .inl ⟨List.mem_singleton_self _, same⟩
    · exact .inr found
  | delete other =>
    rw [handleCast, NoteStore.get_delete] at found
    split at found
    · cases found
    · exact .inr found

/-- Every entry was brought by some message under its own path. -/
theorem get_written {messages : List IndexWriterMessage} (found : (written messages).get path = some note) :
    ∃ message ∈ messages, note ∈ message.notes ∧ note.path = path := by
  induction messages using List.reverseRec with
  | nil => simp [written] at found
  | append_singleton messages message ih =>
    rw [written, List.foldl_append] at found
    rcases get_handleCast found with brought | kept
    · exact ⟨message, by simp, brought⟩
    · obtain ⟨other, listed, brought⟩ := ih kept
      exact ⟨other, by simp [listed], brought⟩

/-- The invariant of the store over the writer's whole run. -/
theorem sound_written {messages : List IndexWriterMessage}
    (scanned : ∀ message ∈ messages, ∀ note ∈ message.notes, Scanned ext note)
    (found : (written messages).get path = some note) : Sound ext path note := by
  obtain ⟨message, listed, brought, same⟩ := get_written found
  exact same ▸ sound_of_scanned (scanned message listed note brought)

end

end Anwesen.Daemon

import Anwesen.Daemon.IndexWriter
import Anwesen.Http.HeaderValues
import Anwesen.Vault.Tame

/-! Conditional reads over the index writer's runs.

An entry tag is the quoted hash of the bytes its entry holds, whatever messages
the entry came through, so that a tag stands for its bytes at every moment.
-/

set_option autoImplicit false

namespace Anwesen.Http

open Foundation Vault Daemon

def quoted (digits : Text) : Text := '"' :: (digits ++ ['"'])

def hexDigits : Text := "0123456789abcdef".toList

/-- What the hash is relied on for: it prints in hexadecimal, and no two contents
that were ever written share it. -/
structure HashSound (ext : External) (messages : List IndexWriterMessage) : Prop where
  hexadecimal : ∀ bytes, ∀ char ∈ ext.hashHex bytes, char ∈ hexDigits
  collisionFree : ∀ first ∈ messages.flatMap IndexWriterMessage.notes,
    ∀ second ∈ messages.flatMap IndexWriterMessage.notes,
      ext.hashHex first.rawBytes = ext.hashHex second.rawBytes → first.rawBytes = second.rawBytes

section

variable {ext : External} {store : NoteStore} {digits tag key path : Text} {headers : Headers}

theorem utf8_ascii {text : Text} (ascii : ∀ char ∈ text, char.toNat < 128) :
    Text.utf8 text = text.map fun char => UInt8.ofNat char.toNat := by
  induction text with
  | nil => rfl
  | cons char text ih =>
    rw [List.forall_mem_cons] at ascii
    rw [Text.utf8_cons, Text.utf8EncodeChar_ascii ascii.1, ih ascii.2]
    rfl

/-- Visible ASCII goes through a header as it is. -/
theorem headerStr_utf8 {text : Text} (visible : ∀ char ∈ text, 32 ≤ char.toNat ∧ char.toNat < 127) :
    headerStr (Text.utf8 text) = some text := by
  have narrow : ∀ char ∈ text, char.toNat < 128 := fun char member => by
    have bound := (visible char member).2
    omega
  have legible : Legible text := fun char member => .inr (visible char member)
  have sent : Text.utf8 text = latin1 text := utf8_ascii narrow
  rw [sent, headerStr_latin1 fun char member => (narrow char member).trans (by decide), if_pos legible]

theorem visible_quoted (hexadecimal : ∀ char ∈ digits, char ∈ hexDigits) :
    ∀ char ∈ quoted digits, 32 ≤ char.toNat ∧ char.toNat < 127 ∧ char ≠ ',' ∧
      Text.isWhitespace char = false := by
  have digit : hexDigits.all (fun char => 32 ≤ char.toNat ∧ char.toNat < 127 ∧ char ≠ ',' ∧
      Text.isWhitespace char = false) = true := by decide +kernel
  intro char member
  rcases List.mem_cons.mp member with rfl | inside
  · decide
  rcases List.mem_append.mp inside with listed | last
  · simpa using List.all_eq_true.mp digit char (hexadecimal char listed)
  · rw [List.mem_singleton.mp last]
    decide

theorem trim_quoted : Text.trim (quoted digits) = quoted digits := by
  have solid : Text.isWhitespace '"' = false := by decide
  simp [Text.trim, quoted, solid]

/-- A quoted tag matches itself and nothing else. -/
theorem etagMatches_quoted (hexadecimal : ∀ char ∈ digits, char ∈ hexDigits) (serverEtag : Text) :
    etagMatches (Text.utf8 (quoted digits)) serverEtag = true ↔ serverEtag = quoted digits := by
  have visible := visible_quoted hexadecimal
  have header := headerStr_utf8 fun char member => ⟨(visible char member).1, (visible char member).2.1⟩
  have single : (quoted digits).splitOn ',' = [quoted digits] :=
    List.splitOn_eq_singleton fun comma => (visible ',' comma).2.2.1 rfl
  have strong : Text.stripPrefix "W/".toList (quoted digits) = none := by
    simp [Text.stripPrefix, quoted]
  have star : quoted digits ≠ ['*'] := by simp [quoted]
  simp only [etagMatches, header, single, List.any_cons, List.any_nil, trim_quoted, strong,
    Option.getD_none, star, decide_false, Bool.or_false, decide_eq_true_eq]
  exact eq_comm

theorem status_getNotes_note (named : target path = .ok (.note key)) {note : Note}
    (held : store.get key = some note) : (getNotes ext store path headers).status =
      if headers.ifNoneMatch.head?.any (etagMatches · note.etag) then 304 else 200 := by
  simp only [getNotes, named, held, respondNote]
  split
  · rfl
  · split <;> rfl

theorem etag_getNotes_note (named : target path = .ok (.note key)) {note : Note}
    (held : store.get key = some note) : (getNotes ext store path headers).etag = some note.etag := by
  simp only [getNotes, named, held, respondNote]
  split
  · rfl
  · split <;> rfl

theorem status_getNotes_absent (named : target path = .ok (.note key)) (absent : store.get key = none) :
    (getNotes ext store path headers).status = 404 := by
  simp only [getNotes, named, absent]
  rfl

/-- Between entries of one run a tag stands for the bytes. -/
theorem etagMatches_iff_bytes {messages : List IndexWriterMessage} (hash : HashSound ext messages)
    {other : Text} {old new : Note} (first : Sound ext path old) (second : Sound ext other new)
    (brought : old ∈ messages.flatMap IndexWriterMessage.notes)
    (brought' : new ∈ messages.flatMap IndexWriterMessage.notes) :
    etagMatches (Text.utf8 old.etag) new.etag = true ↔ old.rawBytes = new.rawBytes := by
  have oldTag : old.etag = quoted (ext.hashHex old.rawBytes) := first.etag
  have newTag : new.etag = quoted (ext.hashHex new.rawBytes) := second.etag
  rw [oldTag, etagMatches_quoted (hash.hexadecimal _), newTag]
  constructor
  · intro same
    have digits : ext.hashHex new.rawBytes = ext.hashHex old.rawBytes := by
      simpa [quoted] using same
    exact hash.collisionFree old brought new brought' digits.symm
  · exact fun same => by rw [same]

/-- Over the runs of the writer an entry goes with its key and its bytes, and a
conditional read answers by comparing bytes. -/
theorem conditional_reads_sound {messages : List IndexWriterMessage}
    (scanned : ∀ message ∈ messages, ∀ note ∈ message.notes, Scanned ext note)
    (hash : HashSound ext messages) :
    (∀ moment path note, (written (messages.take moment)).get path = some note → Sound ext path note) ∧
    ∀ earlier later key first second tag headers conditional,
      target first = .ok (.note key) → target second = .ok (.note key) →
      (getNotes ext (written (messages.take earlier)) first headers).status = 200 →
      (getNotes ext (written (messages.take earlier)) first headers).etag = some tag →
      conditional.ifNoneMatch = [Text.utf8 tag] →
      ((getNotes ext (written (messages.take later)) second conditional).status = 304 ↔
        ∃ before after, (written (messages.take earlier)).get key = some before ∧
          (written (messages.take later)).get key = some after ∧ before.rawBytes = after.rawBytes) := by
  have sound : ∀ moment path note, (written (messages.take moment)).get path = some note →
      Sound ext path note := fun moment path note =>
    sound_written fun message listed => scanned message (List.mem_of_mem_take listed)
  have brought : ∀ moment path note, (written (messages.take moment)).get path = some note →
      note ∈ messages.flatMap IndexWriterMessage.notes := by
    intro moment path note found
    obtain ⟨message, listed, member, -⟩ := get_written found
    exact List.mem_flatMap.mpr ⟨message, List.mem_of_mem_take listed, member⟩
  refine ⟨sound, ?_⟩
  intro earlier later key first second tag headers conditional named again answered tagged sent
  cases before : (written (messages.take earlier)).get key with
  | none =>
    rw [status_getNotes_absent named before] at answered
    cases answered
  | some old =>
    rw [etag_getNotes_note named before] at tagged
    obtain rfl := Option.some.inj tagged
    cases after : (written (messages.take later)).get key with
    | none =>
      rw [status_getNotes_absent again after]
      simp
    | some new =>
      have compared := etagMatches_iff_bytes hash (sound earlier key old before)
        (sound later key new after) (brought earlier key old before) (brought later key new after)
      rw [status_getNotes_note again after, sent]
      simp only [List.head?_cons, Option.any_some, compared, Option.some.injEq, exists_and_left,
        exists_eq_left']
      split <;> simp [*]

end

/-- The hash of no bytes at all, and that of `abc`. -/
def emptyHash : Text := "af1349b9f5f9a1a6a0404dea36dcc9499bcb25c9adc112b7cc9a93cae41f3262".toList
def abcHash : Text := "6437b3ac38465133ffb63b75273a8db548c558465d79db03fd359c6cd5bd9d85".toList

def hashesTwo : External :=
  { External.bare with
    hashHex := fun bytes =>
      if bytes = [] then emptyHash else if bytes = Text.utf8 "abc".toList then abcHash else [] }

/-- A vault with one note. -/
def holding (text : String) : Fs where
  entries := [([vaultName], .dir), ([vaultName, noteName], .leaf (.file (plainFile text)))]
  unique := show [[vaultName], [vaultName, noteName]].Nodup by decide
  rooted := by simp

def emptyScanned : Note := ⟨"x.md".toList, ∅, [], [], ⟨0, 0⟩, quoted emptyHash, 0⟩

def abcScanned : Note :=
  ⟨"x.md".toList, ∅, "abc".toList, Text.utf8 "abc".toList, ⟨0, 0⟩, quoted abcHash, 3⟩

theorem scanned_emptyScanned : Scanned hashesTwo emptyScanned :=
  ⟨holding "", Location.raw [vaultName], Location.raw [vaultName, noteName], none, rfl⟩

theorem scanned_abcScanned : Scanned hashesTwo abcScanned :=
  ⟨holding "abc", Location.raw [vaultName], Location.raw [vaultName, noteName], none, rfl⟩

/-- The two hashes are of digits and differ. -/
theorem hashSound_hashesTwo {messages : List IndexWriterMessage}
    (brought : ∀ note ∈ messages.flatMap IndexWriterMessage.notes,
      note = emptyScanned ∨ note = abcScanned) : HashSound hashesTwo messages := by
  have digits : ∀ text ∈ [emptyHash, abcHash], text.all (fun char => char ∈ hexDigits) = true := by
    decide +kernel
  have differ : emptyHash ≠ abcHash := by decide +kernel
  constructor
  · intro bytes char member
    simp only [hashesTwo] at member
    split at member
    · simpa using List.all_eq_true.mp (digits emptyHash (by simp)) char member
    · split at member
      · simpa using List.all_eq_true.mp (digits abcHash (by simp)) char member
      · cases member
  · intro first listed second other same
    have empty : hashesTwo.hashHex emptyScanned.rawBytes = emptyHash := rfl
    have abc : hashesTwo.hashHex abcScanned.rawBytes = abcHash := rfl
    rcases brought first listed with rfl | rfl <;> rcases brought second other with rfl | rfl
    · rfl
    · exact absurd (empty.symm.trans (same.trans abc)) differ
    · exact absurd (empty.symm.trans (same.symm.trans abc)) differ
    · rfl

/-- The tag of the empty note, while the note holds `abc` and when it is empty again. -/
theorem conditional_reads_sound_changed :
    let messages := [.upsert emptyScanned, .upsert abcScanned, .upsert emptyScanned]
    let again := fun moment => (getNotes hashesTwo (written (messages.take moment)) "x.md".toList
      { ifNoneMatch := [Text.utf8 (quoted emptyHash)] }).status
    again 2 ≠ 304 ∧ again 3 = 304 := by
  intro messages again
  have brought : ∀ note ∈ messages.flatMap IndexWriterMessage.notes,
      note = emptyScanned ∨ note = abcScanned := by
    intro note member
    simp [messages, IndexWriterMessage.notes] at member
    tauto
  have scanned : ∀ message ∈ messages, ∀ note ∈ message.notes, Scanned hashesTwo note := by
    intro message listed note member
    rcases brought note (List.mem_flatMap.mpr ⟨message, listed, member⟩) with rfl | rfl
    · exact scanned_emptyScanned
    · exact scanned_abcScanned
  have first : (written (messages.take 1)).get "x.md".toList = some emptyScanned :=
    (NoteStore.get_upsert _ _ _).trans (if_pos rfl)
  have second : (written (messages.take 2)).get "x.md".toList = some abcScanned :=
    (NoteStore.get_upsert _ _ _).trans (if_pos rfl)
  have third : (written (messages.take 3)).get "x.md".toList = some emptyScanned :=
    (NoteStore.get_upsert _ _ _).trans (if_pos rfl)
  have named : target "x.md".toList = .ok (.note "x.md".toList) := by decide
  have answered : (getNotes hashesTwo (written (messages.take 1)) "x.md".toList {}).status = 200 := by
    rw [status_getNotes_note named first]
    rfl
  -- The same bytes are there at the moment, or they are not.
  have compared (moment : Nat) := (conditional_reads_sound scanned (hashSound_hashesTwo brought)).2
    1 moment "x.md".toList "x.md".toList "x.md".toList (quoted emptyHash) {}
    { ifNoneMatch := [Text.utf8 (quoted emptyHash)] } named named answered
    (etag_getNotes_note named first) rfl
  constructor
  · intro unchanged
    obtain ⟨before, after, same, other, bytes⟩ := (compared 2).mp unchanged
    obtain rfl := Option.some.inj (first.symm.trans same)
    obtain rfl := Option.some.inj (second.symm.trans other)
    exact absurd bytes (by decide)
  · exact (compared 3).mpr ⟨_, _, first, third, rfl⟩

end Anwesen.Http

import Anwesen.Daemon.LeftAlone
import Anwesen.Oneshot

/-! What clients are answered once the daemon has come to rest. -/

set_option autoImplicit false

namespace Anwesen.Daemon

open Foundation Vault Watcher Http
open Doctor (Display)
open Oneshot (Matches mergeCommand queryCommand merge_matches query_matches)

section

variable {ext : External} {fs : Fs} {root location : Location}

/-- The key of a note is a path the handlers take as it is. -/
theorem plainPath_key (eligible : Eligible location) : PlainPath location.key := by
  obtain ⟨texts, names⟩ := eligible.2.texts
  have nonempty : texts ≠ [] := fun empty => nonempty_of_isNote eligible.1 (names.nil_iff.mp empty)
  intro text member
  rw [names.key, List.splitOn_intercalate '/' names.separable nonempty] at member
  -- a text stands for a name, and no name is empty, a dot or two dots
  have named : Text.utf8 text ∈ location.raw := names.raw ▸ List.mem_map_of_mem member
  obtain ⟨name, _, bytes⟩ := List.mem_map.mp named
  have valid := name.valid
  rw [bytes] at valid
  have differs : ∀ other : Text, Text.utf8 text ≠ Text.utf8 other → text ≠ other :=
    fun other apart same => apart (congrArg Text.utf8 same)
  have one := differs [] valid.1
  have two := differs ['.'] valid.2.1
  have three := differs ['.', '.'] valid.2.2.1
  simp [forbidden, one, two, three]

/-- A note that is loaded has the bytes of its file. -/
theorem bytes_of_load {content : File} {note : Note} (loaded : load ext location (.file content) = some note) :
    note.rawBytes = content.bytes ∧ note.etag = '"' :: (ext.hashHex content.bytes ++ ['"']) := by
  simp only [load] at loaded
  cases result : loadFile ext (some location.key) content with
  | error kind => simp [result, Except.toOption] at loaded
  | ok value =>
    simp only [result, Except.toOption, Option.map_some, Option.some.injEq] at loaded
    subst loaded
    unfold loadFile at result
    split at result
    · cases result
    · dsimp only at result
      split at result
      · cases result
      · obtain rfl := Except.ok.inj result
        exact ⟨rfl, rfl⟩

/-- Without its escapes a note path is looked up as it is. -/
theorem route_scanned (tame : Tame ext fs root) (eligible : Eligible location) (clean : '%' ∉ location.key)
    {extract : Bytes → Except Response Text} (decodes : DecodesOnce extract) {raw : Bytes}
    (encoded : Encoded location.key raw) (headers : Headers) :
    route ext extract (scanned ext fs root) raw headers =
      (current (load ext) (view fs root) location).elim notFound fun note => respondNote ext note headers := by
  have plain := plainPath_key eligible
  rw [route_eq_getNotes decodes encoded plain.ne_nil, getNotes, (target_note_iff plain).mpr clean]
  dsimp only
  rw [get_scanned tame eligible]
  cases current (load ext) (view fs root) location <;> rfl

end

/-- The answers of a daemon over a store are those of the files below a directory. -/
structure Serves (ext : External) (fs : Fs) (root : Location) (store : NoteStore) : Prop where
  merged : ∀ display serialize raw headers, wantsMarkdown headers = true →
    Matches [] (mergeCommand ext display fs root.raw raw) (getQuery ext serialize store (some raw) headers)
  queried : ∀ display serialize raw headers, wantsMarkdown headers = false →
    Matches "\n".toList (queryCommand ext display serialize fs root.raw raw)
      (getQuery ext serialize store (some raw) headers)
  read : ∀ (extract : Bytes → Except Response Text), DecodesOnce extract → ∀ location, Eligible location →
    '%' ∉ location.key → ∀ raw, Encoded location.key raw →
    ∀ content, fs.lookup (root ++ location) = some (.leaf (.file content)) →
      route ext extract store raw ⟨[Text.utf8 "text/markdown".toList], []⟩ =
        ⟨200, some "text/markdown; charset=utf-8".toList,
          some ('"' :: (ext.hashHex content.bytes ++ ['"'])), .bytes content.bytes⟩
  missing : ∀ (extract : Bytes → Except Response Text), DecodesOnce extract → ∀ location, Eligible location →
    '%' ∉ location.key → ∀ raw, Encoded location.key raw →
    (∀ content, fs.lookup (root ++ location) ≠ some (.leaf (.file content))) →
      ∀ headers, route ext extract store raw headers = notFound

theorem serves_scanned {ext : External} {fs : Fs} {root : Location} (tame : Tame ext fs root) :
    Serves ext fs root (scanned ext fs root) where
  merged _ _ raw _ markdown := merge_matches (scan_issues_tame tame) markdown raw
  queried _ _ raw _ markdown := query_matches (scan_issues_tame tame) markdown raw
  read extract decodes location eligible clean raw encoded content found := by
    obtain ⟨note, loaded⟩ := Option.isSome_iff_exists.mp (tame.loads location content eligible.1 found).2
    have now : current (load ext) (view fs root) location = some note := by
      simp only [current, view, found, loaded]
    obtain ⟨bytes, etag⟩ := bytes_of_load loaded
    have markdown : wantsMarkdown ⟨[Text.utf8 "text/markdown".toList], []⟩ = true := by decide
    rw [route_scanned tame eligible clean decodes encoded, now, Option.elim, respondNote]
    simp only [List.head?_nil, Option.any_none, Bool.false_eq_true, if_false, markdown, if_true, bytes, etag]
  missing extract decodes location eligible clean raw encoded absent headers := by
    have nothing : current (load ext) (view fs root) location = none := by
      cases now : current (load ext) (view fs root) location with
      | none => rfl
      | some note =>
        obtain ⟨leaf, found⟩ := leaf_of_current now
        cases leaf with
        | file content => exact absurd found (absent content)
        | symlink target => exact absurd found (tame.linkless location target)
    rw [route_scanned tame eligible clean decodes encoded, nothing, Option.elim]

end Anwesen.Daemon

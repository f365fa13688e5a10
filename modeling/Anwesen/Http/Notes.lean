import Anwesen.Http.Paths
import Anwesen.Store

/-! Reading notes and listing folders over HTTP. -/

set_option autoImplicit false

namespace Anwesen.Http

open Foundation Vault

/-- The values of the request headers the handlers read, in their order. -/
structure Headers where
  accept : List Bytes := []
  ifNoneMatch : List Bytes := []

structure NoteResponse where
  path : Text
  frontmatter : Json
  body : Text
  lastModified : Text
  etag : Text
  size : Nat

structure FolderEntry where
  name : Text
  kind : Text
  lastModified : Text
  size : Option Nat

structure FolderResponse where
  path : Text
  entries : List FolderEntry

inductive Body where
  | empty
  | text (text : Text)
  | bytes (bytes : Bytes)
  | note (note : NoteResponse)
  | folder (folder : FolderResponse)

structure Response where
  status : Nat
  contentType : Option Text
  etag : Option Text
  body : Body

def plainText : Text := "text/plain; charset=utf-8".toList

def badRequest (reason : Text) : Response :=
  ⟨400, some plainText, none, .text ("bad request: ".toList ++ reason ++ "\n".toList)⟩

def notFound : Response := ⟨404, some plainText, none, .text "not found\n".toList⟩

/-- `HeaderValue::to_str`: visible ASCII, blanks and tabs. -/
def headerStr (value : Bytes) : Option Text :=
  if value.all fun b => (32 ≤ b && b < 127) || b = 9 then
    some (value.map fun b => Char.ofNat b.toNat)
  else none

def wantsMarkdown (headers : Headers) : Bool :=
  ((headers.accept.filterMap headerStr).flatMap fun s => s.splitOn ',').any fun raw =>
    let mime := Text.trim ((raw.splitOn ';').headD raw)
    mime.map Char.toLower = "text/markdown".toList

def etagMatches (client : Bytes) (serverEtag : Text) : Bool :=
  match headerStr client with
  | none => false
  | some s =>
      (s.splitOn ',').any fun raw =>
        let trimmed := Text.trim raw
        let stripped := (Text.stripPrefix "W/".toList trimmed).getD trimmed
        stripped = serverEtag || trimmed = ['*']

/-- The notes below a folder, by the next segment of their paths. -/
structure Listing where
  files : Std.ExtTreeMap Text (Instant × Nat) := ∅
  dirs : Std.ExtTreeMap Text Instant := ∅
  foundAny : Bool := false

def Listing.visit (prefix_ : Text) (listing : Listing) (path : Text) (note : Note) : Listing :=
  match Text.stripPrefix prefix_ path with
  | none | some [] => listing
  | some rel =>
      if rel.contains '/' then
        { listing with
          foundAny := true
          dirs := listing.dirs.alter (rel.takeWhile (· ≠ '/')) fun
            | some t => some (if note.lastModified.compare t = .gt then note.lastModified else t)
            | none => some note.lastModified }
      else
        { listing with
          foundAny := true
          files := listing.files.insert rel (note.lastModified, note.size) }

section

variable (ext : External)

def respondNote (note : Note) (headers : Headers) : Response :=
  if headers.ifNoneMatch.head?.any (etagMatches · note.etag) then
    ⟨304, none, some note.etag, .empty⟩
  else if wantsMarkdown headers then
    ⟨200, some "text/markdown; charset=utf-8".toList, some note.etag, .bytes note.rawBytes⟩
  else
    ⟨200, some "application/json".toList, some note.etag, .note
      { path := note.path
        frontmatter := frontmatterToJson ext note.frontmatter
        body := note.body
        lastModified := ext.printInstant note.lastModified
        etag := note.etag
        size := note.size }⟩

def listFolder (store : NoteStore) (folder : Text) : Response :=
  let prefix_ := if folder = [] then [] else folder ++ ['/']
  let listing : Listing := store.inner.toList.foldl
    (fun listing (path, note) => Listing.visit prefix_ listing path note) {}
  if !listing.foundAny && folder ≠ [] then notFound
  else
    let files := listing.files.toList.map fun (name, lastModified, size) =>
      (⟨name, "file".toList, ext.printInstant lastModified, some size⟩ : FolderEntry)
    let dirs := listing.dirs.toList.map fun (name, lastModified) =>
      (⟨name, "dir".toList, ext.printInstant lastModified, none⟩ : FolderEntry)
    let entries := (files ++ dirs).mergeSort fun a b => (compare a.name b.name).isLE
    ⟨200, some "application/json".toList, none, .folder ⟨folder, entries⟩⟩

end

/-- What `get_notes` asks the store for. -/
inductive Target where
  | folder (canonical : Text)
  | note (canonical : Text)
  deriving DecidableEq, Repr

def target (path : Text) : Except Text Target :=
  if path.getLast? = some '/' then (resolveFolder path.dropLast).map .folder
  else (resolvePath path).map .note

def getNotes (ext : External) (store : NoteStore) (path : Text) (headers : Headers) : Response :=
  match target path with
  | .error reason => badRequest reason
  | .ok (.folder canonical) => listFolder ext store canonical
  | .ok (.note canonical) =>
      match store.get canonical with
      | none => notFound
      | some note => respondNote ext note headers

/-- `GET /notes/<raw>`: the root listing has a route of its own, the wildcard hands
the handler what the extractor makes of the captured bytes, or its rejection. -/
def route (ext : External) (extract : Bytes → Except Response Text) (store : NoteStore) (raw : Bytes)
    (headers : Headers) : Response :=
  if raw = [] then listFolder ext store []
  else
    match extract raw with
    | .error rejection => rejection
    | .ok path => getNotes ext store path headers

/-- The bytes a request path holds unescaped. -/
def pathByte (b : UInt8) : Prop :=
  let char := Char.ofNat b.toNat
  char.isAlphanum ∨ char ∈ "-._~!$&'()*+,;=:@/".toList

instance : DecidablePred pathByte := fun _ => inferInstanceAs (Decidable (_ ∨ _))

/-- The encoded forms of a path. -/
def Encoded (path : Text) (raw : Bytes) : Prop := Percent.Encodes id pathByte path.utf8 raw

/-- The extractor decodes the captured bytes once. -/
def DecodesOnce (extract : Bytes → Except Response Text) : Prop :=
  ∀ path raw, Encoded path raw → extract raw = .ok path

/-- Notes and folders are found at their own URLs. -/
structure Readable (ext : External) (extract : Bytes → Except Response Text) (store : NoteStore)
    (paths folders : List Text) : Prop where
  lookedUp : ∀ path ∈ paths, ∀ raw, Encoded path raw →
    ∃ captured, extract raw = .ok captured ∧ target captured = .ok (.note path)
  answered : ∀ path ∈ paths, ∀ note, store.get path = some note → ∀ raw, Encoded path raw →
    ∀ headers, route ext extract store raw headers = respondNote ext note headers
  distinct : ∀ first ∈ paths, ∀ second ∈ paths, first ≠ second → ∀ key,
    resolvePath first = .ok key → resolvePath second ≠ .ok key
  listed : ∀ folder ∈ folders, ∀ raw, Encoded folder raw →
    (∃ captured, extract (raw ++ [0x2F]) = .ok captured ∧ target captured = .ok (.folder folder)) ∧
      ∀ headers, route ext extract store (raw ++ [0x2F]) headers = listFolder ext store folder

section

variable {ext : External} {extract : Bytes → Except Response Text} {store : NoteStore} {path : Text}

theorem target_note_iff (plain : PlainPath path) : target path = .ok (.note path) ↔ '%' ∉ path := by
  rw [target, if_neg plain.getLast?_ne_slash, ← resolve_eq_self_iff plain, resolvePath]
  cases resolve false path <;> simp [Except.map]

theorem target_folder_iff (plain : PlainPath path) :
    target (path ++ ['/']) = .ok (.folder path) ↔ '%' ∉ path := by
  rw [target, if_pos (by simp), List.dropLast_concat, ← resolve_eq_self_iff plain, resolveFolder]
  cases resolve true path <;> simp [Except.map]

theorem encoded_escape (path : Text) : Encoded path (path.utf8.flatMap Percent.escape) :=
  Percent.encodes_escape path.utf8

theorem encoded_folder {raw : Bytes} (encoded : Encoded path raw) :
    Encoded (path ++ ['/']) (raw ++ [0x2F]) := by
  have slash : Encoded ['/'] [0x2F] := .plain (by decide) (by decide) .nil
  rw [Encoded, Text.utf8_append]
  exact encoded.append slash

theorem raw_ne_nil {raw : Bytes} (encoded : Encoded path raw) (nonempty : path ≠ []) : raw ≠ [] := by
  rintro rfl
  have decoded := Percent.decode_of_encodes encoded
  exact nonempty (Text.utf8_eq_nil.mp (Option.some.inj decoded).symm)

theorem route_eq_getNotes (decodes : DecodesOnce extract) {raw : Bytes} (encoded : Encoded path raw)
    (nonempty : path ≠ []) (headers : Headers) :
    route ext extract store raw headers = getNotes ext store path headers := by
  rw [route, if_neg (raw_ne_nil encoded nonempty), decodes path raw encoded]

/-- Exactly the paths a second decoding leaves alone are found at their own URLs. -/
theorem readable_iff {paths folders : List Text} (decodes : DecodesOnce extract)
    (notes : ∀ path ∈ paths, PlainPath path ∧ (store.get path).isSome = true)
    (plain : ∀ folder ∈ folders, PlainPath folder) :
    Readable ext extract store paths folders ↔ ∀ path ∈ paths ++ folders, '%' ∉ path := by
  constructor
  · intro readable path member
    rcases List.mem_append.mp member with isNote | isFolder
    · obtain ⟨captured, extracted, found⟩ := readable.lookedUp path isNote _ (encoded_escape path)
      rw [decodes path _ (encoded_escape path)] at extracted
      rw [← Except.ok.inj extracted] at found
      exact (target_note_iff (notes path isNote).1).mp found
    · obtain ⟨⟨captured, extracted, found⟩, -⟩ := readable.listed path isFolder _ (encoded_escape path)
      rw [decodes _ _ (encoded_folder (encoded_escape path))] at extracted
      rw [← Except.ok.inj extracted] at found
      exact (target_folder_iff (plain path isFolder)).mp found
  · intro clean
    have noteTarget : ∀ path ∈ paths, target path = .ok (.note path) := fun path member =>
      (target_note_iff (notes path member).1).mpr (clean path (List.mem_append_left _ member))
    have folderTarget : ∀ folder ∈ folders, target (folder ++ ['/']) = .ok (.folder folder) :=
      fun folder member =>
        (target_folder_iff (plain folder member)).mpr (clean folder (List.mem_append_right _ member))
    have key : ∀ path ∈ paths, resolvePath path = .ok path := fun path member =>
      (resolve_eq_self_iff (notes path member).1).mpr (clean path (List.mem_append_left _ member))
    refine ⟨fun path member raw encoded => ?_, fun path member note found raw encoded headers => ?_,
      fun first inFirst second inSecond apart shared one two => ?_, fun folder member raw encoded => ?_⟩
    · exact ⟨path, decodes path raw encoded, noteTarget path member⟩
    · rw [route_eq_getNotes decodes encoded (notes path member).1.ne_nil, getNotes, noteTarget path member]
      simp [found]
    · rw [key first inFirst] at one
      rw [key second inSecond] at two
      exact apart ((Except.ok.inj one).trans (Except.ok.inj two).symm)
    · refine ⟨⟨_, decodes _ _ (encoded_folder encoded), folderTarget folder member⟩, fun headers => ?_⟩
      rw [route_eq_getNotes decodes (encoded_folder encoded) (by simp), getNotes, folderTarget folder member]

end

/-- An extractor that decodes once and turns down what does not decode. -/
def captureOnce (raw : Bytes) : Except Response Text :=
  match (Percent.decode id raw).bind Bytes.fromUtf8 with
  | some path => .ok path
  | none => .error (badRequest [])

theorem captureOnce_decodesOnce : DecodesOnce captureOnce := by
  intro path raw encoded
  rw [captureOnce, Percent.decode_of_encodes encoded]
  simp

def emptyNote (path : String) : Note := ⟨path.toList, ∅, [], [], ⟨0, 0⟩, [], 0⟩

theorem readable_iff_spaces :
    Readable External.bare captureOnce (NoteStore.replace [emptyNote "my notes/a+b?.md"])
      ["my notes/a+b?.md".toList] ["my notes".toList] :=
  (readable_iff captureOnce_decodesOnce (by decide +kernel) (by decide +kernel)).mpr (by decide +kernel)

/-- The note of one title is answered with the note of another. -/
theorem escaped_title_reads_other :
    let store := NoteStore.replace [emptyNote "a b.md", emptyNote "a%20b.md"]
    let path : Text := "a%20b.md".toList
    DecodesOnce captureOnce ∧ PlainPath path ∧ store.get path = some (emptyNote "a%20b.md") ∧
      (∀ headers, route External.bare captureOnce store (path.utf8.flatMap Percent.escape) headers =
        respondNote External.bare (emptyNote "a b.md") headers) ∧
      ¬ Readable External.bare captureOnce store [path] [] := by
  intro store path
  have encoded := encoded_escape path
  have captured := captureOnce_decodesOnce path _ encoded
  have looked : target path = .ok (.note "a b.md".toList) := by decide +kernel
  have held : store.get "a b.md".toList = some (emptyNote "a b.md") := by
    simp only [store, NoteStore.get_replace]
    rfl
  refine ⟨captureOnce_decodesOnce, by decide +kernel, ?_, fun headers => ?_, fun readable => ?_⟩
  · simp only [store, NoteStore.get_replace]
    rfl
  · rw [route_eq_getNotes captureOnce_decodesOnce encoded (by decide +kernel), getNotes, looked]
    simp only [held]
  · obtain ⟨other, extracted, found⟩ := readable.lookedUp path (by simp) _ encoded
    rw [captured] at extracted
    rw [← Except.ok.inj extracted, looked] at found
    exact absurd found (by decide +kernel)

end Anwesen.Http

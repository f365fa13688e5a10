import Anwesen.Vault.FileSystem

/-! Reading one note, and walking a directory for all of them. -/

set_option autoImplicit false

namespace Anwesen.Vault

open Foundation

inductive ScanIssueKind where
  | io (kind : IoErrorKind)
  | nonUtf8Path
  | frontmatterParse (message : Text)
  | nonUtf8Body
  deriving DecidableEq

structure ScanIssue where
  path : PathBuf
  kind : ScanIssueKind

structure ScanWarning where
  path : PathBuf
  kind : ScanWarningKind

structure ScanResult where
  notes : List Note
  issues : List ScanIssue
  warnings : List ScanWarning

/-- The path text of a note: relative to the root, or whole where the root is no prefix. -/
def notePath (vaultRoot abs : PathBuf) : Option Text :=
  match PathBuf.stripPrefix vaultRoot.components abs with
  | some rel => rel.toStr.map forwardSlashes
  | none => abs.toStr.map fun text => forwardSlashes ('/' :: text)

section Loading

variable (ext : External)

/-- What `scanOneAudit` makes of the bytes and the metadata it read. -/
def loadFile (path : Option Text) (file : File) :
    Except ScanIssueKind (Note × Option ScanWarningKind) :=
  match Bytes.fromUtf8 file.bytes with
  | none => .error .nonUtf8Body
  | some text =>
      let (yaml, body) := (splitFrontmatter text).get (splitFrontmatter_isSome text)
      match parseFrontmatterAudit ext yaml with
      | .error message => .error (.frontmatterParse message)
      | .ok (frontmatter, warning) =>
          match path with
          | none => .error .nonUtf8Path
          | some path => .ok
              ({ path, frontmatter, body
                 rawBytes := file.bytes
                 lastModified := file.modified
                 etag := '"' :: (ext.hashHex file.bytes ++ ['"'])
                 size := file.bytes.length }, warning)

theorem loadFile_path {path : Option Text} {file : File} {value : Note × Option ScanWarningKind}
    (loaded : loadFile ext path file = .ok value) : path = some value.1.path := by
  unfold loadFile at loaded
  split at loaded
  · cases loaded
  · dsimp only at loaded
    split at loaded
    · cases loaded
    · split at loaded
      · cases loaded
      · cases loaded
        rfl

variable (fs : Fs) (vaultRoot : PathBuf)

def scanOneAudit (abs : PathBuf) : Except ScanIssueKind (Note × Option ScanWarningKind) :=
  match readFile fs abs with
  | .error kind => .error (.io kind)
  | .ok file => loadFile ext (notePath vaultRoot abs) file

def scanOne (abs : PathBuf) : Except ScanIssueKind Note :=
  (scanOneAudit ext fs vaultRoot abs).map Prod.fst

/-- One turn of the loop over the walked entries. -/
def scanEntry (result : ScanResult) (entry : DirEntry) : ScanResult :=
  if !entry.isFile then result
  else if !isMarkdown entry.path then result
  else
    match scanOneAudit ext fs vaultRoot entry.path with
    | .ok (note, warning) =>
        { result with
          warnings := result.warnings ++ (warning.map (ScanWarning.mk entry.path)).toList
          notes := result.notes ++ [note] }
    | .error kind => { result with issues := result.issues ++ [⟨entry.path, kind⟩] }

/-- The same turn, with the entries that could not be walked. -/
def scanWalked (result : ScanResult) : Except PathBuf DirEntry → ScanResult
  | .error path => { result with issues := result.issues ++ [⟨path, .io .other⟩] }
  | .ok entry => scanEntry ext fs vaultRoot result entry

def scanFrom (disk : Disk) (vaultRoot start : PathBuf) : ScanResult :=
  (disk.walkDir start).foldl (scanWalked ext disk.fs vaultRoot) ⟨[], [], []⟩

def scan (disk : Disk) (vaultRoot : PathBuf) : ScanResult := scanFrom ext disk vaultRoot vaultRoot

theorem scanFrom_listed (start : PathBuf) : scanFrom ext fs vaultRoot start =
    match walkDir fs start with
    | .error _ => ⟨[], [⟨start, .io .other⟩], []⟩
    | .ok entries => entries.foldl (scanEntry ext fs vaultRoot) ⟨[], [], []⟩ := by
  rw [scanFrom, Disk.walkDir_listed]
  cases walkDir fs start with
  | error kind => rfl
  | ok entries => exact List.foldl_map

/-- The note an entry of a walk contributes. -/
def entryNote (entry : DirEntry) : Option Note :=
  if entry.isFile && isMarkdown entry.path then (scanOne ext fs vaultRoot entry.path).toOption
  else none

theorem scanEntry_notes (result : ScanResult) (entry : DirEntry) :
    (scanEntry ext fs vaultRoot result entry).notes =
      result.notes ++ (entryNote ext fs vaultRoot entry).toList := by
  unfold scanEntry entryNote scanOne
  cases entry.isFile <;> cases isMarkdown entry.path <;> try simp
  cases scanOneAudit ext fs vaultRoot entry.path <;> simp [Except.map, Except.toOption]

theorem scanFrom_notes {start : PathBuf} {entries : List DirEntry}
    (walked : walkDir fs start = .ok entries) :
    (scanFrom ext fs vaultRoot start).notes = entries.filterMap (entryNote ext fs vaultRoot) := by
  have folded : ∀ result : ScanResult, (entries.foldl (scanEntry ext fs vaultRoot) result).notes =
      result.notes ++ entries.filterMap (entryNote ext fs vaultRoot) := by
    clear walked
    induction entries with
    | nil => simp
    | cons entry rest ih =>
      intro result
      rw [List.foldl_cons, ih, scanEntry_notes, List.append_assoc]
      cases noted : entryNote ext fs vaultRoot entry <;> simp [noted]
  simp [scanFrom_listed, walked, folded]

end Loading

/-! What a note that is read says of the tree. -/

section Reading

variable {ext : External} {fs : Fs} {vaultRoot path : PathBuf} {note : Note}

theorem scanOne_of_unread {kind : IoErrorKind} (failed : readFile fs path = .error kind) :
    scanOne ext fs vaultRoot path = .error (.io kind) := by
  rw [scanOne, scanOneAudit, failed]
  rfl

theorem scanOne_of_read {content : File} (opened : readFile fs path = .ok content) :
    scanOne ext fs vaultRoot path = (loadFile ext (notePath vaultRoot path) content).map Prod.fst := by
  rw [scanOne, scanOneAudit, opened]

theorem scanOne_eq_ok : scanOne ext fs vaultRoot path = .ok note ↔
    ∃ content warning, readFile fs path = .ok content ∧
      loadFile ext (notePath vaultRoot path) content = .ok (note, warning) := by
  cases opened : readFile fs path with
  | error kind => simp [scanOne_of_unread opened]
  | ok content =>
    rw [scanOne_of_read opened]
    cases loaded : loadFile ext (notePath vaultRoot path) content with
    | error kind => simp [Except.map, loaded]
    | ok value =>
      obtain ⟨loadedNote, warning⟩ := value
      simp [Except.map, loaded]

/-- Only a file is read. -/
theorem exists_of_scanOne (read : scanOne ext fs vaultRoot path = .ok note) :
    ∃ target content, resolve fs true path = .ok (target, .leaf (.file content)) := by
  obtain ⟨content, _, opened, _⟩ := scanOne_eq_ok.mp read
  obtain ⟨⟨target, arrives⟩, _⟩ := readFile_eq_ok.mp opened
  exact ⟨target, content, arrives⟩

theorem isDir_of_scanOne (read : scanOne ext fs vaultRoot path = .ok note) : isDir fs path = false := by
  obtain ⟨target, content, arrives⟩ := exists_of_scanOne read
  rw [isDir, arrives]

theorem notePath_of_scanOne (read : scanOne ext fs vaultRoot path = .ok note) :
    notePath vaultRoot path = some note.path := by
  obtain ⟨_, _, _, loaded⟩ := scanOne_eq_ok.mp read
  exact loadFile_path ext loaded

theorem entryNote_eq_some {file : Bool} : entryNote ext fs vaultRoot ⟨path, file⟩ = some note ↔
    file = true ∧ isMarkdown path = true ∧ scanOne ext fs vaultRoot path = .ok note := by
  rw [entryNote]
  cases file <;> cases isMarkdown path <;> cases scanOne ext fs vaultRoot path <;> simp [Except.toOption]

end Reading

end Anwesen.Vault

import Anwesen.Doctor.Collisions
import Anwesen.Vault.Accounting

/-! The report `doctor` prints and the exit code it gives. -/

set_option autoImplicit false

namespace Anwesen.Doctor

open Foundation Vault

/-- What the standard library prints of a path, of an I/O error and of a panic. -/
structure Display where
  path : PathBuf → Text
  io : IoErrorKind → Text
  panic : Text

def showKind (display : Display) : ScanIssueKind → Text
  | .io kind => "io: ".toList ++ display.io kind
  | .nonUtf8Path => "path is not valid UTF-8".toList
  | .frontmatterParse message => "frontmatter YAML parse failed: ".toList ++ message
  | .nonUtf8Body => "file body is not valid UTF-8".toList

def showWarning : ScanWarningKind → Text
  | .frontmatterNotMapping => "frontmatter root is not a YAML mapping".toList

section

variable (display : Display)

def issueLine (issue : ScanIssue) : Text :=
  "  ".toList ++ display.path issue.path ++ ": ".toList ++ showKind display issue.kind

def warningLine (warning : ScanWarning) : Text :=
  "  ".toList ++ display.path warning.path ++ ": ".toList ++ showWarning warning.kind

def collisionLine (collision : PathCollision) : Text :=
  "  ".toList ++ collision.path ++ " (".toList ++ intText collision.count ++ " files)".toList

def driftLines (drift : TypeDrift) : List Text :=
  ("  ".toList ++ drift.key ++ ":".toList) :: drift.shapes.flatMap fun shape =>
    ("    ".toList ++ shape.shape ++ " (".toList ++ intText shape.count ++ " notes)".toList) ::
      shape.samples.map fun path => "      ".toList ++ path

def unlines (lines : List Text) : Text := lines.flatMap fun line => line ++ ['\n']

/-- A part of the report that is left out when it has nothing to list. -/
def part (title : Text) (lines : List Text) : Text :=
  if lines = [] then [] else '\n' :: (title ++ ":\n".toList ++ unlines lines)

def verdict (report : Report) : Text := if report.isClean then "\nOK.\n".toList else "\nFAIL.\n".toList

def render (vaultRoot : PathBuf) (report : Report) : Text :=
  unlines
    [ "anwesen doctor: ".toList ++ display.path vaultRoot,
      "  notes:           ".toList ++ intText report.noteCount,
      "  issues:          ".toList ++ intText report.issues.length,
      "  warnings:        ".toList ++ intText report.warnings.length,
      "  path collisions: ".toList ++ intText report.pathCollisions.length,
      "  type drift:      ".toList ++ intText report.typeDrifts.length ] ++
    part "issues".toList (report.issues.map (issueLine display)) ++
    part "warnings".toList (report.warnings.map (warningLine display)) ++
    part "path collisions".toList (report.pathCollisions.map collisionLine) ++
    part "type drift".toList (report.typeDrifts.flatMap driftLines) ++ verdict report

def runAndRender (ext : External) (disk : Disk) (vaultRoot : PathBuf) : Text × Nat :=
  let report := run ext disk vaultRoot
  (render display vaultRoot report, if report.isClean then 0 else 1)

end

/-- What a vault has to be like for a clean report: every visible directory can be listed,
every file is read and has a mapping for its frontmatter, no two have one path, and a key
has one shape throughout. -/
structure CleanVault (ext : External) (disk : Disk) (vaultRoot : PathBuf) (real : Location) : Prop where
  listed : ∀ tail, visible tail = true → disk.fs.lookup (real ++ tail) = some .dir →
    disk.unlisted (real ++ tail) = false
  read : ∀ path ∈ candidates disk vaultRoot real,
    ∃ note, scanOneAudit ext disk.fs vaultRoot path = .ok (note, none)
  apart : ∀ path ∈ candidates disk vaultRoot real, ∀ other ∈ candidates disk vaultRoot real, ∀ note held,
    scanOne ext disk.fs vaultRoot path = .ok note → scanOne ext disk.fs vaultRoot other = .ok held →
      note.path = held.path → path = other
  uniform : ∀ path ∈ candidates disk vaultRoot real, ∀ other ∈ candidates disk vaultRoot real, ∀ note held,
    scanOne ext disk.fs vaultRoot path = .ok note → scanOne ext disk.fs vaultRoot other = .ok held →
      ∀ (key : Text) (v w : Value), note.frontmatter[key]? = some v → held.frontmatter[key]? = some w →
        shapeOf v = shapeOf w

section

variable {ext : External} {disk : Disk} {vaultRoot : PathBuf} {real : Location}

theorem detectPathCollisions_eq_nil_iff {paths : List Text} :
    detectPathCollisions paths = [] ↔ paths.Nodup := by
  rw [List.eq_nil_iff_forall_not_mem, List.nodup_iff_count_le_one]
  constructor
  · intro clear path
    by_contra several
    exact clear ⟨path, paths.count path⟩ (mem_detectPathCollisions.mpr
      ⟨Nat.lt_of_not_le several, rfl⟩)
  · intro single collision member
    obtain ⟨several, count⟩ := mem_detectPathCollisions.mp member
    have once := single collision.path
    omega

theorem toOption_eq_some {α ε : Type} {result : Except ε α} {value : α} :
    result.toOption = some value ↔ result = .ok value := by
  cases result <;> simp [Except.toOption]

/-- No issue and no warning means that every directory is listed and every file read, with a
mapping or nothing. -/
theorem quiet_iff {files directories : List PathBuf} {result : ScanResult}
    (accounts : Accounts ext disk vaultRoot files directories result) :
    result.issues = [] ∧ result.warnings = [] ↔ directories = [] ∧
      ∀ path ∈ files, ∃ note, scanOneAudit ext disk.fs vaultRoot path = .ok (note, none) := by
  constructor
  · rintro ⟨issues, warnings⟩
    have unissued : ∀ issue, issue ∉ result.issues := by simp [issues]
    refine ⟨List.eq_nil_iff_forall_not_mem.mpr fun path denies => ?_, fun path listed => ?_⟩
    · exact unissued _ ((accounts.issues path _).mpr (.inr ⟨denies, rfl⟩))
    · cases read : scanOneAudit ext disk.fs vaultRoot path with
      | error kind => exact absurd ((accounts.issues path kind).mpr (.inl ⟨listed, read⟩)) (unissued _)
      | ok value =>
        obtain ⟨note, warning⟩ := value
        cases warning with
        | none => exact ⟨note, rfl⟩
        | some kind =>
          have warned := (accounts.warnings path kind).mpr ⟨listed, note, read⟩
          rw [warnings] at warned
          cases warned
  · rintro ⟨open_, reads⟩
    constructor
    · refine List.eq_nil_iff_forall_not_mem.mpr fun issue member => ?_
      rcases (accounts.issues issue.path issue.kind).mp member with ⟨listed, failed⟩ | ⟨denies, _⟩
      · obtain ⟨note, read⟩ := reads issue.path listed
        rw [failed] at read
        cases read
      · rw [open_] at denies
        cases denies
    · refine List.eq_nil_iff_forall_not_mem.mpr fun warning member => ?_
      obtain ⟨listed, _, warned⟩ := (accounts.warnings warning.path warning.kind).mp member
      obtain ⟨note, read⟩ := reads warning.path listed
      rw [warned] at read
      cases read

theorem paths_nodup_iff {files directories : List PathBuf} {result : ScanResult}
    (accounts : Accounts ext disk vaultRoot files directories result) : (result.notes.map Note.path).Nodup ↔
    ∀ path ∈ files, ∀ other ∈ files, ∀ note held, scanOne ext disk.fs vaultRoot path = .ok note →
      scanOne ext disk.fs vaultRoot other = .ok held → note.path = held.path → path = other := by
  rw [List.nodup_iff_pairwise_ne, List.pairwise_map, accounts.notes, List.pairwise_filterMap]
  simp only [toOption_eq_some]
  constructor
  · intro pairwise path inFiles other inOthers note held read readOther same
    have symmetric : Std.Symm fun path other => ∀ note, scanOne ext disk.fs vaultRoot path = .ok note →
        ∀ held, scanOne ext disk.fs vaultRoot other = .ok held → note.path ≠ held.path :=
      ⟨fun _ _ apart note read held readOther same => apart held readOther note read same.symm⟩
    by_contra differ
    exact pairwise.forall inFiles inOthers differ note read held readOther same
  · intro apart
    refine accounts.distinct.pairwise_of_forall_ne fun path inFiles other inOthers differ note read held
      readOther same => ?_
    exact differ (apart path inFiles other inOthers note held read readOther same)

theorem isClean_iff (ext : External) (reached : resolve disk.fs true vaultRoot = .ok (real, .dir)) :
    (run ext disk vaultRoot).isClean = true ↔ CleanVault ext disk vaultRoot real := by
  have accounts := accounts_of_scan ext reached
  have mem_notes : ∀ note, note ∈ (scan ext disk vaultRoot).notes ↔
      ∃ path ∈ candidates disk vaultRoot real, scanOne ext disk.fs vaultRoot path = .ok note := by
    intro note
    rw [accounts.notes, List.mem_filterMap]
    simp only [toOption_eq_some]
  simp only [Report.isClean, run, Bool.and_eq_true, List.isEmpty_iff]
  rw [quiet_iff accounts, denied_eq_nil_iff (lookup_of_resolve reached), detectPathCollisions_eq_nil_iff, paths_nodup_iff accounts,
    detectTypeDrift_eq_nil_iff]
  constructor
  · rintro ⟨⟨⟨listed, read⟩, apart⟩, uniform⟩
    refine ⟨listed, read, apart, fun path listed other inOthers note held readNote readOther => ?_⟩
    exact uniform note ((mem_notes note).mpr ⟨path, listed, readNote⟩) held
      ((mem_notes held).mpr ⟨other, inOthers, readOther⟩)
  · rintro ⟨listed, read, apart, uniform⟩
    refine ⟨⟨⟨listed, read⟩, apart⟩, fun note member held heldMember => ?_⟩
    obtain ⟨path, listed, readNote⟩ := (mem_notes note).mp member
    obtain ⟨other, inOthers, readOther⟩ := (mem_notes held).mp heldMember
    exact uniform path listed other inOthers note held readNote readOther

/-- The report ends with its verdict, and the two verdicts end differently. -/
theorem ok_suffix_iff (display : Display) (vaultRoot : PathBuf) (report : Report) :
    "\nOK.\n".toList <:+ render display vaultRoot report ↔ report.isClean = true := by
  have ends : verdict report <:+ render display vaultRoot report := List.suffix_append _ _
  cases clean : report.isClean with
  | true => simpa [verdict, clean] using ends
  | false =>
    refine iff_of_false (fun ok => ?_) (by simp)
    rw [verdict, if_neg (by simp [clean])] at ends
    exact absurd (List.suffix_of_suffix_length_le ok ends (by decide)) (by decide)

/-- The exit code and the last line tell exactly whether the vault is clean. -/
theorem doctor_tells_clean (ext : External) (display : Display)
    (reached : resolve disk.fs true vaultRoot = .ok (real, .dir)) :
    ((runAndRender display ext disk vaultRoot).2 = 0 ↔
      CleanVault ext disk vaultRoot real) ∧
    ("\nOK.\n".toList <:+ (runAndRender display ext disk vaultRoot).1 ↔
      CleanVault ext disk vaultRoot real) := by
  have code : (runAndRender display ext disk vaultRoot).2 = 0 ↔ (run ext disk vaultRoot).isClean = true := by
    simp [runAndRender]
  exact ⟨code.trans (isClean_iff ext reached),
    (ok_suffix_iff display vaultRoot (run ext disk vaultRoot)).trans (isClean_iff ext reached)⟩

end

def Display.bare : Display := ⟨fun _ => [], fun _ => [], []⟩

/-- One folder that cannot be listed is enough. -/
theorem doctor_tells_clean_denied :
    (runAndRender .bare .bare deniedFolder (Location.raw [vaultName])).2 ≠ 0 ∧
      ¬ "\nOK.\n".toList <:+ (runAndRender .bare .bare deniedFolder (Location.raw [vaultName])).1 := by
  have reached : resolve deniedFolder.fs true (Location.raw [vaultName]) = .ok ([vaultName], .dir) :=
    resolve_found oneNote_tame.directory (.inr fun _ same => by cases same)
  have unclean : ¬ CleanVault .bare deniedFolder (Location.raw [vaultName]) [vaultName] := by
    intro clean
    have listed := clean.listed [folderName] (by decide) (by decide)
    exact absurd listed (by decide)
  obtain ⟨code, verdict⟩ := doctor_tells_clean .bare .bare reached
  exact ⟨fun zero => unclean (code.mp zero), fun ok => unclean (verdict.mp ok)⟩

end Anwesen.Doctor

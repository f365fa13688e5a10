import Anwesen.Vault.Tame

/-! What a scan makes of every file it comes across.

Each visible Markdown file the walk arrives at gives a note or an issue, in the order
of the walk, each directory that cannot be listed an issue, and nothing else gives either.
-/

set_option autoImplicit false

namespace Anwesen.Vault

open Foundation

section

variable (ext : External) (fs : Fs) (vaultRoot : PathBuf)

def issueAt (path : PathBuf) : Option ScanIssue :=
  match scanOneAudit ext fs vaultRoot path with
  | .ok _ => none
  | .error kind => some ⟨path, kind⟩

def warningAt (path : PathBuf) : Option ScanWarning :=
  match scanOneAudit ext fs vaultRoot path with
  | .ok (_, warning) => warning.map (ScanWarning.mk path)
  | .error _ => none

/-- The issue an entry of a walk contributes. -/
def entryIssue (entry : DirEntry) : Option ScanIssue :=
  if entry.isFile && isMarkdown entry.path then issueAt ext fs vaultRoot entry.path else none

/-- The warning an entry of a walk contributes. -/
def entryWarning (entry : DirEntry) : Option ScanWarning :=
  if entry.isFile && isMarkdown entry.path then warningAt ext fs vaultRoot entry.path else none

/-- An entry that could not be walked contributes an issue and nothing else. -/
def walkedIssue : Except PathBuf DirEntry → Option ScanIssue
  | .error path => some ⟨path, .io .other⟩
  | .ok entry => entryIssue ext fs vaultRoot entry

/-- One turn of the loop, as what its entry contributes. -/
theorem scanWalked_eq (result : ScanResult) (walked : Except PathBuf DirEntry) :
    scanWalked ext fs vaultRoot result walked =
      { notes := result.notes ++ (walked.toOption.bind (entryNote ext fs vaultRoot)).toList
        issues := result.issues ++ (walkedIssue ext fs vaultRoot walked).toList
        warnings := result.warnings ++ (walked.toOption.bind (entryWarning ext fs vaultRoot)).toList } := by
  cases walked with
  | error path => simp [scanWalked, walkedIssue, Except.toOption]
  | ok entry =>
    simp only [scanWalked, walkedIssue, Except.toOption, Option.bind_some]
    unfold scanEntry entryNote entryIssue entryWarning issueAt warningAt scanOne
    cases entry.isFile <;> cases isMarkdown entry.path <;> try simp
    cases scanOneAudit ext fs vaultRoot entry.path <;> simp [Except.map, Except.toOption]

theorem foldl_scanWalked (walk : List (Except PathBuf DirEntry)) (result : ScanResult) :
    walk.foldl (scanWalked ext fs vaultRoot) result =
      { notes := result.notes ++ walk.filterMap fun walked =>
          walked.toOption.bind (entryNote ext fs vaultRoot)
        issues := result.issues ++ walk.filterMap (walkedIssue ext fs vaultRoot)
        warnings := result.warnings ++ walk.filterMap fun walked =>
          walked.toOption.bind (entryWarning ext fs vaultRoot) } := by
  induction walk generalizing result with
  | nil => simp
  | cons walked rest ih =>
    rw [List.foldl_cons, ih, scanWalked_eq]
    simp only [List.append_assoc, List.filterMap_cons]
    congr 2 <;> split <;> simp [*]

end

section

variable (ext : External) (disk : Disk) (vaultRoot : PathBuf) (real : Location)

/-- A file the scan reads: regular, and Markdown by its name. -/
def isCandidate (entry : Location × Node Leaf) : Bool :=
  isFile entry.2 && isMarkdown (walkedPath vaultRoot entry.1)

/-- The files a scan has to account for. -/
def candidates : List PathBuf :=
  ((disk.reached real).filter (isCandidate vaultRoot)).map fun entry => walkedPath vaultRoot entry.1

/-- The directories it comes to and cannot list. -/
def denied : List PathBuf :=
  ((disk.reached real).filter (disk.denies real)).map fun entry => walkedPath vaultRoot entry.1

/-- The issue a node contributes that the walk arrives at. -/
def reachedIssue (entry : Location × Node Leaf) : Option ScanIssue :=
  if disk.denies real entry then some ⟨walkedPath vaultRoot entry.1, .io .other⟩
  else if isCandidate vaultRoot entry then issueAt ext disk.fs vaultRoot (walkedPath vaultRoot entry.1)
  else none

/-- A result accounts for files and directories: each file is read once, in the order of
the list, and is a note, with its warning, or an issue; each directory is an issue. -/
structure Accounts (files directories : List PathBuf) (result : ScanResult) : Prop where
  distinct : files.Nodup
  notes : result.notes = files.filterMap fun path => (scanOne ext disk.fs vaultRoot path).toOption
  total : result.notes.length + result.issues.length = files.length + directories.length
  issues : ∀ path kind, ⟨path, kind⟩ ∈ result.issues ↔
    (path ∈ files ∧ scanOneAudit ext disk.fs vaultRoot path = .error kind) ∨
      (path ∈ directories ∧ kind = .io .other)
  apart : (result.issues.map ScanIssue.path).Nodup
  warnings : ∀ path kind, ⟨path, kind⟩ ∈ result.warnings ↔
    path ∈ files ∧ ∃ note, scanOneAudit ext disk.fs vaultRoot path = .ok (note, some kind)

end

section

variable {ext : External} {disk : Disk} {vaultRoot : PathBuf} {real : Location}

theorem issueAt_eq_some {fs : Fs} {path : PathBuf} {issue : ScanIssue} :
    issueAt ext fs vaultRoot path = some issue ↔
      issue.path = path ∧ scanOneAudit ext fs vaultRoot path = .error issue.kind := by
  obtain ⟨at_, kind⟩ := issue
  unfold issueAt
  cases scanOneAudit ext fs vaultRoot path <;> simp [eq_comm]

theorem warningAt_eq_some {fs : Fs} {path : PathBuf} {warning : ScanWarning} :
    warningAt ext fs vaultRoot path = some warning ↔ warning.path = path ∧
      ∃ note, scanOneAudit ext fs vaultRoot path = .ok (note, some warning.kind) := by
  obtain ⟨at_, kind⟩ := warning
  unfold warningAt
  cases scanOneAudit ext fs vaultRoot path with
  | error _ => simp
  | ok read =>
    obtain ⟨note, found⟩ := read
    cases found <;> simp [eq_comm]

/-- A file is read as a note, or it is an issue. -/
theorem note_or_issue (ext : External) (fs : Fs) (vaultRoot path : PathBuf) :
    (∃ note, (scanOne ext fs vaultRoot path).toOption = some note ∧ issueAt ext fs vaultRoot path = none) ∨
      ∃ kind, (scanOne ext fs vaultRoot path).toOption = none ∧
        issueAt ext fs vaultRoot path = some ⟨path, kind⟩ := by
  rw [scanOne, issueAt]
  cases scanOneAudit ext fs vaultRoot path with
  | ok value => exact .inl ⟨value.1, rfl, rfl⟩
  | error kind => exact .inr ⟨kind, rfl, rfl⟩

theorem visible_above {outer tail : Location} (above : outer <+: tail) (shown_ : visible tail = true) :
    visible outer = true := by
  obtain ⟨rest, rfl⟩ := above
  exact (visible_append.mp shown_).1

/-- A directory is no file. -/
theorem not_candidate {entry : Location × Node Leaf} (denies : disk.denies real entry = true) :
    isCandidate vaultRoot entry = false := by
  obtain ⟨tail, node⟩ := entry
  simp only [Disk.denies, Bool.and_eq_true, decide_eq_true_eq] at denies
  rw [isCandidate, denies.1]
  rfl

theorem reachedIssue_eq_some {entry : Location × Node Leaf} {issue : ScanIssue} :
    reachedIssue ext disk vaultRoot real entry = some issue ↔
      walkedPath vaultRoot entry.1 = issue.path ∧
        (disk.denies real entry = true ∧ issue.kind = .io .other ∨
          isCandidate vaultRoot entry = true ∧
            scanOneAudit ext disk.fs vaultRoot (walkedPath vaultRoot entry.1) = .error issue.kind) := by
  obtain ⟨path, kind⟩ := issue
  rw [reachedIssue]
  cases denies : disk.denies real entry with
  | true => simp [not_candidate denies, eq_comm]
  | false =>
    cases isCandidate vaultRoot entry with
    | false => simp
    | true => simp [issueAt_eq_some, eq_comm]

theorem mem_candidates (directory : disk.fs.lookup real = some .dir) {path : PathBuf} :
    path ∈ candidates disk vaultRoot real ↔ ∃ tail content, visible tail = true ∧
      disk.fs.lookup (real ++ tail) = some (.leaf (.file content)) ∧
      disk.arrives real tail = true ∧ path = walkedPath vaultRoot tail ∧ isMarkdown path = true := by
  simp only [candidates, isCandidate, List.mem_map, List.mem_filter, Prod.exists,
    Disk.mem_reached directory, Bool.and_eq_true, visible, List.all_eq_true, Bool.not_eq_true']
  constructor
  · rintro ⟨tail, node, ⟨⟨found, shown_, arrives⟩, regular, markdown⟩, rfl⟩
    obtain ⟨content, rfl⟩ := isFile_iff.mp regular
    exact ⟨tail, content, shown_, found, arrives, rfl, markdown⟩
  · rintro ⟨tail, content, shown_, found, arrives, rfl, markdown⟩
    exact ⟨tail, _, ⟨⟨found, shown_, arrives⟩, rfl, markdown⟩, rfl⟩

theorem mem_denied (directory : disk.fs.lookup real = some .dir) {path : PathBuf} :
    path ∈ denied disk vaultRoot real ↔ ∃ tail, visible tail = true ∧
      disk.fs.lookup (real ++ tail) = some .dir ∧ disk.arrives real tail = true ∧
      disk.unlisted (real ++ tail) = true ∧ path = walkedPath vaultRoot tail := by
  simp only [denied, Disk.denies, List.mem_map, List.mem_filter, Prod.exists,
    Disk.mem_reached directory, Bool.and_eq_true, decide_eq_true_eq, visible, List.all_eq_true,
    Bool.not_eq_true']
  constructor
  · rintro ⟨tail, node, ⟨⟨found, shown_, arrives⟩, rfl, unlisted⟩, rfl⟩
    exact ⟨tail, shown_, found, arrives, unlisted, rfl⟩
  · rintro ⟨tail, shown_, found, arrives, unlisted, rfl⟩
    exact ⟨tail, _, ⟨⟨found, shown_, arrives⟩, rfl, unlisted⟩, rfl⟩

theorem reached_nodup : ((disk.reached real).map fun entry => walkedPath vaultRoot entry.1).Nodup := by
  have tails : ((([], .dir) :: disk.fs.under real).map Prod.fst).Nodup := by
    refine List.nodup_cons.mpr ⟨fun member => ?_, disk.fs.under_unique real⟩
    obtain ⟨⟨tail, node⟩, listed, top⟩ := List.mem_map.mp member
    exact (FileTree.mem_under.mp listed).1 top
  have kept : ((disk.reached real).map Prod.fst).Nodup := (List.filter_sublist.map Prod.fst).nodup tails
  have moved := kept.map (walkedPath_injective vaultRoot)
  rwa [List.map_map] at moved

/-- What the walked entries contribute to a part of the result, from the nodes reached. -/
theorem filterMap_visit {β : Type} {contribution : Except PathBuf DirEntry → Option β}
    {read : Location × Node Leaf → Option β}
    (same : ∀ entry, (disk.visit vaultRoot real entry).filterMap contribution = (read entry).toList) :
    ((disk.reached real).flatMap (disk.visit vaultRoot real)).filterMap contribution =
      (disk.reached real).filterMap read := by
  rw [List.filterMap_flatMap, List.filterMap_eq_flatMap_toList]
  exact List.flatMap_congr fun entry _ => same entry

/-- The error of a listing contributes nothing to a part that only files add to. -/
theorem visit_filterMap_ok {β : Type} (contribution : DirEntry → Option β) (entry : Location × Node Leaf) :
    ((disk.visit vaultRoot real entry).filterMap fun walked => walked.toOption.bind contribution) =
      (contribution ⟨walkedPath vaultRoot entry.1, isFile entry.2⟩).toList := by
  rw [Disk.visit]
  cases disk.denies real entry <;>
    cases contributed : contribution ⟨walkedPath vaultRoot entry.1, isFile entry.2⟩ <;>
      simp [Except.toOption, contributed]

theorem visit_filterMap_issue (entry : Location × Node Leaf) :
    (disk.visit vaultRoot real entry).filterMap (walkedIssue ext disk.fs vaultRoot) =
      (reachedIssue ext disk vaultRoot real entry).toList := by
  have file : entryIssue ext disk.fs vaultRoot ⟨walkedPath vaultRoot entry.1, isFile entry.2⟩ =
      if isCandidate vaultRoot entry then issueAt ext disk.fs vaultRoot (walkedPath vaultRoot entry.1)
      else none := rfl
  rw [Disk.visit, reachedIssue]
  cases denies : disk.denies real entry with
  | true => simp [walkedIssue, file, not_candidate denies]
  | false =>
    simp only [Bool.false_eq_true, if_false, List.filterMap_cons, List.filterMap_nil, walkedIssue, file]
    split <;> simp [*]

/-- Keeping the files first changes nothing about what each contributes. -/
theorem filterMap_candidates {β : Type} (read : PathBuf → Option β) :
    ((disk.reached real).filterMap fun entry =>
        if isCandidate vaultRoot entry then read (walkedPath vaultRoot entry.1) else none) =
      (candidates disk vaultRoot real).filterMap read := by
  rw [candidates, List.filterMap_map, List.filterMap_filter]
  rfl

theorem walkDir_reached (reached : resolve disk.fs true vaultRoot = .ok (real, .dir)) :
    disk.walkDir vaultRoot = (disk.reached real).flatMap (disk.visit vaultRoot real) := by
  rcases resolve_nofollow disk.fs vaultRoot with same | ⟨link, target, linked⟩
  · simp only [Disk.walkDir, same, reached]
  · simp only [Disk.walkDir, linked, reached]

theorem scan_eq (reached : resolve disk.fs true vaultRoot = .ok (real, .dir)) :
    scan ext disk vaultRoot =
      { notes := (candidates disk vaultRoot real).filterMap fun path =>
          (scanOne ext disk.fs vaultRoot path).toOption
        issues := (disk.reached real).filterMap (reachedIssue ext disk vaultRoot real)
        warnings := (candidates disk vaultRoot real).filterMap (warningAt ext disk.fs vaultRoot) } := by
  simp only [scan, scanFrom, walkDir_reached reached, foldl_scanWalked, List.nil_append]
  rw [ScanResult.mk.injEq, ← filterMap_candidates, ← filterMap_candidates]
  exact ⟨filterMap_visit (visit_filterMap_ok _), filterMap_visit visit_filterMap_issue,
    filterMap_visit (visit_filterMap_ok _)⟩

/-- Every reached file is read as a note or as an issue. -/
theorem length_notes_issues (entries : List (Location × Node Leaf)) :
    (((entries.filter (isCandidate vaultRoot)).map fun entry => walkedPath vaultRoot entry.1).filterMap
        fun path => (scanOne ext disk.fs vaultRoot path).toOption).length +
      (entries.filterMap (reachedIssue ext disk vaultRoot real)).length =
    (entries.filter (isCandidate vaultRoot)).length + (entries.filter (disk.denies real)).length := by
  induction entries with
  | nil => rfl
  | cons entry rest ih =>
    cases denies : disk.denies real entry with
    | true =>
      have issued : reachedIssue ext disk vaultRoot real entry =
          some ⟨walkedPath vaultRoot entry.1, .io .other⟩ := by rw [reachedIssue, if_pos denies]
      rw [List.filterMap_cons_some issued, List.filter_cons_of_pos denies,
        List.filter_cons_of_neg (by simp [not_candidate denies])]
      simp only [List.length_cons]
      omega
    | false =>
      rw [List.filter_cons_of_neg (p := disk.denies real) (by simp [denies])]
      cases kept : isCandidate vaultRoot entry with
      | false =>
        have clear : reachedIssue ext disk vaultRoot real entry = none := by
          simp [reachedIssue, denies, kept]
        rwa [List.filterMap_cons_none clear, List.filter_cons_of_neg (by simp [kept])]
      | true =>
        have issue : reachedIssue ext disk vaultRoot real entry =
            issueAt ext disk.fs vaultRoot (walkedPath vaultRoot entry.1) := by
          simp [reachedIssue, denies, kept]
        rw [List.filter_cons_of_pos kept, List.map_cons, List.filterMap_cons, List.filterMap_cons, issue,
          List.length_cons]
        -- a file is one or the other
        rcases note_or_issue ext disk.fs vaultRoot (walkedPath vaultRoot entry.1) with
          ⟨note, noted, clear⟩ | ⟨kind, unread, issued⟩
        · simp only [noted, clear, List.length_cons]
          omega
        · simp only [unread, issued, List.length_cons]
          omega

/-- A scan accounts for the visible Markdown files it arrives at and for the directories
it cannot list. -/
theorem accounts_of_scan (ext : External) (reached : resolve disk.fs true vaultRoot = .ok (real, .dir)) :
    Accounts ext disk vaultRoot (candidates disk vaultRoot real) (denied disk vaultRoot real)
      (scan ext disk vaultRoot) := by
  have files : (candidates disk vaultRoot real).Nodup := (List.filter_sublist.map _).nodup reached_nodup
  rw [scan_eq reached]
  refine ⟨files, rfl, ?_, fun path kind => ?_, ?_, fun path kind => ?_⟩
  · rw [candidates, denied, List.length_map, List.length_map]
    exact length_notes_issues _
  · simp only [List.mem_filterMap, reachedIssue_eq_some]
    constructor
    · rintro ⟨entry, listed, rfl, ⟨denies, same⟩ | ⟨kept, failed⟩⟩
      · exact .inr ⟨List.mem_map_of_mem (List.mem_filter.mpr ⟨listed, denies⟩), same⟩
      · exact .inl ⟨List.mem_map_of_mem (List.mem_filter.mpr ⟨listed, kept⟩), failed⟩
    · rintro (⟨member, failed⟩ | ⟨member, same⟩)
      · obtain ⟨entry, kept, rfl⟩ := List.mem_map.mp member
        obtain ⟨listed, kept⟩ := List.mem_filter.mp kept
        exact ⟨entry, listed, rfl, .inr ⟨kept, failed⟩⟩
      · obtain ⟨entry, denies, rfl⟩ := List.mem_map.mp member
        obtain ⟨listed, denies⟩ := List.mem_filter.mp denies
        exact ⟨entry, listed, rfl, .inl ⟨denies, same⟩⟩
  · -- the paths of the issues are those of the nodes that give one
    have paths : ((disk.reached real).filterMap (reachedIssue ext disk vaultRoot real)).map ScanIssue.path =
        ((disk.reached real).filter fun entry => (reachedIssue ext disk vaultRoot real entry).isSome).map
          fun entry => walkedPath vaultRoot entry.1 := by
      rw [List.map_filterMap, ← List.filterMap_eq_map', List.filterMap_filter]
      refine List.filterMap_congr fun entry _ => ?_
      cases issued : reachedIssue ext disk vaultRoot real entry with
      | none => simp
      | some issue => simp [(reachedIssue_eq_some.mp issued).1]
    rw [paths]
    exact (List.filter_sublist.map _).nodup reached_nodup
  · simp only [List.mem_filterMap, warningAt_eq_some]
    constructor
    · rintro ⟨_, listed, rfl, read⟩
      exact ⟨listed, read⟩
    · exact fun ⟨listed, read⟩ => ⟨path, listed, rfl, read⟩

/-- What a scan says of a visible Markdown file: where the walk arrives at it, it is one
note or one issue; elsewhere a directory on the way is an issue and the file is none. -/
def Told (ext : External) (disk : Disk) (vaultRoot : PathBuf) (real tail : Location)
    (result : ScanResult) : Prop :=
  if disk.arrives real tail = true then
    Xor (∃ note ∈ result.notes, scanOne ext disk.fs vaultRoot (walkedPath vaultRoot tail) = .ok note)
      (∃ issue ∈ result.issues, issue.path = walkedPath vaultRoot tail)
  else
    (∀ issue ∈ result.issues, issue.path ≠ walkedPath vaultRoot tail) ∧
      ∃ outer, outer <+: tail ∧ outer ≠ tail ∧ ⟨walkedPath vaultRoot outer, .io .other⟩ ∈ result.issues

/-- No visible Markdown file is passed over in silence, each file the walk arrives at is
in the scan once, and so is each directory it cannot list; nothing else is. -/
theorem scan_reads_each_once (ext : External) (reached : resolve disk.fs true vaultRoot = .ok (real, .dir)) :
    (∀ tail content, visible tail = true →
      disk.fs.lookup (real ++ tail) = some (.leaf (.file content)) →
      isMarkdown (walkedPath vaultRoot tail) = true →
      Told ext disk vaultRoot real tail (scan ext disk vaultRoot)) ∧
    (∀ tail, visible tail = true → disk.fs.lookup (real ++ tail) = some .dir →
      disk.arrives real tail = true → disk.unlisted (real ++ tail) = true →
      ⟨walkedPath vaultRoot tail, .io .other⟩ ∈ (scan ext disk vaultRoot).issues) ∧
    (scan ext disk vaultRoot).notes.length + (scan ext disk vaultRoot).issues.length =
      (candidates disk vaultRoot real).length + (denied disk vaultRoot real).length ∧
    ((scan ext disk vaultRoot).issues.map ScanIssue.path).Nodup := by
  have accounts := accounts_of_scan ext reached
  have directory := lookup_of_resolve reached
  refine ⟨fun tail content shown_ found markdown => ?_, fun tail shown_ found arrives unlisted => ?_,
    accounts.total, accounts.apart⟩
  · have no_dir : walkedPath vaultRoot tail ∉ denied disk vaultRoot real := by
      intro member
      obtain ⟨other, _, dir, _, _, same⟩ := (mem_denied directory).mp member
      rw [← walkedPath_injective vaultRoot same, found] at dir
      cases dir
    unfold Told
    split
    · rename_i arrives
      have listed : walkedPath vaultRoot tail ∈ candidates disk vaultRoot real :=
        (mem_candidates directory).mpr ⟨tail, content, shown_, found, arrives, rfl, markdown⟩
      cases read : scanOneAudit ext disk.fs vaultRoot (walkedPath vaultRoot tail) with
      | ok value =>
        have noted : scanOne ext disk.fs vaultRoot (walkedPath vaultRoot tail) = .ok value.1 := by
          rw [scanOne, read]
          rfl
        refine .inl ⟨⟨value.1, ?_, noted⟩, ?_⟩
        · rw [accounts.notes, List.mem_filterMap]
          exact ⟨_, listed, by rw [noted]; rfl⟩
        · rintro ⟨⟨path, kind⟩, member, rfl⟩
          rcases (accounts.issues _ kind).mp member with ⟨_, failed⟩ | ⟨denies, _⟩
          · rw [read] at failed
            cases failed
          · exact no_dir denies
      | error kind =>
        refine .inr ⟨⟨⟨_, kind⟩, (accounts.issues _ kind).mpr (.inl ⟨listed, read⟩), rfl⟩, ?_⟩
        rintro ⟨note, _, noted⟩
        rw [scanOne, read] at noted
        cases noted
    · rename_i stuck
      refine ⟨?_, ?_⟩
      · rintro ⟨path, kind⟩ member rfl
        rcases (accounts.issues _ kind).mp member with ⟨listed, _⟩ | ⟨denies, _⟩
        · obtain ⟨other, _, _, _, arrives, same, _⟩ := (mem_candidates directory).mp listed
          rw [← walkedPath_injective vaultRoot same] at arrives
          exact stuck arrives
        · exact no_dir denies
      · obtain ⟨outer, above, proper, arrives, unlisted⟩ :=
          Disk.exists_of_not_arrives (eq_false_of_ne_true stuck)
        refine ⟨outer, above, proper, (accounts.issues _ _).mpr (.inr ⟨?_, rfl⟩)⟩
        exact (mem_denied directory).mpr ⟨outer, visible_above above shown_,
          (FileTree.lookup_above above found).resolve_left proper, arrives, unlisted, rfl⟩
  · exact (accounts.issues _ _).mpr
      (.inr ⟨(mem_denied directory).mpr ⟨tail, shown_, found, arrives, unlisted, rfl⟩, rfl⟩)

/-- The vault of one note in a folder that cannot be listed. -/
def deniedFolder : Disk := ⟨oneNote, fun location => location = [vaultName, folderName]⟩

/-- The note is not read, and its folder is the only issue. -/
theorem scan_reads_each_once_denied :
    Told .bare deniedFolder (Location.raw [vaultName]) [vaultName] [folderName, noteName]
      (scan .bare deniedFolder (Location.raw [vaultName])) ∧
    ⟨walkedPath (Location.raw [vaultName]) [folderName], .io .other⟩ ∈
      (scan .bare deniedFolder (Location.raw [vaultName])).issues ∧
    (scan .bare deniedFolder (Location.raw [vaultName])).notes.length +
      (scan .bare deniedFolder (Location.raw [vaultName])).issues.length = 1 := by
  have reached : resolve deniedFolder.fs true (Location.raw [vaultName]) = .ok ([vaultName], .dir) :=
    resolve_found oneNote_tame.directory (.inr fun _ same => by cases same)
  obtain ⟨told, issued, total, _⟩ := scan_reads_each_once .bare reached
  exact ⟨told [folderName, noteName] (plainFile "old") (by decide) (by decide) (by decide),
    issued [folderName] (by decide) (by decide) (by decide) (by decide), total.trans (by decide)⟩

/-- The walk is denied nothing exactly if every visible directory can be listed. -/
theorem denied_eq_nil_iff (directory : disk.fs.lookup real = some .dir) :
    denied disk vaultRoot real = [] ↔ ∀ tail, visible tail = true →
      disk.fs.lookup (real ++ tail) = some .dir → disk.unlisted (real ++ tail) = false := by
  constructor
  · intro none_ tail shown_ found
    by_contra unlisted
    replace unlisted := eq_true_of_ne_false unlisted
    -- the first such directory on the way is one that the walk arrives at
    have met : ∃ path, path ∈ denied disk vaultRoot real := by
      cases arrives : disk.arrives real tail with
      | true => exact ⟨_, (mem_denied directory).mpr ⟨tail, shown_, found, arrives, unlisted, rfl⟩⟩
      | false =>
        obtain ⟨outer, above, proper, arrives, unlisted⟩ := Disk.exists_of_not_arrives arrives
        exact ⟨_, (mem_denied directory).mpr ⟨outer, visible_above above shown_,
          (FileTree.lookup_above above found).resolve_left proper, arrives, unlisted, rfl⟩⟩
    obtain ⟨path, member⟩ := met
    rw [none_] at member
    cases member
  · intro listed
    refine List.eq_nil_iff_forall_not_mem.mpr fun path member => ?_
    obtain ⟨tail, shown_, found, _, unlisted, _⟩ := (mem_denied directory).mp member
    rw [listed tail shown_ found] at unlisted
    cases unlisted

/-- A tame vault whose directories can be listed gives no issue. -/
theorem scan_issues_tame {fs : Fs} {root : Location} (tame : Tame ext fs root) :
    (scan ext fs root.raw).issues = [] := by
  have settled : Settled true (Node.dir : Node Leaf) := .inr fun _ same => by cases same
  have accounts : Accounts ext fs root.raw _ _ (scan ext fs root.raw) :=
    accounts_of_scan ext (resolve_found tame.directory settled)
  refine List.eq_nil_iff_forall_not_mem.mpr fun issue member => ?_
  rcases (accounts.issues issue.path issue.kind).mp member with ⟨listed, failed⟩ | ⟨denies, _⟩
  · obtain ⟨tail, content, shown_, found, _, path, markdown⟩ := (mem_candidates tame.directory).mp listed
    rw [Disk.listed_fs] at failed found
    have below : tail ≠ [] := by
      rintro rfl
      rw [List.append_nil, tame.directory] at found
      cases found
    rw [path, walkedPath, if_neg below, Location.push_raw] at failed markdown
    rw [isMarkdown_raw root below] at markdown
    have note : isNote tail = true := by simp [isNote, shown_, markdown]
    obtain ⟨readable, loads⟩ := tame.loads tail content note found
    rw [← scanOne_tame (tame.plain tail _ found) found readable, scanOne, failed] at loads
    cases loads
  · rw [(denied_eq_nil_iff tame.directory).mpr fun _ _ _ => rfl] at denies
    cases denies

end

end Anwesen.Vault

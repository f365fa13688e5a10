import Anwesen.Foundation.FileTree
import Anwesen.Vault.Paths
import Anwesen.Vault.Value

/-! The file system under the vault, and the probes the program makes of it. -/

set_option autoImplicit false

namespace Anwesen.Vault

open Foundation

structure File where
  bytes : Bytes
  modified : Instant
  readable : Bool
  deriving DecidableEq

/-- The target of a symbolic link, from `/` or from the link's directory. -/
structure LinkTarget where
  absolute : Bool
  segments : PathBuf
  deriving DecidableEq

inductive Leaf where
  | file (content : File)
  | symlink (target : LinkTarget)
  deriving DecidableEq

abbrev Fs := FileTree FileName Leaf

inductive IoErrorKind where
  | notFound | permissionDenied | notADirectory | isADirectory | filesystemLoop | invalidInput | other
  deriving DecidableEq, Repr

/-! Resolving a raw path. -/

section Resolution

variable (fs : Fs) (followLast : Bool)

/-- Walk the remaining segments from a directory; `jump` continues after a link. -/
def walk (jump : Location → PathBuf → Except IoErrorKind (Location × Node Leaf)) :
    Location → PathBuf → Except IoErrorKind (Location × Node Leaf)
  | at_, [] => .ok (at_, .dir)
  | at_, segment :: rest =>
      -- doubled slashes and `.` stay, `..` climbs (from `/` to itself)
      if segment = [] ∨ segment = [dot] then walk jump at_ rest
      else if segment = [dot, dot] then walk jump at_.dropLast rest
      else
        match FileName.parse segment with
        | none => .error .invalidInput
        | some name =>
            match fs.lookup (at_ ++ [name]) with
            | none => .error .notFound
            | some .dir => walk jump (at_ ++ [name]) rest
            | some (.leaf (.file content)) =>
                if rest = [] then .ok (at_ ++ [name], .leaf (.file content)) else .error .notADirectory
            -- a link in the middle is always followed, the last one on demand
            | some (.leaf (.symlink target)) =>
                if rest = [] ∧ followLast = false then .ok (at_ ++ [name], .leaf (.symlink target))
                else jump (if target.absolute then [] else at_) (target.segments ++ rest)

/-- A walk that may pass the given number of links. -/
def walkLinks : Nat → Location → PathBuf → Except IoErrorKind (Location × Node Leaf)
  | 0 => walk fs followLast fun _ _ => .error .filesystemLoop
  | links + 1 => walk fs followLast (walkLinks links)

def resolve (path : PathBuf) : Except IoErrorKind (Location × Node Leaf) :=
  -- the kernel gives up (`ELOOP`) after forty links
  walkLinks fs followLast 40 [] path

end Resolution

/-- `Path::is_dir`. -/
def isDir (fs : Fs) (path : PathBuf) : Bool :=
  match resolve fs true path with
  | .ok (_, .dir) => true
  | _ => false

/-- `Path::exists`. -/
def exists_ (fs : Fs) (path : PathBuf) : Bool := (resolve fs true path).isOk

/-- `fs::read` followed by `fs::metadata`, both in one moment: the second succeeds where the
first did. -/
def readFile (fs : Fs) (path : PathBuf) : Except IoErrorKind File :=
  match resolve fs true path with
  | .error kind => .error kind
  | .ok (_, .leaf (.file content)) => if content.readable then .ok content else .error .permissionDenied
  | .ok (_, _) => .error .isADirectory

/-! Directory walks. -/

/-- One entry of a `WalkDir` iteration: its path and whether it is a regular file. -/
structure DirEntry where
  path : PathBuf
  isFile : Bool

def isFile : Node Leaf → Bool
  | .leaf (.file _) => true
  | _ => false

theorem isFile_iff {node : Node Leaf} : isFile node = true ↔ ∃ content, node = .leaf (.file content) := by
  unfold isFile
  split <;> simp_all

theorem readFile_eq_ok {fs : Fs} {path : PathBuf} {content : File} : readFile fs path = .ok content ↔
    (∃ target, resolve fs true path = .ok (target, .leaf (.file content))) ∧ content.readable = true := by
  unfold readFile
  constructor
  · intro opened
    split at opened
    · cases opened
    · split at opened
      · cases opened
        exact ⟨⟨_, ‹_›⟩, ‹_›⟩
      · cases opened
    · cases opened
  · rintro ⟨⟨target, arrives⟩, readable⟩
    simp only [arrives, readable, if_true]

/-- What `filter_entry` lets through below a directory reached under the path `start`. -/
def visibleBelow (fs : Fs) (start : PathBuf) (location : Location) : List DirEntry :=
  ((fs.under location).filter fun entry : Location × Node Leaf =>
    entry.1.all fun name => !isDotPrefixed name.bytes).map
      fun entry => ⟨start.push (Location.raw entry.1), isFile entry.2⟩

/-- The iteration of `WalkDir::new(start).follow_links(false)` where every directory can
be listed: only `start` itself is followed when it is a symbolic link. -/
def walkDir (fs : Fs) (start : PathBuf) : Except IoErrorKind (List DirEntry) := do
  match ← resolve fs false start with
  | (_, .leaf (.file _)) => .ok [⟨start, true⟩]
  | (location, .dir) => .ok (⟨start, false⟩ :: visibleBelow fs start location)
  | (_, .leaf (.symlink _)) =>
      match ← resolve fs true start with
      | (location, .dir) => .ok (⟨start, false⟩ :: visibleBelow fs start location)
      | _ => .ok [⟨start, false⟩]

/-! Walks that are denied the listing of some directories. -/

/-- A file system, and which of its directories cannot be listed. -/
structure Disk where
  fs : Fs
  unlisted : Location → Bool

/-- A file system whose directories can all be listed. -/
def Disk.listed (fs : Fs) : Disk := ⟨fs, fun _ => false⟩

instance : Coe Fs Disk := ⟨Disk.listed⟩

@[simp] theorem Disk.listed_fs (fs : Fs) : (Disk.listed fs).fs = fs := rfl

/-- The path of an entry below `start`; that of `start` is given as it is. -/
def walkedPath (start : PathBuf) (tail : Location) : PathBuf :=
  if tail = [] then start else start.push tail.raw

theorem components_walkedPath (start : PathBuf) (tail : Location) :
    (walkedPath start tail).components = start.components ++ tail.raw := by
  unfold walkedPath
  split
  · simp [*]
  · rw [PathBuf.components_push, Location.components_raw]

theorem walkedPath_injective (start : PathBuf) : Function.Injective (walkedPath start) := by
  intro tail other same
  have components := congrArg PathBuf.components same
  rw [components_walkedPath, components_walkedPath] at components
  exact Location.raw_injective (List.append_cancel_left components)

namespace Disk

variable (disk : Disk) (start : PathBuf) (location : Location)

/-- Every directory on the way down can be listed. -/
def arrives (tail : Location) : Bool :=
  tail.inits.all fun outer => outer = tail || !disk.unlisted (location ++ outer)

/-- The start and what `filter_entry` lets through below it, as far as the listings go. -/
def reached : List (Location × Node Leaf) :=
  (([], .dir) :: disk.fs.under location).filter fun entry =>
    (entry.1.all fun name => !isDotPrefixed name.bytes) && disk.arrives location entry.1

/-- The entry is a directory that cannot be listed. -/
def denies (entry : Location × Node Leaf) : Bool :=
  entry.2 = .dir && disk.unlisted (location ++ entry.1)

/-- An entry, and after a directory that cannot be listed the error of its listing. -/
def visit (entry : Location × Node Leaf) : List (Except PathBuf DirEntry) :=
  .ok ⟨walkedPath start entry.1, isFile entry.2⟩ ::
    if disk.denies location entry then [.error (walkedPath start entry.1)] else []

/-- The iteration of `WalkDir::new(start).follow_links(false)`, errors with their paths. -/
def walkDir : List (Except PathBuf DirEntry) :=
  match resolve disk.fs false start with
  | .error _ => [.error start]
  | .ok (_, .leaf (.file _)) => [.ok ⟨start, true⟩]
  | .ok (location, .dir) => (disk.reached location).flatMap (disk.visit start location)
  | .ok (_, .leaf (.symlink _)) =>
      match resolve disk.fs true start with
      | .error _ => [.error start]
      | .ok (location, .dir) => (disk.reached location).flatMap (disk.visit start location)
      | .ok (_, .leaf _) => [.ok ⟨start, false⟩]

variable {disk location}

theorem arrives_iff {tail : Location} : disk.arrives location tail = true ↔
    ∀ outer, outer <+: tail → outer ≠ tail → disk.unlisted (location ++ outer) = false := by
  simp only [arrives, List.all_eq_true, List.mem_inits, Bool.or_eq_true, decide_eq_true_eq,
    Bool.not_eq_true']
  exact forall₂_congr fun _ _ => or_iff_not_imp_left

/-- Where the walk does not arrive, it came to a directory that it could not list. -/
theorem exists_of_not_arrives {tail : Location} (stuck : disk.arrives location tail = false) :
    ∃ outer, outer <+: tail ∧ outer ≠ tail ∧ disk.arrives location outer = true ∧
      disk.unlisted (location ++ outer) = true := by
  -- by induction on the length: the first such directory is the one it arrives at
  induction deep : tail.length using Nat.strong_induction_on generalizing tail with
  | _ length ih =>
    have blocked : ¬ disk.arrives location tail = true := by simp [stuck]
    rw [arrives_iff] at blocked
    push Not at blocked
    obtain ⟨outer, above, proper, unlisted⟩ := blocked
    replace unlisted := eq_true_of_ne_false unlisted
    cases arrives : disk.arrives location outer with
    | true => exact ⟨outer, above, proper, arrives, unlisted⟩
    | false =>
      have shorter : outer.length < tail.length := lt_of_le_of_ne above.length_le fun same =>
        proper (above.eq_of_length same)
      obtain ⟨first, higher, _, rest⟩ := ih _ (deep ▸ shorter) arrives rfl
      refine ⟨first, higher.trans above, ?_, rest⟩
      rintro rfl
      exact absurd higher.length_le (Nat.not_le_of_lt shorter)

theorem mem_reached {tail : Location} {node : Node Leaf} (directory : disk.fs.lookup location = some .dir) :
    (tail, node) ∈ disk.reached location ↔ disk.fs.lookup (location ++ tail) = some node ∧
      (∀ name ∈ tail, isDotPrefixed name.bytes = false) ∧ disk.arrives location tail = true := by
  simp only [reached, List.mem_filter, List.mem_cons, Prod.mk.injEq, FileTree.mem_under,
    Bool.and_eq_true, List.all_eq_true, Bool.not_eq_true']
  refine and_congr_left' ?_
  by_cases top : tail = []
  · simp [top, directory, eq_comm]
  · simp [top, FileTree.lookup_eq_some]

theorem reached_listed (fs : Fs) : (listed fs).reached location = ([], .dir) ::
    (fs.under location).filter fun entry : Location × Node Leaf =>
      entry.1.all fun name => !isDotPrefixed name.bytes := by
  have open_ : ∀ tail, (listed fs).arrives location tail = true := fun _ => arrives_iff.mpr fun _ _ _ => rfl
  simp only [reached, open_, Bool.and_true]
  rfl

theorem flatMap_visit_listed (fs : Fs) :
    ((listed fs).reached location).flatMap ((listed fs).visit start location) =
      (⟨start, false⟩ :: visibleBelow fs start location).map .ok := by
  have alone : (listed fs).visit start location =
      fun entry => [.ok ⟨walkedPath start entry.1, isFile entry.2⟩] := by
    funext entry
    simp [visit, denies, listed]
  rw [alone, ← List.map_eq_flatMap, reached_listed, List.map_cons, List.map_cons, visibleBelow,
    List.map_map]
  refine congrArg₂ List.cons (by simp [walkedPath, isFile]) (List.map_congr_left fun entry listed => ?_)
  have below := (FileTree.mem_under.mp (List.mem_filter.mp listed).1).1
  simp [walkedPath, below]

/-- Where every directory can be listed, the only error is one at the start. -/
theorem walkDir_listed (fs : Fs) : (listed fs).walkDir start =
    match Vault.walkDir fs start with
    | .error _ => [.error start]
    | .ok entries => entries.map .ok := by
  simp only [walkDir, Vault.walkDir, listed_fs, flatMap_visit_listed]
  cases resolve fs false start with
  | error kind => rfl
  | ok found =>
    obtain ⟨location, _ | _ | target⟩ := found
    · rfl
    · rfl
    · cases resolve fs true start with
      | error kind => rfl
      | ok found =>
        obtain ⟨end_, _ | _⟩ := found <;> rfl

end Disk

/-! Probes of a location that no symbolic link stands above. -/

section Plainly

variable {fs : Fs} {followLast : Bool}
  {jump : Location → PathBuf → Except IoErrorKind (Location × Node Leaf)}

/-- A node the resolution returns where it stands. -/
def Settled (followLast : Bool) (node : Node Leaf) : Prop :=
  followLast = false ∨ ∀ target, node ≠ .leaf (.symlink target)

/-- Some entry on the way to a location is not a directory. -/
def Blocked (fs : Fs) (location : Location) : Prop :=
  ∃ outer content, outer <+: location ∧ fs.lookup outer = some (.leaf content)

def LinkFree (fs : Fs) (location : Location) : Prop :=
  ∀ outer target, outer <+: location → fs.lookup outer ≠ some (.leaf (.symlink target))

theorem not_leaf_above {outer inner : Location} {content : Leaf}
    (directory : fs.lookup inner = some .dir) (above : outer <+: inner) :
    fs.lookup outer ≠ some (.leaf content) := by
  intro leaf
  by_cases same : outer = inner
  · rw [same, directory] at leaf
    cases leaf
  · rw [FileTree.lookup_ancestor directory above same] at leaf
    cases leaf

theorem walk_cons (at_ : Location) (name : FileName) (rest : PathBuf) :
    walk fs followLast jump at_ (name.bytes :: rest) =
      match fs.lookup (at_ ++ [name]) with
      | none => .error .notFound
      | some .dir => walk fs followLast jump (at_ ++ [name]) rest
      | some (.leaf (.file content)) =>
          if rest = [] then .ok (at_ ++ [name], .leaf (.file content)) else .error .notADirectory
      | some (.leaf (.symlink target)) =>
          if rest = [] ∧ followLast = false then .ok (at_ ++ [name], .leaf (.symlink target))
          else jump (if target.absolute then [] else at_) (target.segments ++ rest) := by
  rw [walk, if_neg (by simp [name.valid.1, name.valid.2.1]), if_neg name.valid.2.2.1,
    FileName.parse_bytes]

theorem walk_found {at_ rest : Location} {node : Node Leaf} (directory : fs.lookup at_ = some .dir)
    (found : fs.lookup (at_ ++ rest) = some node) (settled : Settled followLast node) :
    walk fs followLast jump at_ rest.raw = .ok (at_ ++ rest, node) := by
  induction rest generalizing at_ with
  | nil =>
    rw [List.append_nil, directory] at found
    cases found
    simp [walk]
  | cons name rest ih =>
    rw [Location.raw_cons, walk_cons]
    by_cases last : rest = []
    · subst last
      rw [found]
      cases node with
      | dir => simp [walk]
      | leaf content =>
        cases content with
        | file content => simp
        | symlink target =>
          rcases settled with stays | other
          · simp [stays]
          · exact absurd rfl (other target)
    · -- what lies on the way to a found node is a directory
      have middle : fs.lookup (at_ ++ [name]) = some .dir :=
        FileTree.lookup_ancestor found ⟨rest, by simp⟩ (by simp [last])
      have deeper := ih middle (by simpa using found)
      rw [middle]
      simpa using deeper

theorem walk_missing {at_ rest : Location} (directory : fs.lookup at_ = some .dir)
    (missing : fs.lookup (at_ ++ rest) = none) (free : LinkFree fs (at_ ++ rest)) :
    (Blocked fs (at_ ++ rest) ∧ walk fs followLast jump at_ rest.raw = .error .notADirectory) ∨
      (¬ Blocked fs (at_ ++ rest) ∧ walk fs followLast jump at_ rest.raw = .error .notFound) := by
  induction rest generalizing at_ with
  | nil => simp [directory] at missing
  | cons name rest ih =>
    have initial : at_ ++ [name] <+: at_ ++ name :: rest := ⟨rest, by simp⟩
    rw [Location.raw_cons, walk_cons]
    cases found : fs.lookup (at_ ++ [name]) with
    | none =>
      refine .inr ⟨?_, rfl⟩
      rintro ⟨outer, content, above, leaf⟩
      have apart : outer ≠ at_ ++ [name] := by
        rintro rfl
        rw [found] at leaf
        cases leaf
      rcases List.prefix_or_prefix_of_prefix above initial with shorter | longer
      · have here := (List.prefix_concat_iff.mp shorter).resolve_left apart
        exact not_leaf_above directory here leaf
      · rw [FileTree.lookup_ancestor leaf longer (Ne.symm apart)] at found
        cases found
    | some node =>
      cases node with
      | dir =>
        have deeper := ih found (by simpa using missing) (by simpa using free)
        simpa using deeper
      | leaf content =>
        cases content with
        | symlink target => exact absurd found (free _ target initial)
        | file content =>
          refine .inl ⟨⟨_, _, initial, found⟩, ?_⟩
          have more : rest ≠ [] := by
            rintro rfl
            rw [found] at missing
            cases missing
          simp [Location.raw, more]

theorem resolve_found {location : Location} {node : Node Leaf}
    (found : fs.lookup location = some node) (settled : Settled followLast node) :
    resolve fs followLast location.raw = .ok (location, node) :=
  walk_found (FileTree.lookup_root fs) found settled

theorem resolve_missing {location : Location} (missing : fs.lookup location = none)
    (free : LinkFree fs location) :
    (Blocked fs location ∧ resolve fs followLast location.raw = .error .notADirectory) ∨
      (¬ Blocked fs location ∧ resolve fs followLast location.raw = .error .notFound) :=
  walk_missing (FileTree.lookup_root fs) missing free

variable {location : Location}

variable (followLast) in
theorem resolve_error (missing : fs.lookup location = none) (free : LinkFree fs location) :
    ∃ kind, resolve fs followLast location.raw = .error kind := by
  rcases resolve_missing missing free with ⟨_, failed⟩ | ⟨_, failed⟩ <;> exact ⟨_, failed⟩

theorem settled_of_free (free : LinkFree fs location) {node : Node Leaf}
    (found : fs.lookup location = some node) : Settled followLast node :=
  .inr fun target same => free location target (List.prefix_refl _) (same ▸ found)

theorem isDir_raw (free : LinkFree fs location) :
    isDir fs location.raw = true ↔ fs.lookup location = some .dir := by
  cases found : fs.lookup location with
  | none =>
    obtain ⟨kind, failed⟩ := resolve_error true found free
    simp [isDir, failed]
  | some node =>
    simp only [isDir, resolve_found found (settled_of_free free found)]
    cases node <;> simp

theorem exists_raw (free : LinkFree fs location) :
    exists_ fs location.raw = (fs.lookup location).isSome := by
  cases found : fs.lookup location with
  | none =>
    obtain ⟨kind, failed⟩ := resolve_error true found free
    simp [exists_, failed, Except.isOk, Except.toBool]
  | some node =>
    simp [exists_, resolve_found found (settled_of_free free found), Except.isOk, Except.toBool]

theorem readFile_raw {content : File} (found : fs.lookup location = some (.leaf (.file content)))
    (readable : content.readable = true) : readFile fs location.raw = .ok content := by
  have settled : Settled true (.leaf (.file content)) := .inr fun _ same => by cases same
  simp [readFile, resolve_found found settled, readable]

theorem walkDir_raw (directory : fs.lookup location = some .dir) :
    walkDir fs location.raw = .ok (⟨location.raw, false⟩ :: visibleBelow fs location.raw location) := by
  have settled : Settled false (Node.dir : Node Leaf) := .inl rfl
  simp [walkDir, resolve_found directory settled, bind, Except.bind]

theorem mem_visibleBelow {entry : DirEntry} :
    entry ∈ visibleBelow fs location.raw location ↔
      ∃ tail node, tail ≠ [] ∧ fs.lookup (location ++ tail) = some node ∧
        (∀ name ∈ tail, isDotPrefixed name.bytes = false) ∧
        entry = ⟨Location.raw (location ++ tail), isFile node⟩ := by
  simp only [visibleBelow, List.mem_map, List.mem_filter, Prod.exists, FileTree.mem_under,
    List.all_eq_true, Bool.not_eq_true', Location.push_raw]
  constructor
  · rintro ⟨tail, node, ⟨⟨nonempty, listed⟩, visible⟩, rfl⟩
    exact ⟨tail, node, nonempty, FileTree.lookup_of_mem listed, visible, rfl⟩
  · rintro ⟨tail, node, nonempty, found, visible, rfl⟩
    have listed := (FileTree.lookup_eq_some (by simp [nonempty])).mp found
    exact ⟨tail, node, ⟨⟨nonempty, listed⟩, visible⟩, rfl⟩

end Plainly

/-! Probes through symbolic links. -/

section Linked

variable {fs : Fs}

/-- Every location a path resolves to is there. -/
theorem lookup_of_walk {followLast : Bool} {at_ location : Location} {path : PathBuf}
    {node : Node Leaf} {jump : Location → PathBuf → Except IoErrorKind (Location × Node Leaf)}
    (start : fs.lookup at_ = some .dir)
    (jumps : ∀ at_ path, fs.lookup at_ = some .dir → jump at_ path = .ok (location, node) →
      fs.lookup location = some node)
    (resolved : walk fs followLast jump at_ path = .ok (location, node)) :
    fs.lookup location = some node := by
  induction path generalizing at_ with
  | nil =>
    simp only [walk, Except.ok.injEq, Prod.mk.injEq] at resolved
    rw [← resolved.1, ← resolved.2, start]
  | cons segment path ih =>
    rw [walk] at resolved
    split at resolved
    · exact ih start resolved
    split at resolved
    · refine ih ?_ resolved
      by_cases top : at_ = []
      · simp [top]
      · exact FileTree.lookup_dropLast top start
    split at resolved
    · cases resolved
    split at resolved
    · cases resolved
    · rename_i name _ found
      exact ih found resolved
    · rename_i name _ content found
      split at resolved
      · simp only [Except.ok.injEq, Prod.mk.injEq] at resolved
        rw [← resolved.1, ← resolved.2, found]
      · cases resolved
    · rename_i name _ target found
      split at resolved
      · simp only [Except.ok.injEq, Prod.mk.injEq] at resolved
        rw [← resolved.1, ← resolved.2, found]
      · refine jumps _ _ ?_ resolved
        split
        · simp
        · exact start

theorem lookup_of_resolve {followLast : Bool} {location : Location} {path : PathBuf}
    {node : Node Leaf} (resolved : resolve fs followLast path = .ok (location, node)) :
    fs.lookup location = some node := by
  have steps : ∀ (links : Nat) at_ path, fs.lookup at_ = some .dir →
      walkLinks fs followLast links at_ path = .ok (location, node) →
      fs.lookup location = some node := by
    intro links
    induction links with
    | zero => exact fun _ _ start => lookup_of_walk start (fun _ _ _ none_ => by cases none_)
    | succ links ih => exact fun _ _ start => lookup_of_walk start ih
  exact steps 40 [] path (FileTree.lookup_root fs) resolved

/-- Not following the last link changes nothing unless the last segment is a link. -/
theorem walk_nofollow {jumpLink jumpAll : Location → PathBuf → Except IoErrorKind (Location × Node Leaf)}
    (jumps : ∀ at_ path, jumpLink at_ path = jumpAll at_ path ∨
      ∃ location target, jumpLink at_ path = .ok (location, .leaf (.symlink target)))
    (at_ : Location) (path : PathBuf) :
    walk fs false jumpLink at_ path = walk fs true jumpAll at_ path ∨
      ∃ location target, walk fs false jumpLink at_ path = .ok (location, .leaf (.symlink target)) := by
  induction path generalizing at_ with
  | nil => exact .inl rfl
  | cons segment path ih =>
    simp only [walk]
    split
    · exact ih at_
    split
    · exact ih _
    split
    · exact .inl rfl
    split
    · exact .inl rfl
    · exact ih _
    · exact .inl rfl
    · rename_i name _ _ target found
      -- only a link in last place makes a difference
      by_cases last : path = []
      · exact .inr ⟨at_ ++ [name], target, by simp [last]⟩
      · simpa [last] using jumps _ _

variable (fs) in
theorem resolve_nofollow (path : PathBuf) : resolve fs false path = resolve fs true path ∨
    ∃ location target, resolve fs false path = .ok (location, .leaf (.symlink target)) := by
  have steps : ∀ (links : Nat) at_ path,
      walkLinks fs false links at_ path = walkLinks fs true links at_ path ∨
        ∃ location target, walkLinks fs false links at_ path =
          .ok (location, .leaf (.symlink target)) := by
    intro links
    induction links with
    | zero => exact walk_nofollow fun _ _ => .inl rfl
    | succ links ih => exact walk_nofollow ih
  exact steps 40 [] path

theorem walkDir_of_dir {start : PathBuf} {location : Location}
    (reached : resolve fs true start = .ok (location, .dir)) :
    walkDir fs start = .ok (⟨start, false⟩ :: visibleBelow fs start location) := by
  rcases resolve_nofollow fs start with same | ⟨link, target, linked⟩
  · simp [walkDir, same, reached, bind, Except.bind]
  · simp [walkDir, linked, reached, bind, Except.bind]

end Linked

end Anwesen.Vault

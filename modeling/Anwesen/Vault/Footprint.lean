import Anwesen.Vault.FileSystem

/-! What a walk looks at.

A resolution depends on the locations it looks up and on nothing else of the
tree, so that trees which agree on them resolve the path alike.
-/

set_option autoImplicit false

namespace Anwesen.Vault

open Foundation

section Steps

variable {fs : Fs} {followLast : Bool} {links : Nat} {at_ : Location} {segment : Bytes}
  {name : FileName} {rest : PathBuf}

/-- A segment that is no step at all, of the names Linux admits. -/
def Invalid (segment : Bytes) : Prop :=
  PathBuf.trivial segment = false ∧ segment ≠ [dot, dot] ∧ FileName.parse segment = none

theorem walkLinks_nil : walkLinks fs followLast links at_ [] = .ok (at_, .dir) := by
  cases links <;> rfl

theorem walkLinks_skip (skip : PathBuf.trivial segment = true) :
    walkLinks fs followLast links at_ (segment :: rest) = walkLinks fs followLast links at_ rest := by
  have skipped : segment = [] ∨ segment = [dot] := by simpa [PathBuf.trivial] using skip
  cases links <;> rw [walkLinks, walk, if_pos skipped]

theorem walkLinks_climb : walkLinks fs followLast links at_ ([dot, dot] :: rest) =
    walkLinks fs followLast links at_.dropLast rest := by
  cases links <;> rw [walkLinks, walk, if_neg (by simp), if_pos rfl]

theorem walkLinks_invalid (invalid : Invalid segment) :
    walkLinks fs followLast links at_ (segment :: rest) = .error .invalidInput := by
  have goes : ¬ (segment = [] ∨ segment = [dot]) := by simpa [PathBuf.trivial] using invalid.1
  cases links <;> rw [walkLinks, walk, if_neg goes, if_neg invalid.2.1, invalid.2.2]

theorem walkLinks_missing (missing : fs.lookup (at_ ++ [name]) = none) :
    walkLinks fs followLast links at_ (name.bytes :: rest) = .error .notFound := by
  cases links <;> rw [walkLinks, walk_cons, missing]

theorem walkLinks_down (directory : fs.lookup (at_ ++ [name]) = some .dir) :
    walkLinks fs followLast links at_ (name.bytes :: rest) =
      walkLinks fs followLast links (at_ ++ [name]) rest := by
  cases links <;> rw [walkLinks, walk_cons, directory]

theorem walkLinks_file {content : File} (found : fs.lookup (at_ ++ [name]) = some (.leaf (.file content))) :
    walkLinks fs followLast links at_ (name.bytes :: rest) =
      if rest = [] then .ok (at_ ++ [name], .leaf (.file content)) else .error .notADirectory := by
  cases links <;> rw [walkLinks, walk_cons, found]

/-- Where the walk goes on after a link. -/
def LinkTarget.start (target : LinkTarget) (at_ : Location) : Location :=
  if target.absolute then [] else at_

theorem walkLinks_stay {target : LinkTarget}
    (found : fs.lookup (at_ ++ [name]) = some (.leaf (.symlink target))) :
    walkLinks fs false links at_ [name.bytes] = .ok (at_ ++ [name], .leaf (.symlink target)) := by
  cases links <;> rw [walkLinks, walk_cons, found] <;> rfl

theorem walkLinks_loop {target : LinkTarget} (goes : rest ≠ [] ∨ followLast = true)
    (found : fs.lookup (at_ ++ [name]) = some (.leaf (.symlink target))) :
    walkLinks fs followLast 0 at_ (name.bytes :: rest) = .error .filesystemLoop := by
  have followed : ¬ (rest = [] ∧ followLast = false) := by
    rcases goes with more | follow <;> simp [*]
  simp only [walkLinks, walk_cons, found, if_neg followed]

theorem walkLinks_follow {target : LinkTarget} (goes : rest ≠ [] ∨ followLast = true)
    (found : fs.lookup (at_ ++ [name]) = some (.leaf (.symlink target))) :
    walkLinks fs followLast (links + 1) at_ (name.bytes :: rest) =
      walkLinks fs followLast links (target.start at_) (target.segments ++ rest) := by
  have followed : ¬ (rest = [] ∧ followLast = false) := by
    rcases goes with more | follow <;> simp [*]
  simp only [walkLinks, walk_cons, found, if_neg followed, LinkTarget.start]

/-- Induction along a walk: over the links it may still pass, and then over the path. -/
theorem walk_induction {motive : Nat → Location → PathBuf → Prop}
    (arrived : ∀ links at_, motive links at_ [])
    (skip : ∀ links at_ segment rest, PathBuf.trivial segment = true → motive links at_ rest →
      motive links at_ (segment :: rest))
    (climb : ∀ links at_ rest, motive links at_.dropLast rest → motive links at_ ([dot, dot] :: rest))
    (invalid : ∀ links at_ segment rest, Invalid segment → motive links at_ (segment :: rest))
    (named : ∀ links at_ (name : FileName) rest, motive links (at_ ++ [name]) rest →
      (∀ fewer start path, links = fewer + 1 → motive fewer start path) →
      motive links at_ (name.bytes :: rest))
    (links : Nat) (at_ : Location) (path : PathBuf) : motive links at_ path := by
  induction links using Nat.strong_induction_on generalizing at_ path with
  | _ links fewer =>
    induction path generalizing at_ with
    | nil => exact arrived links at_
    | cons segment rest ih =>
      by_cases trivial : PathBuf.trivial segment = true
      · exact skip _ _ _ _ trivial (ih at_)
      by_cases parent : segment = [dot, dot]
      · subst parent
        exact climb _ _ _ (ih at_.dropLast)
      cases parsed : FileName.parse segment with
      | none => exact invalid _ _ _ _ ⟨by simpa using trivial, parent, parsed⟩
      | some name =>
        have same : name.bytes = segment := by
          unfold FileName.parse at parsed
          split at parsed
          · cases parsed
            rfl
          · cases parsed
        subst same
        exact named _ _ _ _ (ih _) fun less start path equal => fewer less (by omega) start path

end Steps

/-- The locations a walk looks up, every link followed. -/
inductive LooksUp (fs : Fs) : Nat → Location → PathBuf → Location → Prop where
  | skip {links : Nat} {at_ location : Location} {segment : Bytes} {rest : PathBuf} :
      PathBuf.trivial segment = true → LooksUp fs links at_ rest location →
      LooksUp fs links at_ (segment :: rest) location
  | climb {links : Nat} {at_ location : Location} {rest : PathBuf} :
      LooksUp fs links at_.dropLast rest location → LooksUp fs links at_ ([dot, dot] :: rest) location
  | here {links : Nat} {at_ : Location} {name : FileName} {rest : PathBuf} :
      LooksUp fs links at_ (name.bytes :: rest) (at_ ++ [name])
  | down {links : Nat} {at_ location : Location} {name : FileName} {rest : PathBuf} :
      fs.lookup (at_ ++ [name]) = some .dir → LooksUp fs links (at_ ++ [name]) rest location →
      LooksUp fs links at_ (name.bytes :: rest) location
  | follow {links : Nat} {at_ location : Location} {name : FileName} {rest : PathBuf}
      {target : LinkTarget} :
      fs.lookup (at_ ++ [name]) = some (.leaf (.symlink target)) →
      LooksUp fs links (target.start at_) (target.segments ++ rest) location →
      LooksUp fs (links + 1) at_ (name.bytes :: rest) location

section Frame

variable {fs other : Fs}

/-- Two trees that agree on all that a walk looks up give it one result. -/
theorem walkLinks_frame (followLast : Bool) {links : Nat} {at_ : Location} {path : PathBuf}
    (agree : ∀ location, LooksUp fs links at_ path location → other.lookup location = fs.lookup location) :
    walkLinks other followLast links at_ path = walkLinks fs followLast links at_ path := by
  induction links, at_, path using walk_induction with
  | arrived links at_ => rw [walkLinks_nil, walkLinks_nil]
  | skip links at_ segment rest trivial ih =>
    rw [walkLinks_skip trivial, walkLinks_skip trivial, ih fun _ seen => agree _ (.skip trivial seen)]
  | climb links at_ rest ih =>
    rw [walkLinks_climb, walkLinks_climb, ih fun _ seen => agree _ (.climb seen)]
  | invalid links at_ segment rest invalid =>
    rw [walkLinks_invalid invalid, walkLinks_invalid invalid]
  | named links at_ name rest deeper linked =>
    have here := agree _ .here
    cases found : fs.lookup (at_ ++ [name]) with
    | none => rw [walkLinks_missing found, walkLinks_missing (here.trans found)]
    | some node =>
      rw [found] at here
      cases node with
      | dir =>
        rw [walkLinks_down found, walkLinks_down here, deeper fun _ seen => agree _ (.down found seen)]
      | leaf leaf =>
        cases leaf with
        | file content => rw [walkLinks_file found, walkLinks_file here]
        | symlink target =>
          by_cases goes : rest ≠ [] ∨ followLast = true
          · cases links with
            | zero => rw [walkLinks_loop goes found, walkLinks_loop goes here]
            | succ fewer =>
              rw [walkLinks_follow goes found, walkLinks_follow goes here,
                linked fewer _ _ rfl fun _ seen => agree _ (.follow found seen)]
          · obtain ⟨rfl, rfl⟩ : rest = [] ∧ followLast = false := by simpa using goes
            rw [walkLinks_stay found, walkLinks_stay here]

theorem resolve_frame (followLast : Bool) {path : PathBuf}
    (agree : ∀ location, LooksUp fs 40 [] path location → other.lookup location = fs.lookup location) :
    resolve other followLast path = resolve fs followLast path :=
  walkLinks_frame followLast agree

end Frame

/-! What a walk looked up, by its first segment. -/

namespace LooksUp

variable {fs : Fs} {links : Nat} {at_ location : Location} {segment : Bytes} {name : FileName}
  {rest : PathBuf}

theorem of_skip (trivial : PathBuf.trivial segment = true)
    (seen : LooksUp fs links at_ (segment :: rest) location) : LooksUp fs links at_ rest location := by
  generalize same : segment :: rest = path at seen
  cases seen with
  | skip _ seen => exact (List.cons.inj same).2 ▸ seen
  | climb seen =>
    rw [(List.cons.inj same).1] at trivial
    cases trivial
  | here | down _ _ | follow _ _ =>
    rw [(List.cons.inj same).1, FileName.not_trivial] at trivial
    cases trivial

theorem of_climb (seen : LooksUp fs links at_ ([dot, dot] :: rest) location) :
    LooksUp fs links at_.dropLast rest location := by
  generalize same : [dot, dot] :: rest = path at seen
  cases seen with
  | skip trivial _ =>
    rw [← (List.cons.inj same).1] at trivial
    cases trivial
  | climb seen => exact (List.cons.inj same).2 ▸ seen
  | @here _ _ name _ | @down _ _ _ name _ _ _ | @follow _ _ _ name _ _ _ _ =>
    exact absurd (List.cons.inj same).1.symm name.valid.2.2.1

theorem of_name (seen : LooksUp fs links at_ (name.bytes :: rest) location) :
    location = at_ ++ [name] ∨
      fs.lookup (at_ ++ [name]) = some .dir ∧ LooksUp fs links (at_ ++ [name]) rest location ∨
      ∃ fewer target, links = fewer + 1 ∧ fs.lookup (at_ ++ [name]) = some (.leaf (.symlink target)) ∧
        LooksUp fs fewer (target.start at_) (target.segments ++ rest) location := by
  generalize same : name.bytes :: rest = path at seen
  cases seen with
  | skip trivial _ =>
    rw [← (List.cons.inj same).1, FileName.not_trivial] at trivial
    cases trivial
  | climb _ => exact absurd (List.cons.inj same).1 name.valid.2.2.1
  | here =>
    obtain rfl := Location.bytes_injective (List.cons.inj same).1
    exact .inl rfl
  | down directory seen =>
    obtain rfl := Location.bytes_injective (List.cons.inj same).1
    obtain rfl := (List.cons.inj same).2
    exact .inr (.inl ⟨directory, seen⟩)
  | follow found seen =>
    obtain rfl := Location.bytes_injective (List.cons.inj same).1
    obtain rfl := (List.cons.inj same).2
    exact .inr (.inr ⟨_, _, rfl, found, seen⟩)

theorem of_trivial {lead : PathBuf} (trivial : ∀ segment ∈ lead, PathBuf.trivial segment = true)
    (seen : LooksUp fs links at_ (lead ++ rest) location) : LooksUp fs links at_ rest location := by
  induction lead with
  | nil => exact seen
  | cons segment lead ih =>
    rw [List.forall_mem_cons] at trivial
    exact ih trivial.2 (of_skip trivial.1 seen)

end LooksUp

/-! Walking on from a directory. -/

section Onward

variable {fs : Fs} {links : Nat} {at_ location : Location} {path : PathBuf}

theorem walkLinks_trivial {followLast : Bool} {lead rest : PathBuf}
    (trivial : ∀ segment ∈ lead, PathBuf.trivial segment = true) :
    walkLinks fs followLast links at_ (lead ++ rest) = walkLinks fs followLast links at_ rest := by
  induction lead with
  | nil => rfl
  | cons segment lead ih =>
    rw [List.forall_mem_cons] at trivial
    rw [List.cons_append, walkLinks_skip trivial.1, ih trivial.2]

/-- A path with the same components leads to the same directory, and a longer path goes
on from there with the links that are left, looking up nothing on the way that the
first path did not. -/
def LeadsOn (fs : Fs) (links : Nat) (at_ : Location) (path : PathBuf) (location : Location) (left : Nat) :
    Prop :=
  ∀ base : PathBuf, base.components = path.components → ∀ rest : PathBuf,
    (∀ followLast, rest ≠ [] ∨ followLast = true →
      walkLinks fs followLast links at_ (base ++ rest) = walkLinks fs followLast left location rest) ∧
    ∀ seen, LooksUp fs links at_ (base ++ rest) seen →
      LooksUp fs links at_ path seen ∨ LooksUp fs left location rest seen

/-- A step over the first segment, into what it stands for and on with the path. -/
theorem LeadsOn.of_step {segment : Bytes} (entered : PathBuf) {fewer left : Nat} {inner : Location}
    (plain : PathBuf.trivial segment = false)
    (walks : ∀ followLast tail, tail ≠ [] ∨ followLast = true →
      walkLinks fs followLast links at_ (segment :: tail) =
        walkLinks fs followLast fewer inner (entered ++ tail))
    (looks : ∀ tail seen, LooksUp fs links at_ (segment :: tail) seen →
      LooksUp fs links at_ (segment :: path) seen ∨ LooksUp fs fewer inner (entered ++ tail) seen)
    (steps : ∀ seen, LooksUp fs fewer inner (entered ++ path) seen →
      LooksUp fs links at_ (segment :: path) seen)
    (onward : LeadsOn fs fewer inner (entered ++ path) location left) :
    LeadsOn fs links at_ (segment :: path) location left := by
  intro base same rest
  rw [PathBuf.components_cons plain] at same
  obtain ⟨lead, tail, rfl, trivial, parts⟩ := PathBuf.exists_of_components same
  have joined : PathBuf.components (entered ++ tail) = PathBuf.components (entered ++ path) := by
    rw [PathBuf.components_append, PathBuf.components_append, parts]
  obtain ⟨arrives, passes⟩ := onward (entered ++ tail) joined rest
  rw [List.append_assoc] at arrives passes
  rw [List.append_assoc, List.cons_append]
  refine ⟨fun followLast goes => ?_, fun seen looked => ?_⟩
  · -- the segment is the last one only where nothing follows
    have more : tail ++ rest ≠ [] ∨ followLast = true :=
      goes.imp_left fun nonempty => by simp [nonempty]
    rw [walkLinks_trivial trivial, walks followLast _ more, arrives followLast goes]
  · rcases looks _ seen (looked.of_trivial trivial) with first | later
    · exact .inl first
    · exact (passes seen later).imp_left (steps seen)

theorem leadsOn (reached : walkLinks fs true links at_ path = .ok (location, .dir)) :
    ∃ left, LeadsOn fs links at_ path location left := by
  induction links, at_, path using walk_induction with
  | arrived links at_ =>
    obtain rfl : at_ = location := by simpa [walkLinks_nil] using reached
    refine ⟨links, fun base same rest => ?_⟩
    have trivial : ∀ segment ∈ base, PathBuf.trivial segment = true := fun segment member => by
      simpa using List.filter_eq_nil_iff.mp same segment member
    exact ⟨fun _ _ => walkLinks_trivial trivial, fun _ seen => .inr (seen.of_trivial trivial)⟩
  | skip links at_ segment path trivial ih =>
    rw [walkLinks_skip trivial] at reached
    obtain ⟨left, onward⟩ := ih reached
    refine ⟨left, fun base same rest => ?_⟩
    obtain ⟨arrives, looks⟩ := onward base
      (same.trans (List.filter_cons_of_neg (by simp [trivial]))) rest
    exact ⟨arrives, fun seen looked => (looks seen looked).imp_left (.skip trivial)⟩
  | climb links at_ path ih =>
    rw [walkLinks_climb] at reached
    obtain ⟨left, onward⟩ := ih reached
    exact ⟨left, onward.of_step [] rfl (fun _ _ _ => walkLinks_climb ..)
      (fun _ _ looked => .inr looked.of_climb) (fun _ looked => .climb looked)⟩
  | invalid links at_ segment path invalid =>
    rw [walkLinks_invalid invalid] at reached
    cases reached
  | named links at_ name path deeper linked =>
    cases found : fs.lookup (at_ ++ [name]) with
    | none =>
      rw [walkLinks_missing found] at reached
      cases reached
    | some node =>
      cases node with
      | dir =>
        rw [walkLinks_down found] at reached
        obtain ⟨left, onward⟩ := deeper reached
        refine ⟨left, onward.of_step [] name.not_trivial
          (fun _ _ _ => walkLinks_down found) (fun tail seen looked => ?_)
          fun _ looked => .down found looked⟩
        rcases looked.of_name with rfl | ⟨_, looked⟩ | ⟨_, _, _, link, _⟩
        · exact .inl .here
        · exact .inr looked
        · rw [found] at link
          cases link
      | leaf leaf =>
        cases leaf with
        | file content =>
          rw [walkLinks_file found] at reached
          split at reached <;> cases reached
        | symlink target =>
          cases links with
          | zero =>
            rw [walkLinks_loop (.inr rfl) found] at reached
            cases reached
          | succ fewer =>
            rw [walkLinks_follow (.inr rfl) found] at reached
            obtain ⟨left, onward⟩ := linked fewer _ _ rfl reached
            refine ⟨left, onward.of_step target.segments name.not_trivial
              (fun _ _ more => walkLinks_follow more found) (fun tail seen looked => ?_)
              fun _ looked => .follow found looked⟩
            rcases looked.of_name with rfl | ⟨directory, _⟩ | ⟨less, other, count, link, looked⟩
            · exact .inl .here
            · rw [found] at directory
              cases directory
            · rw [found] at link
              cases link
              cases count
              exact .inr looked

variable {base : PathBuf} {tail : Location} {node : Node Leaf}

theorem resolve_components (reached : resolve fs true base = .ok (location, .dir))
    (same : path.components = base.components) : resolve fs true path = .ok (location, .dir) := by
  obtain ⟨left, onward⟩ := leadsOn reached
  have whole := (onward path same []).1 true (.inr rfl)
  rwa [List.append_nil, walkLinks_nil] at whole

/-- What a path reaches below a directory it passes, where no link stands in between. -/
theorem resolve_append (followLast : Bool)
    (reached : resolve fs true base = .ok (location, .dir))
    (directory : fs.lookup location = some .dir) (nonempty : tail ≠ [])
    (found : fs.lookup (location ++ tail) = some node) (settled : Settled followLast node) :
    resolve fs followLast (base ++ tail.raw) = .ok (location ++ tail, node) := by
  obtain ⟨left, onward⟩ := leadsOn reached
  have more : tail.raw ≠ [] := by simpa [Location.raw] using nonempty
  rw [resolve, (onward base rfl tail.raw).1 followLast (.inl more)]
  cases left <;> exact walk_found directory found settled

theorem resolve_append_missing (followLast : Bool)
    (reached : resolve fs true base = .ok (location, .dir))
    (directory : fs.lookup location = some .dir) (missing : fs.lookup (location ++ tail) = none)
    (free : LinkFree fs (location ++ tail)) :
    (Blocked fs (location ++ tail) ∧
        resolve fs followLast (base ++ tail.raw) = .error .notADirectory) ∨
      (¬ Blocked fs (location ++ tail) ∧
        resolve fs followLast (base ++ tail.raw) = .error .notFound) := by
  obtain ⟨left, onward⟩ := leadsOn reached
  have more : tail.raw ≠ [] := by
    intro empty
    rw [show tail = [] by simpa [Location.raw] using empty, List.append_nil, directory] at missing
    cases missing
  rw [resolve, (onward base rfl tail.raw).1 followLast (.inl more)]
  cases left <;> exact walk_missing directory missing free

end Onward

end Anwesen.Vault

import Anwesen.Vault.Footprint
import Anwesen.Vault.Tame

/-! Vaults that differ in their dot-directories.

A path whose walk looks at no hidden place resolves alike in all of them, and so
does every walk of a directory that it leads to.
-/

set_option autoImplicit false

namespace Anwesen.Vault

open Foundation

def dotted (name : FileName) : Bool := name.bytes.head? = some dot

/-- A place below the vault's directory with a dot-prefixed name on the way. -/
def hidden (real location : Location) : Bool :=
  real.isPrefixOf location && (location.drop real.length).any dotted

/-- No symbolic link at or below the vault's directory. -/
def Linkless (fs : Fs) (real : Location) : Prop :=
  ∀ tail target, fs.lookup (real ++ tail) ≠ some (.leaf (.symlink target))

/-- Another vault that differs in hidden places only, without symbolic links. -/
structure Sibling (real : Location) (fs other : Fs) : Prop where
  shared : (other.entries.filter fun entry => !hidden real entry.1) =
    fs.entries.filter fun entry => !hidden real entry.1
  linkless : Linkless other real

/-- The walk of the path looks at no hidden place. -/
def Clear (fs : Fs) (real : Location) (path : PathBuf) : Prop :=
  ∀ location, LooksUp fs 40 [] path location → hidden real location = false

/-- A path below the root without a dot-prefixed component there. -/
def Undotted (vaultRoot path : PathBuf) : Prop :=
  ∃ rel, PathBuf.stripPrefix vaultRoot.components path = some rel ∧
    ∀ segment ∈ rel.components, segment.head? ≠ some dot

section Hidden

variable {real location outer : Location}

theorem hidden_iff : hidden real location = true ↔
    ∃ tail, location = real ++ tail ∧ tail.any dotted = true := by
  rw [hidden, Bool.and_eq_true, List.isPrefixOf_iff_prefix]
  constructor
  · rintro ⟨⟨tail, rfl⟩, dots⟩
    rw [List.drop_left] at dots
    exact ⟨tail, rfl, dots⟩
  · rintro ⟨tail, rfl, dots⟩
    exact ⟨List.prefix_append _ _, by rwa [List.drop_left]⟩

theorem hidden_append (tail : Location) : hidden real (real ++ tail) = tail.any dotted := by
  rw [hidden, List.isPrefixOf_iff_prefix.mpr (List.prefix_append _ _), List.drop_left, Bool.true_and]

theorem hidden_of_above (above : outer <+: location) (hid : hidden real outer = true) :
    hidden real location = true := by
  obtain ⟨tail, rfl⟩ := above
  obtain ⟨inner, rfl, dots⟩ := hidden_iff.mp hid
  exact hidden_iff.mpr ⟨inner ++ tail, List.append_assoc _ _ _, by simp [List.any_append, dots]⟩

theorem not_hidden_of_above (above : outer <+: location) (shows : hidden real location = false) :
    hidden real outer = false := by
  by_contra hid
  rw [hidden_of_above above (by simpa using hid)] at shows
  cases shows

theorem not_hidden_nil : hidden real [] = false := by
  cases real <;> rfl

theorem not_hidden_start {target : LinkTarget} (shows : hidden real location = false) :
    hidden real (target.start location) = false := by
  unfold LinkTarget.start
  split
  · exact not_hidden_nil
  · exact shows

/-- A hidden place below one that is not has a dot-prefixed name in between. -/
theorem dotted_of_hidden {tail : Location} (shows : hidden real location = false)
    (hid : hidden real (location ++ tail) = true) : ∃ name ∈ tail, dotted name = true := by
  obtain ⟨inner, whole, dots⟩ := hidden_iff.mp hid
  obtain ⟨name, member, dot_⟩ := List.any_eq_true.mp dots
  rcases List.append_eq_append_iff.mp whole with ⟨middle, rfl, rfl⟩ | ⟨middle, rfl, rfl⟩
  · exact ⟨name, List.mem_append_right _ member, dot_⟩
  · rcases List.mem_append.mp member with inMiddle | inTail
    · rw [hidden_append] at shows
      rw [List.any_eq_true.mpr ⟨name, inMiddle, dot_⟩] at shows
      cases shows
    · exact ⟨name, inTail, dot_⟩

end Hidden

section Siblings

variable {real location : Location} {fs other : Fs}

theorem Sibling.refl (linkless : Linkless fs real) :
    Sibling real fs fs := ⟨rfl, linkless⟩

theorem Sibling.symm (linkless : Linkless fs real) (sibling : Sibling real fs other) : Sibling real other fs :=
  ⟨sibling.shared.symm, linkless⟩

theorem Sibling.trans {last : Fs} (first : Sibling real fs other) (second : Sibling real other last) :
    Sibling real fs last := ⟨second.shared.trans first.shared, second.linkless⟩

/-- Siblings agree wherever nothing is hidden. -/
theorem Sibling.lookup (sibling : Sibling real fs other) (shows : hidden real location = false) :
    other.lookup location = fs.lookup location := by
  by_cases top : location = []
  · rw [top, FileTree.lookup_root, FileTree.lookup_root]
  apply Option.ext
  intro node
  have kept (tree : Fs) : (location, node) ∈ tree.entries ↔
      (location, node) ∈ tree.entries.filter fun entry => !hidden real entry.1 := by
    simp [List.mem_filter, shows]
  rw [FileTree.lookup_eq_some top, FileTree.lookup_eq_some top, kept other, kept fs, sibling.shared]

theorem Clear.resolve_eq (sibling : Sibling real fs other) {path : PathBuf} (clear : Clear fs real path)
    (followLast : Bool) : resolve other followLast path = resolve fs followLast path :=
  resolve_frame followLast fun location seen => sibling.lookup (clear location seen)

theorem not_hidden_of_walk {links : Nat} {at_ : Location} {path : PathBuf} {node : Node Leaf}
    {followLast : Bool} (clear : ∀ seen, LooksUp fs links at_ path seen → hidden real seen = false)
    (shows : hidden real at_ = false)
    (resolved : walkLinks fs followLast links at_ path = .ok (location, node)) :
    hidden real location = false := by
  induction links, at_, path using walk_induction with
  | arrived links at_ =>
    obtain ⟨rfl, -⟩ : at_ = location ∧ Node.dir = node := by simpa [walkLinks_nil] using resolved
    exact shows
  | skip links at_ segment rest trivial ih =>
    rw [walkLinks_skip trivial] at resolved
    exact ih (fun _ seen => clear _ (.skip trivial seen)) shows resolved
  | climb links at_ rest ih =>
    rw [walkLinks_climb] at resolved
    exact ih (fun _ seen => clear _ (.climb seen)) (not_hidden_of_above (List.dropLast_prefix _) shows)
      resolved
  | invalid links at_ segment rest invalid =>
    rw [walkLinks_invalid invalid] at resolved
    cases resolved
  | named links at_ name rest deeper linked =>
    have here := clear _ .here
    cases found : fs.lookup (at_ ++ [name]) with
    | none =>
      rw [walkLinks_missing found] at resolved
      cases resolved
    | some next =>
      cases next with
      | dir =>
        rw [walkLinks_down found] at resolved
        exact deeper (fun _ seen => clear _ (.down found seen)) here resolved
      | leaf leaf =>
        cases leaf with
        | file content =>
          rw [walkLinks_file found] at resolved
          split at resolved
          · cases resolved
            exact here
          · cases resolved
        | symlink target =>
          by_cases goes : rest ≠ [] ∨ followLast = true
          · cases links with
            | zero =>
              rw [walkLinks_loop goes found] at resolved
              cases resolved
            | succ fewer =>
              rw [walkLinks_follow goes found] at resolved
              exact linked fewer _ _ rfl (fun _ seen => clear _ (.follow found seen))
                (not_hidden_start shows) resolved
          · obtain ⟨rfl, rfl⟩ : rest = [] ∧ followLast = false := by simpa using goes
            rw [walkLinks_stay found] at resolved
            cases resolved
            exact here

theorem Clear.not_hidden {path : PathBuf} (clear : Clear fs real path) {node : Node Leaf}
    {followLast : Bool} (resolved : resolve fs followLast path = .ok (location, node)) :
    hidden real location = false :=
  not_hidden_of_walk clear not_hidden_nil resolved

/-! Which paths are clear. -/

theorem not_hidden_of_looksUp {links : Nat} {at_ : Location} {path : PathBuf}
    (linkless : Linkless fs real)
    (seen : LooksUp fs links at_ path location) (below : real <+: at_) (shows : hidden real at_ = false)
    (undotted : ∀ segment ∈ path.components, segment.head? ≠ some dot) :
    hidden real location = false := by
  have next {at_ : Location} {name : FileName} {rest : PathBuf} (below : real <+: at_)
      (shows : hidden real at_ = false)
      (undotted : ∀ segment ∈ PathBuf.components (name.bytes :: rest), segment.head? ≠ some dot) :
      hidden real (at_ ++ [name]) = false := by
    by_contra hid
    obtain ⟨other, member, dots⟩ := dotted_of_hidden shows (by simpa using hid)
    obtain rfl := List.mem_singleton.mp member
    rw [PathBuf.components_cons (FileName.not_trivial _)] at undotted
    exact undotted _ List.mem_cons_self (by simpa [dotted] using dots)
  induction seen with
  | skip trivial _ ih =>
    rw [PathBuf.components, List.filter_cons_of_neg (by simp [trivial])] at undotted
    exact ih below shows undotted
  | climb _ _ =>
    rw [PathBuf.components_cons rfl] at undotted
    exact absurd rfl (undotted _ List.mem_cons_self)
  | here => exact next below shows undotted
  | @down _ _ _ name rest _ _ ih =>
    have later := undotted
    rw [PathBuf.components_cons name.not_trivial] at later
    exact ih (below.trans (List.prefix_append _ _)) (next below shows undotted)
      fun segment member => later segment (List.mem_cons_of_mem _ member)
  | follow found _ _ =>
    obtain ⟨tail, rfl⟩ := below
    rw [List.append_assoc] at found
    exact absurd found (linkless _ _)

/-- What lies below the root without a dotted component is clear like the root is. -/
theorem Clear.undotted (linkless : Linkless fs real)
    {vaultRoot path : PathBuf} (reached : resolve fs true vaultRoot = .ok (real, .dir))
    (clear : Clear fs real vaultRoot) (undotted : Undotted vaultRoot path) : Clear fs real path := by
  obtain ⟨rel, stripped, noDots⟩ := undotted
  obtain ⟨lead, tail, rfl, same, parts, -⟩ :=
    PathBuf.exists_of_stripPrefix (PathBuf.solid_components vaultRoot) stripped
  obtain ⟨left, onward⟩ := leadsOn reached
  intro seen looked
  rcases (onward lead same tail).2 seen looked with inRoot | below
  · exact clear seen inRoot
  · have shows : hidden real real = false := by simpa using @hidden_append real []
    exact not_hidden_of_looksUp linkless below (List.prefix_refl _) shows
      fun segment member => noDots segment (parts ▸ member)

/-! Where a path first comes to a hidden place. -/

variable (real fs) in
/-- The walk comes to the place, and fails there if nothing stands at it or a file does
that is not the end of the path. -/
def Gate (links : Nat) (at_ : Location) (path : PathBuf) (place : Location) : Prop :=
  ∀ other, Sibling real fs other →
    (other.lookup place = none → walkLinks other true links at_ path = .error .notFound) ∧
    ∀ content, other.lookup place = some (.leaf (.file content)) →
      walkLinks other true links at_ path = .ok (place, .leaf (.file content)) ∨
        walkLinks other true links at_ path = .error .notADirectory

theorem gate_here {links : Nat} {at_ : Location} {name : FileName} {rest : PathBuf} :
    Gate real fs links at_ (name.bytes :: rest) (at_ ++ [name]) := by
  refine fun other _ => ⟨walkLinks_missing, fun content found => ?_⟩
  rw [walkLinks_file found]
  by_cases last : rest = []
  · exact .inl (if_pos last)
  · exact .inr (if_neg last)

theorem exists_gate {links : Nat} {at_ : Location} {path : PathBuf}
    (seen : LooksUp fs links at_ path location) (hid : hidden real location = true)
    (shows : hidden real at_ = false) (directory : fs.lookup at_ = some .dir) :
    ∃ parent name, hidden real parent = false ∧ fs.lookup parent = some .dir ∧
      hidden real (parent ++ [name]) = true ∧ Gate real fs links at_ path (parent ++ [name]) := by
  induction seen with
  | skip trivial _ ih => simpa only [Gate, walkLinks_skip trivial] using ih hid shows directory
  | @climb _ at_ _ _ _ ih =>
    have parent : fs.lookup at_.dropLast = some .dir := by
      by_cases top : at_ = []
      · rw [top]
        rfl
      · exact FileTree.lookup_dropLast top directory
    simpa only [Gate, walkLinks_climb] using
      ih hid (not_hidden_of_above (List.dropLast_prefix _) shows) parent
  | here => exact ⟨_, _, shows, directory, hid, gate_here⟩
  | @down _ at_ _ name _ found _ ih =>
    cases here : hidden real (at_ ++ [name]) with
    | true => exact ⟨_, _, shows, directory, here, gate_here⟩
    | false =>
      obtain ⟨parent, last, outside, stands, inside, gate⟩ := ih hid here found
      refine ⟨parent, last, outside, stands, inside, fun other sibling => ?_⟩
      rw [walkLinks_down ((sibling.lookup here).trans found)]
      exact gate other sibling
  | @follow _ at_ _ name _ target found _ ih =>
    cases here : hidden real (at_ ++ [name]) with
    | true => exact ⟨_, _, shows, directory, here, gate_here⟩
    | false =>
      have start : fs.lookup (target.start at_) = some .dir := by
        unfold LinkTarget.start
        split
        · rfl
        · exact directory
      obtain ⟨parent, last, outside, stands, inside, gate⟩ := ih hid (not_hidden_start shows) start
      refine ⟨parent, last, outside, stands, inside, fun other sibling => ?_⟩
      rw [walkLinks_follow (.inr rfl) ((sibling.lookup here).trans found)]
      exact gate other sibling

/-- The place left empty. -/
theorem sibling_remove (linkless : Linkless fs real)
    (hid : hidden real location = true) : Sibling real fs (fs.remove location) := by
  have below : location ≠ [] := by
    rintro rfl
    rw [not_hidden_nil] at hid
    cases hid
  refine ⟨?_, fun tail target found => ?_⟩
  · rw [FileTree.remove, List.filter_filter]
    refine List.filter_congr fun entry _ => ?_
    cases shows : hidden real entry.1 with
    | true => rfl
    | false =>
      have apart : ¬ location <+: entry.1 := fun above => by
        rw [hidden_of_above above hid] at shows
        cases shows
      simp [apart]
  · rw [FileTree.lookup_remove fs below] at found
    split at found
    · cases found
    · exact linkless tail target found

/-- A file at the place, whatever stood there. -/
theorem exists_sibling_file
    (linkless : Linkless fs real)
    {parent : Location} {name : FileName} (stands : fs.lookup parent = some .dir)
    (hid : hidden real (parent ++ [name]) = true) (content : File) :
    ∃ other, Sibling real fs other ∧ other.lookup (parent ++ [name]) = some (.leaf (.file content)) := by
  have below : parent ++ [name] ≠ [] := by simp
  have fits : (fs.remove (parent ++ [name])).Attachable (parent ++ [name]) := by
    refine ⟨below, ?_, ?_⟩
    · rw [FileTree.lookup_remove fs below, if_pos (List.prefix_refl _)]
      rfl
    · rw [List.dropLast_concat, FileTree.hasDir_iff, FileTree.lookup_remove fs below, if_neg, stands]
      intro above
      have length := above.length_le
      rw [List.length_append, List.length_singleton] at length
      omega
  have cleared := sibling_remove linkless hid
  refine ⟨(fs.remove (parent ++ [name])).attach (parent ++ [name]) (soleFile content) fits, ⟨?_, ?_⟩, ?_⟩
  · have added : ((fs.remove (parent ++ [name])).attach (parent ++ [name]) (soleFile content) fits).entries =
        (fs.remove (parent ++ [name])).entries ++ [(parent ++ [name], .leaf (.file content))] := rfl
    rw [added, List.filter_append, List.filter_cons_of_neg (by simp [hid]), List.filter_nil,
      List.append_nil, cleared.shared]
  · intro tail target found
    rw [FileTree.lookup_attach fits] at found
    split at found
    · have alone (inner : Location) (node : Node Leaf)
          (listed : (soleFile content).lookup inner = some node) : node = .leaf (.file content) := by
        by_cases top : inner = []
        · rw [Subtree.lookup, if_pos top] at listed
          exact (Option.some.inj listed).symm
        · exact absurd ((Subtree.lookup_eq_some_of_below top).mp listed) (List.not_mem_nil)
      cases alone _ _ found
    · exact cleared.linkless tail target found
  · rw [FileTree.lookup_attach fits, if_pos (List.prefix_refl _), List.drop_length]
    rfl

theorem exists_gate_of_not_clear {path : PathBuf} (leads : ¬ Clear fs real path) :
    ∃ parent name, fs.lookup parent = some .dir ∧ hidden real (parent ++ [name]) = true ∧
      Gate real fs 40 [] path (parent ++ [name]) := by
  obtain ⟨location, seen, hid⟩ : ∃ location, LooksUp fs 40 [] path location ∧ hidden real location = true := by
    simpa [Clear] using leads
  obtain ⟨parent, name, -, stands, inside, gate⟩ :=
    exists_gate seen hid not_hidden_nil (FileTree.lookup_root fs)
  exact ⟨parent, name, stands, inside, gate⟩

/-- Where a path looks at a hidden place it finds nothing in some sibling, -/
theorem exists_emptied (linkless : Linkless fs real) {path : PathBuf} (leads : ¬ Clear fs real path) :
    ∃ other, Sibling real fs other ∧ resolve other true path = .error .notFound := by
  obtain ⟨parent, name, -, inside, gate⟩ := exists_gate_of_not_clear leads
  have sibling := sibling_remove linkless inside
  refine ⟨_, sibling, (gate _ sibling).1 ?_⟩
  rw [FileTree.lookup_remove fs (by simp), if_pos (List.prefix_refl _)]

/-- and fails to read for another reason in some sibling. -/
theorem exists_blocked (linkless : Linkless fs real) {path : PathBuf} (leads : ¬ Clear fs real path) :
    ∃ other kind, Sibling real fs other ∧ readFile other path = .error kind ∧ kind ≠ .notFound := by
  obtain ⟨parent, name, stands, inside, gate⟩ := exists_gate_of_not_clear leads
  -- an unreadable file is neither a note nor a directory to pass
  obtain ⟨other, sibling, found⟩ := exists_sibling_file linkless stands inside ⟨[], ⟨0, 0⟩, false⟩
  rcases (gate other sibling).2 _ found with stops | stops
  · exact ⟨other, .permissionDenied, sibling, by simp [readFile, resolve, stops], by simp⟩
  · exact ⟨other, .notADirectory, sibling, by simp [readFile, resolve, stops], by simp⟩

/-- A root that every sibling has is reached without a look at a hidden place. -/
theorem clear_root (linkless : Linkless fs real) {vaultRoot : PathBuf}
    (reached : ∀ other, Sibling real fs other → resolve other true vaultRoot = .ok (real, .dir)) :
    Clear fs real vaultRoot := by
  by_contra leads
  obtain ⟨other, sibling, failed⟩ := exists_emptied linkless leads
  rw [reached other sibling] at failed
  cases failed

end Siblings

/-! Walks of a directory. -/

section Scanning

variable {real location : Location} {fs other : Fs} {vaultRoot start : PathBuf} {ext : External}

theorem push_eq (base rest : PathBuf) : base.push rest = base.push [] ++ rest := by
  simp [PathBuf.push]

theorem components_push_nil (base : PathBuf) : (base.push []).components = base.components := by
  rw [PathBuf.components_push]
  exact List.append_nil _

theorem resolve_push {followLast : Bool} {tail : Location} {node : Node Leaf}
    (arrives : resolve fs true start = .ok (location, .dir)) (nonempty : tail ≠ [])
    (found : fs.lookup (location ++ tail) = some node) (settled : Settled followLast node) :
    resolve fs followLast (start.push tail.raw) = .ok (location ++ tail, node) := by
  rw [push_eq]
  exact resolve_append followLast (resolve_components arrives (components_push_nil start))
    (lookup_of_resolve arrives) nonempty found settled

/-- A text that begins with the byte of the dot begins with a dot. -/
theorem isDotPrefixed_utf8 {part : Text} (first : (Text.utf8 part).head? = some dot) :
    isDotPrefixed (Text.utf8 part) = true := by
  cases part with
  | nil => cases first
  | cons char part =>
    obtain ⟨byte, more, encoded⟩ : ∃ byte more, Text.utf8 [char] = byte :: more :=
      List.exists_cons_of_ne_nil fun empty => by
        have none_ := @Text.utf8_injective [char] [] empty
        cases none_
    have split : Text.utf8 (char :: part) = Text.utf8 [char] ++ Text.utf8 part :=
      Text.utf8_append [char] part
    have member : UInt8.ofNat '.'.toNat ∈ Text.utf8 [char] := by
      rw [split, encoded] at first
      obtain rfl := Option.some.inj first
      rw [encoded]
      exact List.mem_cons_self
    obtain rfl := List.mem_singleton.mp ((Text.mem_utf8_ascii (by decide)).mp member)
    rw [isDotPrefixed, Bytes.fromUtf8_utf8]
    rfl

/-- A dot-prefixed name that the scan does not skip is no text. -/
theorem not_utf8_of_dotted {name : FileName} (dots : dotted name = true)
    (shows : isDotPrefixed name.bytes = false) (part : Text) : name.bytes ≠ Text.utf8 part := by
  intro bytes
  have first : name.bytes.head? = some dot := by simpa [dotted] using dots
  rw [bytes] at first shows
  rw [isDotPrefixed_utf8 first] at shows
  cases shows

/-- No name of a note's path that is left after the root is other than text. -/
theorem utf8_of_entryNote {path : PathBuf} {file : Bool} {note : Note}
    (noted : entryNote ext fs vaultRoot ⟨path, file⟩ = some note) :
    ∃ lead tail : PathBuf, path = lead ++ tail ∧ (lead = [] ∨ lead.components = vaultRoot.components) ∧
      ∀ name : FileName, name.bytes ∈ tail → ∃ part, name.bytes = Text.utf8 part := by
  obtain ⟨-, -, read⟩ := entryNote_eq_some.mp noted
  have shows := notePath_of_scanOne read
  unfold notePath at shows
  split at shows
  · rename_i rel stripped
    obtain ⟨text, print, -⟩ := Option.map_eq_some_iff.mp shows
    obtain ⟨lead, tail, rfl, same, parts, -⟩ :=
      PathBuf.exists_of_stripPrefix (PathBuf.solid_components vaultRoot) stripped
    refine ⟨lead, tail, rfl, .inr same, fun name member => ?_⟩
    have solid : name.bytes ∈ PathBuf.components tail :=
      List.mem_filter.mpr ⟨member, by simp [name.not_trivial]⟩
    rw [← parts] at solid
    exact PathBuf.utf8_of_toStr print (List.mem_filter.mp solid).1 name.valid.2.2.2.1
  · obtain ⟨text, print, -⟩ := Option.map_eq_some_iff.mp shows
    exact ⟨[], path, rfl, .inl rfl, fun name member =>
      PathBuf.utf8_of_toStr print member name.valid.2.2.2.1⟩

/-- What the scan does not skip of the hidden places has no note path. -/
theorem entryNote_hidden {tail : Location} {content : File}
    (reached : resolve fs true vaultRoot = .ok (real, .dir))
    (arrives : resolve fs true start = .ok (location, .dir)) (shows : hidden real location = false)
    (found : fs.lookup (location ++ tail) = some (.leaf (.file content))) (visible_ : visible tail = true)
    (hid : hidden real (location ++ tail) = true) (file : Bool) :
    entryNote ext fs vaultRoot ⟨start.push tail.raw, file⟩ = none := by
  by_contra noted
  obtain ⟨note, noted⟩ := Option.ne_none_iff_exists'.mp noted
  obtain ⟨lead, kept, joined, stripped, texts⟩ := utf8_of_entryNote noted
  have skipped (name : FileName) (member : name ∈ tail) (dots : dotted name = true)
      (inside : name.bytes ∈ kept) : False := by
    obtain ⟨part, bytes⟩ := texts name inside
    exact not_utf8_of_dotted dots (by simpa using List.all_eq_true.mp visible_ name member) part bytes
  obtain ⟨name, member, dots⟩ := dotted_of_hidden shows hid
  have listed : name.bytes ∈ tail.raw := List.mem_map_of_mem member
  rcases stripped with rfl | same
  · rw [List.nil_append] at joined
    refine skipped name member dots (joined ▸ ?_)
    rw [push_eq]
    exact List.mem_append_right _ listed
  rw [push_eq] at joined
  rcases List.append_eq_append_iff.mp joined with ⟨middle, rfl, split⟩ | ⟨middle, split, rfl⟩
  · -- the root's path ends below the start: what is left is below the vault's directory
    obtain ⟨names, rest, rfl, rfl, rfl⟩ : ∃ names rest : Location, tail = names ++ rest ∧
        names.raw = middle ∧ rest.raw = kept := by
      obtain ⟨names, rest, whole, first, second⟩ := List.map_eq_append_iff.mp split
      exact ⟨names, rest, whole, first, second⟩
    have root : resolve fs true (start.push [] ++ names.raw) = .ok (real, .dir) :=
      resolve_components reached same
    obtain rfl : location ++ names = real := by
      by_cases top : names = []
      · have whole := resolve_components arrives (components_push_nil start)
        rw [top, Location.raw_nil, List.append_nil] at root
        rw [top, List.append_nil]
        exact (Prod.mk.inj (Except.ok.inj (whole.symm.trans root))).1
      · obtain ⟨node, here, settled⟩ : ∃ node, fs.lookup (location ++ names) = some node ∧
            Settled true node := by
          by_cases last : rest = []
          · rw [last, List.append_nil] at found
            exact ⟨_, found, .inr fun _ same => by cases same⟩
          · exact ⟨_, FileTree.lookup_ancestor found ⟨rest, List.append_assoc _ _ _⟩
              (by simp [last]), .inr fun _ same => by cases same⟩
        have whole := resolve_push arrives top here settled
        rw [push_eq, root] at whole
        exact (Prod.mk.inj (Except.ok.inj whole)).1.symm
    rw [← List.append_assoc, hidden_append] at hid
    obtain ⟨other, inRest, dots⟩ := List.any_eq_true.mp hid
    exact skipped other (List.mem_append_right _ inRest) dots (List.mem_map_of_mem inRest)
  · exact skipped name member dots (List.mem_append_right _ listed)

/-- One file of a walk, as the note it contributes. -/
def walkedNote (ext : External) (fs : Fs) (vaultRoot start : PathBuf) (entry : Location × Node Leaf) :
    Option Note :=
  if visible entry.1 then entryNote ext fs vaultRoot ⟨start.push entry.1.raw, isFile entry.2⟩ else none

theorem scanFrom_notes_of_dir (arrives : resolve fs true start = .ok (location, .dir)) :
    (scanFrom ext fs vaultRoot start).notes =
      (fs.under location).filterMap (walkedNote ext fs vaultRoot start) := by
  have top : entryNote ext fs vaultRoot ⟨start, false⟩ = none := rfl
  rw [scanFrom_notes ext fs vaultRoot (walkDir_of_dir arrives), List.filterMap_cons, top, visibleBelow,
    List.filterMap_map, List.filterMap_filter]
  rfl

/-- The entries below a directory that is not hidden, without the hidden ones. -/
theorem Sibling.under (sibling : Sibling real fs other) (location : Location) :
    ((other.under location).filter fun entry => !hidden real (location ++ entry.1)) =
      (fs.under location).filter fun entry => !hidden real (location ++ entry.1) := by
  have moved (tree : Fs) : ((tree.under location).filter fun entry => !hidden real (location ++ entry.1)) =
      (((tree.entries.filter fun entry => !hidden real entry.1).filter fun entry =>
        decide (location <+: entry.1 ∧ location ≠ entry.1)).map fun entry =>
          (entry.1.drop location.length, entry.2)) := by
    rw [FileTree.under, List.filter_map, List.filter_filter, List.filter_filter]
    refine congrArg _ (List.filter_congr fun entry _ => ?_)
    by_cases above : location <+: entry.1 ∧ location ≠ entry.1
    · obtain ⟨⟨tail, whole⟩, -⟩ := above
      simp [← whole, Bool.and_comm]
    · simp [above]
  rw [moved other, moved fs, sibling.shared]

theorem Clear.scanOne_eq (sibling : Sibling real fs other) (clear : Clear fs real start) :
    scanOne ext other vaultRoot start = scanOne ext fs vaultRoot start := by
  simp only [scanOne, scanOneAudit, readFile, clear.resolve_eq sibling]

theorem walkedNote_sibling (sibling : Sibling real fs other) {tail : Location} {node : Node Leaf}
    (arrives : resolve fs true start = .ok (location, .dir))
    (arrives' : resolve other true start = .ok (location, .dir)) (below : tail ≠ [])
    (found : fs.lookup (location ++ tail) = some node) (shows : hidden real (location ++ tail) = false) :
    walkedNote ext other vaultRoot start (tail, node) = walkedNote ext fs vaultRoot start (tail, node) := by
  have found' : other.lookup (location ++ tail) = some node := (sibling.lookup shows).trans found
  cases file : isFile node with
  | false => simp [walkedNote, entryNote, file]
  | true =>
    have settled : Settled true node := .inr fun target same => by simp [same, isFile] at file
    have same : scanOne ext other vaultRoot (start.push tail.raw) =
        scanOne ext fs vaultRoot (start.push tail.raw) := by
      simp only [scanOne, scanOneAudit, readFile, resolve_push arrives below found settled,
        resolve_push arrives' below found' settled]
    simp only [walkedNote, entryNote, same]

/-- A walk from a directory that is not hidden contributes nothing from a hidden place. -/
theorem scanFrom_notes_shown (reached : resolve fs true vaultRoot = .ok (real, .dir))
    (arrives : resolve fs true start = .ok (location, .dir)) (shows : hidden real location = false) :
    (scanFrom ext fs vaultRoot start).notes =
      ((fs.under location).filter fun entry => !hidden real (location ++ entry.1)).filterMap
        (walkedNote ext fs vaultRoot start) := by
  rw [scanFrom_notes_of_dir arrives, List.filterMap_filter]
  refine List.filterMap_congr fun entry member => ?_
  obtain ⟨tail, node⟩ := entry
  cases hid : hidden real (location ++ tail) with
  | false => rfl
  | true =>
    obtain ⟨-, listed⟩ := FileTree.mem_under.mp member
    have found := FileTree.lookup_of_mem listed
    simp only [walkedNote, Bool.not_true, Bool.false_eq_true, if_false]
    cases visible_ : visible tail with
    | false => rfl
    | true =>
      rw [if_pos rfl]
      cases node with
      | leaf leaf =>
        cases leaf with
        | file content => exact entryNote_hidden reached arrives shows found visible_ hid true
        | symlink target => rfl
      | dir => rfl

/-- A walk from where nothing is reads nothing. -/
theorem scanFrom_notes_of_error {kind : IoErrorKind} (fails : resolve fs true start = .error kind) :
    (scanFrom ext fs vaultRoot start).notes = [] := by
  rcases resolve_nofollow fs start with same | ⟨link, target, linked⟩
  · simp [scanFrom_listed, walkDir, same, fails, bind, Except.bind]
  · simp [scanFrom_listed, walkDir, linked, fails, bind, Except.bind]

/-- A clear path is walked alike in all siblings. -/
theorem Clear.scanFrom_eq (sibling : Sibling real fs other)
    (reached : resolve fs true vaultRoot = .ok (real, .dir))
    (reached' : resolve other true vaultRoot = .ok (real, .dir)) (clear : Clear fs real start) :
    (scanFrom ext other vaultRoot start).notes = (scanFrom ext fs vaultRoot start).notes := by
  cases arrives : resolve fs true start with
  | error kind =>
    rw [scanFrom_notes_of_error arrives,
      scanFrom_notes_of_error ((clear.resolve_eq sibling true).trans arrives)]
  | ok end_ =>
    obtain ⟨location, node⟩ := end_
    have arrives' := (clear.resolve_eq sibling true).trans arrives
    have shows := clear.not_hidden arrives
    cases node with
    | dir =>
      rw [scanFrom_notes_shown reached arrives shows, scanFrom_notes_shown reached' arrives' shows,
        sibling.under]
      refine List.filterMap_congr fun entry member => ?_
      obtain ⟨tail, node⟩ := entry
      obtain ⟨inside, shown_⟩ := List.mem_filter.mp member
      obtain ⟨below, listed⟩ := FileTree.mem_under.mp inside
      exact walkedNote_sibling sibling arrives arrives' below (FileTree.lookup_of_mem listed)
        (by simpa using shown_)
    | leaf leaf =>
      -- only the start itself is listed
      obtain ⟨file, walked⟩ : ∃ file, ∀ tree : Fs,
          (∀ followLast, resolve tree followLast start = resolve fs followLast start) →
            walkDir tree start = .ok [⟨start, file⟩] := by
        rcases resolve_nofollow fs start with same | ⟨link, target, linked⟩
        · cases leaf with
          | file content =>
            exact ⟨true, fun tree equal => by
              simp [walkDir, equal, same, arrives, bind, Except.bind]⟩
          | symlink target =>
            exact ⟨false, fun tree equal => by
              simp [walkDir, equal, same, arrives, bind, Except.bind]⟩
        · exact ⟨false, fun tree equal => by
            simp [walkDir, equal, linked, arrives, bind, Except.bind]⟩
      rw [scanFrom_notes ext fs vaultRoot (walked fs fun _ => rfl),
        scanFrom_notes ext other vaultRoot (walked other (clear.resolve_eq sibling))]
      simp only [List.filterMap_cons, List.filterMap_nil, entryNote, clear.scanOne_eq sibling]

end Scanning

end Anwesen.Vault

import Anwesen.Watcher.Agreement

/-! From a path to its key and back.

A key has slashes where a name holds backslashes, and reading the path back
takes each of them for a separator.
-/

set_option autoImplicit false

namespace Anwesen.Vault

open Foundation

/-- Whatever a path is stripped of begins it. -/
theorem prefix_of_stripPrefix {base : List Bytes} {location : Location} {rest : PathBuf}
    (stripped : PathBuf.stripPrefix base location.raw = some rest) : base <+: location.raw := by
  induction base generalizing location with
  | nil => exact List.nil_prefix
  | cons name base ih =>
    cases location with
    | nil => simp [PathBuf.stripPrefix] at stripped
    | cons other location =>
      rw [Location.raw_cons, PathBuf.stripPrefix, other.not_trivial, if_neg (by simp)] at stripped
      split at stripped
      · rename_i same
        exact List.cons_prefix_cons.mpr ⟨same.symm, ih stripped⟩
      · cases stripped

namespace PathBuf

/-- A text is split within itself, and joined to the base unless it is absolute. -/
theorem components_join (base : PathBuf) (rel : Text) :
    ∃ parts : List Bytes, (∀ part ∈ parts, ∀ b ∈ part, b ∈ Text.utf8 rel) ∧
      ((base.join rel).components = parts ∨ (base.join rel).components = base.components ++ parts) := by
  have inside (text : Text) : ∀ part ∈ components ((Text.utf8 text).splitOn slash), ∀ b ∈ part,
      b ∈ Text.utf8 text := fun part listed =>
    mem_of_mem_splitOn slash _ part (List.mem_of_mem_filter listed)
  unfold join
  split
  · rename_i rest
    refine ⟨components ((Text.utf8 rest).splitOn slash), fun part listed b member => ?_, .inl rfl⟩
    rw [Text.utf8_cons]
    exact List.mem_append_right _ (inside rest part listed b member)
  · exact ⟨_, inside rel, .inr (components_push _ _)⟩

/-- The key of a plain location is joined to any path for the root. -/
theorem components_join_key (base : PathBuf) {location : Location} (plain : location.Plain)
    (below : location ≠ []) :
    (base.join location.key).components = base.components ++ location.raw := by
  obtain ⟨texts, names⟩ := plain.texts
  obtain ⟨⟨first, rest, same, notSlash⟩, _⟩ := names.key_ends below
  rw [join.eq_def]
  split
  · rename_i absolute
    rw [same] at absolute
    exact absurd (List.cons.inj absolute).1 notSlash
  · rw [names.splitOn_key below, components_push, Location.components_raw]

end PathBuf

end Anwesen.Vault

namespace Anwesen.Watcher

open Foundation Vault

/-- A normalized absolute path below the root that `relative` accepts. -/
structure Accepted (root : PathBuf) (path : Location) : Prop where
  below : root.components ≠ path.raw
  accepted : (relative root path.raw).isSome = true

/-- What the round trip through keys promises of these paths. -/
structure Invertible (root : PathBuf) (paths : Set Location) : Prop where
  readsBack : ∀ path ∈ paths, ∀ rel, relative root path.raw = some rel →
    (absolutePath root rel).components = path.raw
  keysDiffer : ∀ path ∈ paths, ∀ other ∈ paths, path ≠ other →
    relative root path.raw ≠ relative root other.raw
  notePathsDiffer : ∀ path ∈ paths, ∀ other ∈ paths, path ≠ other →
    notePath root path.raw ≠ notePath root other.raw

section

variable {root : PathBuf} {path : Location} {base location : Location}

theorem relative_congr (same : root.components = base.raw) (abs : PathBuf) :
    relative root abs = relative base.raw abs := by
  rw [relative, relative, same, Location.components_raw]

/-- An accepted path is the root and names that print and are visible. -/
theorem Accepted.split (accepted : Accepted root path) : ∃ base location : Location,
    root.components = base.raw ∧ path = base ++ location ∧ location ≠ [] ∧ shownAll location = true := by
  obtain ⟨below, accepted⟩ := accepted
  obtain ⟨rel, printed⟩ := Option.isSome_iff_exists.mp accepted
  have front : root.components <+: path.raw := by
    rw [relative] at printed
    split at printed
    · cases printed
    · rename_i stripped
      exact prefix_of_stripPrefix stripped
  obtain ⟨base, location, rfl, same, -⟩ : ∃ base location : Location, path = base ++ location ∧
      base.raw = root.components ∧ True := by
    obtain ⟨tail, joined⟩ := front
    obtain ⟨base, location, rfl, same, -⟩ := List.map_eq_append_iff.mp joined.symm
    exact ⟨base, location, rfl, same, trivial⟩
  refine ⟨base, location, same.symm, rfl, ?_, ?_⟩
  · rintro rfl
    exact below (by rw [List.append_nil, same])
  · by_contra hidden
    rw [relative_congr same.symm, relative_hidden base (by simpa using hidden)] at printed
    cases printed

theorem relative_accepted (same : root.components = base.raw) (shown_ : shownAll location = true) :
    relative root (Location.raw (base ++ location)) = some location.key := by
  rw [relative_congr same, relative_shown base shown_]

theorem backslash_not_mem_key (location : Location) :
    UInt8.ofNat '\\'.toNat ∉ Text.utf8 location.key := by
  have clean : ∀ text : Text, '\\' ∉ forwardSlashes text := by
    intro text member
    obtain ⟨char, -, same⟩ := List.mem_map.mp member
    split at same
    · cases same
    · rename_i other
      exact other same
  rw [Text.mem_utf8_ascii (by decide), Location.key]
  cases PathBuf.toStr location.raw with
  | none => simp
  | some text => exact clean text

/-- What is read back through a key holds no backslash below the root. -/
theorem noBackslash_of_readsBack (same : root.components = base.raw)
    (back : (absolutePath root location.key).components = Location.raw (base ++ location)) :
    NoBackslash location := by
  intro name member backslash
  obtain ⟨parts, inside, joined⟩ := PathBuf.components_join root location.key
  have listed : name.bytes ∈ parts := by
    have below : name.bytes ∈ location.raw := List.mem_map_of_mem member
    rw [absolutePath] at back
    rw [back, same, Location.raw_append] at joined
    rcases joined with whole | rest
    · exact whole ▸ List.mem_append_right _ below
    · exact List.append_cancel_left rest ▸ below
  exact backslash_not_mem_key location (inside name.bytes listed _ backslash)

theorem drop_root (same : root.components = base.raw) :
    (base ++ location).drop root.components.length = location := by
  have length : root.components.length = base.length := by simp [same, Location.raw]
  rw [length, List.drop_left]

/-- Two accepted paths without backslashes have different keys. -/
theorem key_differs {other : Location} (first : Accepted root path) (second : Accepted root other)
    (clean : NoBackslash (path.drop root.components.length))
    (otherClean : NoBackslash (other.drop root.components.length)) (different : path ≠ other) :
    relative root path.raw ≠ relative root other.raw ∧ notePath root path.raw ≠ notePath root other.raw := by
  obtain ⟨base, location, same, rfl, -, shown_⟩ := first.split
  obtain ⟨base', location', same', rfl, -, shown_'⟩ := second.split
  obtain rfl : base = base' := Location.raw_injective (same.symm.trans same')
  rw [drop_root same] at clean otherClean
  rw [relative_accepted same shown_, relative_accepted same shown_', notePath_shown same shown_,
    notePath_shown same shown_']
  have keys : location.key ≠ location'.key := by
    intro equal
    have names := Location.key_injective (plain_of_shown clean shown_)
      (plain_of_shown otherClean shown_') equal
    exact different (by rw [names])
  exact ⟨fun equal => keys (Option.some.inj equal), fun equal => keys (Option.some.inj equal)⟩

/-- Keys and paths determine each other as long as no name below the root holds a backslash. -/
theorem invertible_iff {paths : Set Location} (accepted : ∀ path ∈ paths, Accepted root path) :
    Invertible root paths ↔ ∀ path ∈ paths, NoBackslash (path.drop root.components.length) := by
  constructor
  · intro invertible path member
    obtain ⟨base, location, same, rfl, -, shown_⟩ := (accepted path member).split
    rw [drop_root same]
    exact noBackslash_of_readsBack same
      (invertible.readsBack _ member _ (relative_accepted same shown_))
  · intro clean
    refine ⟨fun path member rel printed => ?_, fun path member other member' different => ?_,
      fun path member other member' different => ?_⟩
    · obtain ⟨base, location, same, rfl, below, shown_⟩ := (accepted path member).split
      have unspoiled := clean _ member
      rw [drop_root same] at unspoiled
      rw [relative_accepted same shown_] at printed
      obtain rfl := Option.some.inj printed
      rw [absolutePath, PathBuf.components_join_key root (plain_of_shown unspoiled shown_) below, same,
        Location.raw_append]
    · exact (key_differs (accepted path member) (accepted other member') (clean path member)
        (clean other member') different).1
    · exact (key_differs (accepted path member) (accepted other member') (clean path member)
        (clean other member') different).2

/-- A note of the vault and one in a folder. -/
theorem invertible_iff_twoNotes : Invertible (Location.raw [vaultName])
    {[vaultName, noteName], [vaultName, folderName, noteName]} := by
  refine (invertible_iff ?_).mpr ?_
  · rintro path (rfl | rfl) <;> exact ⟨by decide, by decide⟩
  · rintro path (rfl | rfl) <;> decide

/-- The name `D\x.md`. -/
def backslashName : FileName := ⟨Text.utf8 "D\\x.md".toList, by decide⟩

/-- A file and a file in a folder have one key, and reading it back finds the second. -/
theorem backslash_read_as_separator :
    Accepted (Location.raw [vaultName]) [vaultName, backslashName] ∧
      Accepted (Location.raw [vaultName]) [vaultName, folderName, noteName] ∧
      relative (Location.raw [vaultName]) (Location.raw [vaultName, backslashName]) =
        some "D/x.md".toList ∧
      relative (Location.raw [vaultName]) (Location.raw [vaultName, folderName, noteName]) =
        some "D/x.md".toList ∧
      notePath (Location.raw [vaultName]) (Location.raw [vaultName, backslashName]) =
        notePath (Location.raw [vaultName]) (Location.raw [vaultName, folderName, noteName]) ∧
      absolutePath (Location.raw [vaultName]) "D/x.md".toList =
        Location.raw [vaultName, folderName, noteName] := by
  exact ⟨⟨by decide, by decide⟩, ⟨by decide, by decide⟩, by decide, by decide, by decide, by decide⟩

end

end Anwesen.Watcher

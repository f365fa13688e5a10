import Anwesen.Vault.Tame

/-! What users and programs do to the file system, seen from the vault root. -/

set_option autoImplicit false

namespace Anwesen.Vault

open Foundation

/-- Creating and removing take everything under the path with them. -/
inductive Operation where
  | create (at_ : Location) (content : Subtree FileName Leaf)
  | write (at_ : Location) (content : File)
  | remove (at_ : Location)
  | rename (source target : Location)

/-- `rename(2)` replaces a non-directory by a non-directory and an empty directory by a directory. -/
def replaceable (fs : Fs) (source target : Location) : Bool :=
  match fs.lookup source, fs.lookup target with
  | _, none => true
  | some (.leaf _), some (.leaf _) => true
  | some .dir, some .dir => (fs.under target).isEmpty
  | _, _ => false

namespace Operation

def apply (fs : Fs) : Operation → Option Fs
  | .create at_ content =>
      if fits : fs.Attachable at_ then some (fs.attach at_ content fits) else none
  | .write at_ content =>
      if regular : (fs.lookup at_).isSome = true ∧ fs.hasDir at_ = false then
        some (fs.write at_ (.file content) regular)
      else none
  | .remove at_ => if at_ ≠ [] ∧ (fs.lookup at_).isSome = true then some (fs.remove at_) else none
  | .rename source target =>
      if source ≠ [] ∧ ¬ source <+: target ∧ replaceable fs source target = true then
        fs.rename source target
      else none

def paths : Operation → List Location
  | .create at_ _ | .write at_ _ | .remove at_ => [at_]
  | .rename source target => [source, target]

/-- The root and what it lies in stay where they are. -/
def Spares (root : Location) (operation : Operation) : Prop :=
  ∀ path ∈ operation.paths, ¬ path <+: root

end Operation

/-- The part of a location strictly below the root. -/
def below (root location : Location) : Option Location :=
  if root <+: location ∧ root ≠ location then some (location.drop root.length) else none

section Below

variable {root location : Location}

theorem below_append {tail : Location} (nonempty : tail ≠ []) :
    below root (root ++ tail) = some tail := by
  rw [below, if_pos ⟨List.prefix_append _ _, by simpa using Ne.symm nonempty⟩, List.drop_left]

theorem below_eq_some {tail : Location} (found : below root location = some tail) :
    location = root ++ tail ∧ tail ≠ [] := by
  rw [below, Option.ite_none_right_eq_some] at found
  obtain ⟨⟨⟨rest, rfl⟩, proper⟩, same⟩ := found
  rw [List.drop_left] at same
  cases same
  exact ⟨rfl, fun empty => proper (by simp [empty])⟩

/-- A path that spares the root lies above a vault path only from within the vault. -/
theorem prefix_iff_below (spares : ¬ location <+: root) (path : Location) :
    location <+: root ++ path ↔ ∃ tail ∈ below root location, tail <+: path := by
  constructor
  · intro above
    rcases List.prefix_or_prefix_of_prefix above (List.prefix_append root path) with outer | ⟨tail, rfl⟩
    · exact absurd outer spares
    · have nonempty : tail ≠ [] := by
        rintro rfl
        exact spares (by simp)
      exact ⟨tail, below_append nonempty, (List.prefix_append_right_inj root).mp above⟩
  · rintro ⟨tail, found, above⟩
    obtain ⟨rfl, _⟩ := below_eq_some found
    exact (List.prefix_append_right_inj root).mpr above

end Below

section Effects

variable {fs fs' : Fs} {root : Location}

theorem sameKind_of_replaceable {source target : Location} {node : Node Leaf}
    (fits : replaceable fs source target = true) (moved : fs.lookup source = some node) :
    fs.lookup target = none ∨ SameKind (fs.lookup target) (some node) := by
  unfold replaceable at fits
  rw [moved] at fits
  cases found : fs.lookup target with
  | none => exact .inl rfl
  | some old =>
    rw [found] at fits
    cases old <;> cases node <;> simp_all [SameKind]

theorem nothing_under_replaceable {source target path : Location}
    (fits : replaceable fs source target = true) (moved : (fs.lookup source).isSome = true)
    (above : target <+: path) (proper : target ≠ path) : fs.lookup path = none := by
  obtain ⟨node, moved⟩ := Option.isSome_iff_exists.mp moved
  cases present : fs.lookup path with
  | none => rfl
  | some inner =>
    have directory := FileTree.lookup_ancestor present above proper
    unfold replaceable at fits
    rw [moved, directory] at fits
    cases node with
    | leaf content => cases fits
    | dir =>
      obtain ⟨tail, rfl⟩ := above
      have listed : (tail, inner) ∈ fs.under target := FileTree.mem_under.mpr
        ⟨fun empty => proper (by simp [empty]),
          (FileTree.lookup_eq_some (by
            rintro empty
            have nil := List.append_eq_nil_iff.mp empty
            exact proper (by simp [nil.1, nil.2]))).mp present⟩
      rw [List.isEmpty_iff.mp fits] at listed
      cases listed

/-- Away from a path that spares the root, nothing below the root is under it. -/
theorem outside_of_away {location path : Location} (spares : ¬ location <+: root)
    (away : ∀ tail ∈ below root location, ¬ tail <+: path) : ¬ location <+: root ++ path := by
  intro above
  obtain ⟨tail, found, inside⟩ := (prefix_iff_below spares path).mp above
  exact away tail found inside

theorem create_move {at_ : Location} {content : Subtree FileName Leaf}
    (spares : ¬ at_ <+: root) (done : (Operation.create at_ content).apply fs = some fs') :
    Move (view fs root) (view fs' root) none (below root at_) := by
  simp only [Operation.apply, Option.dite_none_right_eq_some, Option.some.injEq] at done
  obtain ⟨fits, rfl⟩ := done
  constructor
  case quiet =>
    intro path _ away
    simp only [view, FileTree.lookup_attach, if_neg (outside_of_away spares away)]
  case gone => simp
  case arrived =>
    intro tail found path above _
    exact .inl (fits.nothing_under ((prefix_iff_below spares path).mpr ⟨tail, found, above⟩))
  case here =>
    intro tail found
    obtain ⟨rfl, _⟩ := below_eq_some found
    simp only [view, FileTree.lookup_attach, if_pos (List.prefix_refl _), List.drop_length]
    rfl

theorem remove_move {at_ : Location} (spares : ¬ at_ <+: root)
    (done : (Operation.remove at_).apply fs = some fs') :
    Move (view fs root) (view fs' root) (below root at_) none := by
  simp only [Operation.apply, Option.ite_none_right_eq_some, Option.some.injEq] at done
  obtain ⟨⟨nonempty, _⟩, rfl⟩ := done
  constructor
  case quiet =>
    intro path away _
    simp only [view, FileTree.lookup_remove _ nonempty, if_neg (outside_of_away spares away)]
  case gone =>
    intro tail found path above _
    have inside := (prefix_iff_below spares path).mpr ⟨tail, found, above⟩
    simp only [view, FileTree.lookup_remove _ nonempty, if_pos inside]
  case arrived => simp
  case here => simp

theorem rename_move {source target : Location} (sparesSource : ¬ source <+: root)
    (sparesTarget : ¬ target <+: root)
    (done : (Operation.rename source target).apply fs = some fs') :
    Move (view fs root) (view fs' root) (below root source) (below root target) := by
  simp only [Operation.apply, Option.ite_none_right_eq_some] at done
  obtain ⟨⟨nonempty, apart, fits⟩, renamed⟩ := done
  have lookup := FileTree.lookup_rename nonempty renamed
  have moved : (fs.lookup source).isSome = true := FileTree.isSome_of_rename renamed
  constructor
  case quiet =>
    intro path awaySource awayTarget
    simp only [view, lookup, if_neg (outside_of_away sparesSource awaySource),
      if_neg (outside_of_away sparesTarget awayTarget)]
  case gone =>
    intro tail found path above awayTarget
    have inside := (prefix_iff_below sparesSource path).mpr ⟨tail, found, above⟩
    simp only [view, lookup, if_neg (outside_of_away sparesTarget awayTarget), if_pos inside]
  case arrived =>
    intro tail found path above _
    obtain ⟨rfl, _⟩ := below_eq_some found
    have inside : root ++ tail <+: root ++ path := (List.prefix_append_right_inj root).mpr above
    by_cases here : tail = path
    · subst here
      obtain ⟨node, moved⟩ := Option.isSome_iff_exists.mp moved
      simp only [view, lookup, if_pos inside, List.drop_length, List.append_nil, moved]
      exact sameKind_of_replaceable fits moved
    · -- only an empty directory is replaced, so nothing stood below the target
      exact .inl (nothing_under_replaceable fits moved inside fun same =>
        here (List.append_cancel_left same))
  case here =>
    intro tail found
    obtain ⟨rfl, _⟩ := below_eq_some found
    simp only [view, lookup, if_pos (List.prefix_refl _), List.drop_length, List.append_nil, moved]

theorem write_shift {at_ : Location} {content : File} (spares : ¬ at_ <+: root)
    (done : (Operation.write at_ content).apply fs = some fs') :
    Shift (view fs root) (view fs' root) ((below root at_).map Notice.changed).toList := by
  simp only [Operation.apply, Option.dite_none_right_eq_some, Option.some.injEq] at done
  obtain ⟨regular, rfl⟩ := done
  cases place : below root at_ with
  | some tail =>
    obtain ⟨rfl, _⟩ := below_eq_some place
    obtain ⟨node, found⟩ := Option.isSome_iff_exists.mp regular.1
    cases node with
    | dir =>
      rw [FileTree.hasDir_iff.mpr found] at regular
      cases regular.2
    | leaf old =>
      have before : (view fs root).lookup tail = some (.leaf old) := found
      refine shift_changed before (?_ : _ = some (Node.leaf (.file content))) fun other apart => ?_
      · simp only [view, FileTree.lookup_write, if_true]
      · simp only [view, FileTree.lookup_write]
        exact if_neg fun same => apart (List.append_cancel_left same)
  | none =>
    -- a write outside the vault is not seen from its root
    refine ⟨fun path _ => ?_, by simp, by simp, by simp, by simp⟩
    simp only [view, FileTree.lookup_write]
    refine if_neg fun same => ?_
    have outside : ¬ at_ <+: root ++ path := outside_of_away spares (by simp [place])
    exact outside (same ▸ List.prefix_refl _)

end Effects

end Anwesen.Vault

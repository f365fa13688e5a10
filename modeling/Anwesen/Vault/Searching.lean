import Anwesen.Vault.Splitting

/-! The search for the closing line: where it slices, why it ends and what it keeps. -/

set_option autoImplicit false

namespace Anwesen.Vault

open Foundation

/-- A character of the text starts at this byte, or the text ends there. -/
def Boundary (text : Text) (offset : Nat) : Prop :=
  ∃ before after, text = before ++ after ∧ before.byteLength = offset

/-- The offsets at which a pass slices: where it starts to search, and around the delimiter. -/
inductive Slices (afterOpen : Text) (searchStart : Nat) : Nat → Prop where
  | unread : Slices afterOpen searchStart searchStart
  | yaml {unread : Text} {relIdx : Nat} : afterOpen.sliceFrom searchStart = some unread →
      Text.find ('\n' :: delimiter) unread = some relIdx →
        Slices afterOpen searchStart (searchStart + relIdx + 1)
  | afterClose {unread : Text} {relIdx : Nat} : afterOpen.sliceFrom searchStart = some unread →
      Text.find ('\n' :: delimiter) unread = some relIdx →
        Slices afterOpen searchStart (searchStart + relIdx + 1 + 3)

/-- The search over the source after the opening line slices well and ends. -/
structure SafeSearch (afterOpen : Text) : Prop where
  boundaries : ∀ searchStart, Visits (pass afterOpen) 0 searchStart →
    ∀ offset, Slices afterOpen searchStart offset → Boundary afterOpen offset
  returns : ∀ searchStart, Visits (pass afterOpen) 0 searchStart →
    (pass afterOpen searchStart).isSome = true
  advances : ∀ searchStart next, Visits (pass afterOpen) 0 searchStart →
    pass afterOpen searchStart = some (.next next) → searchStart < next ∧ next ≤ afterOpen.byteLength
  ends : ∃ outcome, ∀ fuel, afterOpen.byteLength < fuel → searchClose afterOpen fuel 0 = some outcome

/-- The block and the body are the whole source but for the delimiters. -/
def Reassembles (src yaml body : Text) : Prop :=
  (yaml = [] ∧ body = src) ∨
    ((yaml = [] ∨ ['\n'] <:+ yaml) ∧
      (src = delimiter ++ ['\n'] ++ yaml ++ delimiter ++ ['\n'] ++ body ∨
        (src = delimiter ++ ['\n'] ++ yaml ++ delimiter ∧ body = [])))

/-- A search without a block, or with one that ends in a line and the body after it. -/
def Closes (afterOpen : Text) : Option (Text × Text) → Prop
  | none => True
  | some (yaml, body) => ['\n'] <:+ yaml ∧
      (afterOpen = yaml ++ delimiter ++ ['\n'] ++ body ∨ (afterOpen = yaml ++ delimiter ∧ body = []))

theorem Boundary.le {text : Text} {offset : Nat} (boundary : Boundary text offset) :
    offset ≤ text.byteLength := by
  obtain ⟨before, after, rfl, rfl⟩ := boundary
  simp

/-- Both slices of a pass stand at the delimiter. -/
theorem slices_boundary {afterOpen : Text} {searchStart offset : Nat}
    (boundary : Boundary afterOpen searchStart) (slices : Slices afterOpen searchStart offset) :
    Boundary afterOpen offset := by
  obtain ⟨done, rest, rfl, rfl⟩ := boundary
  cases slices with
  | unread => exact ⟨done, rest, rfl, rfl⟩
  | yaml sliced found =>
    obtain rfl := Option.some.inj ((Text.sliceFrom_append done rest).symm.trans sliced)
    obtain ⟨before, after, rfl, rfl, -⟩ := Text.find_eq_some found
    exact ⟨done ++ (before ++ ['\n']), delimiter ++ after, by simp, (byteLength_upTo done before).symm⟩
  | afterClose sliced found =>
    obtain rfl := Option.some.inj ((Text.sliceFrom_append done rest).symm.trans sliced)
    obtain ⟨before, after, rfl, rfl, -⟩ := Text.find_eq_some found
    exact ⟨done ++ (before ++ '\n' :: delimiter), after, by simp, (byteLength_past done before).symm⟩

theorem closes_found {before after : Text} (closes : after = [] ∨ ['\n'] <+: after) (done : Text) :
    Closes (done ++ (before ++ '\n' :: delimiter ++ after))
      (some (done ++ (before ++ ['\n']), (Text.stripPrefix ['\n'] after).getD after)) := by
  refine ⟨⟨done ++ before, by simp⟩, ?_⟩
  rcases closes with rfl | ⟨body, rfl⟩
  · right
    simp [Text.stripPrefix]
  · left
    simp [Text.stripPrefix]

/-- From a boundary a pass leaves with the block, or goes on behind the delimiter it has found. -/
theorem pass_progresses (afterOpen : Text) : Progresses (pass afterOpen) (Boundary afterOpen)
    (Closes afterOpen) (afterOpen.byteLength - ·) := by
  rintro searchStart ⟨done, unread, rfl, rfl⟩
  cases found : Text.find ('\n' :: delimiter) unread with
  | none => exact .inr ⟨none, pass_missing found, trivial⟩
  | some relIdx =>
    obtain ⟨before, after, rfl, rfl, -⟩ := Text.find_eq_some found
    have turn := @pass_found done before after found
    by_cases closes : after = [] ∨ ['\n'] <+: after
    · rw [if_pos closes] at turn
      exact .inr ⟨_, turn, closes_found closes done⟩
    · rw [if_neg closes] at turn
      refine .inl ⟨_, turn, ⟨_, after, by simp, rfl⟩, ?_⟩
      have size := Char.utf8Size_pos '\n'
      simp only [Text.byteLength_append, Text.byteLength]
      omega

theorem boundary_start (text : Text) : Boundary text 0 := ⟨[], text, rfl, rfl⟩

theorem safeSearch (afterOpen : Text) : SafeSearch afterOpen where
  boundaries searchStart visits offset slices :=
    slices_boundary ((pass_progresses afterOpen).visited (boundary_start afterOpen) visits) slices
  returns searchStart visits := by
    have holds := (pass_progresses afterOpen).visited (boundary_start afterOpen) visits
    rcases pass_progresses afterOpen searchStart holds with ⟨next, turn, -⟩ | ⟨outcome, turn, -⟩ <;>
      rw [turn, Option.isSome_some]
  advances searchStart next visits turn := by
    have holds := (pass_progresses afterOpen).visited (boundary_start afterOpen) visits
    obtain ⟨kept, less⟩ := (pass_progresses afterOpen).advance holds turn
    have bound := kept.le
    omega
  ends := by
    obtain ⟨outcome, -, ended⟩ := (pass_progresses afterOpen).total (boundary_start afterOpen)
    exact ⟨outcome, fun fuel enough => (searchClose_eq_loop afterOpen fuel 0).trans (ended fuel enough)⟩

/-- Every slice of the search is on a boundary, the search moves on until it ends, and nothing of
the source is lost. -/
theorem splitFrontmatter_reassembles (src : Text) :
    (∀ afterOpen, Text.stripPrefix (delimiter ++ ['\n']) src = some afterOpen → SafeSearch afterOpen) ∧
      ∃ yaml body, splitFrontmatter src = some (yaml, body) ∧ Reassembles src yaml body := by
  refine ⟨fun afterOpen _ => safeSearch afterOpen, ?_⟩
  cases opened : Text.stripPrefix (delimiter ++ ['\n']) src with
  | none =>
    refine ⟨[], src, ?_, .inl ⟨rfl, rfl⟩⟩
    rw [splitFrontmatter, opened]
  | some afterOpen =>
    obtain ⟨outcome, closes, ended⟩ := (pass_progresses afterOpen).total (boundary_start afterOpen)
    have searched := (searchClose_eq_loop afterOpen _ 0).trans
      (ended (afterOpen.byteLength + 1) (Nat.lt_succ_of_le (Nat.sub_le _ _)))
    have whole := Text.stripPrefix_eq_some.mp opened
    cases outcome with
    | none =>
      refine ⟨[], src, ?_, .inl ⟨rfl, rfl⟩⟩
      simp only [splitFrontmatter, opened, searched]
    | some block =>
      obtain ⟨line, parts⟩ := closes
      refine ⟨block.1, block.2, ?_, .inr ⟨.inr line, ?_⟩⟩
      · simp only [splitFrontmatter, opened, searched]
      · rcases parts with same | ⟨same, empty⟩
        · left
          simp [whole, same]
        · right
          simp [whole, same, empty]

end Anwesen.Vault

import Mathlib.Data.List.Infix

/-! Lists joined by a delimiter of several elements, and taken apart at it.

A delimiter that does not overlap itself occurs in a joined list only where it was
put, unless a part of the list holds it.
-/

set_option autoImplicit false

namespace Anwesen.Foundation

variable {α : Type} [DecidableEq α]

/-- No proper part of the list both ends and begins it. -/
def Unbordered (marks : List α) : Prop :=
  ∀ size < marks.length, 0 < size → marks.drop size ≠ marks.take (marks.length - size)

instance (marks : List α) : Decidable (Unbordered marks) :=
  inferInstanceAs (Decidable (∀ size < marks.length, 0 < size →
    marks.drop size ≠ marks.take (marks.length - size)))

structure Delimiter (α : Type) [DecidableEq α] where
  marks : List α
  nonempty : marks ≠ []
  unbordered : Unbordered marks

namespace Delimiter

variable (sep : Delimiter α)

/-- The list before and after the first occurrence. -/
def cut : List α → Option (List α × List α)
  | [] => none
  | item :: rest =>
      if sep.marks <+: item :: rest then some ([], (item :: rest).drop sep.marks.length)
      else (cut rest).map fun parts => (item :: parts.1, parts.2)

variable {sep : Delimiter α}

/-- The first occurrence is the first: nothing before it holds the delimiter. -/
theorem cut_eq_some {text before after : List α} (found : sep.cut text = some (before, after)) :
    text = before ++ sep.marks ++ after ∧ ¬ sep.marks <:+: before := by
  induction text generalizing before with
  | nil => cases found
  | cons item text ih =>
    rw [cut] at found
    split at found
    · rename_i here
      obtain ⟨rest, same⟩ := here
      cases found
      refine ⟨by simp [← same], fun inside => sep.nonempty ?_⟩
      exact List.infix_nil.mp inside
    · rename_i elsewhere
      obtain ⟨⟨head, tail⟩, later, same⟩ := Option.map_eq_some_iff.mp found
      cases same
      obtain ⟨split, clean⟩ := ih later
      refine ⟨by simp [split], fun inside => ?_⟩
      rcases List.infix_cons_iff.mp inside with first | deeper
      · apply elsewhere
        rw [split, List.append_assoc, ← List.cons_append]
        exact first.trans (List.prefix_append _ _)
      · exact clean deeper

theorem cut_eq_none {text : List α} (missing : sep.cut text = none) : ¬ sep.marks <:+: text := by
  induction text with
  | nil => exact fun inside => sep.nonempty (List.infix_nil.mp inside)
  | cons item text ih =>
    rw [cut] at missing
    split at missing
    · cases missing
    · rename_i elsewhere
      rintro inside
      rcases List.infix_cons_iff.mp inside with first | deeper
      · exact elsewhere first
      · exact ih (Option.map_eq_none_iff.mp missing) deeper

/-- Before the delimiter that follows, it could begin only by overlapping itself. -/
theorem not_prefix_append {first : List α} (present : first ≠ []) (clean : ¬ sep.marks <:+: first)
    (rest : List α) : ¬ sep.marks <+: first ++ (sep.marks ++ rest) := by
  intro early
  rcases Nat.le_total sep.marks.length first.length with short | long
  · exact clean (List.prefix_of_prefix_length_le early (List.prefix_append _ _) short).isInfix
  · obtain ⟨border, same⟩ := List.prefix_of_prefix_length_le (List.prefix_append _ _) early long
    have length : border.length = sep.marks.length - first.length := by simp [← same]
    have positive : 0 < first.length := List.length_pos_iff.mpr present
    have again : border <+: sep.marks := by
      refine List.prefix_of_prefix_length_le ?_ (List.prefix_append sep.marks rest) (by omega)
      rw [← same, List.prefix_append_right_inj] at early
      rwa [← same]
    by_cases whole : first.length = sep.marks.length
    · have nothing : border = [] := List.length_eq_zero_iff.mp (by omega)
      rw [nothing, List.append_nil] at same
      exact clean (same ▸ List.infix_rfl)
    · refine sep.unbordered first.length (by omega) positive ?_
      rw [← length, ← List.prefix_iff_eq_take.mp again]
      conv_lhs => rw [← same]
      exact List.drop_left

theorem cut_append {first : List α} (clean : ¬ sep.marks <:+: first) (rest : List α) :
    sep.cut (first ++ (sep.marks ++ rest)) = some (first, rest) := by
  induction first with
  | nil =>
    obtain ⟨mark, marks, same⟩ := List.exists_cons_of_ne_nil sep.nonempty
    have here : sep.marks <+: mark :: (marks ++ rest) := by simp [same]
    rw [List.nil_append, same, List.cons_append, cut, if_pos here, ← List.cons_append, ← same,
      List.drop_left]
  | cons item first ih =>
    have later : ¬ sep.marks <:+: first := fun inside =>
      clean (inside.trans (List.suffix_cons item first).isInfix)
    have elsewhere := not_prefix_append (List.cons_ne_nil item first) clean rest
    rw [List.cons_append] at elsewhere
    rw [List.cons_append, cut, if_neg elsewhere, ih later]
    rfl

theorem cut_eq_some_iff {text before after : List α} : sep.cut text = some (before, after) ↔
    text = before ++ (sep.marks ++ after) ∧ ¬ sep.marks <:+: before := by
  constructor
  · intro found
    obtain ⟨split, clean⟩ := cut_eq_some found
    exact ⟨split.trans (List.append_assoc ..), clean⟩
  · rintro ⟨rfl, clean⟩
    exact cut_append clean after

theorem cut_eq_none_of_clean {text : List α} (clean : ¬ sep.marks <:+: text) : sep.cut text = none := by
  rw [Option.eq_none_iff_forall_ne_some]
  rintro ⟨before, after⟩ found
  exact clean ⟨before, after, (cut_eq_some found).1.symm⟩

theorem length_cut {text before after : List α} (found : sep.cut text = some (before, after)) :
    after.length < text.length := by
  have positive := List.length_pos_iff.mpr sep.nonempty
  rw [(cut_eq_some found).1]
  simp
  omega

variable (sep)

/-- The list taken apart at every occurrence, from the first one on. -/
def pieces (text : List α) : List (List α) :=
  match _found : sep.cut text with
  | none => [text]
  | some (before, after) => before :: pieces after
termination_by text.length
decreasing_by exact length_cut ‹_›

variable {sep}

theorem pieces_of_clean {text : List α} (clean : ¬ sep.marks <:+: text) : sep.pieces text = [text] := by
  rw [pieces]
  split
  · rfl
  · rename_i found
    rw [cut_eq_none_of_clean clean] at found
    cases found

theorem pieces_append {first : List α} (clean : ¬ sep.marks <:+: first) (rest : List α) :
    sep.pieces (first ++ (sep.marks ++ rest)) = first :: sep.pieces rest := by
  rw [pieces]
  split
  · rename_i missing
    rw [cut_append clean] at missing
    cases missing
  · rename_i found
    rw [cut_append clean] at found
    cases found
    rfl

/-- No piece holds the delimiter. -/
theorem pieces_clean (text : List α) : ∀ piece ∈ sep.pieces text, ¬ sep.marks <:+: piece := by
  fun_induction pieces sep text with
  | case1 text missing =>
    intro piece member
    obtain rfl := List.mem_singleton.mp member
    exact cut_eq_none missing
  | case2 text before after found ih =>
    intro piece member
    rcases List.mem_cons.mp member with rfl | later
    · exact (cut_eq_some found).2
    · exact ih piece later

theorem pieces_intercalate_iff {segments : List (List α)} (present : segments ≠ []) :
    sep.pieces (sep.marks.intercalate segments) = segments ↔
      ∀ segment ∈ segments, ¬ sep.marks <:+: segment := by
  refine ⟨fun same => same ▸ pieces_clean _, fun clean => ?_⟩
  induction segments with
  | nil => exact absurd rfl present
  | cons head rest ih =>
    rw [List.forall_mem_cons] at clean
    cases rest with
    | nil => rw [List.intercalate_singleton, pieces_of_clean clean.1]
    | cons next rest =>
      rw [List.intercalate_cons_cons, List.append_assoc, pieces_append clean.1,
        ih (List.cons_ne_nil _ _) clean.2]

end Delimiter

end Anwesen.Foundation

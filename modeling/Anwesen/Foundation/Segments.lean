import Mathlib.Data.List.Infix

/-! Lists of segments joined by a separator element.

A joined list determines its segments whenever no segment holds the separator,
and "starts with the joined segments and a separator" is then the same as
"properly extends the list of segments".
-/

set_option autoImplicit false

namespace Anwesen.Foundation

variable {α : Type}

/-- Segments that can be told apart again after joining them with `sep`. -/
def Separable (sep : α) (segments : List (List α)) : Prop :=
  ∀ segment ∈ segments, sep ∉ segment

theorem intercalate_append {sep : α} {first rest : List (List α)}
    (left : first ≠ []) (right : rest ≠ []) :
    [sep].intercalate (first ++ rest) =
      [sep].intercalate first ++ sep :: [sep].intercalate rest := by
  induction first with
  | nil => exact absurd rfl left
  | cons head tail ih =>
    cases tail with
    | nil => simp [List.intercalate_cons_of_ne_nil right]
    | cons next tail =>
      have joined := ih (List.cons_ne_nil _ _)
      rw [List.cons_append, List.intercalate_cons_of_ne_nil (by simp), joined,
        List.intercalate_cons_of_ne_nil (List.cons_ne_nil _ _)]
      simp

variable [BEq α] [LawfulBEq α]

theorem intercalate_injective {sep : α} {first second : List (List α)}
    (left : Separable sep first) (right : Separable sep second)
    (leftNonempty : first ≠ []) (rightNonempty : second ≠ [])
    (same : [sep].intercalate first = [sep].intercalate second) : first = second := by
  have split := congrArg (List.splitOn sep) same
  rwa [List.splitOn_intercalate sep left leftNonempty,
    List.splitOn_intercalate sep right rightNonempty] at split

/-- Being under a joined prefix is being a proper extension of its segments. -/
theorem intercalate_prefix_iff {sep : α} {outer inner : List (List α)}
    (left : Separable sep outer) (right : Separable sep inner)
    (leftNonempty : outer ≠ []) (rightNonempty : inner ≠ []) :
    [sep].intercalate outer ++ [sep] <+: [sep].intercalate inner ↔
      outer <+: inner ∧ outer ≠ inner := by
  constructor
  · rintro ⟨tail, joined⟩
    have split := congrArg (List.splitOn sep) joined
    rw [List.append_assoc, List.singleton_append, List.splitOn_append_cons_self,
      List.splitOn_intercalate sep left leftNonempty,
      List.splitOn_intercalate sep right rightNonempty] at split
    refine ⟨⟨_, split⟩, fun same => ?_⟩
    subst same
    simp at split
  · rintro ⟨⟨rest, rfl⟩, different⟩
    have restNonempty : rest ≠ [] := by
      rintro rfl
      exact different (List.append_nil outer).symm
    rw [intercalate_append leftNonempty restNonempty]
    exact ⟨[sep].intercalate rest, by simp⟩

theorem separable_splitOn (sep : α) (text : List α) : Separable sep (text.splitOn sep) := by
  induction text with
  | nil => simp [Separable]
  | cons next text ih =>
    obtain ⟨head, rest, split⟩ := List.exists_cons_of_ne_nil (List.splitOn_ne_nil sep text)
    rw [split, Separable, List.forall_mem_cons] at ih
    rw [List.splitOn_cons_eq_if_modifyHead, split]
    by_cases same : next = sep
    · simpa [Separable, same] using ih
    · simpa [Separable, same, Ne.symm same] using ih

theorem mem_of_mem_splitOn (sep : α) (text : List α) :
    ∀ segment ∈ text.splitOn sep, ∀ item ∈ segment, item ∈ text := by
  induction text with
  | nil => simp
  | cons next text ih =>
    obtain ⟨head, rest, split⟩ := List.exists_cons_of_ne_nil (List.splitOn_ne_nil sep text)
    rw [split, List.forall_mem_cons] at ih
    rw [List.splitOn_cons_eq_if_modifyHead, split]
    intro segment listed item member
    by_cases same : next = sep
    · have cases_ : segment = [] ∨ segment = head ∨ segment ∈ rest := by simpa [same] using listed
      rcases cases_ with rfl | rfl | later
      · cases member
      · exact List.mem_cons_of_mem _ (ih.1 item member)
      · exact List.mem_cons_of_mem _ (ih.2 segment later item member)
    · have cases_ : segment = next :: head ∨ segment ∈ rest := by simpa [same] using listed
      rcases cases_ with rfl | later
      · exact (List.mem_cons.mp member).elim (· ▸ List.mem_cons_self)
          fun inside => List.mem_cons_of_mem _ (ih.1 item inside)
      · exact List.mem_cons_of_mem _ (ih.2 segment later item member)

/-- A segment without the separator is a piece of the joined list. -/
theorem mem_splitOn_intercalate {sep : α} {segments : List (List α)} {segment : List α}
    (member : segment ∈ segments) (clean : sep ∉ segment) :
    segment ∈ ([sep].intercalate segments).splitOn sep := by
  induction segments with
  | nil => cases member
  | cons head rest ih =>
    cases rest with
    | nil =>
      obtain rfl := List.mem_singleton.mp member
      rw [List.intercalate_singleton, List.splitOn_eq_singleton clean]
      exact List.mem_singleton_self _
    | cons next rest =>
      rw [List.intercalate_cons_cons, List.append_assoc, List.singleton_append,
        List.splitOn_append_cons_self]
      rcases List.mem_cons.mp member with rfl | later
      · rw [List.splitOn_eq_singleton clean]
        exact List.mem_append_left _ (List.mem_singleton_self _)
      · exact List.mem_append_right _ (ih later)

theorem splitOn_injective {sep : α} {first second : List α}
    (same : first.splitOn sep = second.splitOn sep) : first = second := by
  have joined : [sep].intercalate (first.splitOn sep) = first := List.intercalate_splitOn sep
  rw [← joined, same, List.intercalate_splitOn]

/-- Being under a prefix, in terms of the segments of both. -/
theorem splitOn_prefix_iff {sep : α} {outer inner : List α} :
    outer ++ [sep] <+: inner ↔ outer.splitOn sep <+: inner.splitOn sep ∧ outer ≠ inner := by
  have joined := intercalate_prefix_iff (separable_splitOn sep outer) (separable_splitOn sep inner)
    (List.splitOn_ne_nil sep outer) (List.splitOn_ne_nil sep inner)
  rw [List.intercalate_splitOn, List.intercalate_splitOn] at joined
  rw [joined, Ne, Ne, (⟨splitOn_injective, congrArg _⟩ :
    outer.splitOn sep = inner.splitOn sep ↔ outer = inner)]

theorem length_splitOn_le_one {sep : α} {text : List α} :
    (text.splitOn sep).length ≤ 1 ↔ sep ∉ text := by
  constructor
  · intro short
    obtain ⟨head, rest, split⟩ := List.exists_cons_of_ne_nil (List.splitOn_ne_nil sep text)
    have alone : rest = [] := by simpa [split] using short
    have clean := separable_splitOn sep text head (by simp [split])
    have joined : [sep].intercalate (text.splitOn sep) = text := List.intercalate_splitOn sep
    rwa [← joined, split, alone, List.intercalate_singleton]
  · intro clean
    simp [List.splitOn_eq_singleton clean]

/-- Every segment after the first one follows a separator. -/
theorem mem_tail_splitOn {sep : α} {text first segment : List α} {rest : List (List α)}
    (split : text.splitOn sep = first :: rest) (member : segment ∈ rest) :
    ∃ before after, text = before ++ sep :: (segment ++ after) := by
  -- joined again, the segments from this one on follow a separator
  obtain ⟨earlier, later, rfl⟩ := List.append_of_mem member
  have joined : [sep].intercalate (text.splitOn sep) = text := List.intercalate_splitOn sep
  rw [split, ← List.cons_append, intercalate_append (by simp) (by simp)] at joined
  obtain ⟨after, tail⟩ : ∃ after, [sep].intercalate (segment :: later) = segment ++ after := by
    cases later with
    | nil => exact ⟨[], by simp⟩
    | cons head tail => exact ⟨_, by rw [List.intercalate_cons_cons, List.append_assoc]⟩
  exact ⟨_, after, joined.symm.trans (by rw [tail])⟩

omit [BEq α] [LawfulBEq α] in
/-- Between separators put around the joined list, every segment has one on both sides. -/
theorem mem_intercalate_between {sep : α} {segments : List (List α)} {segment : List α}
    (member : segment ∈ segments) : ∃ before after,
      sep :: ([sep].intercalate segments ++ [sep]) = before ++ sep :: (segment ++ sep :: after) := by
  induction segments with
  | nil => cases member
  | cons head rest ih =>
    cases rest with
    | nil =>
      obtain rfl := List.mem_singleton.mp member
      exact ⟨[], [], by simp⟩
    | cons next rest =>
      rw [List.intercalate_cons_cons]
      rcases List.mem_cons.mp member with rfl | later
      · exact ⟨[], [sep].intercalate (next :: rest) ++ [sep], by simp⟩
      · obtain ⟨before, after, same⟩ := ih later
        exact ⟨sep :: head ++ before, after, by simp [← same]⟩

theorem mem_splitOn_between {sep : α} {segment : List α} (clean : sep ∉ segment) (before after : List α) :
    segment ∈ (before ++ sep :: (segment ++ sep :: after)).splitOn sep := by
  rw [List.splitOn_append_cons_self, List.splitOn_append_cons_self, List.splitOn_eq_singleton clean]
  simp

theorem splitOn_append_of_not_mem {sep : α} {first text head : List α} {rest : List (List α)}
    (clean : sep ∉ first) (split : text.splitOn sep = head :: rest) :
    (first ++ text).splitOn sep = (first ++ head) :: rest := by
  induction first with
  | nil => simpa using split
  | cons next first ih =>
    have different : (next == sep) = false := by
      rw [beq_eq_false_iff_ne]
      rintro rfl
      exact clean List.mem_cons_self
    rw [List.cons_append, List.splitOn_cons_eq_if_modifyHead, different,
      ih fun member => clean (List.mem_cons_of_mem _ member)]
    simp

end Anwesen.Foundation

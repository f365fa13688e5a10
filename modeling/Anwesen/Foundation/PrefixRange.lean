import Mathlib.Data.List.Infix

/-! The keys of an ordered list that extend a given prefix.

Keys are compared lexicographically, so those that extend a prefix stand in one
block, which starts at the first key that is not below the prefix.
-/

set_option autoImplicit false

namespace Anwesen.Foundation

variable {α : Type} [Ord α] [Std.TransOrd α] [Std.LawfulEqOrd α]

/-- What lies between a prefix and one of its extensions extends the prefix. -/
theorem prefix_of_between {initial middle whole : List α} (extends_ : initial <+: whole)
    (low : compare initial middle ≠ .gt) (high : compare middle whole ≠ .gt) :
    initial <+: middle := by
  obtain ⟨tail, rfl⟩ := extends_
  induction initial generalizing middle with
  | nil => exact List.nil_prefix
  | cons head initial ih =>
    cases middle with
    | nil => simp at low
    | cons next middle =>
      rw [List.compare_cons_cons] at low
      rw [List.cons_append, List.compare_cons_cons] at high
      -- heads that differ would put the middle outside the bounds
      cases order : compare head next with
      | lt =>
        have flipped : compare next head = .gt := Std.OrientedCmp.gt_iff_lt.mpr order
        simp [flipped] at high
      | gt => simp [order] at low
      | eq =>
        obtain rfl := Std.LawfulEqOrd.eq_of_compare order
        have flipped : compare head head = .eq := Std.ReflCmp.compare_self
        simp only [flipped, Ordering.eq_then] at low high
        exact List.cons_prefix_cons.mpr ⟨rfl, ih low high⟩

omit [Std.TransOrd α] in
theorem compare_initial {initial whole : List α} (extends_ : initial <+: whole) :
    compare initial whole ≠ .gt := by
  obtain ⟨tail, rfl⟩ := extends_
  induction initial with
  | nil => cases tail <;> simp
  | cons head initial ih =>
    have same : compare head head = .eq := Std.ReflCmp.compare_self
    rwa [List.cons_append, List.compare_cons_cons, same, Ordering.eq_then]

variable {keys : List (List α)}

omit [Std.LawfulEqOrd α] in
theorem mem_dropWhile_lt (ordered : keys.Pairwise fun a b => compare a b = .lt)
    {bound key : List α} :
    key ∈ keys.dropWhile (fun key => compare key bound = .lt) ↔
      key ∈ keys ∧ compare key bound ≠ .lt := by
  induction keys with
  | nil => simp
  | cons head rest ih =>
    obtain ⟨first, others⟩ := List.pairwise_cons.mp ordered
    by_cases below : compare head bound = .lt
    · rw [List.dropWhile_cons_of_pos (by simpa using below), ih others]
      constructor
      · exact fun ⟨member, notBelow⟩ => ⟨List.mem_cons_of_mem _ member, notBelow⟩
      · rintro ⟨member, notBelow⟩
        rcases List.mem_cons.mp member with rfl | member
        · exact absurd below notBelow
        · exact ⟨member, notBelow⟩
    · rw [List.dropWhile_cons_of_neg (by simpa using below)]
      refine ⟨fun member => ⟨member, fun lower => below ?_⟩, And.left⟩
      rcases List.mem_cons.mp member with rfl | member
      · exact lower
      · exact Std.TransCmp.lt_trans (first key member) lower

theorem mem_takeWhile_starting [BEq α] [LawfulBEq α]
    (ordered : keys.Pairwise fun a b => compare a b = .lt)
    {initial key : List α} (above : ∀ key ∈ keys, compare initial key ≠ .gt) :
    key ∈ keys.takeWhile (initial.isPrefixOf ·) ↔ key ∈ keys ∧ initial <+: key := by
  induction keys with
  | nil => simp
  | cons head rest ih =>
    obtain ⟨first, others⟩ := List.pairwise_cons.mp ordered
    have aboveRest : ∀ key ∈ rest, compare initial key ≠ .gt :=
      fun key member => above key (List.mem_cons_of_mem _ member)
    by_cases here : initial <+: head
    · rw [List.takeWhile_cons_of_pos (List.isPrefixOf_iff_prefix.mpr here), List.mem_cons,
        ih others aboveRest, List.mem_cons]
      constructor
      · rintro (rfl | ⟨member, extends_⟩)
        · exact ⟨.inl rfl, here⟩
        · exact ⟨.inr member, extends_⟩
      · rintro ⟨rfl | member, extends_⟩
        · exact .inl rfl
        · exact .inr ⟨member, extends_⟩
    · rw [List.takeWhile_cons_of_neg (fun extends_ => here (List.isPrefixOf_iff_prefix.mp extends_))]
      simp only [List.not_mem_nil, false_iff, not_and]
      intro member extends_
      -- a key that extends the prefix would pull the smaller head into the block
      refine here ?_
      rcases List.mem_cons.mp member with rfl | member
      · exact extends_
      · refine prefix_of_between extends_ (above head List.mem_cons_self) ?_
        simp [first key member]

/-- `range(prefix..)` cut off at the first key that does not extend the prefix. -/
theorem mem_prefixRange [BEq α] [LawfulBEq α]
    (ordered : keys.Pairwise fun a b => compare a b = .lt) {initial key : List α} :
    key ∈ (keys.dropWhile (fun key => compare key initial = .lt)).takeWhile (initial.isPrefixOf ·) ↔
      key ∈ keys ∧ initial <+: key := by
  have below := ordered.sublist
    (List.dropWhile_sublist fun key => decide (compare key initial = .lt))
  rw [mem_takeWhile_starting below, mem_dropWhile_lt ordered]
  · constructor
    · exact fun ⟨⟨member, _⟩, extends_⟩ => ⟨member, extends_⟩
    · rintro ⟨member, extends_⟩
      exact ⟨⟨member, fun lower =>
        compare_initial extends_ (Std.OrientedCmp.gt_iff_lt.mpr lower)⟩, extends_⟩
  · intro other member
    have notBelow := ((mem_dropWhile_lt ordered).mp member).2
    exact fun above => notBelow (Std.OrientedCmp.gt_iff_lt.mp above)

end Anwesen.Foundation

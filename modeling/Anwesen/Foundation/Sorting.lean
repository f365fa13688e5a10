import Mathlib.Data.List.Basic

/-! Sorting by a comparator that may not be a total order.

Under a total order the result is that of the stable sort. Under any other comparator
a sort may give up, or leave its elements in whatever order.
-/

set_option autoImplicit false

namespace Anwesen.Foundation

/-- Among the elements of a list the comparator is a total order. -/
structure TotalOn {α : Type} (cmp : α → α → Ordering) (items : List α) : Prop where
  oriented : ∀ a ∈ items, ∀ b ∈ items, cmp a b = (cmp b a).swap
  closed : ∀ a ∈ items, ∀ b ∈ items, ∀ c ∈ items, (cmp a b).isLE = true → (cmp b c).isLE = true →
    (cmp a c).isLE = true

instance {α : Type} (cmp : α → α → Ordering) (items : List α) : Decidable (TotalOn cmp items) :=
  decidable_of_iff
    ((∀ a ∈ items, ∀ b ∈ items, cmp a b = (cmp b a).swap) ∧
      ∀ a ∈ items, ∀ b ∈ items, ∀ c ∈ items, (cmp a b).isLE = true → (cmp b c).isLE = true →
        (cmp a c).isLE = true)
    ⟨fun ⟨oriented, closed⟩ => ⟨oriented, closed⟩, fun total => ⟨total.oriented, total.closed⟩⟩

/-- What is promised of a sort, which gives up with no result. -/
structure SortBy where
  sort : {α : Type} → (α → α → Ordering) → List α → Option (List α)
  perm : ∀ {α : Type} {cmp : α → α → Ordering} {items sorted : List α}, sort cmp items = some sorted →
    sorted.Perm items
  stable : ∀ {α : Type} {cmp : α → α → Ordering} {items : List α}, TotalOn cmp items →
    sort cmp items = some (items.mergeSort fun a b => (cmp a b).isLE)

namespace SortBy

/-- The merge sort, which never gives up. -/
def merging : SortBy where
  sort cmp items := some (items.mergeSort fun a b => (cmp a b).isLE)
  perm given := Option.some.inj given ▸ List.mergeSort_perm _ _
  stable _ := rfl

/-- The merge sort that gives up wherever it may. -/
def refusing : SortBy where
  sort cmp items := if TotalOn cmp items then merging.sort cmp items else none
  perm given := by
    split at given
    · exact merging.perm given
    · cases given
  stable total := if_pos total

theorem refusing_eq_none {α : Type} {cmp : α → α → Ordering} {items : List α}
    (cyclic : ¬ TotalOn cmp items) : refusing.sort cmp items = none := if_neg cyclic

end SortBy

variable {α : Type} {cmp : α → α → Ordering} {items : List α}

theorem totalOn_of_transCmp [Std.TransCmp cmp] : TotalOn cmp items where
  oriented _ _ _ _ := Std.OrientedCmp.eq_swap
  closed _ _ _ _ _ _ first second := Std.TransCmp.isLE_trans first second

/-- Sorted by a total order, no element stands before one that compares less. -/
theorem TotalOn.pairwise_mergeSort (total : TotalOn cmp items) :
    (items.mergeSort fun a b => (cmp a b).isLE).Pairwise fun a b => cmp b a ≠ .lt := by
  -- the order is one of the elements of the list only
  have attached : items.mergeSort (fun a b => (cmp a b).isLE) =
      (items.attach.mergeSort fun a b => (cmp a.1 b.1).isLE).map Subtype.val := by
    rw [List.map_mergeSort (s := fun a b => (cmp a b).isLE) (fun _ _ _ _ => rfl),
      List.attach_map_subtype_val]
  rw [attached, List.pairwise_map]
  have sorted : (items.attach.mergeSort fun a b => (cmp a.1 b.1).isLE).Pairwise
      fun a b => (cmp a.1 b.1).isLE = true := by
    refine List.pairwise_mergeSort ?_ ?_ _
    · rintro ⟨a, inA⟩ ⟨b, inB⟩ ⟨c, inC⟩ first second
      exact total.closed a inA b inB c inC first second
    · rintro ⟨a, inA⟩ ⟨b, inB⟩
      rw [total.oriented b inB a inA]
      cases cmp a b <;> rfl
  refine sorted.imp fun {a b} le back => ?_
  rw [total.oriented a.1 a.2 b.1 b.2, back] at le
  cases le

end Anwesen.Foundation

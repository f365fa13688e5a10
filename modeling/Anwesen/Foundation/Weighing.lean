import Mathlib.Data.List.Basic

/-! The weight of a list, added up from the weights of its items. -/

set_option autoImplicit false

namespace Anwesen.Foundation

def weigh {Item : Type} (weight : Item → Nat) : List Item → Nat
  | [] => 0
  | item :: rest => weight item + weigh weight rest

section

variable {Item : Type} {weight other : Item → Nat} {items : List Item}

@[simp] theorem weigh_append (before after : List Item) :
    weigh weight (before ++ after) = weigh weight before + weigh weight after := by
  induction before with
  | nil => simp [weigh]
  | cons item rest ih => simp [weigh, ih, Nat.add_assoc]

theorem weigh_set (weight : Item → Nat) {position : Nat} {item : Item} (found : items[position]? = some item) (new : Item) :
    weigh weight (items.set position new) + weight item = weigh weight items + weight new := by
  induction items generalizing position with
  | nil => simp at found
  | cons head rest ih =>
    cases position with
    | zero =>
      obtain rfl : head = item := by simpa using found
      simp only [List.set_cons_zero, weigh]
      omega
    | succ position =>
      have later := ih (by simpa using found)
      simp only [List.set_cons_succ, weigh]
      omega

theorem weigh_map {Other : Type} {weight : Other → Nat} (convert : Item → Other) :
    weigh weight (items.map convert) = weigh (fun item => weight (convert item)) items := by
  induction items with
  | nil => rfl
  | cons item rest ih => rw [List.map_cons, weigh, weigh, ih]

theorem weigh_le (fewer : ∀ item ∈ items, weight item ≤ other item) : weigh weight items ≤ weigh other items := by
  induction items with
  | nil => exact Nat.le_refl _
  | cons item rest ih =>
    rw [List.forall_mem_cons] at fewer
    exact Nat.add_le_add fewer.1 (ih fewer.2)

theorem weigh_lt {item : Item} (member : item ∈ items) (less : weight item < other item)
    (fewer : ∀ item ∈ items, weight item ≤ other item) : weigh weight items < weigh other items := by
  obtain ⟨before, after, rfl⟩ := List.append_of_mem member
  have front := weigh_le fun item listed => fewer item (List.mem_append_left _ listed)
  have back := weigh_le fun item listed =>
    fewer item (List.mem_append_right _ (List.mem_cons_of_mem _ listed))
  simp only [weigh_append, weigh]
  omega

theorem weigh_filter (keep : Item → Bool) :
    weigh weight (items.filter keep) = weigh (fun item => if keep item then weight item else 0) items := by
  induction items with
  | nil => rfl
  | cons item rest ih =>
    rw [List.filter_cons, weigh, ← ih]
    cases keep item <;> simp [weigh]

/-- Counted label by label, each item is counted at the one it has, if that is listed. -/
theorem weigh_countP {Label : Type} [DecidableEq Label] (label : Item → Label) {labels : List Label}
    (distinct : labels.Nodup) :
    weigh (fun listed => items.countP fun item => label item = listed) labels =
      items.countP fun item => label item ∈ labels := by
  induction labels with
  | nil => simp [weigh]
  | cons first rest ih =>
    obtain ⟨absent, distinct⟩ := List.nodup_cons.mp distinct
    rw [weigh, ih distinct]
    clear ih distinct
    induction items with
    | nil => rfl
    | cons item items ih =>
      have once : (if label item = first then 1 else 0) + (if label item ∈ rest then 1 else 0) =
          if label item ∈ first :: rest then 1 else 0 := by
        by_cases here : label item = first
        · simp [here, absent]
        · simp [here]
      simp only [List.countP_cons, decide_eq_true_eq]
      omega

end

end Anwesen.Foundation

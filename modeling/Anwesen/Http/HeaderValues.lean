import Anwesen.Http.Notes

/-! Header values that list members between commas.

A value is a text of characters below 256, one byte each; the handlers read a
value only where all of it is visible ASCII, blanks and tabs.
-/

set_option autoImplicit false

namespace Anwesen.Http

open Foundation Vault

def latin1 (text : Text) : Bytes := text.map fun char => UInt8.ofNat char.toNat

def Narrow (text : Text) : Prop := ∀ char ∈ text, char.toNat < 256

instance (text : Text) : Decidable (Narrow text) := List.decidableBAll _ text

/-- The characters a header value may have. -/
def HeaderText (text : Text) : Prop :=
  ∀ char ∈ text, char.toNat < 256 ∧ (char = '\t' ∨ 32 ≤ char.toNat ∧ char.toNat ≠ 127)

instance (text : Text) : Decidable (HeaderText text) := List.decidableBAll _ text

/-- What `HeaderValue::to_str` reads. -/
def Legible (text : Text) : Prop := ∀ char ∈ text, char = '\t' ∨ 32 ≤ char.toNat ∧ char.toNat < 127

instance (text : Text) : Decidable (Legible text) := List.decidableBAll _ text

/-- Optional whitespace. -/
def Blank (text : Text) : Prop := ∀ char ∈ text, char = ' ' ∨ char = '\t'

instance (text : Text) : Decidable (Blank text) := List.decidableBAll _ text

def Pads (member piece : Text) : Prop :=
  ∃ before after, Blank before ∧ Blank after ∧ piece = before ++ member ++ after

/-- A value that lists these members. -/
def Lists (members : List Text) (value : Text) : Prop :=
  ∃ pieces, List.Forall₂ Pads members pieces ∧ value = [','].intercalate pieces

section

variable {text member piece value : Text} {members : List Text}

theorem blank_spaces {text : Text} (blank : Blank text) : ∀ char ∈ text, Text.isWhitespace char = true := by
  intro char listed
  rcases blank char listed with rfl | rfl <;> decide

theorem blank_legible {text : Text} (blank : Blank text) : Legible text := by
  intro char listed
  rcases blank char listed with rfl | rfl <;> decide

/-- A value is read when all of it is legible, and as it stands. -/
theorem headerStr_latin1 (narrow : Narrow text) :
    headerStr (latin1 text) = if Legible text then some text else none := by
  have exactly : ∀ char ∈ text, (UInt8.ofNat char.toNat).toNat = char.toNat := by
    intro char member
    rw [UInt8.toNat_ofNat', Nat.mod_eq_of_lt (narrow char member)]
  have read : ((latin1 text).all fun b => (32 ≤ b && b < 127) || b = 9) = true ↔ Legible text := by
    rw [latin1, List.all_map, List.all_eq_true]
    refine forall₂_congr fun char member => ?_
    have tab : UInt8.ofNat char.toNat = 9 ↔ char = '\t' := by
      rw [← UInt8.toNat_inj, exactly char member, ← Char.toNat_inj]
      rfl
    simp only [Function.comp_apply, Bool.or_eq_true, Bool.and_eq_true, decide_eq_true_eq,
      UInt8.le_iff_toNat_le, UInt8.lt_iff_toNat_lt, exactly char member, tab]
    exact or_comm
  by_cases legible : Legible text
  · rw [headerStr, if_pos (read.mpr legible), if_pos legible, latin1, List.map_map]
    refine congrArg some ((List.map_congr_left fun char member => ?_).trans (List.map_id _))
    simp [exactly char member]
  · rw [headerStr, if_neg (mt read.mp legible), if_neg legible]

theorem legible_append {first rest : Text} : Legible (first ++ rest) ↔ Legible first ∧ Legible rest := by
  simp only [Legible, List.forall_mem_append]

theorem legible_pads (pads : Pads member piece) : Legible piece ↔ Legible member := by
  obtain ⟨before, after, blank, blank', rfl⟩ := pads
  simp only [legible_append, blank_legible blank, blank_legible blank', true_and, and_true]

theorem legible_lists (lists : Lists members value) :
    Legible value ↔ ∀ member ∈ members, Legible member := by
  have comma : Legible [','] := by decide
  obtain ⟨pieces, padded, rfl⟩ := lists
  induction padded with
  | nil => simp [Legible]
  | @cons member piece members pieces pads rest ih =>
    rw [List.forall_mem_cons, ← legible_pads pads]
    cases rest with
    | nil => simp
    | cons _ _ =>
      rw [List.intercalate_cons_cons, legible_append, legible_append, and_iff_left comma]
      exact and_congr_right fun _ => ih

theorem narrow_append {first rest : Text} : Narrow (first ++ rest) ↔ Narrow first ∧ Narrow rest := by
  simp only [Narrow, List.forall_mem_append]

theorem HeaderText.narrow {text : Text} (header : HeaderText text) : Narrow text :=
  fun char listed => (header char listed).1

theorem narrow_pads (narrow : Narrow member) (pads : Pads member piece) : Narrow piece := by
  obtain ⟨before, after, blank, blank', rfl⟩ := pads
  have narrowBlank : ∀ text, Blank text → Narrow text := by
    intro text blank char listed
    rcases blank char listed with rfl | rfl <;> decide
  rw [narrow_append, narrow_append]
  exact ⟨⟨narrowBlank before blank, narrow⟩, narrowBlank after blank'⟩

theorem narrow_lists (narrow : ∀ member ∈ members, Narrow member) (lists : Lists members value) :
    Narrow value := by
  obtain ⟨pieces, padded, rfl⟩ := lists
  induction padded with
  | nil => simp [Narrow]
  | @cons member piece members pieces pads rest ih =>
    rw [List.forall_mem_cons] at narrow
    have here := narrow_pads narrow.1 pads
    have later := ih narrow.2
    cases rest with
    | nil => simpa using here
    | cons _ _ =>
      rw [List.intercalate_cons_cons, narrow_append, narrow_append]
      exact ⟨⟨here, by decide⟩, later⟩

theorem trim_append {after : Text} (blank : ∀ char ∈ after, Text.isWhitespace char = true) (text : Text) :
    Text.trim (text ++ after) = Text.trim text := by
  have none_ : after.dropWhile Text.isWhitespace = [] := List.dropWhile_eq_nil_iff.mpr blank
  rw [Text.trim, Text.trim, List.dropWhile_append]
  cases kept : text.dropWhile Text.isWhitespace with
  | nil => simp [none_]
  | cons first rest =>
    rw [List.isEmpty_cons, if_neg Bool.false_ne_true, List.reverse_append,
      List.dropWhile_append_of_pos fun char listed => blank char (List.mem_reverse.mp listed)]

/-- Padding does not show after trimming. -/
theorem trim_pads (pads : Pads member piece) : Text.trim piece = Text.trim member := by
  obtain ⟨before, after, blank, blank', rfl⟩ := pads
  rw [trim_append (blank_spaces blank'), Text.trim, List.dropWhile_append_of_pos (blank_spaces blank),
    ← Text.trim]

/-- What holds of a piece exactly when it holds of its member. -/
theorem exists_piece_iff {α β : Type} {related : α → β → Prop} {members : List α} {pieces : List β}
    {P : β → Prop} {Q : α → Prop} (paired : List.Forall₂ related members pieces)
    (same : ∀ member ∈ members, ∀ piece, related member piece → (P piece ↔ Q member)) :
    (∃ piece ∈ pieces, P piece) ↔ ∃ member ∈ members, Q member := by
  induction paired with
  | nil => simp
  | cons first rest ih =>
    rw [List.forall_mem_cons] at same
    rw [List.exists_mem_cons_iff, List.exists_mem_cons_iff, ih same.2, same.1 _ first]

/-- The pieces of a value are those of its padded members. -/
theorem exists_splitOn_iff {P : Text → Prop} {pieces : List Text} (empty : pieces = [] → ¬ P []) :
    (∃ raw ∈ ([','].intercalate pieces).splitOn ',', P raw) ↔
      ∃ piece ∈ pieces, ∃ raw ∈ piece.splitOn ',', P raw := by
  induction pieces with
  | nil => simpa using empty rfl
  | cons piece pieces ih =>
    cases pieces with
    | nil => simp
    | cons next rest =>
      rw [List.exists_mem_cons_iff, ← ih nofun, List.intercalate_cons_cons, List.append_assoc,
        List.singleton_append, List.splitOn_append_cons_self]
      simp only [List.mem_append, or_and_right, exists_or]

end

end Anwesen.Http

import Anwesen.Query.Parsing

/-! Lists of operands within one value.

The value of `__in` and `__all` is split at its commas after it is decoded, so
an escaped comma separates like any other.
-/

set_option autoImplicit false

namespace Anwesen.Query

open Foundation Vault

/-- The bytes an operand may hold unescaped. -/
def operandByte (b : UInt8) : Prop := queryByte b ∧ b ≠ 0x2C

instance : DecidablePred operandByte := fun _ => inferInstanceAs (Decidable (_ ∧ _))

def EncodedOperand (text raw : Text) : Prop :=
  Percent.Encodes plusAsBlank operandByte text.utf8 raw.utf8

/-- The pairs that send operands, each encoded for itself, between commas. -/
def Sends (field : Text) (op : Operator) (operands : List Text) (pair : Text) : Prop :=
  ∃ k raws, pair = k ++ '=' :: [','].intercalate raws ∧ Encoded (field ++ op.suffix) k ∧
    List.Forall₂ EncodedOperand operands raws

/-- What `__in` and `__all` promise about a list of operands, whatever their texts. -/
structure Honours (ext : External) (field : Text) (operands : List Text) : Prop where
  inList : ∀ pair, Sends field .in_ operands pair → ∀ note, Selects ext pair note ↔
    ∃ op ∈ operands, predicateMatch ext ⟨field, .eq, op⟩ note.frontmatter = true
  allList : ∀ pair, Sends field .all operands pair → ∀ note, Selects ext pair note ↔
    ∃ seq, lookupDotted note.frontmatter field = some (.sequence seq) ∧
      ∀ op ∈ operands, ∃ element ∈ seq, matchesScalarEq ext element op = true
  -- an operand alone is sent as an equality, where the field can be written in one
  alone : ¬ underscores <:+: field → ∀ op ∈ operands, ∀ pair, Written ⟨field, .eq, op⟩ pair →
    ∀ note, Selects ext pair note ↔ predicateMatch ext ⟨field, .eq, op⟩ note.frontmatter = true

section

variable {ext : External} {field : Text} {operands : List Text} {op : Operator} {pair : Text}

theorem commaList_intercalate (nonempty : operands ≠ [])
    (clean : ∀ op ∈ operands, ',' ∉ op ∧ Text.trim op = op) :
    commaList ([','].intercalate operands) = operands := by
  rw [commaList, List.splitOn_intercalate ',' (fun op member => (clean op member).1) nonempty]
  exact (List.map_congr_left fun op member => (clean op member).2).trans (List.map_id _)

theorem mem_commaList {value needle : Text} (member : needle ∈ commaList value) :
    ',' ∉ needle ∧ Text.trim needle = needle := by
  obtain ⟨piece, listed, rfl⟩ := List.mem_map.mp member
  have clean := separable_splitOn ',' value piece listed
  exact ⟨fun comma => clean (Text.mem_of_mem_trim comma), Text.trim_trim piece⟩

theorem encoded_intercalate {raws : List Text} (encoded : List.Forall₂ EncodedOperand operands raws) :
    Encoded ([','].intercalate operands) ([','].intercalate raws) := by
  have weaken : ∀ b, operandByte b → queryByte b := fun b allowed => allowed.1
  induction encoded with
  | nil => exact .nil
  | @cons text raw _ _ first rest ih =>
    have wide : Encoded text raw := first.mono weaken
    cases rest with
    | nil => simpa using wide
    | cons second rest =>
      rw [List.intercalate_cons_cons, List.intercalate_cons_cons, Encoded, Text.utf8_append,
        Text.utf8_append, Text.utf8_append, Text.utf8_append]
      have comma : Percent.Encodes plusAsBlank queryByte [0x2C] [0x2C] :=
        .plain (b := 0x2C) (by decide) (by decide) .nil
      exact (wide.append comma).append ih

theorem Sends.written (sends : Sends field op operands pair) :
    Written ⟨field, op, [','].intercalate operands⟩ pair := by
  obtain ⟨k, raws, rfl, key, encoded⟩ := sends
  exact ⟨k, _, rfl, key, encoded_intercalate encoded⟩

theorem exists_sends (field : Text) (op : Operator) (operands : List Text) :
    ∃ pair, Sends field op operands pair := by
  obtain ⟨k, key⟩ := exists_encoded (field ++ op.suffix)
  have all : ∃ raws, List.Forall₂ EncodedOperand operands raws := by
    induction operands with
    | nil => exact ⟨[], .nil⟩
    | cons operand operands ih =>
      obtain ⟨raws, encoded⟩ := ih
      obtain ⟨raw, same⟩ := exists_escape operand
      exact ⟨raw :: raws, .cons (by rw [EncodedOperand, same]; exact Percent.encodes_escape _) encoded⟩
  obtain ⟨raws, encoded⟩ := all
  exact ⟨_, k, raws, rfl, key, encoded⟩

theorem hyphen_not_mem_suffix (op : Operator) : '-' ∉ op.suffix := by
  cases op <;> decide

theorem anw_prefix_iff : anw <+: field ++ op.suffix ↔ anw <+: field := by
  refine ⟨fun front => ?_, fun front => front.trans (List.prefix_append _ _)⟩
  rcases List.prefix_or_prefix_of_prefix front (List.prefix_append field op.suffix) with
    short | ⟨rest, long⟩
  · exact short
  · -- what the suffix would have to supply ends in a hyphen
    rw [← long, List.prefix_append_right_inj] at front
    cases rest using List.reverseRec with
    | nil => exact ⟨[], by simpa using long.symm⟩
    | append_singleton rest last =>
      have ends : last = '-' := by
        have final : anw.getLast? = some '-' := by decide
        rw [← long, ← List.append_assoc, List.getLast?_concat] at final
        exact Option.some.inj final
      exact absurd (front.subset (by simp [ends])) (hyphen_not_mem_suffix op)

theorem writable_of_outside (outside : ¬ anw <+: field) (value : Text)
    (multiple : op = .in_ ∨ op = .all) : Writable ext ⟨field, op, value⟩ := by
  rcases multiple with rfl | rfl
  · exact ⟨mt anw_prefix_iff.mp outside, nofun, nofun, nofun⟩
  · exact ⟨mt anw_prefix_iff.mp outside, nofun, nofun, nofun⟩

theorem applyControl_unknown {name : Text} (underscore : '_' ∈ name) (q : ParsedQuery) (value : Text) :
    applyControl q name value = .error (.badControl name) := by
  have other : ∀ known : Text, '_' ∉ known → name ≠ known := fun known clean same =>
    clean (same ▸ underscore)
  rw [applyControl, if_neg (other _ (by decide)), if_neg (other _ (by decide)),
    if_neg (other _ (by decide)), if_neg (other _ (by decide)), if_neg (other _ (by decide))]

/-- A key that starts like a control parameter is refused. -/
theorem not_selects_control (control : anw <+: field) (sends : Sends field .in_ operands pair)
    (note : Note) : ¬ Selects ext pair note := by
  obtain ⟨name, rfl⟩ := control
  have clean := written_clean sends.written
  obtain ⟨k, v, rfl, key, value⟩ := sends.written
  rintro ⟨q, parsed, -⟩
  have nonempty : k ++ '=' :: v ≠ [] := by simp
  have stripped : Text.stripPrefix anw (anw ++ name ++ Operator.suffix .in_) =
      some (name ++ Operator.suffix .in_) :=
    Text.stripPrefix_eq_some.mpr (List.append_assoc _ _ _)
  rw [Predicate.key] at key
  rw [parse_pair clean, parsePair, if_neg nonempty, Text.splitOnce_append (encoded_clean key).2] at parsed
  simp only [Option.getD_some, percentDecode_encoded key, percentDecode_encoded value, stripped,
    applyControl_unknown (List.mem_append_right name (by decide : '_' ∈ Operator.suffix .in_)),
    reduceCtorEq] at parsed

theorem predicateMatch_in {fm : Frontmatter} {value : Text} :
    predicateMatch ext ⟨field, .in_, value⟩ fm = true ↔
      ∃ needle ∈ commaList value, predicateMatch ext ⟨field, .eq, needle⟩ fm = true := by
  cases found : lookupDotted fm field <;> simp [predicateMatch, found]

theorem predicateMatch_all {fm : Frontmatter} {value : Text} :
    predicateMatch ext ⟨field, .all, value⟩ fm = true ↔
      ∃ seq, lookupDotted fm field = some (.sequence seq) ∧
        ∀ needle ∈ commaList value, ∃ element ∈ seq, matchesScalarEq ext element needle = true := by
  cases found : lookupDotted fm field with
  | none => simp [predicateMatch, found]
  | some v => cases v <;> simp [predicateMatch, found]

theorem predicateMatch_string {fm : Frontmatter} {text needle : Text}
    (found : lookupDotted fm field = some (.string text)) :
    predicateMatch ext ⟨field, .eq, needle⟩ fm = true ↔ text = needle := by
  simp [predicateMatch, found, matchesEq, matchesScalarEq]

/-- The operands are told apart again as long as none of them holds a comma or
has a blank at one of its ends. -/
theorem honours_iff (nonempty : operands ≠ []) :
    Honours ext field operands ↔
      ¬ anw <+: field ∧ ∀ op ∈ operands, ',' ∉ op ∧ Text.trim op = op := by
  constructor
  · intro honours
    obtain ⟨pair, sends⟩ := exists_sends field .in_ operands
    -- a note with the operand for a value is selected
    have selected : ∀ op ∈ operands, ∃ note : Note,
        lookupDotted note.frontmatter field = some (.string op) ∧ Selects ext pair note := by
      intro op member
      obtain ⟨fm, found⟩ := exists_lookupDotted field (.string op)
      let note : Note := ⟨[], fm, [], [], ⟨0, 0⟩, [], 0⟩
      refine ⟨note, found, (honours.inList pair sends note).mpr ⟨op, member, ?_⟩⟩
      exact (predicateMatch_string found).mpr rfl
    have outside : ¬ anw <+: field := by
      intro control
      obtain ⟨op, member⟩ := List.exists_mem_of_ne_nil _ nonempty
      obtain ⟨note, -, reached⟩ := selected op member
      exact not_selects_control control sends note reached
    refine ⟨outside, fun op member => ?_⟩
    obtain ⟨note, found, reached⟩ := selected op member
    rw [selects_written (writable_of_outside outside _ (.inl rfl)) sends.written,
      predicateMatch_in] at reached
    obtain ⟨needle, listed, matched⟩ := reached
    obtain rfl := (predicateMatch_string found).mp matched
    exact mem_commaList listed
  · rintro ⟨outside, clean⟩
    have split := commaList_intercalate nonempty clean
    refine ⟨fun pair sends note => ?_, fun pair sends note => ?_, ?_⟩
    · rw [selects_written (writable_of_outside outside _ (.inl rfl)) sends.written,
        predicateMatch_in, split]
    · rw [selects_written (writable_of_outside outside _ (.inr rfl)) sends.written,
        predicateMatch_all, split]
    · intro bare op member pair written note
      have writable : Writable ext ⟨field, .eq, op⟩ :=
        ⟨mt anw_prefix_iff.mp outside, fun _ => bare, nofun, nofun⟩
      exact selects_written writable written note

theorem honours_iff_twoWords :
    Honours External.bare "title".toList ["a".toList, "b c".toList] :=
  (honours_iff (by decide)).mpr ⟨by decide, by decide⟩

end

def kindNote (kind : Text) : Note :=
  ⟨"a.md".toList, (∅ : Frontmatter).insert "kind".toList (.string kind), [], [], ⟨0, 0⟩, [], 0⟩

theorem lookupDotted_kindNote (kind : Text) :
    lookupDotted (kindNote kind).frontmatter "kind".toList = some (.string kind) :=
  lookupDotted_insert (by decide) _ _

/-- The escaped comma separates: the operand is lost, and its pieces match instead. -/
theorem escaped_comma_splits :
    Sends "kind".toList .in_ ["a,b".toList, "c".toList] "kind__in=a%2Cb,c".toList ∧
      predicateMatch External.bare ⟨"kind".toList, .eq, "a,b".toList⟩
        (kindNote "a,b".toList).frontmatter = true ∧
      ¬ Selects External.bare "kind__in=a%2Cb,c".toList (kindNote "a,b".toList) ∧
      Selects External.bare "kind__in=a%2Cb,c".toList (kindNote "b".toList) ∧
      ¬ Honours External.bare "kind".toList ["a,b".toList, "c".toList] := by
  have key : Percent.Encodes plusAsBlank queryByte (Text.utf8 "kind__in".toList)
      (Text.utf8 "kind__in".toList) :=
    Percent.encodes_self (by decide +kernel)
  have first : Percent.Encodes plusAsBlank operandByte [0x61, 0x2C, 0x62] [0x61, 0x25, 0x32, 0x43, 0x62] :=
    .plain (b := 0x61) (by decide) (by decide) (.escaped (h := 2) (l := 12) (by decide) (by decide)
      (.plain (b := 0x62) (by decide) (by decide) .nil))
  have second : Percent.Encodes plusAsBlank operandByte [0x63] [0x63] :=
    .plain (b := 0x63) (by decide) (by decide) .nil
  have sends : Sends "kind".toList .in_ ["a,b".toList, "c".toList] "kind__in=a%2Cb,c".toList :=
    ⟨"kind__in".toList, ["a%2Cb".toList, "c".toList], by decide, key, .cons first (.cons second .nil)⟩
  have reads : ∀ kind : Text, Selects External.bare "kind__in=a%2Cb,c".toList (kindNote kind) ↔
      kind = "a".toList ∨ kind = "b".toList ∨ kind = "c".toList := by
    intro kind
    have pieces : commaList ([','].intercalate ["a,b".toList, "c".toList]) =
        ["a".toList, "b".toList, "c".toList] := by decide
    rw [selects_written (writable_of_outside (by decide) _ (.inl rfl)) sends.written,
      predicateMatch_in, pieces]
    simp only [List.mem_cons, List.not_mem_nil, or_false, exists_eq_or_imp, exists_eq_left,
      predicateMatch_string (lookupDotted_kindNote kind)]
  have alone : predicateMatch External.bare ⟨"kind".toList, .eq, "a,b".toList⟩
      (kindNote "a,b".toList).frontmatter = true :=
    (predicateMatch_string (lookupDotted_kindNote _)).mpr rfl
  have lost : ¬ Selects External.bare "kind__in=a%2Cb,c".toList (kindNote "a,b".toList) :=
    mt (reads _).mp (by decide)
  refine ⟨sends, alone, lost, (reads _).mpr (by decide), fun honours => ?_⟩
  exact lost ((honours.inList _ sends _).mpr ⟨_, List.mem_cons_self, alone⟩)

end Anwesen.Query

import Mathlib.Data.List.DropRight
import Anwesen.Foundation.Segments

/-! Rust strings as lists of characters, with byte offsets into them.

A `&str` is the list of its characters; an offset counts UTF-8 bytes, and a
slice that does not fall on a character boundary within bounds has no value,
where the program would panic.
-/

set_option autoImplicit false

namespace Anwesen

open Foundation

abbrev Text := List Char
abbrev Bytes := List UInt8

/-- `str::as_bytes`. -/
def Text.utf8 (text : Text) : Bytes := text.flatMap String.utf8EncodeChar

/-- `str::from_utf8` and `OsStr::to_str`. -/
def Bytes.fromUtf8 (bytes : Bytes) : Option Text :=
  (ByteArray.utf8Decode? bytes.toByteArray).map Array.toList

@[simp] theorem Bytes.fromUtf8_utf8 (text : Text) : Bytes.fromUtf8 text.utf8 = some text := by
  have decoded := List.utf8Decode?_utf8Encode (l := text)
  rw [List.utf8Encode] at decoded
  simp [Bytes.fromUtf8, Text.utf8, decoded]

/-- Only the encoding of a text decodes to it. -/
theorem Bytes.fromUtf8_eq_some {bytes : Bytes} {text : Text} :
    bytes.fromUtf8 = some text ↔ bytes = text.utf8 := by
  constructor
  · intro decoded
    have valid : bytes.toByteArray.IsValidUTF8 := by
      rw [← ByteArray.isSome_utf8Decode?_iff]
      cases found : bytes.toByteArray.utf8Decode? with
      | none => simp [Bytes.fromUtf8, found] at decoded
      | some chars => rfl
    obtain ⟨other, same⟩ := valid
    have encoded : bytes = Text.utf8 other := by
      have data := congrArg (fun array => array.data.toList) same
      simpa [List.utf8Encode, Text.utf8] using data
    rw [encoded, Bytes.fromUtf8_utf8] at decoded
    rw [encoded, Option.some.inj decoded]
  · rintro rfl
    exact Bytes.fromUtf8_utf8 text

namespace Text

@[simp] theorem utf8_nil : utf8 [] = [] := rfl

theorem utf8_cons (char : Char) (text : Text) :
    utf8 (char :: text) = String.utf8EncodeChar char ++ utf8 text := rfl

@[simp] theorem utf8_append (first rest : Text) : utf8 (first ++ rest) = utf8 first ++ utf8 rest := by
  simp [utf8]

theorem utf8_injective {first second : Text} (same : utf8 first = utf8 second) : first = second := by
  have decoded := congrArg Bytes.fromUtf8 same
  simpa using decoded

@[simp] theorem utf8_eq_nil {text : Text} : utf8 text = [] ↔ text = [] :=
  ⟨fun same => utf8_injective (same.trans utf8_nil.symm), fun same => by rw [same, utf8_nil]⟩

theorem utf8EncodeChar_ascii {char : Char} (ascii : char.toNat < 128) :
    String.utf8EncodeChar char = [UInt8.ofNat char.toNat] := by
  rw [String.utf8EncodeChar, if_pos (show char.val.toNat ≤ 0x7f from Nat.lt_succ_iff.mp ascii)]
  rfl

/-- The byte of an ASCII character occurs in the encoding of no other character. -/
theorem mem_utf8EncodeChar_ascii {sep char : Char} (ascii : sep.toNat < 128)
    (member : UInt8.ofNat sep.toNat ∈ String.utf8EncodeChar char) : char = sep := by
  by_cases small : char.toNat < 128
  · rw [utf8EncodeChar_ascii small, List.mem_singleton] at member
    have same := congrArg UInt8.toNat member
    simp only [UInt8.toNat_ofNat'] at same
    exact Char.toNat_inj.mp (by omega)
  · exfalso
    have large : ¬ char.val.toNat ≤ 0x7f := fun bound => small (Nat.lt_succ_iff.mpr bound)
    rw [String.utf8EncodeChar, if_neg large] at member
    split at member
    · simp only [List.mem_cons, List.not_mem_nil, or_false] at member
      rcases member with same | same <;>
        have nat := congrArg UInt8.toNat same <;> simp at nat <;> omega
    · split at member
      · simp only [List.mem_cons, List.not_mem_nil, or_false] at member
        rcases member with same | same | same <;>
          have nat := congrArg UInt8.toNat same <;> simp at nat <;> omega
      · simp only [List.mem_cons, List.not_mem_nil, or_false] at member
        rcases member with same | same | same | same <;>
          have nat := congrArg UInt8.toNat same <;> simp at nat <;> omega

theorem mem_utf8_ascii {sep : Char} (ascii : sep.toNat < 128) {text : Text} :
    UInt8.ofNat sep.toNat ∈ utf8 text ↔ sep ∈ text := by
  rw [utf8, List.mem_flatMap]
  constructor
  · rintro ⟨char, member, encoded⟩
    exact mem_utf8EncodeChar_ascii ascii encoded ▸ member
  · exact fun member => ⟨sep, member, by simp [utf8EncodeChar_ascii ascii]⟩

/-- ASCII bytes are a text. -/
theorem exists_utf8_of_ascii {bytes : Bytes} (ascii : ∀ b ∈ bytes, b < 0x80) :
    ∃ text : Text, utf8 text = bytes := by
  induction bytes with
  | nil => exact ⟨[], rfl⟩
  | cons b bytes ih =>
    rw [List.forall_mem_cons] at ascii
    obtain ⟨text, rfl⟩ := ih ascii.2
    have small : b.toNat < 128 := ascii.1
    have code : (Char.ofNat b.toNat).toNat = b.toNat := by
      rw [Char.ofNat, dif_pos (Or.inl (by omega))]
      rfl
    refine ⟨Char.ofNat b.toNat :: text, ?_⟩
    rw [utf8_cons, utf8EncodeChar_ascii (by omega), code]
    simp

/-- A last byte of ASCII is the last character. -/
theorem exists_concat_of_utf8 {char : Char} (ascii : char.toNat < 128) {text : Text} {front : Bytes}
    (same : utf8 text = front ++ [UInt8.ofNat char.toNat]) :
    ∃ initial, text = initial ++ [char] ∧ utf8 initial = front := by
  rcases List.eq_nil_or_concat text with rfl | ⟨initial, last, rfl⟩
  · simp at same
  · have ends : UInt8.ofNat char.toNat ∈ String.utf8EncodeChar last := by
      obtain ⟨bytes, final, encoded⟩ := (List.eq_nil_or_concat (String.utf8EncodeChar last)).resolve_left
        (List.ne_nil_of_length_pos (String.length_utf8EncodeChar last ▸ last.utf8Size_pos))
      rw [List.concat_eq_append, utf8_append, utf8_cons, utf8_nil, List.append_nil, encoded,
        List.concat_eq_append, ← List.append_assoc] at same
      rw [encoded, List.concat_eq_append, (List.append_singleton_inj.mp same).2]
      exact List.mem_append_right _ (List.mem_singleton_self _)
    obtain rfl := mem_utf8EncodeChar_ascii ascii ends
    rw [List.concat_eq_append, utf8_append, utf8_cons, utf8_nil, utf8EncodeChar_ascii ascii, List.append_nil]
      at same
    exact ⟨initial, List.concat_eq_append, List.append_cancel_right same⟩

theorem suffix_utf8_iff {pattern text : Text} (ascii : ∀ char ∈ pattern, char.toNat < 128) :
    utf8 pattern <:+ utf8 text ↔ pattern <:+ text := by
  constructor
  · rintro ⟨front, same⟩
    induction pattern using List.reverseRec generalizing text with
    | nil => exact List.nil_suffix
    | append_singleton pattern char ih =>
      have small := ascii char (List.mem_append_right _ (List.mem_singleton_self _))
      rw [utf8_append, utf8_cons, utf8_nil, utf8EncodeChar_ascii small, List.append_nil,
        ← List.append_assoc] at same
      obtain ⟨initial, rfl, rest⟩ := exists_concat_of_utf8 small same.symm
      obtain ⟨before, rfl⟩ := ih (fun other member => ascii other (List.mem_append_left _ member)) rest.symm
      exact ⟨before, (List.append_assoc _ _ _).symm⟩
  · rintro ⟨before, rfl⟩
    exact ⟨utf8 before, (utf8_append _ _).symm⟩

/-- Splitting at an ASCII character is splitting the bytes at its byte. -/
theorem utf8_splitOn {sep : Char} (ascii : sep.toNat < 128) (text : Text) :
    (utf8 text).splitOn (UInt8.ofNat sep.toNat) = (text.splitOn sep).map utf8 := by
  induction text with
  | nil => rfl
  | cons char text ih =>
    rw [List.splitOn_cons_eq_if_modifyHead, utf8_cons]
    obtain ⟨head, rest, split⟩ := List.exists_cons_of_ne_nil (List.splitOn_ne_nil sep text)
    rw [split, List.map_cons] at ih
    by_cases same : char = sep
    · subst same
      rw [utf8EncodeChar_ascii ascii, List.singleton_append, List.splitOn_cons_eq_if_modifyHead]
      simp [ih, split]
    · have clean : UInt8.ofNat sep.toNat ∉ String.utf8EncodeChar char :=
        fun member => same (mem_utf8EncodeChar_ascii ascii member)
      rw [splitOn_append_of_not_mem clean ih]
      simp [same, split, utf8_cons]

/-! The order of texts. -/

theorem compare_ofNat {m n : Nat} (small : m < 256) (small' : n < 256) :
    compare (UInt8.ofNat m) (UInt8.ofNat n) = compare m n := by
  simp only [compare, compareOfLessAndEq, UInt8.lt_iff_toNat_lt, ← UInt8.toNat_inj, UInt8.toNat_ofNat',
    Nat.mod_eq_of_lt small, Nat.mod_eq_of_lt small']

theorem compare_char (c d : Char) : compare c d = compare c.toNat d.toNat := by
  simp only [compare, compareOfLessAndEq, ← Char.toNat_inj]
  rfl

theorem lt_cons {m n : Nat} (small : m < 256) (small' : n < 256) {first second : Bytes}
    (less : m < n ∨ m = n ∧ compare first second = .lt) :
    compare (UInt8.ofNat m :: first) (UInt8.ofNat n :: second) = .lt := by
  rw [List.compare_cons_cons, compare_ofNat small small', Ordering.then_eq_lt, Nat.compare_eq_lt,
    Nat.compare_eq_eq]
  exact less

/-- The leading byte of an encoding tells its length, which grows with the character. -/
theorem utf8EncodeChar_lt {c d : Char} (less : c.toNat < d.toNat) (first second : Bytes) :
    compare (String.utf8EncodeChar c ++ first) (String.utf8EncodeChar d ++ second) = .lt := by
  have bound : d.toNat < 0x110000 := by
    have valid := d.valid
    simp only [UInt32.isValidChar, Nat.isValidChar] at valid
    exact valid.elim (fun low => Nat.lt_trans low (by decide)) And.right
  simp only [String.utf8EncodeChar, show c.val.toNat = c.toNat from rfl, show d.val.toNat = d.toNat from rfl]
  generalize c.toNat = v at *
  generalize d.toNat = w at *
  by_cases one : v ≤ 127
  · rw [if_pos one]
    split <;> (try split) <;> (try split) <;> exact lt_cons (by omega) (by omega) (.inl (by omega))
  rw [if_neg one, if_neg (show ¬ w ≤ 127 by omega)]
  by_cases two : v ≤ 2047
  · rw [if_pos two]
    by_cases alike : w ≤ 2047
    · rw [if_pos alike]
      by_cases lead : v / 64 = w / 64
      · exact lt_cons (by omega) (by omega) (.inr ⟨by omega, lt_cons (by omega) (by omega) (.inl (by omega))⟩)
      · exact lt_cons (by omega) (by omega) (.inl (by omega))
    · rw [if_neg alike]
      split <;> exact lt_cons (by omega) (by omega) (.inl (by omega))
  rw [if_neg two, if_neg (show ¬ w ≤ 2047 by omega)]
  by_cases three : v ≤ 65535
  · rw [if_pos three]
    by_cases alike : w ≤ 65535
    · rw [if_pos alike]
      by_cases lead : v / 4096 = w / 4096
      · refine lt_cons (by omega) (by omega) (.inr ⟨by omega, ?_⟩)
        by_cases middle : v / 64 = w / 64
        · exact lt_cons (by omega) (by omega) (.inr ⟨by omega, lt_cons (by omega) (by omega) (.inl (by omega))⟩)
        · exact lt_cons (by omega) (by omega) (.inl (by omega))
      · exact lt_cons (by omega) (by omega) (.inl (by omega))
    · rw [if_neg alike]
      exact lt_cons (by omega) (by omega) (.inl (by omega))
  rw [if_neg three, if_neg (show ¬ w ≤ 65535 by omega)]
  by_cases lead : v / 262144 = w / 262144
  · refine lt_cons (by omega) (by omega) (.inr ⟨by omega, ?_⟩)
    by_cases upper : v / 4096 = w / 4096
    · refine lt_cons (by omega) (by omega) (.inr ⟨by omega, ?_⟩)
      by_cases middle : v / 64 = w / 64
      · exact lt_cons (by omega) (by omega) (.inr ⟨by omega, lt_cons (by omega) (by omega) (.inl (by omega))⟩)
      · exact lt_cons (by omega) (by omega) (.inl (by omega))
    · exact lt_cons (by omega) (by omega) (.inl (by omega))
  · exact lt_cons (by omega) (by omega) (.inl (by omega))

theorem compare_append_left (shared first second : Bytes) :
    compare (shared ++ first) (shared ++ second) = compare first second := by
  induction shared with
  | nil => rfl
  | cons b shared ih =>
    have self : compare b b = .eq := Std.ReflCmp.compare_self
    rw [List.cons_append, List.cons_append, List.compare_cons_cons, self, Ordering.eq_then, ih]

/-- Texts are ordered like their bytes. -/
theorem compare_utf8 (first second : Text) : compare first.utf8 second.utf8 = compare first second := by
  induction first generalizing second with
  | nil =>
    cases second with
    | nil => rfl
    | cons d second =>
      obtain ⟨b, more, whole⟩ := List.exists_cons_of_ne_nil (String.utf8EncodeChar_ne_nil (c := d))
      simp [utf8_cons, whole]
  | cons c first ih =>
    cases second with
    | nil =>
      obtain ⟨b, more, whole⟩ := List.exists_cons_of_ne_nil (String.utf8EncodeChar_ne_nil (c := c))
      simp [utf8_cons, whole]
    | cons d second =>
      rw [utf8_cons, utf8_cons, List.compare_cons_cons, compare_char]
      rcases Nat.lt_trichotomy c.toNat d.toNat with less | same | more
      · rw [utf8EncodeChar_lt less, Nat.compare_eq_lt.mpr less]
        rfl
      · obtain rfl := Char.toNat_inj.mp same
        have self : compare c.toNat c.toNat = .eq := Nat.compare_eq_eq.mpr rfl
        rw [self, Ordering.eq_then, ← ih, compare_append_left]
      · rw [Nat.compare_eq_gt.mpr more, Std.OrientedCmp.gt_of_lt (utf8EncodeChar_lt more _ _)]
        rfl

/-- `str::len`, in bytes. -/
def byteLength : Text → Nat
  | [] => 0
  | char :: rest => char.utf8Size + byteLength rest

@[simp] theorem byteLength_append (first rest : Text) :
    byteLength (first ++ rest) = byteLength first + byteLength rest := by
  induction first with
  | nil => simp [byteLength]
  | cons char first ih => simp [byteLength, ih, Nat.add_assoc]

theorem length_le_byteLength (text : Text) : text.length ≤ byteLength text := by
  induction text with
  | nil => exact Nat.le_refl _
  | cons char rest ih =>
    have size := char.utf8Size_pos
    simp only [List.length_cons, byteLength]
    omega

/-- `&text[offset..]`. -/
def sliceFrom : Text → Nat → Option Text
  | text, 0 => some text
  | [], _ + 1 => none
  | char :: rest, offset + 1 =>
      if char.utf8Size ≤ offset + 1 then sliceFrom rest (offset + 1 - char.utf8Size) else none

/-- `&text[..offset]`. -/
def sliceTo : Text → Nat → Option Text
  | _, 0 => some []
  | [], _ + 1 => none
  | char :: rest, offset + 1 =>
      if char.utf8Size ≤ offset + 1 then
        (sliceTo rest (offset + 1 - char.utf8Size)).map (char :: ·)
      else none

theorem exists_byteLength_cons (char : Char) (rest : Text) :
    ∃ offset, byteLength (char :: rest) = offset + 1 := by
  have size := char.utf8Size_pos
  exact ⟨byteLength (char :: rest) - 1, by simp only [byteLength]; omega⟩

theorem sliceFrom_append (first rest : Text) :
    sliceFrom (first ++ rest) (byteLength first) = some rest := by
  induction first with
  | nil => cases rest <;> simp [byteLength, sliceFrom]
  | cons char first ih =>
    obtain ⟨offset, same⟩ := exists_byteLength_cons char first
    rw [same, List.cons_append, sliceFrom, ← same, if_pos (by simp [byteLength])]
    simpa [byteLength] using ih

theorem sliceTo_append (first rest : Text) :
    sliceTo (first ++ rest) (byteLength first) = some first := by
  induction first with
  | nil => cases rest <;> simp [byteLength, sliceTo]
  | cons char first ih =>
    obtain ⟨offset, same⟩ := exists_byteLength_cons char first
    rw [same, List.cons_append, sliceTo, ← same, if_pos (by simp [byteLength])]
    simp [byteLength, ih]

/-- `str::find`: the offset of the first occurrence. -/
def find (pattern : Text) : Text → Option Nat
  | [] => if pattern = [] then some 0 else none
  | char :: rest =>
      if pattern <+: char :: rest then some 0
      else (find pattern rest).map (char.utf8Size + ·)

/-- `char::is_whitespace`, the Unicode White_Space property. -/
def isWhitespace (char : Char) : Bool :=
  let code := char.toNat
  (9 ≤ code && code ≤ 13) || (0x2000 ≤ code && code ≤ 0x200A) ||
    [0x20, 0x85, 0xA0, 0x1680, 0x2028, 0x2029, 0x202F, 0x205F, 0x3000].contains code

/-- `str::trim`. -/
def trim (text : Text) : Text :=
  ((text.dropWhile isWhitespace).reverse.dropWhile isWhitespace).reverse

theorem trim_trim (text : Text) : trim (trim text) = trim text := by
  let rest := text.dropWhile isWhitespace
  have start : (rest.rdropWhile isWhitespace).dropWhile isWhitespace =
      rest.rdropWhile isWhitespace := by
    obtain ⟨tail, same⟩ := List.rdropWhile_prefix isWhitespace (l := rest)
    cases kept : rest.rdropWhile isWhitespace with
    | nil => rfl
    | cons first more =>
      have head : (text.dropWhile isWhitespace).head? = some first := by
        change rest.head? = some first
        rw [← same, kept]
        rfl
      have solid := List.head?_dropWhile_not isWhitespace text
      rw [head] at solid
      exact List.dropWhile_cons_of_neg (by simp [solid])
  calc trim (trim text)
      = ((rest.rdropWhile isWhitespace).dropWhile isWhitespace).rdropWhile isWhitespace := rfl
    _ = rest.rdropWhile isWhitespace := by rw [start, List.rdropWhile_idempotent]

/-- Trimming takes blanks off both ends. -/
theorem exists_trim (text : Text) : ∃ before after, (∀ char ∈ before, isWhitespace char = true) ∧
    (∀ char ∈ after, isWhitespace char = true) ∧ text = before ++ trim text ++ after := by
  let rest := text.dropWhile isWhitespace
  have back : rest = trim text ++ (rest.reverse.takeWhile isWhitespace).reverse := by
    rw [trim, ← List.reverse_append, List.takeWhile_append_dropWhile, List.reverse_reverse]
  refine ⟨text.takeWhile isWhitespace, (rest.reverse.takeWhile isWhitespace).reverse,
    fun char member => List.mem_takeWhile_imp member, fun char member => ?_, ?_⟩
  · exact List.mem_takeWhile_imp (List.mem_reverse.mp member)
  · rw [List.append_assoc, ← back, List.takeWhile_append_dropWhile]

theorem mem_of_mem_trim {char : Char} {text : Text} (member : char ∈ trim text) : char ∈ text := by
  rw [trim, List.mem_reverse] at member
  have outer := (List.dropWhile_sublist _).subset member
  exact (List.dropWhile_sublist _).subset (List.mem_reverse.mp outer)

/-- `str::strip_prefix`. -/
def stripPrefix : Text → Text → Option Text
  | [], text => some text
  | _ :: _, [] => none
  | char :: pattern, other :: text => if char = other then stripPrefix pattern text else none

theorem stripPrefix_eq_some {pattern text rest : Text} :
    stripPrefix pattern text = some rest ↔ text = pattern ++ rest := by
  induction pattern generalizing text with
  | nil => simp [stripPrefix, eq_comm]
  | cons char pattern ih =>
    cases text with
    | nil => simp [stripPrefix]
    | cons other text =>
      by_cases same : char = other
      · simp [stripPrefix, same, ih]
      · simp [stripPrefix, same, Ne.symm same]

theorem stripPrefix_eq_none {pattern text : Text} :
    stripPrefix pattern text = none ↔ ¬ pattern <+: text := by
  rw [Option.eq_none_iff_forall_ne_some]
  constructor
  · rintro missing ⟨rest, rfl⟩
    exact missing rest (stripPrefix_eq_some.mpr rfl)
  · exact fun outside rest found => outside ⟨rest, (stripPrefix_eq_some.mp found).symm⟩

/-- `str::split_once` at a character. -/
def splitOnce (sep : Char) : Text → Option (Text × Text)
  | [] => none
  | char :: rest =>
      if char = sep then some ([], rest)
      else (splitOnce sep rest).map fun parts => (char :: parts.1, parts.2)

theorem splitOnce_append {sep : Char} {first : Text} (clean : sep ∉ first) (rest : Text) :
    splitOnce sep (first ++ sep :: rest) = some (first, rest) := by
  induction first with
  | nil => simp [splitOnce]
  | cons char first ih =>
    rw [List.mem_cons, not_or] at clean
    rw [List.cons_append, splitOnce, if_neg (Ne.symm clean.1), ih clean.2]
    rfl

/-- `str::rfind` and the slices before and after what it finds. -/
def splitLast (pattern : Text) : Text → Option (Text × Text)
  | [] => none
  | char :: rest =>
      match splitLast pattern rest with
      | some parts => some (char :: parts.1, parts.2)
      | none => (stripPrefix pattern (char :: rest)).map fun after => ([], after)

theorem splitLast_eq_none {pattern : Text} (nonempty : pattern ≠ []) {text : Text} :
    splitLast pattern text = none ↔ ¬ pattern <:+: text := by
  induction text with
  | nil => simp [splitLast, nonempty]
  | cons char rest ih =>
    rw [List.infix_cons_iff, not_or, ← ih, ← stripPrefix_eq_none, splitLast]
    cases splitLast pattern rest <;> simp

/-- Where the pattern occurs last, an earlier part of the text does not matter. -/
theorem splitLast_append {pattern text before after : Text}
    (found : splitLast pattern text = some (before, after)) (first : Text) :
    splitLast pattern (first ++ text) = some (first ++ before, after) := by
  induction first with
  | nil => exact found
  | cons char first ih => simp [splitLast, ih]

/-- `str::strip_suffix`. -/
def stripSuffix (pattern text : Text) : Option Text :=
  (stripPrefix pattern.reverse text.reverse).map List.reverse

/-- A successful search splits the text around the first occurrence. -/
theorem find_eq_some {pattern text : Text} {offset : Nat} (found : find pattern text = some offset) :
    ∃ before after, text = before ++ pattern ++ after ∧ offset = byteLength before ∧
      ∀ shorter rest, before = shorter ++ rest → rest ≠ [] → ¬ pattern <+: rest ++ pattern ++ after := by
  induction text generalizing offset with
  | nil =>
    by_cases empty : pattern = []
    · subst empty
      simp only [find, if_true, Option.some.injEq] at found
      refine ⟨[], [], rfl, found.symm, fun shorter rest same nonempty => ?_⟩
      exact absurd (List.append_eq_nil_iff.mp same.symm).2 nonempty
    · simp [find, empty] at found
  | cons char text ih =>
    by_cases here : pattern <+: char :: text
    · rw [find, if_pos here] at found
      obtain ⟨after, same⟩ := here
      refine ⟨[], after, by simpa using same.symm, ?_, fun shorter rest split nonempty => ?_⟩
      · simpa [byteLength] using (Option.some.inj found).symm
      · exact absurd (List.append_eq_nil_iff.mp split.symm).2 nonempty
    · rw [find, if_neg here, Option.map_eq_some_iff] at found
      obtain ⟨inner, deeper, rfl⟩ := found
      obtain ⟨before, after, same, rfl, first⟩ := ih deeper
      refine ⟨char :: before, after, by simp [same], by simp [byteLength], ?_⟩
      intro shorter rest split nonempty
      cases shorter with
      | nil =>
        rw [List.nil_append] at split
        subst split
        simpa [same] using here
      | cons head shorter =>
        exact first shorter rest (List.cons.inj split).2 nonempty

theorem find_eq_none {pattern text : Text} (missing : find pattern text = none)
    {before after : Text} : text ≠ before ++ pattern ++ after := by
  induction text generalizing before with
  | nil =>
    intro same
    simp only [find, ite_eq_right_iff, reduceCtorEq, imp_false] at missing
    simp [missing] at same
  | cons char text ih =>
    intro same
    by_cases here : pattern <+: char :: text
    · simp [find, here] at missing
    · rw [find, if_neg here, Option.map_eq_none_iff] at missing
      cases before with
      | nil => exact here ⟨after, by simpa using same.symm⟩
      | cons head before => exact ih missing (List.cons.inj same).2

end Text

end Anwesen

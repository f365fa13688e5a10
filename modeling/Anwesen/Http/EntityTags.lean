import Anwesen.Http.Conditional

/-! `If-None-Match` as a list of entity tags.

A quoted tag may hold commas, at which the program splits all the same; only a
star that stands alone between two of them passes for something it is not.
-/

set_option autoImplicit false

namespace Anwesen.Http

open Foundation Vault

/-- An opaque tag, weak or strong. -/
structure EntityTag where
  weak : Bool
  tag : Text
  legal : HeaderText tag ∧ '"' ∉ tag

def EntityTag.text (t : EntityTag) : Text := (if t.weak then "W/".toList else []) ++ quoted t.tag

inductive FieldValue where
  | any
  | tags (listed : List EntityTag)

/-- The ways to write a field value in one line. -/
inductive Spells : FieldValue → Text → Prop where
  | any {value : Text} : Pads ['*'] value → Spells .any value
  | tags {listed : List EntityTag} {value : Text} :
      Lists (listed.map EntityTag.text) value → Spells (.tags listed) value

/-- Weak comparison: the opaque tag of the server is any, or one of those listed. -/
def FieldValue.Names (digits : Text) : FieldValue → Prop
  | .any => True
  | .tags listed => ∃ t ∈ listed, t.tag = digits

/-- A star alone between two commas of an opaque tag. -/
def StarBetween (tag : Text) : Prop :=
  ∃ before star after, Pads ['*'] star ∧ tag = before ++ ',' :: (star ++ ',' :: after)

def FieldValue.Starred : FieldValue → Prop
  | .any => False
  | .tags listed => ∃ t ∈ listed, StarBetween t.tag

def hexadecimal : Text := "0123456789abcdefABCDEF".toList

/-- What is looked for in each piece of a value. -/
def Matches (serverEtag raw : Text) : Prop :=
  (Text.stripPrefix "W/".toList (Text.trim raw)).getD (Text.trim raw) = serverEtag ∨ Text.trim raw = ['*']

section

variable {text digits raw piece value : Text}

theorem etagMatches_latin1 (narrow : Narrow text) (serverEtag : Text) :
    etagMatches (latin1 text) serverEtag = true ↔
      Legible text ∧ ∃ raw ∈ text.splitOn ',', Matches serverEtag raw := by
  rw [etagMatches, headerStr_latin1 narrow]
  by_cases legible : Legible text <;> simp [legible, Matches]

/-! Quotes, counted in each piece. -/

theorem count_trim (text : Text) : (Text.trim text).count '"' = text.count '"' := by
  have none_ : ∀ blanks : Text, (∀ char ∈ blanks, Text.isWhitespace char = true) →
      blanks.count '"' = 0 := by
    intro blanks space
    rw [List.count_eq_zero]
    intro member
    cases space '"' member
  obtain ⟨before, after, space, space', same⟩ := Text.exists_trim text
  rw [congrArg (List.count '"') same, List.count_append, List.count_append, none_ before space,
    none_ after space', Nat.zero_add, Nat.add_zero]

/-- A piece that matches has two quotes or is a star. -/
theorem count_of_matches (clean : '"' ∉ digits) (found : Matches (quoted digits) raw) :
    raw.count '"' = 2 ∨ Text.trim raw = ['*'] := by
  have two : (quoted digits).count '"' = 2 := by
    simp [quoted, List.count_append, List.count_eq_zero.mpr clean]
  rcases found with same | star
  · left
    rw [← count_trim, ← two, ← same]
    cases stripped : Text.stripPrefix "W/".toList (Text.trim raw) with
    | none => rfl
    | some rest =>
      rw [Text.stripPrefix_eq_some.mp stripped, Option.getD_some, List.count_append]
      simp
  · exact .inr star

theorem not_matches_of_one (clean : '"' ∉ digits) (one : raw.count '"' = 1) :
    ¬ Matches (quoted digits) raw := by
  intro found
  rcases count_of_matches clean found with two | star
  · omega
  · have none_ : (Text.trim raw).count '"' = 0 := by rw [star]; rfl
    rw [count_trim] at none_
    omega

theorem quoted_injective {first second : Text} (same : quoted first = quoted second) : first = second := by
  simpa [quoted] using same

theorem trim_text (t : EntityTag) : Text.trim t.text = t.text := by
  have solid : Text.isWhitespace '"' = false ∧ Text.isWhitespace 'W' = false := by decide
  cases weak : t.weak <;> simp [EntityTag.text, weak, Text.trim, quoted, solid]

/-- A tag without a comma is compared as a whole. -/
theorem matches_whole (t : EntityTag) (pads : Pads t.text piece) :
    Matches (quoted digits) piece ↔ t.tag = digits := by
  have stripped : (Text.stripPrefix "W/".toList t.text).getD t.text = quoted t.tag := by
    cases weak : t.weak <;> simp [EntityTag.text, weak, Text.stripPrefix, quoted]
  have star : t.text ≠ ['*'] := by
    cases weak : t.weak <;> simp [EntityTag.text, weak, quoted]
  rw [Matches, trim_pads pads, trim_text, stripped, or_iff_left star]
  exact ⟨quoted_injective, congrArg quoted⟩

theorem pads_star (legible : Legible raw) (star : Text.trim raw = ['*']) : Pads ['*'] raw := by
  have blank : ∀ blanks : Text, (∀ char ∈ blanks, char ∈ raw) →
      (∀ char ∈ blanks, Text.isWhitespace char = true) → Blank blanks := by
    intro blanks inside space char member
    have known := space char member
    rcases legible char (inside char member) with tab | visible
    · exact .inr tab
    · left
      rw [← Char.toNat_inj]
      simp only [Text.isWhitespace, List.contains_cons, List.contains_nil, Bool.or_eq_true,
        Bool.and_eq_true, decide_eq_true_eq, beq_iff_eq, Bool.or_false] at known
      change char.toNat = 32
      omega
  obtain ⟨before, after, space, space', same⟩ := Text.exists_trim raw
  rw [star] at same
  refine ⟨before, after, blank before (fun char member => ?_) space, blank after (fun char member => ?_) space',
    same⟩
  · exact same ▸ List.mem_append_left _ (List.mem_append_left _ member)
  · exact same ▸ List.mem_append_right _ member

theorem count_blank {blanks : Text} (blank : Blank blanks) : blanks.count '"' = 0 ∧ ',' ∉ blanks := by
  refine ⟨List.count_eq_zero.mpr fun member => ?_, fun member => ?_⟩
  · rcases blank _ member with quote | quote <;> cases quote
  · rcases blank _ member with comma | comma <;> cases comma

theorem not_mem_pads {member : Text} (pads : Pads member piece) (absent : ',' ∉ member) : ',' ∉ piece := by
  obtain ⟨before, after, blank, blank', rfl⟩ := pads
  simp [(count_blank blank).2, (count_blank blank').2, absent]

/-- Cut at a comma, a quoted text has one quote in its first and one in its last piece. -/
theorem exists_between_of_matches {opening rest closing : Text} (clean : '"' ∉ digits)
    (one : opening.count '"' = 1 ∧ ',' ∉ opening) (one' : closing.count '"' = 1 ∧ ',' ∉ closing)
    (none_ : '"' ∉ rest) (listed : raw ∈ (opening ++ ',' :: (rest ++ closing)).splitOn ',')
    (found : Matches (quoted digits) raw) :
    ∃ before after, Text.trim raw = ['*'] ∧ ',' :: rest = before ++ ',' :: (raw ++ ',' :: after) := by
  rw [List.splitOn_append_cons_self_of_not_mem one.2] at listed
  have later : raw ∈ (rest ++ closing).splitOn ',' :=
    (List.mem_cons.mp listed).resolve_left fun same => not_matches_of_one clean one.1 (same ▸ found)
  by_cases comma : ',' ∈ rest
  · -- the last comma before the closing quote
    obtain ⟨last, middle, split, lastClean⟩ := List.eq_append_cons_of_mem (List.mem_reverse.mpr comma)
    have parts : rest = middle.reverse ++ ',' :: last.reverse := by
      rw [← List.reverse_reverse rest, split]
      simp
    have ending : (last.reverse ++ closing).count '"' = 1 ∧ ',' ∉ last.reverse ++ closing := by
      have quoteless : '"' ∉ last.reverse := fun member =>
        none_ (parts ▸ List.mem_append_right _ (List.mem_cons_of_mem _ member))
      constructor
      · rw [List.count_append, List.count_eq_zero.mpr quoteless, Nat.zero_add, one'.1]
      · simp [lastClean, one'.2]
    have inside : raw ∈ middle.reverse.splitOn ',' := by
      rw [parts, List.append_assoc, List.cons_append, List.splitOn_append_cons_self,
        List.splitOn_eq_singleton ending.2, List.mem_append, List.mem_singleton] at later
      exact later.resolve_right fun same => not_matches_of_one clean ending.1 (same ▸ found)
    have quoteless : '"' ∉ raw := fun member =>
      none_ (parts ▸ List.mem_append_left _ (mem_of_mem_splitOn ',' _ raw inside _ member))
    obtain ⟨before, after, around⟩ := @mem_intercalate_between _ ',' _ _ inside
    rw [List.intercalate_splitOn] at around
    refine ⟨before, after ++ last.reverse, ?_, ?_⟩
    · refine (count_of_matches clean found).resolve_left fun two => ?_
      rw [List.count_eq_zero.mpr quoteless] at two
      cases two
    · calc ',' :: rest = ',' :: (middle.reverse ++ [',']) ++ last.reverse := by rw [parts]; simp
        _ = before ++ ',' :: (raw ++ ',' :: (after ++ last.reverse)) := by rw [around]; simp
  · -- what follows the one comma is the last piece
    have alone : ',' ∉ rest ++ closing := by simp [comma, one'.2]
    rw [List.splitOn_eq_singleton alone, List.mem_singleton] at later
    have ending : (rest ++ closing).count '"' = 1 := by
      rw [List.count_append, List.count_eq_zero.mpr none_, Nat.zero_add, one'.1]
    exact absurd (later ▸ found) (not_matches_of_one clean ending)

/-! A padded tag, up to a part of its opaque tag. -/

def EntityTag.opening (t : EntityTag) (before first : Text) : Text :=
  before ++ ((if t.weak then "W/".toList else []) ++ '"' :: first)

section

variable {before after first : Text}

theorem opening_append (t : EntityTag) (before first rest : Text) :
    t.opening before (first ++ rest) = t.opening before first ++ rest := by
  simp [EntityTag.opening]

theorem padded_eq (t : EntityTag) (before after : Text) :
    before ++ t.text ++ after = t.opening before t.tag ++ '"' :: after := by
  simp [EntityTag.opening, EntityTag.text, quoted]

theorem not_mem_opening (t : EntityTag) (blank : Blank before) (absent : ',' ∉ first) :
    ',' ∉ t.opening before first := by
  have weakness : ',' ∉ (if t.weak then "W/".toList else [] : Text) := by
    cases t.weak <;> decide
  simp only [EntityTag.opening, List.mem_append, List.mem_cons, (count_blank blank).2, weakness, absent]
  decide

theorem count_opening (t : EntityTag) (blank : Blank before) (absent : '"' ∉ first) :
    (t.opening before first).count '"' = 1 := by
  have weakness : (if t.weak then "W/".toList else [] : Text).count '"' = 0 := by
    cases t.weak <;> decide
  simp only [EntityTag.opening, List.count_append, List.count_cons_self, (count_blank blank).1, weakness,
    List.count_eq_zero.mpr absent]

theorem closing_clean (blank : Blank after) :
    ('"' :: after).count '"' = 1 ∧ ',' ∉ '"' :: after := by
  rw [List.count_cons_self, (count_blank blank).1]
  refine ⟨rfl, fun member => ?_⟩
  rcases List.mem_cons.mp member with comma | later
  · cases comma
  · exact (count_blank blank).2 later

end

/-- What matches of a tag with commas is a star between two of them. -/
theorem starBetween_of_matches (clean : '"' ∉ digits) (t : EntityTag) (legible : Legible t.tag)
    (comma : ',' ∈ t.tag) (pads : Pads t.text piece) (listed : raw ∈ piece.splitOn ',')
    (found : Matches (quoted digits) raw) : StarBetween t.tag := by
  obtain ⟨before, after, blank, blank', rfl⟩ := pads
  obtain ⟨first, rest, split, firstClean⟩ := List.eq_append_cons_of_mem comma
  have quoteless : ∀ text : Text, (∀ char ∈ text, char ∈ t.tag) → '"' ∉ text := fun text inside member =>
    t.legal.2 (inside _ member)
  have inFirst : '"' ∉ first := quoteless first fun char member => split ▸ List.mem_append_left _ member
  have inRest : '"' ∉ rest := quoteless rest fun char member =>
    split ▸ List.mem_append_right _ (List.mem_cons_of_mem _ member)
  rw [padded_eq, split, opening_append, List.append_assoc, List.cons_append] at listed
  obtain ⟨left, right, star, around⟩ := exists_between_of_matches clean
    ⟨count_opening t blank inFirst, not_mem_opening t blank firstClean⟩ (closing_clean blank') inRest listed found
  have within : t.tag = (first ++ left) ++ ',' :: (raw ++ ',' :: right) := by
    rw [split, around, List.append_assoc]
  refine ⟨first ++ left, raw, right, pads_star (fun char member => legible char ?_) star, within⟩
  rw [within]
  simp [member]

theorem exists_match_of_starBetween (t : EntityTag) (pads : Pads t.text piece) (starred : StarBetween t.tag) :
    ∃ raw ∈ piece.splitOn ',', Matches (quoted digits) raw := by
  obtain ⟨before, after, blank, blank', rfl⟩ := pads
  obtain ⟨left, star, right, padded, within⟩ := starred
  have starClean : ',' ∉ star := not_mem_pads padded (by decide)
  have cut : before ++ t.text ++ after =
      t.opening before left ++ ',' :: (star ++ ',' :: (right ++ '"' :: after)) := by
    rw [padded_eq, within, opening_append]
    simp
  exact ⟨star, cut ▸ mem_splitOn_between starClean _ _, .inr (trim_pads padded)⟩

/-- Of a padded tag only the tag itself matches, or a star between its commas. -/
theorem piece_matches_iff (clean : ',' ∉ digits ∧ '"' ∉ digits) (t : EntityTag) (legible : Legible t.tag)
    (pads : Pads t.text piece) : (∃ raw ∈ piece.splitOn ',', Matches (quoted digits) raw) ↔
      t.tag = digits ∨ StarBetween t.tag := by
  by_cases comma : ',' ∈ t.tag
  · have differ : t.tag ≠ digits := fun same => clean.1 (same ▸ comma)
    rw [or_iff_right differ]
    constructor
    · rintro ⟨raw, listed, found⟩
      exact starBetween_of_matches clean.2 t legible comma pads listed found
    · exact exists_match_of_starBetween t pads
  · have none_ : ¬ StarBetween t.tag := by
      rintro ⟨_, _, _, -, within⟩
      exact comma (within ▸ List.mem_append_right _ List.mem_cons_self)
    have whole := @matches_whole digits piece t pads
    obtain ⟨before, after, blank, blank', rfl⟩ := pads
    have single : ',' ∉ before ++ t.text ++ after := by
      rw [padded_eq, List.mem_append]
      exact not_or.mpr ⟨not_mem_opening t blank comma, (closing_clean blank').2⟩
    rw [List.splitOn_eq_singleton single, or_iff_left none_]
    simpa using whole

theorem hexadecimal_clean (digits : Text) (hex : ∀ char ∈ digits, char ∈ hexadecimal) :
    ',' ∉ digits ∧ '"' ∉ digits := by
  have outside : ',' ∉ hexadecimal ∧ '"' ∉ hexadecimal := by decide
  exact ⟨fun member => outside.1 (hex _ member), fun member => outside.2 (hex _ member)⟩

theorem narrow_text (t : EntityTag) : Narrow t.text := by
  have validator : Narrow (if t.weak then "W/".toList else []) := by
    cases t.weak <;> decide
  have opening : Narrow ['"'] := by decide
  rw [EntityTag.text, narrow_append, quoted, ← List.singleton_append, narrow_append, narrow_append]
  exact ⟨validator, opening, t.legal.1.narrow, opening⟩

theorem legible_tag {t : EntityTag} (legible : Legible t.text) : Legible t.tag := by
  intro char member
  exact legible char (by simp [EntityTag.text, quoted, member])

/-- What the handler makes of a value: the tags it lists, and a star between commas of one. -/
theorem etagMatches_spells (hex : ∀ char ∈ digits, char ∈ hexadecimal) {field : FieldValue}
    (spells : Spells field value) : etagMatches (latin1 value) (quoted digits) = true ↔
      Legible value ∧ (field.Names digits ∨ field.Starred) := by
  have clean := hexadecimal_clean digits hex
  cases spells with
  | any pads =>
    have legible : Legible value := (legible_pads pads).mpr (by decide)
    have narrow := narrow_pads (by decide) pads
    have whole : ',' ∉ value := not_mem_pads pads (by decide)
    have star : Matches (quoted digits) value := .inr (trim_pads pads)
    rw [etagMatches_latin1 narrow, List.splitOn_eq_singleton whole]
    simp [legible, star, FieldValue.Names]
  | @tags listed _ lists =>
    have narrow := narrow_lists (List.forall_mem_map.mpr fun t _ => narrow_text t) lists
    rw [etagMatches_latin1 narrow]
    refine and_congr_right fun legible => ?_
    have readable : ∀ t ∈ listed, Legible t.tag := fun t member =>
      legible_tag ((legible_lists lists).mp legible _ (List.mem_map_of_mem member))
    obtain ⟨pieces, padded, rfl⟩ := lists
    have named : FieldValue.Names digits (.tags listed) ∨ FieldValue.Starred (.tags listed) ↔
        ∃ t ∈ listed, t.tag = digits ∨ StarBetween t.tag := by
      simp only [FieldValue.Names, FieldValue.Starred, and_or_left, exists_or]
    rw [named]
    have empty : ¬ Matches (quoted digits) [] := by
      simp [Matches, Text.trim, Text.stripPrefix, quoted]
    rw [exists_splitOn_iff fun _ => empty]
    exact exists_piece_iff (List.forall₂_map_left_iff.mp padded) fun t member piece pads =>
      piece_matches_iff clean t (readable t member) pads

/-- The list grammar is followed wherever no star between commas passes for the whole value and
no unreadable character hides the tag. -/
theorem etagMatches_names_iff (hex : ∀ char ∈ digits, char ∈ hexadecimal) {field : FieldValue}
    (spells : Spells field value) :
    (etagMatches (latin1 value) (quoted digits) = true ↔ field.Names digits) ↔
      (Legible value ∧ field.Starred → field.Names digits) ∧ (field.Names digits → Legible value) := by
  rw [etagMatches_spells hex spells]
  by_cases names : field.Names digits <;> by_cases legible : Legible value <;> simp [names, legible]

end

theorem blank_nil : Blank [] := fun _ member => by cases member

theorem pads_self (member : Text) : Pads member member :=
  ⟨[], [], blank_nil, blank_nil, (List.append_nil _).symm⟩

/-- A comma inside a tag, and the tag of the server after it. -/
theorem etagMatches_names_iff_listed :
    etagMatches (latin1 "W/\"a,b\", \"00\"".toList) (quoted "00".toList) = true := by
  let first : EntityTag := ⟨true, "a,b".toList, by decide +kernel⟩
  let second : EntityTag := ⟨false, "00".toList, by decide +kernel⟩
  have padded : Pads second.text " \"00\"".toList :=
    ⟨[' '], [], by decide +kernel, blank_nil, rfl⟩
  have spells : Spells (.tags [first, second]) "W/\"a,b\", \"00\"".toList :=
    .tags ⟨[first.text, " \"00\"".toList], .cons (pads_self _) (.cons padded .nil), by decide⟩
  have listed : FieldValue.Names "00".toList (.tags [first, second]) := ⟨second, by simp, rfl⟩
  have zero : '0' ∈ hexadecimal := by decide
  have hex : ∀ char ∈ "00".toList, char ∈ hexadecimal := by simp [zero]
  have legible : Legible "W/\"a,b\", \"00\"".toList := by decide
  exact ((etagMatches_names_iff hex spells).mpr ⟨fun _ => listed, fun _ => legible⟩).mpr listed

/-- A star between the commas of one tag passes for the tag of every server. -/
theorem star_inside_matches :
    let other : EntityTag := ⟨false, "a, *, b".toList, by decide +kernel⟩
    Spells (.tags [other]) "\"a, *, b\"".toList ∧
      etagMatches (latin1 "\"a, *, b\"".toList) (quoted "00".toList) = true ∧
      ¬ FieldValue.Names "00".toList (.tags [other]) := by
  intro other
  refine ⟨.tags ⟨[other.text], .cons (pads_self _) .nil, by decide⟩, by decide +kernel, ?_⟩
  rintro ⟨t, member, same⟩
  obtain rfl := List.mem_singleton.mp member
  exact absurd same (by decide)

end Anwesen.Http

import Anwesen.Http.EntityTags

/-! List headers over several lines.

`Accept` is read from all its lines and `If-None-Match` from the first one; a
line that is not readable text is passed over, with all of its members.
-/

set_option autoImplicit false

namespace Anwesen.Http

open Foundation Vault

/-- The media type `wants_markdown` looks for in each piece. -/
def NamesMarkdown (raw : Text) : Prop :=
  (Text.trim ((raw.splitOn ';').headD raw)).map Char.toLower = "text/markdown".toList

/-- Each group of members has a line. -/
def Lines (groups : List (List Text)) (lines : List Bytes) : Prop :=
  List.Forall₂ (fun group line => group ≠ [] ∧ ∃ value, Lists group value ∧ line = latin1 value) groups lines

/-- All members in one line, if there are any. -/
def oneLine (groups : List (List Text)) : List (List Text) := if groups = [] then [] else [groups.flatten]

/-- The members a list header may have; a comma would separate. -/
def PlainMembers (groups : List (List Text)) : Prop :=
  ∀ member ∈ groups.flatten, ',' ∉ member ∧ HeaderText member

instance (groups : List (List Text)) : Decidable (PlainMembers groups) :=
  inferInstanceAs (Decidable (∀ member ∈ groups.flatten, ',' ∉ member ∧ HeaderText member))

/-- A line of these members is read, and one of them is what is looked for. -/
def Reads (P : Text → Prop) (group : List Text) : Prop :=
  (∀ member ∈ group, Legible member) ∧ ∃ member ∈ group, P member

/-- The tag is listed, and the value readable, but the first line does not have it. -/
def Overlooked (serverEtag : Text) (groups : List (List Text)) : Prop :=
  Reads (Matches serverEtag) groups.flatten ∧ ∀ member ∈ groups.headD [], ¬ Matches serverEtag member

/-- A line that is read has what is looked for, while some other member is unreadable. -/
def Rescued (P : Text → Prop) (groups lines : List (List Text)) : Prop :=
  ∃ group ∈ lines, Reads P group ∧ ∃ member ∈ groups.flatten, ¬ Legible member

section

variable {P : Text → Prop} {member piece value : Text} {group : List Text} {groups : List (List Text)}
  {lines : List Bytes}

/-- Padding does not change the media type of a member. -/
theorem namesMarkdown_pads (pads : Pads member piece) : NamesMarkdown piece ↔ NamesMarkdown member := by
  have mime : Text.trim ((piece.splitOn ';').headD piece) = Text.trim ((member.splitOn ';').headD member) := by
    obtain ⟨before, after, blank, blank', rfl⟩ := pads
    have plain : ∀ blanks : Text, Blank blanks → ';' ∉ blanks := by
      intro blanks blank listed
      rcases blank _ listed with same | same <;> cases same
    by_cases parameters : ';' ∈ member
    · obtain ⟨name, rest, rfl, clean⟩ := List.eq_append_cons_of_mem parameters
      have cut : before ++ (name ++ ';' :: rest) ++ after = (before ++ name) ++ ';' :: (rest ++ after) := by
        simp
      have clean' : ';' ∉ before ++ name := by simp [plain before blank, clean]
      rw [cut, List.splitOn_append_cons_self_of_not_mem clean', List.splitOn_append_cons_self_of_not_mem clean]
      exact trim_pads ⟨before, [], blank, blank_nil, (List.append_nil _).symm⟩
    · have clean' : ';' ∉ before ++ member ++ after := by
        simp [plain before blank, plain after blank', parameters]
      rw [List.splitOn_eq_singleton clean', List.splitOn_eq_singleton parameters]
      exact trim_pads ⟨before, after, blank, blank', rfl⟩
  rw [NamesMarkdown, NamesMarkdown, mime]

theorem matches_pads {serverEtag : Text} (pads : Pads member piece) :
    Matches serverEtag piece ↔ Matches serverEtag member := by
  rw [Matches, Matches, trim_pads pads]

/-- What is read of a line is what its members say. -/
theorem reads_line (padded : ∀ member piece, Pads member piece → (P piece ↔ P member))
    (plain : ∀ member ∈ group, ',' ∉ member) (some_ : group ≠ []) (lists : Lists group value) :
    (Legible value ∧ ∃ raw ∈ value.splitOn ',', P raw) ↔ Reads P group := by
  rw [legible_lists lists, Reads]
  refine and_congr_right fun _ => ?_
  obtain ⟨pieces, paired, rfl⟩ := lists
  have nonempty : pieces ≠ [] := by
    rintro rfl
    exact some_ (List.forall₂_nil_right_iff.mp paired)
  rw [exists_splitOn_iff fun none_ => absurd none_ nonempty]
  refine exists_piece_iff paired fun member listed piece pads => ?_
  have whole := not_mem_pads pads (plain member listed)
  rw [List.splitOn_eq_singleton whole, ← padded member piece pads]
  simp

/-- What a handler reads of the line of a group. -/
theorem reads_iff (padded : ∀ member piece, Pads member piece → (P piece ↔ P member))
    (plain : ∀ member ∈ group, ',' ∉ member ∧ HeaderText member) {line : Bytes}
    (sent : group ≠ [] ∧ ∃ value, Lists group value ∧ line = latin1 value) :
    (∃ text, headerStr line = some text ∧ ∃ raw ∈ text.splitOn ',', P raw) ↔ Reads P group := by
  obtain ⟨some_, value, lists, rfl⟩ := sent
  have narrow := narrow_lists (fun member listed => (plain member listed).2.narrow) lists
  rw [← reads_line padded (fun member listed => (plain member listed).1) some_ lists,
    headerStr_latin1 narrow]
  by_cases legible : Legible value <;> simp [legible]

theorem plain_of_mem (plain : PlainMembers groups) (listed : group ∈ groups) :
    ∀ member ∈ group, ',' ∉ member ∧ HeaderText member :=
  fun member inside => plain member (List.mem_flatten.mpr ⟨group, listed, inside⟩)

/-- `Accept` is read from every line. -/
theorem wantsMarkdown_lines (plain : PlainMembers groups) {headers : Headers}
    (sent : Lines groups headers.accept) :
    wantsMarkdown headers = true ↔ ∃ group ∈ groups, Reads NamesMarkdown group := by
  have read : wantsMarkdown headers = true ↔ ∃ line ∈ headers.accept, ∃ text, headerStr line = some text ∧
      ∃ raw ∈ text.splitOn ',', NamesMarkdown raw := by
    simp only [wantsMarkdown, NamesMarkdown, List.any_eq_true, List.mem_flatMap, List.mem_filterMap,
      decide_eq_true_eq]
    constructor
    · rintro ⟨raw, ⟨text, ⟨line, listed, legible⟩, piece⟩, named⟩
      exact ⟨line, listed, text, legible, raw, piece, named⟩
    · rintro ⟨line, listed, text, legible, raw, piece, named⟩
      exact ⟨raw, ⟨text, ⟨line, listed, legible⟩, piece⟩, named⟩
  rw [read]
  exact exists_piece_iff sent fun group listed line line_ =>
    reads_iff (fun _ _ => namesMarkdown_pads) (plain_of_mem plain listed) line_

/-- `If-None-Match` is read from the first line. -/
theorem etagMatches_lines (plain : PlainMembers groups) (sent : Lines groups lines) (serverEtag : Text) :
    lines.head?.any (etagMatches · serverEtag) = true ↔
      ∃ group ∈ groups.take 1, Reads (Matches serverEtag) group := by
  cases sent with
  | nil => simp
  | @cons group line _ _ line_ _ =>
    have read : etagMatches line serverEtag = true ↔ ∃ text, headerStr line = some text ∧
        ∃ raw ∈ text.splitOn ',', Matches serverEtag raw := by
      rw [etagMatches]
      cases headerStr line <;> simp [Matches]
    have first := reads_iff (fun _ _ => @matches_pads _ _ serverEtag) (plain_of_mem plain List.mem_cons_self) line_
    simp only [List.head?_cons, Option.any_some, read, first, List.take_succ_cons, List.take_zero,
      List.mem_singleton, exists_eq_left]

theorem flatten_oneLine (groups : List (List Text)) : (oneLine groups).flatten = groups.flatten := by
  by_cases none_ : groups = [] <;> simp [oneLine, none_]

theorem exists_oneLine : (∃ group ∈ oneLine groups, Reads P group) ↔ Reads P groups.flatten := by
  by_cases none_ : groups = [] <;> simp [oneLine, none_, Reads]

theorem take_oneLine : (oneLine groups).take 1 = oneLine groups := by
  by_cases none_ : groups = [] <;> simp [oneLine, none_]

/-- Some lines say it and the whole value does not. -/
theorem rescued_iff {lines : List (List Text)} (inside : ∀ group ∈ lines, group ∈ groups) :
    (∃ group ∈ lines, Reads P group) ∧ ¬ Reads P groups.flatten ↔ Rescued P groups lines := by
  constructor
  · rintro ⟨⟨group, listed, reads⟩, unread⟩
    obtain ⟨member, named, found⟩ := reads.2
    refine ⟨group, listed, reads, ?_⟩
    by_contra legible
    refine unread ⟨?_, member, List.mem_flatten.mpr ⟨group, inside group listed, named⟩, found⟩
    simpa using legible
  · rintro ⟨group, listed, reads, member, named, illegible⟩
    exact ⟨⟨group, listed, reads⟩, fun whole => illegible (whole.1 member named)⟩

/-- The whole value says it and its first line does not. -/
theorem overlooked_iff {serverEtag : Text} : Reads (Matches serverEtag) groups.flatten ∧
    ¬ (∃ group ∈ groups.take 1, Reads (Matches serverEtag) group) ↔ Overlooked serverEtag groups := by
  rw [Overlooked]
  refine and_congr_right fun whole => ?_
  cases groups with
  | nil => simp
  | cons first rest =>
    have legible : ∀ member ∈ first, Legible member := fun member listed =>
      whole.1 member (List.mem_flatten.mpr ⟨first, List.mem_cons_self, listed⟩)
    simp only [List.take_succ_cons, List.take_zero, List.mem_singleton, exists_eq_left, List.headD_cons,
      Reads, and_iff_right legible]
    push Not
    rfl

/-- Every line says what the whole value says, unless an unreadable member spoils the whole. -/
theorem lines_iff_whole :
    ((∃ group ∈ groups, Reads P group) ↔ Reads P groups.flatten) ↔ ¬ Rescued P groups groups := by
  rw [← rescued_iff fun _ listed => listed]
  constructor
  · rintro same ⟨some_, unread⟩
    exact unread (same.mp some_)
  · intro agree
    refine ⟨fun some_ => by_contra fun unread => agree ⟨some_, unread⟩, ?_⟩
    rintro ⟨legible, member, listed, found⟩
    obtain ⟨group, inGroups, inGroup⟩ := List.mem_flatten.mp listed
    exact ⟨group, inGroups, fun other inside => legible other (List.mem_flatten.mpr ⟨group, inGroups, inside⟩),
      member, inGroup, found⟩

theorem first_iff_whole {serverEtag : Text} :
    ((∃ group ∈ groups.take 1, Reads (Matches serverEtag) group) ↔
      Reads (Matches serverEtag) groups.flatten) ↔
    ¬ Overlooked serverEtag groups ∧ ¬ Rescued (Matches serverEtag) groups (groups.take 1) := by
  rw [← overlooked_iff, ← rescued_iff fun _ listed => List.mem_of_mem_take listed]
  by_cases whole : Reads (Matches serverEtag) groups.flatten
  · simp [whole]
  · simp [whole]

end

/-- A note is answered by what the two headers are read as. -/
theorem respondNote_eq_iff {ext : External} {note : Note} {first second : Headers} :
    respondNote ext note first = respondNote ext note second ↔
      (first.ifNoneMatch.head?.any (etagMatches · note.etag) = true ↔
        second.ifNoneMatch.head?.any (etagMatches · note.etag) = true) ∧
      (second.ifNoneMatch.head?.any (etagMatches · note.etag) = true ∨
        (wantsMarkdown first = true ↔ wantsMarkdown second = true)) := by
  rw [respondNote, respondNote]
  cases first.ifNoneMatch.head?.any (etagMatches · note.etag) <;>
    cases second.ifNoneMatch.head?.any (etagMatches · note.etag) <;>
    cases wantsMarkdown first <;> cases wantsMarkdown second <;> simp

/-- The lines of the two headers do not matter unless the tag is listed on a later line, or a
member that is not readable text shares the header with one that decides. -/
theorem lines_agree_iff {ext : External} {store : NoteStore} {path key : Text} {note : Note}
    (named : target path = .ok (.note key)) (held : store.get key = some note)
    {accept ifNoneMatch : List (List Text)} (plain : PlainMembers accept) (plain' : PlainMembers ifNoneMatch)
    {split single : Headers}
    (sent : Lines accept split.accept ∧ Lines ifNoneMatch split.ifNoneMatch)
    (sent' : Lines (oneLine accept) single.accept ∧ Lines (oneLine ifNoneMatch) single.ifNoneMatch) :
    getNotes ext store path split = getNotes ext store path single ↔
      ¬ Overlooked note.etag ifNoneMatch ∧
      ¬ Rescued (Matches note.etag) ifNoneMatch (ifNoneMatch.take 1) ∧
      (Reads (Matches note.etag) ifNoneMatch.flatten ∨ ¬ Rescued NamesMarkdown accept accept) := by
  have answered : ∀ headers, getNotes ext store path headers = respondNote ext note headers := fun headers => by
    simp only [getNotes, named, held]
  have plainOne : ∀ groups, PlainMembers groups → PlainMembers (oneLine groups) := by
    intro groups plain
    rwa [PlainMembers, flatten_oneLine]
  rw [answered, answered, respondNote_eq_iff,
    etagMatches_lines plain' sent.2, etagMatches_lines (plainOne _ plain') sent'.2, take_oneLine,
    wantsMarkdown_lines plain sent.1, wantsMarkdown_lines (plainOne _ plain) sent'.1, exists_oneLine,
    exists_oneLine, first_iff_whole, lines_iff_whole, and_assoc]

/-- The lines of these groups without any padding. -/
def bare (groups : List (List Text)) : List Bytes := groups.map fun group => latin1 ([','].intercalate group)

theorem lines_bare {groups : List (List Text)} (some_ : ∀ group ∈ groups, group ≠ []) :
    Lines groups (bare groups) := by
  refine List.forall₂_map_right_iff.mpr (List.forall₂_same.mpr fun group listed => ?_)
  refine ⟨some_ group listed, _, ⟨group, ?_, rfl⟩, rfl⟩
  exact List.forall₂_same.mpr fun member _ => pads_self member

def taggedNote : Note := { emptyNote "a.md" with etag := quoted "00".toList }

/-- Several members to a line, and the tag on the first. -/
theorem lines_agree_iff_first :
    let store := NoteStore.replace [taggedNote]
    let accept := [["text/html".toList], ["text/markdown;q=0.5".toList]]
    let ifNoneMatch := [["\"00\"".toList, "\"11\"".toList], ["W/\"22\"".toList]]
    getNotes External.bare store "a.md".toList ⟨bare accept, bare ifNoneMatch⟩ =
      getNotes External.bare store "a.md".toList ⟨bare (oneLine accept), bare (oneLine ifNoneMatch)⟩ := by
  intro store accept ifNoneMatch
  have held : store.get "a.md".toList = some taggedNote := by
    simp only [store, NoteStore.get_replace]
    rfl
  have plain : PlainMembers accept := by decide +kernel
  have plain' : PlainMembers ifNoneMatch := by decide +kernel
  have legible : ∀ member ∈ ifNoneMatch.flatten, Legible member := by decide +kernel
  have legible' : ∀ member ∈ accept.flatten, Legible member := by decide +kernel
  have found : Matches taggedNote.etag "\"00\"".toList := .inl (by decide)
  have named : target "a.md".toList = .ok (.note "a.md".toList) := by decide
  refine (lines_agree_iff named held plain plain' ⟨lines_bare ?_, lines_bare ?_⟩
    ⟨lines_bare ?_, lines_bare ?_⟩).mpr ⟨?_, ?_, ?_⟩
  · decide
  · decide
  · decide
  · decide
  · exact fun missed => missed.2 _ List.mem_cons_self found
  · rintro ⟨-, -, -, member, listed, illegible⟩
    exact illegible (legible member listed)
  · exact .inl ⟨legible, _, List.mem_cons_self, found⟩

/-- The tag on the second line: not modified for one line, and the whole note for two. -/
theorem second_line_unread :
    let store := NoteStore.replace [taggedNote]
    let ifNoneMatch := [["\"11\"".toList], ["\"00\"".toList]]
    PlainMembers ifNoneMatch ∧ Lines ifNoneMatch (bare ifNoneMatch) ∧
      Lines (oneLine ifNoneMatch) (bare (oneLine ifNoneMatch)) ∧
      (getNotes External.bare store "a.md".toList ⟨[], bare ifNoneMatch⟩).status = 200 ∧
      (getNotes External.bare store "a.md".toList ⟨[], bare (oneLine ifNoneMatch)⟩).status = 304 := by
  intro store ifNoneMatch
  have held : store.get "a.md".toList = some taggedNote := by
    simp only [store, NoteStore.get_replace]
    rfl
  have named : target "a.md".toList = .ok (.note "a.md".toList) := by decide
  refine ⟨by decide +kernel, lines_bare (by decide), lines_bare (by decide), ?_, ?_⟩
  · rw [status_getNotes_note named held]
    decide +kernel
  · rw [status_getNotes_note named held]
    decide +kernel

end Anwesen.Http

import Anwesen.Foundation.Loop
import Anwesen.Foundation.Segments
import Anwesen.Text

/-! Splitting a Markdown source into its frontmatter block and its body.

The program searches for the substring LF `---` with a moving byte offset; the
grammar it stands for walks lines. The search never looks at the first line
after the opening one, and that is the only difference between the two.
-/

set_option autoImplicit false

namespace Anwesen.Vault

open Foundation

def delimiter : Text := ['-', '-', '-']

/-- The `while let` loop of `splitFrontmatter` over the source after the opening
line: `none` is a slice out of bounds, `some none` a source without closing line. -/
def searchClose (afterOpen : Text) : Nat → Nat → Option (Option (Text × Text))
  | 0, _ => none
  | fuel + 1, searchStart => do
      let unread ← afterOpen.sliceFrom searchStart
      match Text.find ('\n' :: delimiter) unread with
      | none => some none
      | some relIdx =>
          -- `abs` is where the dashes start, after their LF
          let abs := searchStart + relIdx + 1
          let afterClose ← afterOpen.sliceFrom (abs + 3)
          if afterClose = [] ∨ ['\n'] <+: afterClose then do
            let yaml ← afterOpen.sliceTo abs
            some (some (yaml, (Text.stripPrefix ['\n'] afterClose).getD afterClose))
          else searchClose afterOpen fuel (abs + 3)

def splitFrontmatter (src : Text) : Option (Text × Text) :=
  match Text.stripPrefix (delimiter ++ ['\n']) src with
  | none => some ([], src)
  | some afterOpen =>
      match searchClose afterOpen (afterOpen.byteLength + 1) 0 with
      | none => none
      | some none => some ([], src)
      | some (some block) => some block

/-- One pass of the loop from an offset. -/
def pass (afterOpen : Text) (searchStart : Nat) : Option (Turn Nat (Option (Text × Text))) := do
  let unread ← afterOpen.sliceFrom searchStart
  match Text.find ('\n' :: delimiter) unread with
  | none => some (.done none)
  | some relIdx =>
      let abs := searchStart + relIdx + 1
      let afterClose ← afterOpen.sliceFrom (abs + 3)
      if afterClose = [] ∨ ['\n'] <+: afterClose then do
        let yaml ← afterOpen.sliceTo abs
        some (.done (some (yaml, (Text.stripPrefix ['\n'] afterClose).getD afterClose)))
      else some (.next (abs + 3))

theorem searchClose_eq_loop (afterOpen : Text) (fuel searchStart : Nat) :
    searchClose afterOpen fuel searchStart = loop (pass afterOpen) fuel searchStart := by
  induction fuel generalizing searchStart with
  | zero => rfl
  | succ fuel ih =>
    rw [searchClose, loop, pass]
    cases afterOpen.sliceFrom searchStart with
    | none => rfl
    | some unread =>
      simp only [Option.bind_eq_bind, Option.bind_some]
      cases Text.find ('\n' :: delimiter) unread with
      | none => rfl
      | some relIdx =>
        dsimp only
        cases afterOpen.sliceFrom (searchStart + relIdx + 1 + 3) with
        | none => rfl
        | some afterClose =>
          simp only [Option.bind_some]
          by_cases closes : afterClose = [] ∨ ['\n'] <+: afterClose
          · simp only [if_pos closes]
            cases afterOpen.sliceTo (searchStart + relIdx + 1) <;> rfl
          · simp only [if_neg closes, ih]

/-! The line grammar. -/

/-- The lines before the first closing line, and the lines after it. -/
def closeAt : List Text → Option (List Text × List Text)
  | [] => none
  | line :: rest =>
      if line = delimiter then some ([], rest)
      else (closeAt rest).map fun block => (line :: block.1, block.2)

def linesText (lines : List Text) : Text := lines.flatMap (· ++ ['\n'])

/-- What the frontmatter block and the body of a source are, line by line. -/
def lineGrammar (src : Text) : Text × Text :=
  match src.splitOn '\n' with
  | [] => ([], src)
  | first :: rest =>
      if first = delimiter then
        match closeAt rest with
        | none => ([], src)
        | some (block, body) => (linesText block, ['\n'].intercalate body)
      else ([], src)

theorem linesText_eq {line : Text} {rest : List Text} :
    linesText (line :: rest) = ['\n'].intercalate (line :: rest) ++ ['\n'] := by
  induction rest generalizing line with
  | nil => simp [linesText]
  | cons next rest ih =>
    rw [List.intercalate_cons_cons, List.append_assoc, ← ih]
    simp [linesText]

theorem linesText_append (first rest : List Text) :
    linesText (first ++ rest) = linesText first ++ linesText rest := by
  simp [linesText]

theorem closeAt_append {first rest : List Text} (open_ : ∀ line ∈ first, line ≠ delimiter) :
    closeAt (first ++ rest) = (closeAt rest).map fun block => (first ++ block.1, block.2) := by
  induction first with
  | nil => simp
  | cons line first ih =>
    rw [List.cons_append, closeAt, if_neg (open_ line List.mem_cons_self),
      ih fun other member => open_ other (List.mem_cons_of_mem _ member), Option.map_map]
    rfl

theorem closeAt_mem {lines : List Text} {block : List Text × List Text}
    (closed : closeAt lines = some block) : delimiter ∈ lines := by
  induction lines generalizing block with
  | nil => cases closed
  | cons line rest ih =>
    by_cases here : line = delimiter
    · exact here ▸ List.mem_cons_self
    · rw [closeAt, if_neg here, Option.map_eq_some_iff] at closed
      obtain ⟨inner, deeper, _⟩ := closed
      exact List.mem_cons_of_mem _ (ih deeper)

theorem newline_not_mem_delimiter : '\n' ∉ delimiter := by decide

/-- A line that starts like a delimiter and is not one goes on after it. -/
theorem delimiter_line {after head : Text} {rest : List Text}
    (split : after.splitOn '\n' = head :: rest) :
    (delimiter ++ head = delimiter ↔ after = [] ∨ ['\n'] <+: after) := by
  have same : delimiter ++ head = delimiter ↔ head = [] := by simp
  rw [same]
  cases after with
  | nil =>
    rw [List.splitOn_eq_singleton (by simp)] at split
    simp_all
  | cons char after =>
    rw [List.splitOn_cons_eq_if_modifyHead] at split
    by_cases newline : char = '\n'
    · simp_all
    · have differs : (char == '\n') = false := by simpa using newline
      rw [differs] at split
      cases inner : after.splitOn '\n' with
      | nil => exact absurd inner (List.splitOn_ne_nil _ _)
      | cons first others =>
        simp only [inner, Bool.false_eq_true, if_false, List.modifyHead_cons, List.cons.injEq] at split
        simp [← split.1, Ne.symm newline]

/-- No line begins like a delimiter before the first occurrence the search finds. -/
theorem no_delimiter_before {before after head : Text} {lines : List Text}
    (split : before.splitOn '\n' = head :: lines)
    (first : ∀ shorter rest, before = shorter ++ rest → rest ≠ [] →
      ¬ ('\n' :: delimiter) <+: rest ++ ('\n' :: delimiter) ++ after) :
    ∀ line ∈ lines, line ≠ delimiter := by
  rintro line member rfl
  obtain ⟨shorter, rest, same⟩ := mem_tail_splitOn split member
  refine first shorter ('\n' :: (delimiter ++ rest)) same (by simp) ?_
  exact ⟨rest ++ ('\n' :: delimiter) ++ after, by simp⟩

/-- The lines of a text around an occurrence of LF and a delimiter. -/
theorem splitOn_around {before after head first : Text} {lines rest : List Text}
    (left : before.splitOn '\n' = head :: lines) (right : after.splitOn '\n' = first :: rest) :
    (before ++ ('\n' :: delimiter) ++ after).splitOn '\n' =
      head :: (lines ++ (delimiter ++ first) :: rest) := by
  rw [List.append_assoc, List.cons_append, List.splitOn_append_cons_self, left,
    splitOn_append_of_not_mem newline_not_mem_delimiter right]
  rfl

/-- The body starts after the line feed that ends the closing line, when there is one. -/
theorem body_after {after : Text} {rest : List Text} (right : after.splitOn '\n' = [] :: rest) :
    (Text.stripPrefix ['\n'] after).getD after = ['\n'].intercalate rest := by
  have whole : ['\n'].intercalate (after.splitOn '\n') = after := List.intercalate_splitOn '\n'
  rw [right] at whole
  cases rest with
  | nil =>
    rw [List.intercalate_singleton] at whole
    simp [← whole, Text.stripPrefix]
  | cons body rest =>
    rw [List.intercalate_cons_cons, List.nil_append] at whole
    simp [← whole, Text.stripPrefix]

/-- Where the slices of one pass end: before the delimiter, and after it. -/
theorem byteLength_upTo (done before : Text) : Text.byteLength done + before.byteLength + 1 =
    Text.byteLength (done ++ (before ++ ['\n'])) := by
  simp [Text.byteLength, Nat.add_assoc, show Char.utf8Size '\n' = 1 from rfl]

theorem byteLength_past (done before : Text) : Text.byteLength done + before.byteLength + 1 + 3 =
    Text.byteLength (done ++ (before ++ '\n' :: delimiter)) := by
  simp [Text.byteLength, delimiter, Nat.add_assoc, show Char.utf8Size '\n' = 1 from rfl,
    show Char.utf8Size '-' = 1 from rfl]

theorem pass_missing {done unread : Text} (missing : Text.find ('\n' :: delimiter) unread = none) :
    pass (done ++ unread) done.byteLength = some (.done none) := by
  simp only [pass, Text.sliceFrom_append, Option.bind_eq_bind, Option.bind_some, missing]

/-- A pass slices at the delimiter it finds: the block ends before it, the rest starts after it. -/
theorem pass_found {done before after : Text}
    (found : Text.find ('\n' :: delimiter) (before ++ '\n' :: delimiter ++ after) = some before.byteLength) :
    pass (done ++ (before ++ '\n' :: delimiter ++ after)) done.byteLength =
      some (if after = [] ∨ ['\n'] <+: after then
        .done (some (done ++ (before ++ ['\n']), (Text.stripPrefix ['\n'] after).getD after))
      else .next (done ++ (before ++ '\n' :: delimiter)).byteLength) := by
  have whole : done ++ (before ++ '\n' :: delimiter ++ after) =
      (done ++ (before ++ '\n' :: delimiter)) ++ after := by simp
  have whole' : done ++ (before ++ '\n' :: delimiter ++ after) =
      (done ++ (before ++ ['\n'])) ++ (delimiter ++ after) := by simp
  simp only [pass, Text.sliceFrom_append, Option.bind_eq_bind, Option.bind_some, found]
  rw [byteLength_past, whole, Text.sliceFrom_append, Option.bind_some]
  by_cases closes : after = [] ∨ ['\n'] <+: after
  · rw [if_pos closes, if_pos closes, byteLength_upTo, ← whole, whole', Text.sliceTo_append, Option.bind_some]
  · rw [if_neg closes, if_neg closes]

/-- The search returns the first closing line among all lines but the first. -/
theorem searchClose_eq (done unread : Text) (fuel : Nat) (enough : unread.length < fuel)
    {line : Text} {lines : List Text} (split : unread.splitOn '\n' = line :: lines) :
    searchClose (done ++ unread) fuel done.byteLength =
      some ((closeAt lines).map fun block =>
        (done ++ linesText (line :: block.1), ['\n'].intercalate block.2)) := by
  induction fuel generalizing done unread line lines with
  | zero => exact absurd enough (Nat.not_lt_zero _)
  | succ fuel ih =>
    rw [searchClose_eq_loop, loop]
    cases found : Text.find ('\n' :: delimiter) unread with
    | none =>
      have open_ : closeAt lines = none := by
        by_contra closed
        obtain ⟨block, closed⟩ := Option.ne_none_iff_exists'.mp closed
        obtain ⟨before, after, same⟩ := mem_tail_splitOn split (closeAt_mem closed)
        exact Text.find_eq_none found (show _ = before ++ '\n' :: delimiter ++ after by simpa using same)
      simp [pass_missing found, open_]
    | some relIdx =>
      obtain ⟨before, after, same, rfl, first⟩ := Text.find_eq_some found
      obtain ⟨head, more, left⟩ := List.exists_cons_of_ne_nil (List.splitOn_ne_nil '\n' before)
      obtain ⟨next, rest, right⟩ := List.exists_cons_of_ne_nil (List.splitOn_ne_nil '\n' after)
      subst same
      rw [splitOn_around left right] at split
      obtain ⟨rfl, rfl⟩ := List.cons.inj split
      have beforeText : linesText (head :: more) = before ++ ['\n'] := by
        rw [linesText_eq, ← left, List.intercalate_splitOn]
      rw [pass_found found, closeAt_append (no_delimiter_before left first)]
      by_cases closes : after = [] ∨ ['\n'] <+: after
      · have nextEmpty : next = [] := by simpa using (delimiter_line right).mpr closes
        subst nextEmpty
        rw [if_pos closes, closeAt, if_pos (List.append_nil _)]
        simp only [Option.map_some, List.append_nil, beforeText]
        rw [body_after right]
      · have shorter : after.length < fuel := by
          simp only [List.length_append, List.length_cons] at enough
          omega
        have whole : done ++ (before ++ '\n' :: delimiter ++ after) =
            (done ++ (before ++ '\n' :: delimiter)) ++ after := by simp
        simp only [if_neg closes]
        rw [whole, ← searchClose_eq_loop, ih _ _ shorter right, closeAt,
          if_neg fun same => closes ((delimiter_line right).mp same)]
        simp only [Option.map_map]
        congr 2
        funext block
        have lines : linesText (head :: (more ++ (delimiter ++ next) :: block.1)) =
            before ++ ['\n'] ++ (delimiter ++ next ++ ['\n'] ++ linesText block.1) := by
          rw [← beforeText, ← List.cons_append, linesText_append]
          simp [linesText]
        simp only [Function.comp_apply, lines]
        simp [linesText]

/-- The search as a whole: everything but the line after the opening is inspected. -/
theorem splitFrontmatter_opened {after line : Text} {lines : List Text}
    (split : after.splitOn '\n' = line :: lines) :
    splitFrontmatter (delimiter ++ '\n' :: after) =
      some (match closeAt lines with
        | none => ([], delimiter ++ '\n' :: after)
        | some block => (linesText (line :: block.1), ['\n'].intercalate block.2)) := by
  have opened : Text.stripPrefix (delimiter ++ ['\n']) (delimiter ++ '\n' :: after) = some after :=
    Text.stripPrefix_eq_some.mpr (by simp)
  have searched := searchClose_eq [] after (after.byteLength + 1)
    (Nat.lt_succ_of_le (Text.length_le_byteLength after)) split
  simp only [List.nil_append, Text.byteLength] at searched
  simp only [splitFrontmatter, opened, searched]
  cases closeAt lines <;> rfl

theorem splitOn_opened {after line : Text} {lines : List Text}
    (split : after.splitOn '\n' = line :: lines) :
    (delimiter ++ '\n' :: after).splitOn '\n' = delimiter :: line :: lines := by
  rw [List.splitOn_append_cons_self, split]
  rfl

/-- A first line that is the delimiter, and not the whole text, is the opening. -/
theorem opened_of_splitOn {src line : Text} {lines : List Text}
    (split : src.splitOn '\n' = delimiter :: line :: lines) :
    ∃ after, src = delimiter ++ '\n' :: after ∧ after.splitOn '\n' = line :: lines := by
  have joined : ['\n'].intercalate (src.splitOn '\n') = src := List.intercalate_splitOn '\n'
  rw [split, List.intercalate_cons_cons] at joined
  refine ⟨['\n'].intercalate (line :: lines), by simpa using joined.symm, ?_⟩
  rw [← joined, List.append_assoc, List.singleton_append, List.splitOn_append_cons_self] at split
  simpa [show delimiter.splitOn '\n' = [delimiter] from rfl] using split

theorem splitFrontmatter_unopened {src : Text} (plain : ∀ after, src ≠ delimiter ++ '\n' :: after) :
    splitFrontmatter src = some ([], src) := by
  have unopened : Text.stripPrefix (delimiter ++ ['\n']) src = none :=
    Text.stripPrefix_eq_none.mpr fun ⟨after, same⟩ => plain after (by simpa using same.symm)
  simp only [splitFrontmatter, unopened]

theorem lineGrammar_unopened {src : Text} (plain : ∀ after, src ≠ delimiter ++ '\n' :: after) :
    lineGrammar src = ([], src) := by
  unfold lineGrammar
  split
  · rfl
  · rename_i first rest split
    split
    · rename_i opening
      subst opening
      cases rest with
      | nil => rfl
      | cons line lines =>
        obtain ⟨after, same, _⟩ := opened_of_splitOn split
        exact absurd same (plain after)
    · rfl

theorem splitFrontmatter_isSome (src : Text) : (splitFrontmatter src).isSome = true := by
  by_cases opened : ∃ after, src = delimiter ++ '\n' :: after
  · obtain ⟨after, rfl⟩ := opened
    obtain ⟨line, lines, split⟩ := List.exists_cons_of_ne_nil (List.splitOn_ne_nil '\n' after)
    rw [splitFrontmatter_opened split]
    rfl
  · rw [splitFrontmatter_unopened fun after same => opened ⟨after, same⟩]
    rfl

/-- The search meets the grammar unless the block is closed by its first line. -/
theorem splitFrontmatter_eq_lineGrammar_iff (src : Text) :
    splitFrontmatter src = some (lineGrammar src) ↔
      ¬ [delimiter, delimiter] <+: src.splitOn '\n' := by
  by_cases opened : ∃ after, src = delimiter ++ '\n' :: after
  · obtain ⟨after, rfl⟩ := opened
    obtain ⟨line, lines, split⟩ := List.exists_cons_of_ne_nil (List.splitOn_ne_nil '\n' after)
    rw [splitFrontmatter_opened split, lineGrammar, splitOn_opened split]
    by_cases closing : line = delimiter
    · subst closing
      simp only [closeAt, if_true, List.cons_prefix_cons, List.nil_prefix, and_self, not_true,
        iff_false, Option.some.injEq]
      cases found : closeAt lines with
      | none =>
        intro same
        have joined : ['\n'].intercalate (after.splitOn '\n') = after := List.intercalate_splitOn '\n'
        -- the grammar's body is shorter than the source
        have longer := congrArg (fun block => block.2.length) same
        rw [split] at joined
        cases lines with
        | nil => simp at longer
        | cons next lines =>
          rw [List.intercalate_cons_cons] at joined
          simp [← joined] at longer
          omega
      | some block =>
        intro same
        -- the search takes the delimiter as the first line of the block
        have empty := congrArg Prod.fst same
        simp [linesText, delimiter] at empty
    · have searched : closeAt (line :: lines) =
          (closeAt lines).map fun block => (line :: block.1, block.2) := by
        rw [closeAt, if_neg closing]
      simp only [searched, if_true, List.cons_prefix_cons, List.nil_prefix, and_true, true_and,
        Ne.symm closing, not_false_iff, iff_true]
      cases closeAt lines <;> rfl
  · have plain : ∀ after, src ≠ delimiter ++ '\n' :: after := fun after same => opened ⟨after, same⟩
    rw [splitFrontmatter_unopened plain, lineGrammar_unopened plain]
    simp only [true_iff]
    rintro ⟨lines, split⟩
    obtain ⟨after, same, _⟩ := opened_of_splitOn split.symm
    exact plain after same

/-- An empty block is not recognised: its delimiters stay in the body. -/
theorem splitFrontmatter_empty_block :
    splitFrontmatter "---\n---\nbody".toList = some ([], "---\n---\nbody".toList) ∧
      lineGrammar "---\n---\nbody".toList = ([], "body".toList) ∧
      ¬ ∀ src, splitFrontmatter src = some (lineGrammar src) := by
  refine ⟨by decide, by decide, fun always => ?_⟩
  have here := always "---\n---\nbody".toList
  revert here
  decide

end Anwesen.Vault

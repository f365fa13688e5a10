import Anwesen.Query.Parsing

/-! Scoping a query to a folder. -/

set_option autoImplicit false

namespace Anwesen.Query

open Foundation Vault

/-- The pairs that write a control parameter down. -/
def Control (name value pair : Text) : Prop :=
  ∃ k v, pair = k ++ '=' :: v ∧ Encoded (anw ++ name) k ∧ Encoded value v

/-- The query strings that scope to a folder, with the recursion setting they have. -/
inductive Scoped (folder : Text) : Bool → Text → Prop
  | default {pair : Text} : Control "path".toList folder pair → Scoped folder true pair
  | pathFirst {recursive : Bool} {pair setting : Text} : Control "path".toList folder pair →
      Control "recursive".toList (boolText recursive) setting →
        Scoped folder recursive (pair ++ '&' :: setting)
  | pathLast {recursive : Bool} {pair setting : Text} : Control "path".toList folder pair →
      Control "recursive".toList (boolText recursive) setting →
        Scoped folder recursive (setting ++ '&' :: pair)

/-- The segments of a folder as a client may write it. -/
def segments (folder : Text) : List Text := (folder.splitOn '/').filter (· ≠ [])

/-- A path is under the segments, and right under them unless the query is recursive. -/
def Under (outer : List Text) (recursive : Bool) (path : Text) : Prop :=
  outer <+: path.splitOn '/' ∧ (recursive = false → (path.splitOn '/').length ≤ outer.length + 1)

/-- What a folder in a query promises, in both recursion modes. -/
def Scopes (ext : External) (folder : Text) : Prop :=
  ∀ recursive raw, Scoped folder recursive raw →
    ∀ note, Selects ext raw note ↔ Under (segments folder) recursive note.path

section

variable {ext : External} {folder : Text} {recursive : Bool} {raw : Text}

theorem control_clean {name value pair : Text} (control : Control name value pair) : '&' ∉ pair := by
  obtain ⟨k, v, rfl, key, encoded⟩ := control
  simp [(encoded_clean key).1, (encoded_clean encoded).1]

theorem exists_control (name value : Text) : ∃ pair, Control name value pair := by
  obtain ⟨k, key⟩ := exists_encoded (anw ++ name)
  obtain ⟨v, encoded⟩ := exists_encoded value
  exact ⟨_, k, v, rfl, key, encoded⟩

theorem parsePair_control {name value pair : Text} (control : Control name value pair)
    (q : ParsedQuery) : parsePair ext q pair = applyControl q name value := by
  obtain ⟨k, v, rfl, key, encoded⟩ := control
  have nonempty : k ++ '=' :: v ≠ [] := by simp
  have stripped : Text.stripPrefix anw (anw ++ name) = some name :=
    Text.stripPrefix_eq_some.mpr rfl
  simp only [parsePair, nonempty, if_false, Text.splitOnce_append (encoded_clean key).2,
    Option.getD_some, percentDecode_encoded key, percentDecode_encoded encoded, stripped]

theorem parse_controls {name other value setting pair more : Text} {q : ParsedQuery}
    (first : Control name value pair) (second : Control other setting more)
    (applied : applyControl {} name value = .ok q) :
    parse ext (pair ++ '&' :: more) = applyControl q other setting := by
  have split : (pair ++ '&' :: more).splitOn '&' = [pair, more] := by
    rw [List.splitOn_append_cons_self, List.splitOn_eq_singleton (control_clean first),
      List.splitOn_eq_singleton (control_clean second)]
    rfl
  rw [parse, if_neg (by simp), split, List.foldlM_cons, parsePair_control first, applied]
  change List.foldlM (parsePair ext) q [more] = _
  rw [List.foldlM_cons, parsePair_control second]
  cases applyControl q other setting <;> rfl

/-- Both settings reach the query, the folder without its leading slashes. -/
theorem parse_scoped (sent : Scoped folder recursive raw) :
    parse ext raw =
      .ok { pathPrefix := some (folder.dropWhile (· = '/')), recursive := recursive } := by
  cases sent with
  | default path => rw [parse_pair (control_clean path), parsePair_control path]; rfl
  | pathFirst path setting =>
    rw [parse_controls path setting rfl]
    cases recursive <;> rfl
  | pathLast path setting =>
    have applied : applyControl {} "recursive".toList (boolText recursive) =
        .ok { recursive := recursive } := by
      cases recursive <;> rfl
    rw [parse_controls setting path applied]
    rfl

theorem selects_scoped (sent : Scoped folder recursive raw) (note : Note) :
    Selects ext raw note ↔ pathMatches note.path (folder.dropWhile (· = '/')) recursive = true := by
  rw [Selects, parse_scoped sent]
  simp [predicatesMatch]

/-- Matching a nonempty prefix compares segments, empty ones included. -/
theorem pathMatches_iff {path prefix_ : Text} (nonempty : prefix_ ≠ []) :
    pathMatches path prefix_ recursive = true ↔ Under (prefix_.splitOn '/') recursive path := by
  rw [pathMatches, if_neg nonempty]
  by_cases same : path = prefix_
  · subst same
    simp [Under]
  · have different : prefix_ ≠ path := Ne.symm same
    simp only [same, if_false]
    cases stripped : Text.stripPrefix (prefix_ ++ ['/']) path with
    | none =>
      have outside := Text.stripPrefix_eq_none.mp stripped
      rw [splitOn_prefix_iff, and_iff_left different] at outside
      simp [Under, outside]
    | some below =>
      have joined := Text.stripPrefix_eq_some.mp stripped
      rw [List.append_assoc, List.singleton_append] at joined
      have split : path.splitOn '/' = prefix_.splitOn '/' ++ below.splitOn '/' := by
        rw [joined, List.splitOn_append_cons_self]
      have short : (path.splitOn '/').length ≤ (prefix_.splitOn '/').length + 1 ↔ '/' ∉ below := by
        rw [split, List.length_append, ← length_splitOn_le_one]
        omega
      rw [Under, short]
      simp only [split, List.prefix_append, true_and]
      cases recursive <;> cases below <;> simp

/-- Without a prefix everything is in scope, or everything at the top. -/
theorem pathMatches_nil {path : Text} : pathMatches path [] recursive = true ↔ Under [] recursive path := by
  rw [Under, List.length_nil, length_splitOn_le_one]
  cases recursive <;> simp [pathMatches]

theorem segments_dropWhile (folder : Text) : segments (folder.dropWhile (· = '/')) = segments folder := by
  induction folder with
  | nil => rfl
  | cons char folder ih =>
    by_cases slash : char = '/'
    · subst slash
      have split : ('/' :: folder).splitOn '/' = [] :: folder.splitOn '/' :=
        List.splitOn_append_cons_self [] folder
      rw [List.dropWhile_cons_of_pos (by simp), ih, segments, segments, split]
      simp
    · rw [List.dropWhile_cons_of_neg (by simp [slash])]

/-- No slash at either end and none doubled; or the root. -/
def Canonical (folder : Text) : Prop := folder = [] ∨ [] ∉ folder.splitOn '/'

theorem segments_eq_splitOn (clean : [] ∉ folder.splitOn '/') : segments folder = folder.splitOn '/' := by
  refine List.filter_eq_self.mpr fun seg member => ?_
  simpa using fun empty : seg = [] => clean (empty ▸ member)

theorem pathMatches_canonical (canonical : Canonical folder) {path : Text} :
    pathMatches path folder recursive = true ↔ Under (segments folder) recursive path := by
  rcases canonical with rfl | clean
  · exact pathMatches_nil
  · by_cases none_ : folder = []
    · subst none_
      exact absurd (List.mem_singleton_self []) clean
    · rw [segments_eq_splitOn clean, pathMatches_iff none_]

/-- A folder scopes by its segments as long as nothing is empty between two
slashes or after the last one. -/
theorem scopes_iff : Scopes ext folder ↔ Canonical (folder.dropWhile (· = '/')) := by
  rw [Scopes, ← segments_dropWhile]
  generalize cut : folder.dropWhile (· = '/') = front
  constructor
  · intro scopes
    by_contra failing
    rw [Canonical, not_or, not_not] at failing
    obtain ⟨nonempty, gap⟩ := failing
    obtain ⟨pair, control⟩ := exists_control "path".toList folder
    -- a note in the folder itself is in scope, but not under a prefix with a gap
    let path : List Text := segments front ++ ["a.md".toList]
    have split : (['/'].intercalate path).splitOn '/' = path := by
      refine List.splitOn_intercalate '/' (fun seg member => ?_) (by simp [path])
      rcases List.mem_append.mp member with inside | last
      · exact separable_splitOn '/' front seg (List.mem_filter.mp inside).1
      · rw [List.mem_singleton.mp last]
        decide
    have inside : Under (segments front) true (['/'].intercalate path) := by
      rw [Under, split]
      exact ⟨List.prefix_append _ _, nofun⟩
    let note : Note := ⟨['/'].intercalate path, ∅, [], [], ⟨0, 0⟩, [], 0⟩
    have selected := (scopes true pair (.default control) note).mpr inside
    rw [selects_scoped (.default control), cut, pathMatches_iff nonempty, Under, split] at selected
    rcases List.mem_append.mp (selected.1.subset gap) with empty | last
    · simp [segments] at empty
    · simp at last
  · intro clean recursive raw sent note
    rw [selects_scoped sent, cut]
    exact pathMatches_canonical clean

end

/-- A folder written with its trailing slash selects nothing. -/
theorem trailing_slash_selects_nothing :
    Scoped "Projects/".toList true "__anw-path=Projects/".toList ∧
      Under (segments "Projects/".toList) true "Projects/y.md".toList ∧
      (∀ note : Note, note.path = "Projects/y.md".toList →
        ¬ Selects External.bare "__anw-path=Projects/".toList note) ∧
      ¬ Scopes External.bare "Projects/".toList := by
  have sent : Scoped "Projects/".toList true "__anw-path=Projects/".toList :=
    .default ⟨"__anw-path".toList, "Projects/".toList, by decide,
      Percent.encodes_self (by decide +kernel), Percent.encodes_self (by decide +kernel)⟩
  have inside : Under (segments "Projects/".toList) true "Projects/y.md".toList :=
    ⟨by decide, nofun⟩
  have lost : ∀ note : Note, note.path = "Projects/y.md".toList →
      ¬ Selects External.bare "__anw-path=Projects/".toList note := by
    intro note named
    rw [selects_scoped sent, named]
    decide
  refine ⟨sent, inside, lost, fun scopes => ?_⟩
  let note : Note := ⟨"Projects/y.md".toList, ∅, [], [], ⟨0, 0⟩, [], 0⟩
  exact lost note rfl ((scopes true _ sent note).mpr inside)

end Anwesen.Query

import Anwesen.Query.Execution
import Anwesen.Query.Ranges
import Anwesen.Vault.Numerals

/-! How the operators of one field stand to each other. -/

set_option autoImplicit false

namespace Anwesen.Query

open Vault

/-- The paths a query answers when it asks one predicate more. -/
def answers (ext : External) (store : NoteStore) (query : ParsedQuery) (p : Predicate)
    (formatTs : Instant → Text) : List Text :=
  let asked := { query with predicates := query.predicates ++ [p], limit := none }
  (execute ext store asked formatTs).results.map ResultEntry.path

section

variable (ext : External)

instance (v : Value) (needle : Text) : Decidable (Comparable ext v needle) :=
  inferInstanceAs (Decidable (∃ op ∈ rangeOperators, orderedCompare ext v needle op = true))

/-- The notes in scope whose value of a field is comparable with an operand. -/
def comparables (store : NoteStore) (query : ParsedQuery) (field needle : Text) : List Note :=
  (selected ext store query).filter fun note =>
    (lookupDotted note.frontmatter field).any fun v => Comparable ext v needle

/-- Two answers are disjoint and make up a whole. -/
structure Parts (first second whole : List Text) : Prop where
  disjoint : ∀ path ∈ first, path ∉ second
  union : (first ++ second).Perm whole

/-- What opposite operators answer over the notes a query has in scope. -/
structure Opposites (store : NoteStore) (query : ParsedQuery) (field needle : Text)
    (formatTs : Instant → Text) : Prop where
  equality : Parts (answers ext store query ⟨field, .eq, needle⟩ formatTs)
    (answers ext store query ⟨field, .not, needle⟩ formatTs) ((selected ext store query).map Note.path)
  presence : Parts (answers ext store query ⟨field, .exists_, "true".toList⟩ formatTs)
    (answers ext store query ⟨field, .exists_, "false".toList⟩ formatTs)
    ((selected ext store query).map Note.path)
  above : Parts (answers ext store query ⟨field, .gt, needle⟩ formatTs)
    (answers ext store query ⟨field, .lte, needle⟩ formatTs)
    ((comparables ext store query field needle).map Note.path)
  below : Parts (answers ext store query ⟨field, .lt, needle⟩ formatTs)
    (answers ext store query ⟨field, .gte, needle⟩ formatTs)
    ((comparables ext store query field needle).map Note.path)

end

section

variable {ext : External} {store : NoteStore} {query : ParsedQuery} {field needle : Text}
  {formatTs : Instant → Text}

theorem predicatesMatch_append (predicates : List Predicate) (p : Predicate) (fm : Frontmatter) :
    predicatesMatch ext (predicates ++ [p]) fm =
      (predicatesMatch ext predicates fm && predicateMatch ext p fm) := by
  simp [predicatesMatch]

/-- A further predicate filters what the query selects without it. -/
theorem answers_eq (p : Predicate) : answers ext store query p formatTs =
    ((selected ext store query).filter fun note => predicateMatch ext p note.frontmatter).map
      Note.path := by
  have paths : ResultEntry.path ∘ rowOf ext formatTs = Note.path := rfl
  have all : answers ext store query p formatTs =
      (selected ext store { query with predicates := query.predicates ++ [p] }).map Note.path := by
    have unlimited := @execute_unlimited ext store { query with predicates := query.predicates ++ [p] }
      formatTs
    simp only [answers, unlimited, List.map_map, paths]
  rw [all, selected, selected, List.filter_map, List.filter_filter]
  refine congrArg (List.map Note.path ∘ List.map Prod.snd) (List.filter_congr fun entry _ => ?_)
  simp only [predicatesMatch_append, Function.comp_apply]
  rw [← Bool.and_assoc, Bool.and_comm]

/-- Two predicates of which every note of a whole meets one, and no note both. -/
theorem parts_of_exclusive {p q : Predicate} {keep : Note → Bool}
    (exclusive : ∀ note : Note,
      (predicateMatch ext p note.frontmatter || predicateMatch ext q note.frontmatter) = keep note ∧
        (predicateMatch ext p note.frontmatter && predicateMatch ext q note.frontmatter) = false) :
    Parts (answers ext store query p formatTs) (answers ext store query q formatTs)
      (((selected ext store query).filter keep).map Note.path) := by
  have kept : ∀ notes : List Note,
      (notes.filter (fun note => predicateMatch ext p note.frontmatter) ++
        notes.filter fun note => predicateMatch ext q note.frontmatter).Perm (notes.filter keep) := by
    intro notes
    have front : notes.filter (fun note => predicateMatch ext p note.frontmatter) =
        (notes.filter keep).filter fun note => predicateMatch ext p note.frontmatter := by
      rw [List.filter_filter]
      refine List.filter_congr fun note _ => ?_
      rw [← (exclusive note).1, Bool.and_or_distrib_left, Bool.and_self, (exclusive note).2, Bool.or_false]
    have back : notes.filter (fun note => predicateMatch ext q note.frontmatter) =
        (notes.filter keep).filter fun note => !predicateMatch ext p note.frontmatter := by
      rw [List.filter_filter]
      refine List.filter_congr fun note _ => ?_
      obtain ⟨any, both⟩ := exclusive note
      rw [← any]
      cases first : predicateMatch ext p note.frontmatter with
      | true => simpa [first] using both
      | false => simp
    rw [front, back]
    exact List.filter_append_perm _ _
  rw [answers_eq, answers_eq]
  constructor
  · intro path inFirst inSecond
    obtain ⟨note, keptFirst, rfl⟩ := List.mem_map.mp inFirst
    obtain ⟨other, keptSecond, same⟩ := List.mem_map.mp inSecond
    obtain ⟨listed, first⟩ := List.mem_filter.mp keptFirst
    obtain ⟨listed', second⟩ := List.mem_filter.mp keptSecond
    -- a path of the store has one note
    have held := mem_selected listed'
    rw [same, mem_selected listed] at held
    obtain rfl := Option.some.inj held
    have both := (exclusive note).2
    rw [first, second] at both
    cases both
  · rw [← List.map_append]
    exact (kept _).map _

theorem parts_of_total {p q : Predicate}
    (exclusive : ∀ note : Note,
      (predicateMatch ext p note.frontmatter || predicateMatch ext q note.frontmatter) = true ∧
        (predicateMatch ext p note.frontmatter && predicateMatch ext q note.frontmatter) = false) :
    Parts (answers ext store query p formatTs) (answers ext store query q formatTs)
      ((selected ext store query).map Note.path) := by
  have all : (selected ext store query).filter (fun _ => true) = selected ext store query := by simp
  rw [← all]
  exact parts_of_exclusive exclusive

theorem ord_opposites (c : Ordering) : (ord c .gt || ord c .lte) = true ∧ (ord c .gt && ord c .lte) = false ∧
    (ord c .lt || ord c .gte) = true ∧ (ord c .lt && ord c .gte) = false := by
  cases c <;> decide

/-- Of two opposite range operators, each comparable value meets one. -/
theorem orderedCompare_opposites (v : Value) (needle : Text) :
    (orderedCompare ext v needle .gt || orderedCompare ext v needle .lte) = decide (Comparable ext v needle) ∧
      (orderedCompare ext v needle .gt && orderedCompare ext v needle .lte) = false ∧
      (orderedCompare ext v needle .lt || orderedCompare ext v needle .gte) =
        decide (Comparable ext v needle) ∧
      (orderedCompare ext v needle .lt && orderedCompare ext v needle .gte) = false := by
  obtain ⟨c, same⟩ := @orderedCompare_eq ext v needle
  have taken : decide (Comparable ext v needle) = takes ext needle v := by
    rw [Bool.eq_iff_iff, decide_eq_true_eq, comparable_iff]
  obtain ⟨above, apart, below, apart'⟩ := ord_opposites c
  simp only [same, taken]
  cases takes ext needle v with
  | true => exact ⟨above, apart, below, apart'⟩
  | false => exact ⟨rfl, rfl, rfl, rfl⟩

/-- Opposite operators split the notes in scope, or those whose value they compare. -/
theorem opposites_partition (store : NoteStore) (query : ParsedQuery) (field needle : Text)
    (formatTs : Instant → Text) : Opposites ext store query field needle formatTs where
  equality := by
    refine parts_of_total fun note => ?_
    cases found : lookupDotted note.frontmatter field <;> simp [predicateMatch, found]
  presence := by
    refine parts_of_total fun note => ?_
    cases found : lookupDotted note.frontmatter field <;> simp [predicateMatch, found]
  above := by
    refine parts_of_exclusive fun note => ?_
    cases found : lookupDotted note.frontmatter field with
    | none => simp [predicateMatch, found]
    | some v =>
      obtain ⟨either, never, -, -⟩ := @orderedCompare_opposites ext v needle
      simpa only [predicateMatch, found, Option.any_some] using ⟨either, never⟩
  below := by
    refine parts_of_exclusive fun note => ?_
    cases found : lookupDotted note.frontmatter field with
    | none => simp [predicateMatch, found]
    | some v =>
      obtain ⟨-, -, either, never⟩ := @orderedCompare_opposites ext v needle
      simpa only [predicateMatch, found, Option.any_some] using ⟨either, never⟩

end

/-! Equality and the bounds. -/

/-- What a printed date, instant or float is read back as, where it is read at all:
an instant without its fraction of a second, a leap second kept. -/
structure Rereads (ext : External) : Prop where
  date : ∀ d b, ext.parseDate (ext.printDate d) = some b → b = d
  instant : ∀ t b, ext.parseDateTime (ext.printInstant t) = some b →
    b.utc = ⟨t.seconds, t.nanos / 1000000000 * 1000000000⟩
  float : ∀ f g, ext.parseFloat (ext.printFloat f) = some g → g = f ∨ (f.isNan = true ∧ g.isNan = true)

section

variable (ext : External)

/-- What an equality says of the range operators on the same field and operand. -/
def EqualityBounds (fm : Frontmatter) (field needle : Text) : Prop :=
  predicateMatch ext ⟨field, .eq, needle⟩ fm = true →
    (∃ op ∈ rangeOperators, predicateMatch ext ⟨field, op, needle⟩ fm = true) →
      predicateMatch ext ⟨field, .gte, needle⟩ fm = true ∧
        predicateMatch ext ⟨field, .lte, needle⟩ fm = true ∧
        predicateMatch ext ⟨field, .gt, needle⟩ fm = false ∧
        predicateMatch ext ⟨field, .lt, needle⟩ fm = false

/-- A datetime with a fraction of a second, and the text it prints as, where that is a datetime. -/
def Truncated (v : Value) (needle : Text) : Prop :=
  ∃ dt, v = .dateTime dt ∧ dt.utc.nanos % 1000000000 ≠ 0 ∧ needle = ext.printInstant dt.utc ∧
    (ext.parseDateTime needle).isSome = true

end

section

variable {ext : External}

/-- The text of an integer is read as that integer. -/
theorem parseI64_intText (i : Int64) : parseI64 (intText i.toInt) = some i := by
  have nonempty : ∀ n, Nat.toDigits 10 n ≠ [] := fun n => Nat.toDigits_ne_nil
  have digits : ∀ n, (Nat.toDigits 10 n).all Char.isDigit = true := fun n =>
    List.all_eq_true.mpr (isDigit_toDigits n)
  have within : Int64.minValue.toInt ≤ i.toInt ∧ i.toInt ≤ Int64.maxValue.toInt :=
    ⟨Int64.minValue_le_toInt i, Int64.toInt_le i⟩
  rcases Int.lt_or_le i.toInt 0 with sign | sign
  · have magnitude : -((-i.toInt).toNat : Int) = i.toInt := by omega
    rw [intText_of_neg sign, parseI64]
    simp only [nonempty, digits, foldl_toDigits, magnitude, within, not_true, or_self, if_false,
      if_true, and_self, Int64.ofInt_toInt]
  · have magnitude : (i.toInt.toNat : Int) = i.toInt := Int.toNat_of_nonneg sign
    -- a digit is no sign
    have unsigned : ∀ first rest, Nat.toDigits 10 i.toInt.toNat = first :: rest →
        first.isDigit = true := fun first rest shape =>
      isDigit_toDigits i.toInt.toNat first (shape ▸ List.mem_cons_self)
    rw [intText_of_nonneg sign, parseI64]
    · simp only [nonempty, digits, foldl_toDigits, magnitude, within, not_true, or_self, if_false,
        Bool.false_eq_true, and_self, if_true, Int64.ofInt_toInt]
    · intro rest shape
      cases unsigned _ rest shape
    · intro rest shape
      cases unsigned _ rest shape

/-- A value that equals an operand and is compared with it compares equal, unless the text
of a datetime has dropped the fraction of a second. -/
theorem orderedCompare_of_matchesEq (rereads : Rereads ext) {v : Value} {needle : Text}
    (scalar : ∀ seq, v ≠ .sequence seq) (equal : matchesEq ext v needle = true)
    (whole : ¬ Truncated ext v needle) (op : Operator) :
    orderedCompare ext v needle op = (takes ext needle v && ord .eq op) := by
  cases v with
  | null => rfl
  | bool b => rfl
  | sequence seq => exact absurd rfl (scalar seq)
  | mapping entries => rfl
  | string s =>
    obtain rfl : s = needle := by simpa [matchesEq, matchesScalarEq] using equal
    simp [orderedCompare, takes, tryAsDate, tryAsDatetime, tryAsInt, tryAsFloat, tryAsString]
  | date d =>
    obtain rfl : ext.printDate d = needle := by simpa [matchesEq, matchesScalarEq] using equal
    cases read : ext.parseDate (ext.printDate d) with
    | none =>
      simp [orderedCompare, takes, tryAsDate, tryAsDatetime, tryAsInt, tryAsFloat, tryAsString, read]
    | some b =>
      obtain rfl := rereads.date d b read
      simp [orderedCompare, takes, tryAsDate, read]
  | dateTime dt =>
    obtain rfl : ext.printInstant dt.utc = needle := by simpa [matchesEq, matchesScalarEq] using equal
    cases read : ext.parseDateTime (ext.printInstant dt.utc) with
    | none =>
      simp [orderedCompare, takes, tryAsDate, tryAsDatetime, tryAsInt, tryAsFloat, tryAsString, read]
    | some b =>
      have unbroken : dt.utc.nanos % 1000000000 = 0 := by
        by_contra broken
        exact whole ⟨dt, rfl, broken, rfl, by rw [read]; rfl⟩
      have same : b.utc = dt.utc := by
        rw [rereads.instant _ b read, Nat.div_mul_cancel (Nat.dvd_of_mod_eq_zero unbroken)]
      have self : dt.utc.compare dt.utc = .eq := by simp [Instant.compare, Std.ReflCmp.compare_self]
      simp [orderedCompare, takes, tryAsDate, tryAsDatetime, read, same, self]
  | int i =>
    obtain rfl : needle = intText i.toInt := by simpa [matchesEq, matchesScalarEq] using equal
    simp [orderedCompare, takes, tryAsDate, tryAsDatetime, tryAsInt, parseI64_intText]
  | float f =>
    obtain rfl : needle = ext.printFloat f := by simpa [matchesEq, matchesScalarEq] using equal
    cases read : ext.parseFloat (ext.printFloat f) with
    | none =>
      simp [orderedCompare, takes, tryAsDate, tryAsDatetime, tryAsInt, tryAsFloat, tryAsString, read]
    | some g =>
      have even : (f.partialCmp g).getD .eq = .eq := by
        rcases rereads.float f g read with rfl | ⟨nan, -⟩
        · cases nan : g.isNan <;> simp [F64.partialCmp, nan]
        · simp [F64.partialCmp, nan]
      simp [orderedCompare, takes, tryAsDate, tryAsDatetime, tryAsInt, tryAsFloat, read, even]

/-- What a datetime has lost in its text makes it greater than the text. -/
theorem truncated_exceeds (rereads : Rereads ext) {v : Value} {needle : Text}
    (truncated : Truncated ext v needle) :
    matchesEq ext v needle = true ∧ orderedCompare ext v needle .gt = true := by
  obtain ⟨dt, rfl, broken, rfl, readable⟩ := truncated
  obtain ⟨b, read⟩ := Option.isSome_iff_exists.mp readable
  have above : dt.utc.compare b.utc = .gt := by
    have seconds : compare dt.utc.seconds dt.utc.seconds = .eq := Std.ReflCmp.compare_self
    have nanos : dt.utc.nanos / 1000000000 * 1000000000 < dt.utc.nanos := by omega
    rw [rereads.instant _ b read, Instant.compare, seconds, Nat.compare_eq_gt.mpr nanos]
    rfl
  constructor
  · simp [matchesEq, matchesScalarEq]
  · simp [orderedCompare, tryAsDate, tryAsDatetime, read, above, ord]

/-- Equality and the bounds agree on every scalar but the text of a datetime with a fraction
of a second. -/
theorem equalityBounds_iff (rereads : Rereads ext) {fm : Frontmatter} {field needle : Text} {v : Value}
    (found : lookupDotted fm field = some v) (scalar : ∀ seq, v ≠ .sequence seq) :
    EqualityBounds ext fm field needle ↔ ¬ Truncated ext v needle := by
  have ranged : ∀ op ∈ rangeOperators, predicateMatch ext ⟨field, op, needle⟩ fm =
      orderedCompare ext v needle op := by
    simp [rangeOperators, predicateMatch, found]
  have equality : predicateMatch ext ⟨field, .eq, needle⟩ fm = matchesEq ext v needle := by
    simp [predicateMatch, found]
  have greater := ranged .gt (by decide)
  constructor
  · intro agree truncated
    obtain ⟨equal, above⟩ := truncated_exceeds rereads truncated
    rw [← greater] at above
    obtain ⟨-, -, notAbove, -⟩ := agree (equality.trans equal) ⟨.gt, by decide, above⟩
    rw [notAbove] at above
    cases above
  · rintro whole equal ⟨op, listed, met⟩
    have even := orderedCompare_of_matchesEq rereads scalar (equality.symm.trans equal) whole
    have taken : takes ext needle v = true := by
      rw [ranged op listed, even, Bool.and_eq_true] at met
      exact met.1
    rw [ranged .gte (by decide), ranged .lte (by decide), greater, ranged .lt (by decide), even, even, even,
      even, taken]
    decide

end

/-- An environment that knows one instant and drops its fraction of a second. -/
def readsOneInstant : External :=
  { External.bare with
    parseDateTime := fun s =>
      if s = "2026-05-14T10:14:22Z".toList then some ⟨⟨1778753662, 0⟩, 0⟩ else none
    printInstant := fun t =>
      if t.seconds = 1778753662 ∧ t.nanos < 1000000000 then "2026-05-14T10:14:22Z".toList else [] }

theorem readsOneInstant_rereads : Rereads readsOneInstant where
  date _ _ read := by cases read
  float _ _ read := by cases read
  instant t b read := by
    have known : t.seconds = 1778753662 ∧ t.nanos < 1000000000 := by
      by_contra unknown
      have blank : readsOneInstant.printInstant t = [] := if_neg unknown
      rw [blank] at read
      cases read
    have printed : readsOneInstant.printInstant t = "2026-05-14T10:14:22Z".toList := if_pos known
    have parsed : readsOneInstant.parseDateTime "2026-05-14T10:14:22Z".toList =
        some ⟨⟨1778753662, 0⟩, 0⟩ := rfl
    rw [printed, parsed] at read
    obtain rfl := Option.some.inj read
    rw [Nat.div_eq_of_lt known.2, known.1, Nat.zero_mul]

def stamped (nanos : Nat) : Frontmatter :=
  (∅ : Frontmatter).insert "when".toList (.dateTime ⟨⟨1778753662, nanos⟩, 0⟩)

theorem equalityBounds_iff_wholeSecond :
    EqualityBounds readsOneInstant (stamped 0) "when".toList "2026-05-14T10:14:22Z".toList := by
  let v : Value := .dateTime ⟨⟨1778753662, 0⟩, 0⟩
  have found : lookupDotted (stamped 0) "when".toList = some v := lookupDotted_insert (by decide) _ _
  refine (equalityBounds_iff readsOneInstant_rereads found nofun).mpr ?_
  rintro ⟨dt, same, broken, -⟩
  obtain rfl := Value.dateTime.inj same
  exact broken rfl

/-- Half a second past a whole one: equal to the text, and greater. -/
theorem half_second_exceeds :
    let needle := "2026-05-14T10:14:22Z".toList
    predicateMatch readsOneInstant ⟨"when".toList, .eq, needle⟩ (stamped 500000000) = true ∧
      predicateMatch readsOneInstant ⟨"when".toList, .gt, needle⟩ (stamped 500000000) = true ∧
      ¬ EqualityBounds readsOneInstant (stamped 500000000) "when".toList needle := by
  intro needle
  let v : Value := .dateTime ⟨⟨1778753662, 500000000⟩, 0⟩
  have found : lookupDotted (stamped 500000000) "when".toList = some v :=
    lookupDotted_insert (by decide) _ _
  have equal : predicateMatch readsOneInstant ⟨"when".toList, .eq, needle⟩ (stamped 500000000) = true := by
    simp only [predicateMatch, found, Option.any_some]
    decide
  have above : predicateMatch readsOneInstant ⟨"when".toList, .gt, needle⟩ (stamped 500000000) = true := by
    simp only [predicateMatch, found, Option.any_some]
    decide
  refine ⟨equal, above, fun agree => ?_⟩
  obtain ⟨-, -, notAbove, -⟩ := agree equal ⟨.gt, by decide, above⟩
  rw [above] at notAbove
  cases notAbove

end Anwesen.Query

import Anwesen.Query.Ordering
import Anwesen.Query.Parsing

/-! Querying by a value copied out of the JSON projection.

The projection prints numbers as JSON literals and a predicate compares with
their plain texts; a number whose two texts differ is not found again.
-/

set_option autoImplicit false

namespace Anwesen.Query

open Foundation Vault

/-- The value a key path leads to through nested mappings. -/
inductive Reached : Value → List Text → Value → Prop
  | here (v : Value) : Reached v [] v
  | step {entries : List (Text × Value)} {key : Text} {keys : List Text} {v w : Value} :
      entries.lookup key = some w → Reached w keys v → Reached (.mapping entries) (key :: keys) v

/-- A value stands at the end of a path, alone or in a list. -/
inductive Holds (v : Value) : Value → Prop
  | alone : Holds v v
  | listed {seq : List Value} : v ∈ seq → Holds v (.sequence seq)

def isScalar : Value → Bool
  | .sequence _ | .mapping _ => false
  | _ => true

/-- What a scalar shows as in a JSON document, a string by its content. -/
def shownText (printJsonFloat : F64 → Text) : Json → Option Text
  | .null => some "null".toList
  | .bool b => some (boolText b)
  | .int i => some (intText i.toInt)
  | .float f => some (printJsonFloat f)
  | .string s => some s
  | .array _ | .object _ => none

def dotted (keys : List Text) : Text := ['.'].intercalate keys

/-- A key path of a note with the value at its end, one scalar of it, and the
text the projection shows for that. -/
structure Shown (ext : External) (printJsonFloat : F64 → Text) (note : Note) (keys : List Text)
    (target v : Value) (text : Text) : Prop where
  plain : ∀ key ∈ keys, '.' ∉ key
  bare : ¬ underscores <:+: dotted keys
  reached : ∃ head rest root, keys = head :: rest ∧ note.frontmatter[head]? = some root ∧
    Reached root rest target
  holds : Holds v target
  scalar : isScalar v = true
  shown : shownText printJsonFloat (toJson ext v) = some text

section

variable {ext : External} {printJsonFloat : F64 → Text} {note : Note} {keys : List Text}
  {target v : Value} {text : Text}

theorem descend_of_reached {root : Value} (reached : Reached root keys target) :
    descend root keys = some target := by
  induction reached with
  | here v => simp [descend]
  | step found _ ih => rw [descend, found, Option.bind_some, ih]

theorem matchesScalarEq_iff {needle : Text} : matchesScalarEq ext v needle = true ↔
    isScalar v = true ∧ canonicalString ext v = needle := by
  cases v <;> simp [matchesScalarEq, isScalar, canonicalString, eq_comm]

/-- Only a float has a JSON text of its own. -/
theorem canonicalString_of_shown (scalar : isScalar v = true)
    (shown : shownText printJsonFloat (toJson ext v) = some text) (other : ∀ f, v ≠ .float f) :
    canonicalString ext v = text := by
  cases v with
  | float f => exact absurd rfl (other f)
  | sequence _ => cases scalar
  | mapping _ => cases scalar
  | _ => exact Option.some.inj (by simpa [toJson, shownText, canonicalString] using shown)

theorem lookupDotted_shown (shown : Shown ext printJsonFloat note keys target v text) :
    lookupDotted note.frontmatter (dotted keys) = some target := by
  obtain ⟨head, rest, root, rfl, found, reached⟩ := shown.reached
  have split : (dotted (head :: rest)).splitOn '.' = head :: rest :=
    List.splitOn_intercalate '.' shown.plain (List.cons_ne_nil _ _)
  rw [lookupDotted, split]
  simp only [found, Option.bind_some, descend_of_reached reached]

theorem anw_not_prefix (bare : ¬ underscores <:+: text) : ¬ anw <+: text := fun control =>
  bare ((by decide : underscores <+: anw).trans control).isInfix

/-- A scalar is found again by what the projection shows, unless it is a float
with another text there and nothing else in its list has that text. -/
theorem found_again_iff (shown : Shown ext printJsonFloat note keys target v text) :
    (∀ pair, Written ⟨dotted keys, .eq, text⟩ pair → Selects ext pair note) ↔
      (∀ f, v = .float f → ext.printFloat f = text) ∨
        ∃ seq, target = .sequence seq ∧
          ∃ other ∈ seq, isScalar other = true ∧ canonicalString ext other = text := by
  have writable : Writable ext ⟨dotted keys, .eq, text⟩ := by
    have alone : dotted keys ++ Operator.eq.suffix = dotted keys := List.append_nil _
    refine ⟨?_, fun _ => shown.bare, nofun, nofun⟩
    rw [Predicate.key, alone]
    exact anw_not_prefix shown.bare
  have matched : (∀ pair, Written ⟨dotted keys, .eq, text⟩ pair → Selects ext pair note) ↔
      matchesEq ext target text = true := by
    have found : predicateMatch ext ⟨dotted keys, .eq, text⟩ note.frontmatter =
        matchesEq ext target text := by
      simp [predicateMatch, lookupDotted_shown shown]
    rw [← found]
    constructor
    · intro all
      obtain ⟨pair, written⟩ := exists_written ⟨dotted keys, .eq, text⟩
      exact (selects_written writable written note).mp (all pair written)
    · exact fun selected pair written => (selects_written writable written note).mpr selected
  -- what a float prints decides whether the value itself matches
  have itself : canonicalString ext v = text ↔ ∀ f, v = .float f → ext.printFloat f = text := by
    by_cases float : ∃ f, v = .float f
    · obtain ⟨f, rfl⟩ := float
      simp [canonicalString]
    · rw [not_exists] at float
      exact iff_of_true (canonicalString_of_shown shown.scalar shown.shown float)
        fun f same => absurd same (float f)
  rw [matched, ← itself]
  have scalar := shown.scalar
  cases shown.holds with
  | alone =>
    have alone : matchesEq ext target text = matchesScalarEq ext target text := by
      cases target <;> first | rfl | cases scalar
    rw [alone, matchesScalarEq_iff]
    constructor
    · exact fun same => .inl same.2
    · rintro (same | ⟨seq, rfl, -⟩)
      · exact ⟨scalar, same⟩
      · cases scalar
  | listed member =>
    rename_i seq
    simp only [matchesEq, List.any_eq_true, matchesScalarEq_iff]
    constructor
    · exact fun found => .inr ⟨seq, rfl, found⟩
    · rintro (same | ⟨_, listed, found⟩)
      · exact ⟨v, member, scalar, same⟩
      · obtain rfl := Value.sequence.inj listed
        exact found

end

def noteWith (key : String) (value : Value) : Note :=
  ⟨"a.md".toList, (∅ : Frontmatter).insert key.toList value, [], [], ⟨0, 0⟩, [], 0⟩

theorem shown_noteWith {ext : External} {printJsonFloat : F64 → Text} {key : String} {v : Value}
    {text : Text} (plain : '.' ∉ key.toList) (bare : ¬ underscores <:+: key.toList)
    (scalar : isScalar v = true) (shown : shownText printJsonFloat (toJson ext v) = some text) :
    Shown ext printJsonFloat (noteWith key v) [key.toList] v v text where
  plain := by simpa using plain
  bare := by simpa [dotted] using bare
  reached := ⟨key.toList, [], v, rfl, by simp [noteWith], .here v⟩
  holds := .alone
  scalar := scalar
  shown := shown

theorem found_again_iff_status :
    Selects External.bare "status=open".toList (noteWith "status" (.string "open".toList)) := by
  have shown : Shown External.bare External.bare.printFloat (noteWith "status" (.string "open".toList))
      ["status".toList] (.string "open".toList) (.string "open".toList) "open".toList :=
    shown_noteWith (by decide) (by decide) rfl rfl
  have written : Written ⟨dotted ["status".toList], .eq, "open".toList⟩ "status=open".toList :=
    ⟨"status".toList, "open".toList, by decide, Percent.encodes_self (by decide +kernel),
      Percent.encodes_self (by decide +kernel)⟩
  exact (found_again_iff shown).mpr (.inl nofun) _ written

/-- The number one. -/
def one : F64 := ⟨0x3FF0000000000000⟩

/-- An environment that prints the number one without a fraction. -/
def printsOne : External :=
  { External.bare with printFloat := fun f => if f = one then "1".toList else [] }

/-- The projection shows `1.0`, and no note is found by that. -/
theorem score_not_found_again :
    let printJsonFloat := fun f => printsOne.printFloat f ++ ".0".toList
    Shown printsOne printJsonFloat (noteWith "score" (.float one)) ["score".toList] (.float one)
        (.float one) "1.0".toList ∧
      Written ⟨dotted ["score".toList], .eq, "1.0".toList⟩ "score=1.0".toList ∧
      ¬ Selects printsOne "score=1.0".toList (noteWith "score" (.float one)) := by
  intro printJsonFloat
  have shown : Shown printsOne printJsonFloat (noteWith "score" (.float one)) ["score".toList]
      (.float one) (.float one) "1.0".toList :=
    shown_noteWith (by decide) (by decide) rfl (by decide)
  have written : Written ⟨dotted ["score".toList], .eq, "1.0".toList⟩ "score=1.0".toList :=
    ⟨"score".toList, "1.0".toList, by decide, Percent.encodes_self (by decide +kernel),
      Percent.encodes_self (by decide +kernel)⟩
  have writable : Writable printsOne ⟨dotted ["score".toList], .eq, "1.0".toList⟩ :=
    ⟨by decide, fun _ => by decide, nofun, nofun⟩
  refine ⟨shown, written, ?_⟩
  rw [selects_written writable written, predicateMatch, lookupDotted_shown shown]
  decide

end Anwesen.Query

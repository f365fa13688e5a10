import Anwesen.Doctor
import Anwesen.Query.Matching

/-! Which values the range operators compare with an operand.

A value is compared on the first rung of the ladder that takes it and reads the
operand, whatever the operator; `doctor` sorts values into coarser shapes.
-/

set_option autoImplicit false

namespace Anwesen.Query

open Vault Doctor

def rangeOperators : List Operator := [.gt, .gte, .lt, .lte]

section

variable (ext : External)

def Comparable (v : Value) (needle : Text) : Prop :=
  ∃ op ∈ rangeOperators, orderedCompare ext v needle op = true

/-- The operands the rungs for a value read. -/
def takes (needle : Text) : Value → Bool
  | .date _ => (ext.parseDate needle).isSome
  | .dateTime _ => (ext.parseDateTime needle).isSome
  | .int _ => (parseI64 needle).isSome || (ext.parseFloat needle).isSome
  | .float _ => (ext.parseFloat needle).isSome
  | .string _ => true
  | _ => false

/-- Every text that is an integer is a floating-point number. -/
def IntegersAreFloats : Prop :=
  ∀ needle, (parseI64 needle).isSome = true → (ext.parseFloat needle).isSome = true

/-- A date is read from texts a datetime is not read from, or the other way round. -/
def Apart (needle : Text) : Prop :=
  (ext.parseDate needle).isSome ≠ (ext.parseDateTime needle).isSome

end

/-- One value is a date without a time, the other has one. -/
def Mixed : Value → Value → Prop
  | .date _, .dateTime _ | .dateTime _, .date _ => True
  | _, _ => False

/-- A range predicate on a key compares the values of all these notes or of none. -/
def ComparedAlike (ext : External) (notes : List Note) (key needle : Text) : Prop :=
  ∀ a ∈ notes, ∀ b ∈ notes, ∀ (v w : Value), a.frontmatter[key]? = some v → b.frontmatter[key]? = some w →
    (Comparable ext v needle ↔ Comparable ext w needle)

/-- A key holds dates in some of these notes and datetimes in others. -/
def MixedAt (notes : List Note) (key : Text) : Prop :=
  ∃ a ∈ notes, ∃ b ∈ notes, ∃ v w : Value, a.frontmatter[key]? = some v ∧
    b.frontmatter[key]? = some w ∧ Mixed v w

section

variable {ext : External}

theorem exists_ord (c : Ordering) : ∃ op ∈ rangeOperators, ord c op = true := by
  cases c with
  | lt => exact ⟨.lt, by decide, rfl⟩
  | eq => exact ⟨.gte, by decide, rfl⟩
  | gt => exact ⟨.gt, by decide, rfl⟩

/-- The comparison is made once, and the operator reads it off. -/
theorem orderedCompare_eq (v : Value) (needle : Text) :
    ∃ c, ∀ op, orderedCompare ext v needle op = (takes ext needle v && ord c op) := by
  cases v with
  | null => exact ⟨.eq, fun op => rfl⟩
  | bool b => exact ⟨.eq, fun op => rfl⟩
  | sequence seq => exact ⟨.eq, fun op => rfl⟩
  | mapping entries => exact ⟨.eq, fun op => rfl⟩
  | string s => exact ⟨compare s needle, fun op => by simp [orderedCompare, takes, tryAsDate, tryAsDatetime,
      tryAsInt, tryAsFloat, tryAsString]⟩
  | date d =>
    cases read : ext.parseDate needle with
    | none => exact ⟨.eq, fun op => by simp [orderedCompare, takes, tryAsDate, tryAsDatetime, tryAsInt,
        tryAsFloat, tryAsString, read]⟩
    | some day => exact ⟨compare d.day day.day, fun op => by simp [orderedCompare, takes, tryAsDate, read]⟩
  | dateTime dt =>
    cases read : ext.parseDateTime needle with
    | none => exact ⟨.eq, fun op => by simp [orderedCompare, takes, tryAsDate, tryAsDatetime, tryAsInt,
        tryAsFloat, tryAsString, read]⟩
    | some other => exact ⟨dt.utc.compare other.utc, fun op => by simp [orderedCompare, takes, tryAsDate,
        tryAsDatetime, read]⟩
  | int i =>
    cases whole : parseI64 needle with
    | some n => exact ⟨compare i.toInt n.toInt, fun op => by simp [orderedCompare, takes, tryAsDate,
        tryAsDatetime, tryAsInt, whole]⟩
    | none =>
      cases read : ext.parseFloat needle with
      | none => exact ⟨.eq, fun op => by simp [orderedCompare, takes, tryAsDate, tryAsDatetime, tryAsInt,
          tryAsFloat, tryAsString, whole, read]⟩
      | some x => exact ⟨((F64.ofInt i.toInt).partialCmp x).getD .eq, fun op => by simp [orderedCompare, takes,
          tryAsDate, tryAsDatetime, tryAsInt, tryAsFloat, whole, read]⟩
  | float f =>
    cases read : ext.parseFloat needle with
    | none => exact ⟨.eq, fun op => by simp [orderedCompare, takes, tryAsDate, tryAsDatetime, tryAsInt,
        tryAsFloat, tryAsString, read]⟩
    | some x => exact ⟨(f.partialCmp x).getD .eq, fun op => by simp [orderedCompare, takes, tryAsDate,
        tryAsDatetime, tryAsInt, tryAsFloat, read]⟩

theorem comparable_iff {v : Value} {needle : Text} :
    Comparable ext v needle ↔ takes ext needle v = true := by
  obtain ⟨c, same⟩ := @orderedCompare_eq ext v needle
  constructor
  · rintro ⟨op, _, holds⟩
    rw [same, Bool.and_eq_true] at holds
    exact holds.1
  · intro taken
    obtain ⟨op, listed, holds⟩ := exists_ord c
    exact ⟨op, listed, by rw [same, taken, holds]; rfl⟩

/-- Values of one shape are compared with the same operands, dates and datetimes aside. -/
theorem alike_iff (integers : IntegersAreFloats ext) {v w : Value} (shape : shapeOf v = shapeOf w)
    (needle : Text) : (Comparable ext v needle ↔ Comparable ext w needle) ↔
      ¬ (Mixed v w ∧ Apart ext needle) := by
  rw [comparable_iff, comparable_iff]
  have whole := integers needle
  -- of two kinds with different shapes the texts differ by evaluation
  cases v <;> cases w <;> first | exact absurd shape (of_decide_eq_false rfl) | clear shape
  case int.float => simpa [takes, Mixed] using whole
  case float.int => simpa [takes, Mixed] using whole
  case dateTime.date =>
    simp only [takes, Mixed, Apart, true_and, not_not, ne_eq, ← Bool.eq_iff_iff]
    exact eq_comm
  all_goals simp [takes, Mixed, Apart]

/-- Without drift a key's values are compared alike, unless some are dates, some
datetimes and the operand is only one of the two. -/
theorem comparedAlike_iff (integers : IntegersAreFloats ext) {notes : List Note}
    (clean : detectTypeDrift notes = []) (key needle : Text) :
    ComparedAlike ext notes key needle ↔ ¬ (MixedAt notes key ∧ Apart ext needle) := by
  have shapes := detectTypeDrift_eq_nil_iff.mp clean
  constructor
  · rintro alike ⟨⟨a, inA, b, inB, v, w, hasV, hasW, mixed⟩, apart⟩
    have shape := shapes a inA b inB key v w hasV hasW
    exact (alike_iff integers shape needle).mp (alike a inA b inB v w hasV hasW) ⟨mixed, apart⟩
  · intro together a inA b inB v w hasV hasW
    refine (alike_iff integers (shapes a inA b inB key v w hasV hasW) needle).mpr ?_
    exact fun both => together ⟨⟨a, inA, b, inB, v, w, hasV, hasW, both.1⟩, both.2⟩

/-- One shape means one comparison, for two values and throughout a vault, unless
an operand tells dates from datetimes. -/
theorem shapes_compare_alike_iff (integers : IntegersAreFloats ext) :
    (∀ (v w : Value) (needle : Text), shapeOf v = shapeOf w →
      ((Comparable ext v needle ↔ Comparable ext w needle) ↔ ¬ (Mixed v w ∧ Apart ext needle))) ∧
    ∀ (notes : List Note) (key needle : Text), detectTypeDrift notes = [] →
      (ComparedAlike ext notes key needle ↔ ¬ (MixedAt notes key ∧ Apart ext needle)) :=
  ⟨fun _ _ needle shape => alike_iff integers shape needle,
    fun _ key needle clean => comparedAlike_iff integers clean key needle⟩

/-- An environment that reads integers as floats and knows one date. -/
def readsOneDay : External :=
  { External.bare with
    parseDate := fun s => if s = "2026-05-14".toList then some ⟨20587⟩ else none
    parseFloat := fun s => (parseI64 s).map fun i => F64.ofInt i.toInt }

theorem shapes_compare_alike_iff_numbers :
    Comparable readsOneDay (.int 3) "10".toList ↔
      Comparable readsOneDay (.float (F64.ofInt 2)) "10".toList := by
  have integers : IntegersAreFloats readsOneDay := by
    intro needle whole
    change ((parseI64 needle).map _).isSome = true
    rwa [Option.isSome_map]
  exact ((shapes_compare_alike_iff integers).1 _ _ _ rfl).mpr fun both => both.1

/-- The operand of a day selects among the dates of a key and drops its datetimes. -/
theorem day_drops_datetimes :
    shapeOf (.date ⟨20587⟩) = shapeOf (.dateTime ⟨⟨1778753662, 0⟩, 0⟩) ∧
      Comparable readsOneDay (.date ⟨20587⟩) "2026-05-14".toList ∧
      ¬ Comparable readsOneDay (.dateTime ⟨⟨1778753662, 0⟩, 0⟩) "2026-05-14".toList := by
  rw [comparable_iff, comparable_iff]
  exact ⟨rfl, by decide, by decide⟩

end

end Anwesen.Query

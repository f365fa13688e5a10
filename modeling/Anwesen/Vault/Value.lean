import Anwesen.Foundation.Sorting
import Anwesen.Vault.Splitting

/-! Frontmatter values, their coercion from YAML, and the note record.

What comes from the crates the program links (YAML parsing, hashing, calendar
formats, floating-point printing) is a field of `External`, and so is what is known
of the sort.
-/

set_option autoImplicit false

namespace Anwesen.Vault

open Foundation

/-- A point in time: seconds since the epoch, then nanoseconds. -/
structure Instant where
  seconds : Int
  nanos : Nat
  deriving DecidableEq, Repr

def Instant.compare (first second : Instant) : Ordering :=
  (Ord.compare first.seconds second.seconds).then (Ord.compare first.nanos second.nanos)

/-- A calendar date, as the number of days since the epoch. -/
structure NaiveDate where
  day : Int
  deriving DecidableEq, Repr

/-- An instant with the offset from UTC it was written in, in seconds. -/
structure DateTime where
  utc : Instant
  offset : Int
  deriving DecidableEq, Repr

/-- A binary64 number by its bit pattern. -/
structure F64 where
  bits : UInt64
  deriving DecidableEq, Repr

namespace F64

def magnitude (x : F64) : Nat := x.bits.toNat % 0x8000000000000000
def negative (x : F64) : Bool := 0x8000000000000000 ≤ x.bits.toNat
def isNan (x : F64) : Bool := 0x7FF0000000000000 < x.magnitude

/-- The position of a number that is not a NaN among all of them. -/
def rank (x : F64) : Int := if x.negative then -(x.magnitude : Int) else x.magnitude

def partialCmp (x y : F64) : Option Ordering :=
  if x.isNan || y.isNan then none else some (compare x.rank y.rank)

/-- The magnitude bits nearest to a natural number, ties to even. -/
def roundNat (n : Nat) : Nat :=
  if n = 0 then 0
  else
    let exponent := n.log2
    let mantissa :=
      if exponent ≤ 52 then n <<< (52 - exponent)
      else
        let shift := exponent - 52
        let kept := n >>> shift
        let lost := n % (1 <<< shift)
        let half := 1 <<< (shift - 1)
        if half < lost ∨ (lost = half ∧ kept % 2 = 1) then kept + 1 else kept
    ((exponent + 1023) <<< 52) + (mantissa - 1 <<< 52)

/-- `i as f64`. -/
def ofInt (n : Int) : F64 :=
  ⟨UInt64.ofNat (roundNat n.natAbs + if n < 0 then 0x8000000000000000 else 0)⟩

end F64

/-- The entries of a mapping stand in key order, as a `BTreeMap` yields them. -/
inductive Value where
  | null
  | bool (b : Bool)
  | int (i : Int64)
  | float (f : F64)
  | string (s : Text)
  | date (d : NaiveDate)
  | dateTime (dt : DateTime)
  | sequence (seq : List Value)
  | mapping (entries : List (Text × Value))

mutual
/-- `PartialEq`: numbers as floats compare, datetimes by the instant they denote. -/
def Value.eq : Value → Value → Bool
  | .null, .null => true
  | .bool a, .bool b => a == b
  | .int a, .int b => a == b
  | .float a, .float b => a.partialCmp b == some .eq
  | .string a, .string b => a == b
  | .date a, .date b => a == b
  | .dateTime a, .dateTime b => a.utc == b.utc
  | .sequence a, .sequence b => Value.eqAll a b
  | .mapping a, .mapping b => Value.eqEntries a b
  | _, _ => false

def Value.eqAll : List Value → List Value → Bool
  | [], [] => true
  | v :: rest, w :: others => Value.eq v w && Value.eqAll rest others
  | _, _ => false

def Value.eqEntries : List (Text × Value) → List (Text × Value) → Bool
  | [], [] => true
  | (k, v) :: rest, (l, w) :: others => k == l && Value.eq v w && Value.eqEntries rest others
  | _, _ => false
end

abbrev Frontmatter := Std.ExtTreeMap Text Value

structure Note where
  path : Text
  frontmatter : Frontmatter
  body : Text
  rawBytes : Bytes
  lastModified : Instant
  etag : Text
  size : Nat

/-- The three shapes of a YAML number. -/
inductive Number where
  | posInt (n : UInt64)
  | negInt (n : Int64)
  | float (f : F64)

inductive Yaml where
  | null
  | bool (b : Bool)
  | number (n : Number)
  | string (s : Text)
  | sequence (seq : List Yaml)
  | mapping (entries : List (Yaml × Yaml))
  | tagged (tag : Text) (value : Yaml)

structure External where
  parseYaml : Text → Except Text Yaml
  printYaml : Yaml → Text
  printYamlFloat : F64 → Text
  hashHex : Bytes → Text
  parseDate : Text → Option NaiveDate
  parseDateTime : Text → Option DateTime
  printDate : NaiveDate → Text
  printInstant : Instant → Text
  printFloat : F64 → Text
  debugValue : Value → Text
  compileRegex : Text → Except Text (Text → Bool)
  parseFloat : Text → Option F64
  /-- `slice::sort_by`, which panics with no result. -/
  sortBy : SortBy

/-- The same environment with another sort. -/
def External.sorting (ext : External) (sortBy : SortBy) : External := { ext with sortBy }

/-- An environment in which no text is YAML, a date, a float or a regular expression. -/
def External.bare : External where
  parseYaml _ := .error []
  printYaml _ := []
  printYamlFloat _ := []
  hashHex _ := []
  parseDate _ := none
  parseDateTime _ := none
  printDate _ := []
  printInstant _ := []
  printFloat _ := []
  debugValue _ := []
  compileRegex _ := .error []
  parseFloat _ := none
  sortBy := .merging

/-- `i64::to_string` and `u64::to_string`. -/
def intText (n : Int) : Text := (toString n).toList

def boolText (b : Bool) : Text := if b then "true".toList else "false".toList

namespace Number

def asI64 : Number → Option Int64
  | .posInt n => if n.toNat < 0x8000000000000000 then some (Int64.ofNat n.toNat) else none
  | .negInt n => some n
  | .float _ => none

def asF64 : Number → Option F64
  | .posInt n => some (F64.ofInt n.toNat)
  | .negInt n => some (F64.ofInt n.toInt)
  | .float f => some f

def text (ext : External) : Number → Text
  | .posInt n => intText n.toNat
  | .negInt n => intText n.toInt
  | .float f => ext.printYamlFloat f

end Number

section Coercion

variable (ext : External)

def coerceString (s : Text) : Value :=
  match ext.parseDate s with
  | some d => .date d
  | none =>
      match ext.parseDateTime s with
      | some dt => .dateTime dt
      | none => .string s

def coerceNumber (n : Number) : Value :=
  match n.asI64 with
  | some i => .int i
  | none =>
      match n.asF64 with
      | some f => .float f
      | none => .string (n.text ext)

def yamlScalarToString : Yaml → Text
  | .string s => s
  | .bool b => boolText b
  | .number n => n.text ext
  | .null => "null".toList
  | other => Text.trim (ext.printYaml other)

/-- Insert the pairs one after the other, so that the last of equal keys stays. -/
def collect (pairs : List (Text × Value)) : Frontmatter :=
  pairs.foldl (fun out pair => out.insert pair.1 pair.2) ∅

mutual
def coerce : Yaml → Value
  | .null => .null
  | .bool b => .bool b
  | .number n => coerceNumber ext n
  | .string s => coerceString ext s
  | .sequence seq => .sequence (coerceAll seq)
  | .mapping entries => .mapping (collect (coerceEntries entries)).toList
  | .tagged _ value => coerce value

def coerceAll : List Yaml → List Value
  | [] => []
  | v :: rest => coerce v :: coerceAll rest

def coerceEntries : List (Yaml × Yaml) → List (Text × Value)
  | [] => []
  | (k, v) :: rest => (yamlScalarToString ext k, coerce v) :: coerceEntries rest
end

inductive ScanWarningKind where
  | frontmatterNotMapping
  deriving DecidableEq, Repr

def parseFrontmatterAudit (yaml : Text) : Except Text (Frontmatter × Option ScanWarningKind) :=
  if Text.trim yaml = [] then .ok (∅, none)
  else
    match ext.parseYaml yaml with
    | .error message => .error message
    | .ok (.mapping entries) => .ok (collect (coerceEntries ext entries), none)
    | .ok _ => .ok (∅, some .frontmatterNotMapping)

end Coercion

/-! The JSON form of a value. -/

inductive Json where
  | null
  | bool (b : Bool)
  | int (i : Int64)
  | float (f : F64)
  | string (s : Text)
  | array (items : List Json)
  | object (entries : List (Text × Json))

section Projection

variable (ext : External)

mutual
def toJson : Value → Json
  | .null => .null
  | .bool b => .bool b
  | .int i => .int i
  | .float f => if f.magnitude < 0x7FF0000000000000 then .float f else .null
  | .string s => .string s
  | .date d => .string (ext.printDate d)
  | .dateTime dt => .string (ext.printInstant dt.utc)
  | .sequence seq => .array (toJsonAll seq)
  | .mapping entries => .object (toJsonEntries entries)

def toJsonAll : List Value → List Json
  | [] => []
  | v :: rest => toJson v :: toJsonAll rest

def toJsonEntries : List (Text × Value) → List (Text × Json)
  | [] => []
  | (k, v) :: rest => (k, toJson v) :: toJsonEntries rest
end

def frontmatterToJson (fm : Frontmatter) : Json := .object (toJsonEntries ext fm.toList)

end Projection

end Anwesen.Vault

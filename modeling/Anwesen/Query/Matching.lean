import Anwesen.Vault.Value

/-! Parsed queries and the notes they select. -/

set_option autoImplicit false

namespace Anwesen.Query

open Vault

/-- The operator suffix attached to a field predicate. -/
inductive Operator where
  | eq
  | in_
  | all
  | not
  | exists_
  | regex
  | prefix_
  | gt
  | gte
  | lt
  | lte
  deriving DecidableEq, Repr

structure Predicate where
  field : Text
  op : Operator
  value : Text
  deriving DecidableEq, Repr

/-- `__anw-order=<frontmatter-key>[:asc|:desc]`. -/
structure OrderSpec where
  key : Text
  desc : Bool
  deriving DecidableEq, Repr

structure ParsedQuery where
  predicates : List Predicate := []
  recursive : Bool := true
  pathPrefix : Option Text := none
  limit : Option Nat := none
  order : Option OrderSpec := none
  kindKey : Option Text := none
  deriving DecidableEq, Repr

/-- `str::parse::<i64>`: an optional sign, then digits, within range. -/
def parseI64 (s : Text) : Option Int64 :=
  let (negative, digits) :=
    match s with
    | '-' :: rest => (true, rest)
    | '+' :: rest => (false, rest)
    | _ => (false, s)
  if digits = [] ∨ ¬ digits.all Char.isDigit then none
  else
    let magnitude : Nat := digits.foldl (fun n digit => 10 * n + (digit.toNat - 48)) 0
    let n : Int := if negative then -(magnitude : Int) else magnitude
    if Int64.minValue.toInt ≤ n ∧ n ≤ Int64.maxValue.toInt then some (Int64.ofInt n) else none

def tryAsDate : Value → Option NaiveDate
  | .date d => some d
  | _ => none

def tryAsDatetime : Value → Option Instant
  | .dateTime dt => some dt.utc
  | _ => none

def tryAsInt : Value → Option Int64
  | .int i => some i
  | _ => none

def tryAsFloat : Value → Option F64
  | .float f => some f
  | .int i => some (F64.ofInt i.toInt)
  | _ => none

def tryAsString : Value → Option Text
  | .string s => some s
  | _ => none

/-- The value under the remaining keys, each in the mapping before it. -/
def descend : Value → List Text → Option Value
  | value, [] => some value
  | .mapping entries, part :: parts => (entries.lookup part).bind (descend · parts)
  | _, _ :: _ => none

/-- Traverse a dotted key path into the frontmatter tree. -/
def lookupDotted (fm : Frontmatter) (path : Text) : Option Value :=
  match path.splitOn '.' with
  | [] => none
  | head :: parts => fm[head]?.bind (descend · parts)

/-- A value at the end of a chain of mappings with one entry each. -/
def nested : List Text → Value → Value
  | [], value => value
  | part :: parts, value => .mapping [(part, nested parts value)]

theorem descend_nested (parts : List Text) (value : Value) :
    descend (nested parts value) parts = some value := by
  induction parts with
  | nil => rfl
  | cons part parts ih => simpa [nested, descend] using ih

/-- Every value stands under every dotted key of some frontmatter. -/
theorem exists_lookupDotted (path : Text) (value : Value) :
    ∃ fm, lookupDotted fm path = some value := by
  obtain ⟨head, parts, split⟩ := List.exists_cons_of_ne_nil (List.splitOn_ne_nil '.' path)
  refine ⟨(∅ : Frontmatter).insert head (nested parts value), ?_⟩
  simp [lookupDotted, split, descend_nested]

/-- A key without a dot is looked up as it stands. -/
theorem lookupDotted_insert {key : Text} (plain : '.' ∉ key) (fm : Frontmatter) (value : Value) :
    lookupDotted (fm.insert key value) key = some value := by
  rw [lookupDotted, List.splitOn_eq_singleton plain]
  simp [descend]

def commaList (s : Text) : List Text := (s.splitOn ',').map Text.trim

def pathMatches (path prefix_ : Text) (recursive : Bool) : Bool :=
  if prefix_ = [] then recursive || !path.contains '/'
  else
    -- The prefix itself names a note, or ends on a segment boundary of the path.
    let below := if path = prefix_ then some [] else Text.stripPrefix (prefix_ ++ ['/']) path
    match below with
    | none => false
    | some below => if recursive || below.isEmpty then true else !below.contains '/'

def ord (c : Ordering) : Operator → Bool
  | .gt => c == .gt
  | .gte => c != .lt
  | .lt => c == .lt
  | .lte => c != .gt
  | _ => false

section

variable (ext : External)

def matchesScalarEq (v : Value) (needle : Text) : Bool :=
  match v with
  | .null => needle = "null".toList
  | .bool b => needle = boolText b
  | .int i => needle = intText i.toInt
  | .float f => needle = ext.printFloat f
  | .string s => s = needle
  | .date d => ext.printDate d = needle
  | .dateTime dt => ext.printInstant dt.utc = needle
  | .sequence _ | .mapping _ => false

/-- Value as string for a scalar, containment for a list. -/
def matchesEq (v : Value) (needle : Text) : Bool :=
  match v with
  | .sequence seq => seq.any (matchesScalarEq ext · needle)
  | scalar => matchesScalarEq ext scalar needle

/-- Date, datetime, int, float and string in turn, stopping at the first that
parses both sides. -/
def orderedCompare (v : Value) (needle : Text) (op : Operator) : Bool :=
  match tryAsDate v, ext.parseDate needle with
  | some a, some b => ord (compare a.day b.day) op
  | _, _ =>
  match tryAsDatetime v, ext.parseDateTime needle with
  | some a, some b => ord (a.compare b.utc) op
  | _, _ =>
  match tryAsInt v, parseI64 needle with
  | some a, some b => ord (compare a.toInt b.toInt) op
  | _, _ =>
  match tryAsFloat v, ext.parseFloat needle with
  | some a, some b => ord ((a.partialCmp b).getD .eq) op
  | _, _ =>
  match tryAsString v with
  | some a => ord (compare a needle) op
  | none => false

def predicateMatch (p : Predicate) (fm : Frontmatter) : Bool :=
  let target := lookupDotted fm p.field
  match p.op with
  | .exists_ => target.isSome == (p.value == "true".toList)
  | .eq => target.any (matchesEq ext · p.value)
  | .not => target.all fun v => !matchesEq ext v p.value
  | .in_ => target.any fun v => (commaList p.value).any (matchesEq ext v)
  | .all =>
      match target with
      | some (.sequence seq) => (commaList p.value).all fun n => seq.any (matchesScalarEq ext · n)
      | _ => false
  | .regex =>
      match target, ext.compileRegex p.value with
      | some (.string s), .ok isMatch => isMatch s
      | _, _ => false
  | .prefix_ =>
      match target with
      | some (.string s) => p.value.isPrefixOf s
      | _ => false
  | .gt | .gte | .lt | .lte => target.any (orderedCompare ext · p.value p.op)

def predicatesMatch (predicates : List Predicate) (fm : Frontmatter) : Bool :=
  predicates.all (predicateMatch ext · fm)

end

end Anwesen.Query

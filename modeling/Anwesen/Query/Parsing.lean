import Anwesen.Foundation.Percent
import Anwesen.Query.Matching

/-! From a raw query string to a parsed query.

The string is split into pairs and each pair at its first equals sign before
anything is decoded; control parameters and operators are told apart after it.
-/

set_option autoImplicit false

namespace Anwesen.Query

open Foundation Vault

inductive QueryError where
  | unknownOperator (suffix : Text)
  | badValue (text : Text)
  | badControl (text : Text)
  deriving DecidableEq, Repr

/-- In a query string a plus sign stands for a blank. -/
def plusAsBlank (b : UInt8) : UInt8 := if b = 0x2B then 0x20 else b

/-- `percent_decode`, as the query reads it. -/
def percentDecode (input : Text) : Option Text :=
  (Percent.decode plusAsBlank input.utf8).bind Bytes.fromUtf8

/-- `str::parse::<bool>`. -/
def parseBool (s : Text) : Option Bool :=
  if s = "true".toList then some true else if s = "false".toList then some false else none

/-- `str::parse::<usize>`: digits with an optional plus sign, within 64 bits. -/
def parseUsize (s : Text) : Option Nat :=
  let digits := (Text.stripPrefix ['+'] s).getD s
  if digits = [] ∨ ¬ digits.all Char.isDigit then none
  else
    let n : Nat := digits.foldl (fun n digit => 10 * n + (digit.toNat - 48)) 0
    if n ≤ 0xFFFFFFFFFFFFFFFF then some n else none

def parseOrder (value : Text) : Except QueryError OrderSpec :=
  let (key, desc) :=
    match Text.stripSuffix ":desc".toList value with
    | some k => (k, true)
    | none =>
        match Text.stripSuffix ":asc".toList value with
        | some k => (k, false)
        | none => (value, false)
  if key = [] then .error (.badControl ("order=".toList ++ value)) else .ok ⟨key, desc⟩

def applyControl (q : ParsedQuery) (name value : Text) : Except QueryError ParsedQuery :=
  if name = "recursive".toList then
    match parseBool value with
    | some recursive => .ok { q with recursive }
    | none => .error (.badControl ("recursive=".toList ++ value))
  else if name = "path".toList then
    .ok { q with pathPrefix := some (value.dropWhile (· = '/')) }
  else if name = "limit".toList then
    match parseUsize value with
    | some n => .ok { q with limit := some n }
    | none => .error (.badControl ("limit=".toList ++ value))
  else if name = "order".toList then (parseOrder value).map fun spec => { q with order := some spec }
  else if name = "kind".toList then
    if value = [] then .error (.badControl "kind: empty key".toList)
    else .ok { q with kindKey := some value }
  else .error (.badControl name)

def underscores : Text := ['_', '_']

/-- The operator a suffix after two underscores names. -/
def operatorOf (suffix : Text) : Option Operator :=
  if suffix = "in".toList then some .in_
  else if suffix = "all".toList then some .all
  else if suffix = "not".toList then some .not
  else if suffix = "exists".toList then some .exists_
  else if suffix = "regex".toList then some .regex
  else if suffix = "prefix".toList then some .prefix_
  else if suffix = "gt".toList then some .gt
  else if suffix = "gte".toList then some .gte
  else if suffix = "lt".toList then some .lt
  else if suffix = "lte".toList then some .lte
  else none

def splitOperator (key : Text) : Except QueryError (Text × Operator) :=
  match Text.splitLast underscores key with
  | none => .ok (key, .eq)
  | some (field, suffix) =>
      match operatorOf suffix with
      | some op => .ok (field, op)
      | none => .error (.unknownOperator suffix)

def anw : Text := "__anw-".toList

section

variable (ext : External)

/-- The values that are checked when they are parsed. -/
def checkValue (key value : Text) : Operator → Except QueryError Unit
  | .regex =>
      match ext.compileRegex value with
      | .ok _ => .ok ()
      | .error e => .error (.badValue (key ++ ": invalid regex: ".toList ++ e))
  | .exists_ =>
      match parseBool value with
      | some _ => .ok ()
      | none => .error (.badValue (key ++ '=' :: value))
  | _ => .ok ()

/-- One turn of the loop over the pairs. -/
def parsePair (q : ParsedQuery) (pair : Text) : Except QueryError ParsedQuery :=
  if pair = [] then .ok q
  else
    let (k, v) := (Text.splitOnce '=' pair).getD (pair, [])
    match percentDecode k with
    | none => .error (.badValue k)
    | some key =>
        match percentDecode v with
        | none => .error (.badValue v)
        | some value =>
            match Text.stripPrefix anw key with
            | some name => applyControl q name value
            | none =>
                match splitOperator key with
                | .error e => .error e
                | .ok (field, op) =>
                    (checkValue ext key value op).map fun _ =>
                      { q with predicates := q.predicates ++ [⟨field, op, value⟩] }

def parse (raw : Text) : Except QueryError ParsedQuery :=
  if raw = [] then .ok {} else (raw.splitOn '&').foldlM (parsePair ext) {}

/-- A note is among the results of a query string. -/
def Selects (raw : Text) (note : Note) : Prop :=
  ∃ q, parse ext raw = .ok q ∧ pathMatches note.path (q.pathPrefix.getD []) q.recursive = true ∧
    predicatesMatch ext q.predicates note.frontmatter = true

end

/-! Writing predicates down. -/

/-- What follows the field in the key of a pair. -/
def Operator.suffix : Operator → Text
  | .eq => []
  | .in_ => "__in".toList
  | .all => "__all".toList
  | .not => "__not".toList
  | .exists_ => "__exists".toList
  | .regex => "__regex".toList
  | .prefix_ => "__prefix".toList
  | .gt => "__gt".toList
  | .gte => "__gte".toList
  | .lt => "__lt".toList
  | .lte => "__lte".toList

def Predicate.key (p : Predicate) : Text := p.field ++ p.op.suffix

/-- The bytes a query string may hold unescaped; a plus sign is then a blank. -/
def queryByte (b : UInt8) : Prop := b < 0x80 ∧ b ≠ 0x26 ∧ b ≠ 0x3D

instance : DecidablePred queryByte := fun _ => inferInstanceAs (Decidable (_ ∧ _ ∧ _))

/-- The encoded forms of a text within a query string. -/
def Encoded (text raw : Text) : Prop := Percent.Encodes plusAsBlank queryByte text.utf8 raw.utf8

/-- The pairs that write a predicate down. -/
def Written (p : Predicate) (pair : Text) : Prop :=
  ∃ k v, pair = k ++ '=' :: v ∧ Encoded p.key k ∧ Encoded p.value v

/-- The predicates the query language has a notation for. -/
structure Writable (ext : External) (p : Predicate) : Prop where
  outside : ¬ anw <+: p.key
  bare : p.op = .eq → ¬ underscores <:+: p.field
  presence : p.op = .exists_ → p.value = "true".toList ∨ p.value = "false".toList
  compiles : p.op = .regex → (ext.compileRegex p.value).isOk = true

section

variable {ext : External} {text raw : Text}

theorem percentDecode_encoded (encoded : Encoded text raw) : percentDecode raw = some text := by
  rw [percentDecode, Percent.decode_of_encodes encoded]
  exact Bytes.fromUtf8_utf8 text

theorem encoded_of_escape (same : raw.utf8 = text.utf8.flatMap Percent.escape) : Encoded text raw := by
  rw [Encoded, same]
  exact Percent.encodes_escape _

theorem exists_escape (text : Text) : ∃ raw : Text, raw.utf8 = text.utf8.flatMap Percent.escape := by
  apply Text.exists_utf8_of_ascii
  intro b member
  obtain ⟨_, _, inside⟩ := List.mem_flatMap.mp member
  exact Percent.escape_ascii inside

theorem exists_encoded (text : Text) : ∃ raw, Encoded text raw := by
  obtain ⟨raw, same⟩ := exists_escape text
  exact ⟨raw, encoded_of_escape same⟩

theorem exists_written (p : Predicate) : ∃ pair, Written p pair := by
  obtain ⟨k, key⟩ := exists_encoded p.key
  obtain ⟨v, value⟩ := exists_encoded p.value
  exact ⟨_, k, v, rfl, key, value⟩

/-- A character that has to be escaped does not show in an encoded text. -/
theorem encoded_not_mem (encoded : Encoded text raw) {sep : Char} (ascii : sep.toNat < 128)
    (escaped : ¬ queryByte (UInt8.ofNat sep.toNat)) (notSign : UInt8.ofNat sep.toNat ≠ Percent.sign)
    (noDigit : Percent.hexValue (UInt8.ofNat sep.toNat) = none) : sep ∉ raw := by
  intro member
  rcases Percent.Encodes.mem_raw encoded ((Text.mem_utf8_ascii ascii).mpr member) with
    allowed | sign | digit
  · exact escaped allowed
  · exact notSign sign
  · rw [noDigit] at digit
    cases digit

theorem encoded_clean (encoded : Encoded text raw) : '&' ∉ raw ∧ '=' ∉ raw :=
  ⟨encoded_not_mem encoded (by decide) (by decide) (by decide) (by decide),
    encoded_not_mem encoded (by decide) (by decide) (by decide) (by decide)⟩

/-- The operator is found again after any field. -/
theorem splitOperator_suffix (field : Text) {op : Operator}
    (bare : op = .eq → ¬ underscores <:+: field) :
    splitOperator (field ++ op.suffix) = .ok (field, op) := by
  by_cases plain : op = .eq
  · subst plain
    have nonempty : underscores ≠ [] := List.cons_ne_nil _ _
    have missing := (Text.splitLast_eq_none nonempty).mpr (bare rfl)
    have alone : field ++ Operator.eq.suffix = field := List.append_nil field
    simp only [alone, splitOperator, missing]
  · have found : op ≠ .eq → Text.splitLast underscores op.suffix = some ([], op.suffix.drop 2) ∧
        operatorOf (op.suffix.drop 2) = some op := by
      cases op <;> decide +kernel
    obtain ⟨last, known⟩ := found plain
    simp only [splitOperator, Text.splitLast_append last, List.append_nil, known]

theorem checkValue_writable {p : Predicate} (writable : Writable ext p) (key : Text) :
    checkValue ext key p.value p.op = .ok () := by
  cases op : p.op <;> try rfl
  case exists_ =>
    rcases writable.presence op with value | value <;> rw [value] <;> rfl
  case regex =>
    have compiles := writable.compiles op
    simp only [checkValue]
    cases compiled : ext.compileRegex p.value with
    | ok isMatch => rfl
    | error e =>
      rw [compiled] at compiles
      cases compiles

/-- A pair that writes a predicate down adds it to the query. -/
theorem parsePair_written {p : Predicate} (writable : Writable ext p) {pair : Text}
    (written : Written p pair) (q : ParsedQuery) :
    parsePair ext q pair = .ok { q with predicates := q.predicates ++ [p] } := by
  obtain ⟨k, v, rfl, key, value⟩ := written
  have nonempty : k ++ '=' :: v ≠ [] := by simp
  have outside := Text.stripPrefix_eq_none.mpr writable.outside
  rw [Predicate.key] at key outside
  simp only [parsePair, nonempty, if_false, Text.splitOnce_append (encoded_clean key).2,
    Option.getD_some, percentDecode_encoded key, percentDecode_encoded value, outside,
    splitOperator_suffix p.field writable.bare, checkValue_writable writable]
  rfl

/-- The loop over the pairs, some of which may be empty. -/
theorem foldlM_written {predicates : List Predicate} {pairs : List Text}
    (writable : ∀ p ∈ predicates, Writable ext p)
    (written : List.Forall₂ Written predicates (pairs.filter (· ≠ []))) (q : ParsedQuery) :
    pairs.foldlM (parsePair ext) q = .ok { q with predicates := q.predicates ++ predicates } := by
  induction pairs generalizing predicates q with
  | nil =>
    cases written
    simp [pure, Except.pure]
  | cons pair pairs ih =>
    rw [List.foldlM_cons]
    by_cases empty : pair = []
    · subst empty
      exact ih writable (by simpa using written) q
    · rw [List.filter_cons_of_pos (by simpa using empty)] at written
      cases written with
      | cons first rest =>
        rename_i p predicates
        rw [parsePair_written (writable p List.mem_cons_self) first]
        have folded := ih (fun other member => writable other (List.mem_cons_of_mem _ member)) rest
          { q with predicates := q.predicates ++ [p] }
        rw [List.append_assoc] at folded
        exact folded

theorem written_clean {p : Predicate} {pair : Text} (written : Written p pair) : '&' ∉ pair := by
  obtain ⟨k, v, rfl, key, value⟩ := written
  simp [(encoded_clean key).1, (encoded_clean value).1]

theorem parse_pair {pair : Text} (clean : '&' ∉ pair) : parse ext pair = parsePair ext {} pair := by
  by_cases empty : pair = []
  · subst empty
    rfl
  · rw [parse, if_neg empty, List.splitOn_eq_singleton clean, List.foldlM_cons]
    cases parsePair ext {} pair <;> rfl

/-- A pair that writes a predicate down selects what the predicate matches. -/
theorem selects_written {p : Predicate} (writable : Writable ext p) {pair : Text}
    (written : Written p pair) (note : Note) :
    Selects ext pair note ↔ predicateMatch ext p note.frontmatter = true := by
  rw [Selects, parse_pair (written_clean written), parsePair_written writable written]
  simp [pathMatches, predicatesMatch]

theorem pairs_clean {predicates : List Predicate} {pairs : List Text}
    (written : List.Forall₂ Written predicates pairs) : ∀ pair ∈ pairs, '&' ∉ pair := by
  induction written with
  | nil => simp
  | cons first _ ih => simpa [written_clean first] using ih

/-- Parsing inverts every way of writing predicates down. -/
theorem parse_written {predicates : List Predicate} {pairs : List Text}
    (writable : ∀ p ∈ predicates, Writable ext p)
    (written : List.Forall₂ Written predicates (pairs.filter (· ≠ []))) :
    parse ext (['&'].intercalate pairs) = .ok { predicates := predicates } := by
  have clean : ∀ pair ∈ pairs, '&' ∉ pair := by
    intro pair member
    by_cases empty : pair = []
    · simp [empty]
    · exact pairs_clean written pair (by simp [member, empty])
  have folded := foldlM_written writable written {}
  rw [List.nil_append] at folded
  by_cases none_ : pairs = []
  · subst none_
    exact folded
  · have split := List.splitOn_intercalate '&' clean none_
    rw [parse, split, folded]
    -- without a character there is no pair with one
    split
    · rename_i empty
      rw [empty, List.splitOn_nil] at split
      subst split
      cases written
      rfl
    · rfl

theorem parse_written_inList :
    parse External.bare "&%61%5F%5F%69%6E=%78%26%C3%BC".toList =
      .ok { predicates := [⟨"a".toList, .in_, "x&ü".toList⟩] } := by
  let p : Predicate := ⟨"a".toList, .in_, "x&ü".toList⟩
  let pair : Text := "%61%5F%5F%69%6E".toList ++ '=' :: "%78%26%C3%BC".toList
  have written : Written p pair :=
    ⟨_, _, rfl, encoded_of_escape (by decide +kernel), encoded_of_escape (by decide +kernel)⟩
  have writable : ∀ other ∈ [p], Writable External.bare other := by
    intro other member
    obtain rfl := List.mem_singleton.mp member
    exact ⟨by decide +kernel, nofun, nofun, nofun⟩
  have listed : List.Forall₂ Written [p] ([[], pair].filter (· ≠ [])) := .cons written .nil
  have joined : "&%61%5F%5F%69%6E=%78%26%C3%BC".toList = ['&'].intercalate [[], pair] := by
    decide +kernel
  rw [joined]
  exact parse_written writable listed

end

end Anwesen.Query

import Anwesen.Foundation.Segments
import Anwesen.Text

/-! Names, raw paths, and the vault-relative text a path is indexed under.

A location is a list of names from `/`. A raw path is what the program holds,
the segments of an absolute path string, which may reach a location through
empty and dot segments.
-/

set_option autoImplicit false

namespace Anwesen.Vault

open Foundation

def slash : UInt8 := 47
def dot : UInt8 := 46

/-- A directory entry's name, as Linux admits it. -/
structure FileName where
  bytes : Bytes
  valid : bytes ≠ [] ∧ bytes ≠ [dot] ∧ bytes ≠ [dot, dot] ∧ slash ∉ bytes ∧ 0 ∉ bytes
  deriving DecidableEq

abbrev Location := List FileName
abbrev PathBuf := List Bytes

def FileName.parse (segment : Bytes) : Option FileName :=
  if valid : segment ≠ [] ∧ segment ≠ [dot] ∧ segment ≠ [dot, dot] ∧ slash ∉ segment ∧ 0 ∉ segment then
    some ⟨segment, valid⟩
  else none

@[simp] theorem FileName.parse_bytes (name : FileName) : FileName.parse name.bytes = some name := by
  rw [FileName.parse, dif_pos name.valid]

def Location.raw (location : Location) : PathBuf := location.map FileName.bytes

namespace PathBuf

def trivial (segment : Bytes) : Bool := segment = [] || segment = [dot]

/-- `Path::components`. -/
def components (path : PathBuf) : List Bytes := path.filter fun segment => !trivial segment

def push (base : PathBuf) (rest : PathBuf) : PathBuf :=
  (if base.getLast? = some [] then base.dropLast else base) ++ rest

/-- `Path::join`: an absolute right side replaces the left one. -/
def join (base : PathBuf) (rel : Text) : PathBuf :=
  match rel with
  | '/' :: rest => (Text.utf8 rest).splitOn slash
  | _ => base.push ((Text.utf8 rel).splitOn slash)

/-- `Path::strip_prefix`: the rest keeps its inner segments as they are written. -/
def stripPrefix : List Bytes → PathBuf → Option PathBuf
  | [], path => some ((path.dropWhile trivial).reverse.dropWhile trivial).reverse
  | _ :: _, [] => none
  | name :: base, segment :: path =>
      if trivial segment then stripPrefix (name :: base) path
      else if segment = name then stripPrefix base path else none

/-- `Path::to_str` of a relative path. -/
def toStr (path : PathBuf) : Option Text := Bytes.fromUtf8 ([slash].intercalate path)

/-- `Path::extension`: what follows the last dot, unless nothing stands before it. -/
def extension (path : PathBuf) : Option Bytes :=
  match path.components.getLast? with
  | none => none
  | some name =>
      if name = [dot, dot] then none
      else
        let parts := name.reverse.span (· != dot)
        match parts.2 with
        | [] => none
        | _ :: stem => if stem = [] then none else some parts.1.reverse

end PathBuf

def isMarkdown (path : PathBuf) : Bool := path.extension = some (Text.utf8 "md".toList)

/-- `is_dot_prefixed`: a name that is not UTF-8 is not dot-prefixed. -/
def isDotPrefixed (name : Bytes) : Bool :=
  match Bytes.fromUtf8 name with
  | some (char :: _) => char = '.'
  | _ => false

/-- `str::replace('\\', "/")`. -/
def forwardSlashes (text : Text) : Text := text.map fun char => if char = '\\' then '/' else char

/-! Components of raw paths. -/

namespace PathBuf

theorem components_cons {segment : Bytes} {rest : PathBuf} (solid : trivial segment = false) :
    components (segment :: rest) = segment :: rest.components :=
  List.filter_cons_of_pos (by simp [solid])

theorem components_append (first rest : PathBuf) :
    components (first ++ rest) = first.components ++ rest.components :=
  List.filter_append _ _

theorem components_push (base rest : PathBuf) :
    (base.push rest).components = base.components ++ rest.components := by
  rw [push, components_append]
  split
  · rename_i open_
    obtain ⟨front, rfl⟩ := List.getLast?_eq_some_iff.mp open_
    simp [components, trivial]
  · rfl

/-- A path whose components begin with a segment. -/
theorem exists_of_components {base : PathBuf} {segment : Bytes} {parts : List Bytes}
    (same : base.components = segment :: parts) :
    ∃ lead tail : PathBuf, base = lead ++ segment :: tail ∧
      (∀ segment ∈ lead, trivial segment = true) ∧ tail.components = parts := by
  obtain ⟨lead, tail, rfl, skipped, -, rest⟩ := List.filter_eq_cons_iff.mp same
  exact ⟨lead, tail, rfl, fun segment member => by simpa using skipped segment member, rest⟩

theorem components_dropWhile (path : PathBuf) : components (path.dropWhile trivial) = path.components := by
  induction path with
  | nil => rfl
  | cons segment rest ih =>
    cases skip : trivial segment with
    | true => rw [List.dropWhile_cons_of_pos skip, ih, components, components, List.filter_cons_of_neg
        (by simp [skip])]
    | false => rw [List.dropWhile_cons_of_neg (by simp [skip])]

/-- Stripping splits the path after the components of the base. -/
theorem exists_of_stripPrefix {base : List Bytes} {path rel : PathBuf}
    (solid : ∀ segment ∈ base, trivial segment = false) (stripped : stripPrefix base path = some rel) :
    ∃ lead tail : PathBuf, path = lead ++ tail ∧ lead.components = base ∧
      rel.components = tail.components ∧ rel.Sublist tail := by
  induction path generalizing base with
  | nil =>
    cases base with
    | nil =>
      obtain rfl : [] = rel := by simpa [stripPrefix] using stripped
      exact ⟨[], [], rfl, rfl, rfl, List.Sublist.refl _⟩
    | cons name base => cases stripped
  | cons segment path ih =>
    cases base with
    | nil =>
      obtain rfl := Option.some.inj stripped
      refine ⟨[], segment :: path, rfl, rfl, ?_, ?_⟩
      · rw [components, List.filter_reverse, ← components, components_dropWhile, components,
          List.filter_reverse, List.reverse_reverse, ← components, components_dropWhile]
      · have inner := (List.dropWhile_sublist (p := trivial)
          (l := ((segment :: path).dropWhile trivial).reverse)).reverse
        rw [List.reverse_reverse] at inner
        exact inner.trans (List.dropWhile_sublist _)
    | cons name base =>
      rw [stripPrefix] at stripped
      cases skip : trivial segment with
      | true =>
        rw [if_pos skip] at stripped
        obtain ⟨lead, tail, rfl, same, rest⟩ := ih solid stripped
        exact ⟨segment :: lead, tail, rfl, (List.filter_cons_of_neg (by simp [skip])).trans same, rest⟩
      | false =>
        rw [if_neg (by simp [skip])] at stripped
        split at stripped
        · rename_i equal
          subst equal
          obtain ⟨lead, tail, rfl, same, rest⟩ :=
            ih (fun other member => solid other (List.mem_cons_of_mem _ member)) stripped
          exact ⟨segment :: lead, tail, rfl, by rw [components_cons skip, same], rest⟩
        · cases stripped

theorem solid_components (path : PathBuf) : ∀ segment ∈ path.components, trivial segment = false :=
  fun _ member => by simpa using (List.mem_filter.mp member).2

/-- A printed path has its names in UTF-8. -/
theorem utf8_of_toStr {path : PathBuf} {text : Text} (printed : path.toStr = some text)
    {segment : Bytes} (member : segment ∈ path) (clean : slash ∉ segment) :
    ∃ part, segment = Text.utf8 part := by
  have listed := mem_splitOn_intercalate member clean
  rw [Bytes.fromUtf8_eq_some.mp printed, show slash = UInt8.ofNat '/'.toNat from rfl,
    Text.utf8_splitOn (by decide)] at listed
  obtain ⟨part, -, same⟩ := List.mem_map.mp listed
  exact ⟨part, same.symm⟩

end PathBuf

/-! Raw paths of locations. -/

theorem FileName.not_trivial (name : FileName) : PathBuf.trivial name.bytes = false := by
  simp [PathBuf.trivial, name.valid.1, name.valid.2.1]

namespace Location

@[simp] theorem raw_nil : Location.raw [] = [] := rfl

@[simp] theorem raw_cons (name : FileName) (rest : Location) :
    Location.raw (name :: rest) = name.bytes :: Location.raw rest := rfl

@[simp] theorem raw_append (first rest : Location) :
    Location.raw (first ++ rest) = Location.raw first ++ Location.raw rest := by
  simp [Location.raw]

theorem not_trivial {location : Location} {segment : Bytes} (member : segment ∈ location.raw) :
    PathBuf.trivial segment = false := by
  obtain ⟨name, _, rfl⟩ := List.mem_map.mp member
  exact name.not_trivial

theorem bytes_injective : Function.Injective FileName.bytes :=
  fun a b bytes => by cases a; cases b; simp_all

theorem raw_injective {first second : Location} (same : first.raw = second.raw) : first = second :=
  List.map_injective_iff.mpr bytes_injective same

theorem raw_prefix_iff {outer inner : Location} : outer.raw <+: inner.raw ↔ outer <+: inner :=
  List.prefix_map_iff_of_injective bytes_injective

@[simp] theorem components_raw (location : Location) :
    PathBuf.components location.raw = location.raw :=
  List.filter_eq_self.mpr fun _ member => by simp [not_trivial member]

theorem push_raw (base rest : Location) :
    PathBuf.push base.raw rest.raw = Location.raw (base ++ rest) := by
  rw [PathBuf.push, if_neg, raw_append]
  intro last
  have trivial := not_trivial (List.mem_of_getLast? last)
  simp [PathBuf.trivial] at trivial

theorem dropWhile_trivial (path : PathBuf) (clean : ∀ segment ∈ path, PathBuf.trivial segment = false) :
    path.dropWhile PathBuf.trivial = path := by
  cases path with
  | nil => rfl
  | cons segment rest =>
    rw [List.dropWhile_cons_of_neg (by simp [clean segment List.mem_cons_self])]

/-- Stripping the root off a location below it leaves the rest of its names. -/
theorem stripPrefix_raw (base location : Location) :
    PathBuf.stripPrefix base.raw location.raw =
      if base <+: location then some (Location.raw (location.drop base.length)) else none := by
  induction base generalizing location with
  | nil =>
    have forward := dropWhile_trivial location.raw fun _ => not_trivial
    have backward := dropWhile_trivial location.raw.reverse
      fun _ member => not_trivial (List.mem_reverse.mp member)
    simp [PathBuf.stripPrefix, forward, backward]
  | cons name base ih =>
    cases location with
    | nil => simp [PathBuf.stripPrefix]
    | cons other location =>
      simp only [raw_cons, PathBuf.stripPrefix, other.not_trivial, Bool.false_eq_true, if_false, ih]
      by_cases same : other = name
      · simp [same]
      · have different : other.bytes ≠ name.bytes := fun bytes => same (bytes_injective bytes)
        simp [different, Ne.symm same]

theorem stripPrefix_append (base location : Location) :
    PathBuf.stripPrefix base.raw (Location.raw (base ++ location)) = some location.raw := by
  rw [stripPrefix_raw, if_pos (List.prefix_append base location), List.drop_left]

end Location

/-! Plain names, and the text a location below the root is indexed under. -/

/-- A name in UTF-8 without a backslash. -/
def FileName.Plain (name : FileName) : Prop := ∃ text, name.bytes = Text.utf8 text ∧ '\\' ∉ text

theorem FileName.plain_iff (name : FileName) :
    name.Plain ↔ (Bytes.fromUtf8 name.bytes).any (fun text => '\\' ∉ text) = true := by
  constructor
  · rintro ⟨text, bytes, plain⟩
    simpa [bytes] using plain
  · intro decoded
    obtain ⟨text, found, plain⟩ := (Option.any_eq_true _ _).mp decoded
    exact ⟨text, Bytes.fromUtf8_eq_some.mp found, by simpa using plain⟩

instance (name : FileName) : Decidable name.Plain :=
  decidable_of_iff' _ name.plain_iff

/-- What the texts of a plain location's names are like. -/
structure NameTexts (location : Location) (texts : List Text) : Prop where
  raw : location.raw = texts.map Text.utf8
  separable : Separable '/' texts
  nonempty : ∀ text ∈ texts, text ≠ []
  plain : ∀ text ∈ texts, '\\' ∉ text

namespace Location

def Plain (location : Location) : Prop := ∀ name ∈ location, name.Plain

instance (location : Location) : Decidable (Location.Plain location) :=
  inferInstanceAs (Decidable (∀ name ∈ location, name.Plain))

/-- The vault-relative text of a location, with forward slashes. -/
def key (location : Location) : Text :=
  ((PathBuf.toStr location.raw).map forwardSlashes).getD []

theorem Plain.texts {location : Location} (plain : location.Plain) :
    ∃ texts, NameTexts location texts := by
  induction location with
  | nil => exact ⟨[], rfl, by simp [Separable], by simp, by simp⟩
  | cons name location ih =>
    obtain ⟨texts, rest⟩ := ih fun other member => plain other (List.mem_cons_of_mem _ member)
    obtain ⟨text, bytes, clean⟩ := plain name List.mem_cons_self
    have noSlash : '/' ∉ text := fun member =>
      name.valid.2.2.2.1 (bytes ▸
        (Text.mem_utf8_ascii (by decide) : UInt8.ofNat '/'.toNat ∈ Text.utf8 text ↔ '/' ∈ text).mpr member)
    have nonempty : text ≠ [] := by
      rintro rfl
      exact name.valid.1 bytes
    refine ⟨text :: texts, by simp [bytes, rest.raw], ?_, ?_, ?_⟩
    · exact List.forall_mem_cons.mpr ⟨noSlash, rest.separable⟩
    · exact List.forall_mem_cons.mpr ⟨nonempty, rest.nonempty⟩
    · exact List.forall_mem_cons.mpr ⟨clean, rest.plain⟩

end Location

theorem utf8_intercalate (texts : List Text) :
    Text.utf8 (['/'].intercalate texts) = [slash].intercalate (texts.map Text.utf8) := by
  induction texts with
  | nil => rfl
  | cons text rest ih =>
    cases rest with
    | nil => simp
    | cons next rest =>
      rw [List.intercalate_cons_cons, Text.utf8_append, ih]
      simp [List.intercalate_cons_cons, Text.utf8_cons, slash,
        show String.utf8EncodeChar '/' = [47] from rfl]

theorem forwardSlashes_of_plain {text : Text} (plain : '\\' ∉ text) : forwardSlashes text = text := by
  refine (List.map_congr_left fun char member => if_neg ?_).trans (List.map_id _)
  rintro rfl
  exact plain member

theorem not_mem_intercalate {char : Char} {texts : List Text} (different : char ≠ '/')
    (clean : ∀ text ∈ texts, char ∉ text) : char ∉ ['/'].intercalate texts := by
  induction texts with
  | nil => simp
  | cons text rest ih =>
    have others := ih fun other member => clean other (List.mem_cons_of_mem _ member)
    cases rest with
    | nil => simpa using clean text List.mem_cons_self
    | cons next rest =>
      rw [List.intercalate_cons_cons]
      simp [different, clean text List.mem_cons_self, others]

namespace NameTexts

variable {location : Location} {texts : List Text}

theorem toStr (names : NameTexts location texts) :
    PathBuf.toStr location.raw = some (['/'].intercalate texts) := by
  rw [PathBuf.toStr, names.raw, ← utf8_intercalate, Bytes.fromUtf8_utf8]

theorem key (names : NameTexts location texts) : location.key = ['/'].intercalate texts := by
  rw [Location.key, names.toStr, Option.map_some, Option.getD_some,
    forwardSlashes_of_plain (not_mem_intercalate (by decide) names.plain)]

theorem nil_iff (names : NameTexts location texts) : texts = [] ↔ location = [] := by
  have same := names.raw
  constructor
  · rintro rfl
    simpa [Location.raw] using same
  · rintro rfl
    simpa using same.symm

/-- The first and the last character belong to a name. -/
theorem key_ends (names : NameTexts location texts) (below : location ≠ []) :
    (∃ first rest, location.key = first :: rest ∧ first ≠ '/') ∧
      ∃ start last, location.key = start ++ [last] ∧ last ≠ '/' := by
  rw [names.key]
  have nonempty : texts ≠ [] := fun empty => below (names.nil_iff.mp empty)
  constructor
  · obtain ⟨head, tail, rfl⟩ := List.exists_cons_of_ne_nil nonempty
    obtain ⟨first, rest, rfl⟩ := List.exists_cons_of_ne_nil (names.nonempty head List.mem_cons_self)
    have notSlash : first ≠ '/' := fun same =>
      names.separable _ List.mem_cons_self (by simp [same])
    cases tail with
    | nil => exact ⟨first, rest, by simp, notSlash⟩
    | cons next tail => exact ⟨first, _, by rw [List.intercalate_cons_cons]; rfl, notSlash⟩
  · obtain ⟨init, lastText, rfl⟩ := List.eq_nil_or_concat' texts |>.resolve_left nonempty
    have member : lastText ∈ init ++ [lastText] := by simp
    obtain ⟨start, last, rfl⟩ := List.eq_nil_or_concat' lastText |>.resolve_left
      (names.nonempty _ member)
    have notSlash : last ≠ '/' := fun same => names.separable _ member (by simp [same])
    by_cases single : init = []
    · subst single
      exact ⟨start, last, by simp, notSlash⟩
    · rw [intercalate_append single (by simp), List.intercalate_singleton, ← List.cons_append,
        ← List.append_assoc]
      exact ⟨_, last, rfl, notSlash⟩

theorem splitOn_key (names : NameTexts location texts) (below : location ≠ []) :
    (Text.utf8 location.key).splitOn slash = location.raw := by
  have nonempty : texts ≠ [] := fun empty => below (names.nil_iff.mp empty)
  rw [names.raw, names.key, show slash = UInt8.ofNat '/'.toNat from rfl,
    Text.utf8_splitOn (by decide), List.splitOn_intercalate '/' names.separable nonempty]

end NameTexts

namespace Location

variable {root outer inner : Location}

theorem key_eq_nil_iff (plain : inner.Plain) : inner.key = [] ↔ inner = [] := by
  constructor
  · intro empty
    by_contra below
    obtain ⟨texts, names⟩ := plain.texts
    obtain ⟨⟨first, rest, same, _⟩, _⟩ := names.key_ends below
    rw [empty] at same
    cases same
  · rintro rfl
    rfl

theorem key_injective (left : outer.Plain) (right : inner.Plain) (same : outer.key = inner.key) :
    outer = inner := by
  by_cases empty : outer = []
  · subst empty
    exact ((key_eq_nil_iff right).mp same.symm).symm
  · have nonempty : inner ≠ [] := fun innerEmpty => empty <|
      (key_eq_nil_iff left).mp (same.trans ((key_eq_nil_iff right).mpr innerEmpty))
    obtain ⟨outerTexts, outerNames⟩ := left.texts
    obtain ⟨innerTexts, innerNames⟩ := right.texts
    rw [outerNames.key, innerNames.key] at same
    have texts := intercalate_injective outerNames.separable innerNames.separable
      (fun none => empty (outerNames.nil_iff.mp none))
      (fun none => nonempty (innerNames.nil_iff.mp none)) same
    exact raw_injective (by rw [outerNames.raw, innerNames.raw, texts])

/-- The text of a directory and a slash begins the texts of what lies below it. -/
theorem key_prefix_iff (left : outer.Plain) (right : inner.Plain) (outerBelow : outer ≠ [])
    (innerBelow : inner ≠ []) :
    outer.key ++ ['/'] <+: inner.key ↔ outer <+: inner ∧ outer ≠ inner := by
  obtain ⟨outerTexts, outerNames⟩ := left.texts
  obtain ⟨innerTexts, innerNames⟩ := right.texts
  rw [outerNames.key, innerNames.key, intercalate_prefix_iff outerNames.separable
    innerNames.separable (fun none => outerBelow (outerNames.nil_iff.mp none))
    (fun none => innerBelow (innerNames.nil_iff.mp none))]
  have injective : Function.Injective Text.utf8 := fun _ _ => Text.utf8_injective
  have above : outerTexts <+: innerTexts ↔ outer <+: inner := by
    rw [← List.prefix_map_iff_of_injective injective, ← outerNames.raw, ← innerNames.raw]
    exact raw_prefix_iff
  have same : outerTexts = innerTexts ↔ outer = inner := by
    constructor
    · exact fun texts => raw_injective (by rw [outerNames.raw, innerNames.raw, texts])
    · rintro rfl
      exact List.map_injective_iff.mpr injective (outerNames.raw.symm.trans innerNames.raw)
  rw [above, Ne, same]

/-- Joining the text back to the root gives the path of the location. -/
theorem join_key (plain : inner.Plain) (below : inner ≠ []) :
    PathBuf.join root.raw inner.key = Location.raw (root ++ inner) := by
  obtain ⟨texts, names⟩ := plain.texts
  obtain ⟨⟨first, rest, same, notSlash⟩, _⟩ := names.key_ends below
  rw [PathBuf.join.eq_def]
  split
  · rename_i absolute
    rw [same] at absolute
    exact absurd (List.cons.inj absolute).1 notSlash
  · rw [names.splitOn_key below, push_raw]

end Location

/-- A path text in UTF-8 has its names in UTF-8. -/
theorem utf8_of_toStr {location : Location} {text : Text}
    (printed : PathBuf.toStr location.raw = some text) {name : FileName} (member : name ∈ location) :
    ∃ part, name.bytes = Text.utf8 part :=
  PathBuf.utf8_of_toStr printed (List.mem_map_of_mem member) name.valid.2.2.2.1

/-- And conversely: names in UTF-8 print. -/
theorem toStr_isSome {location : Location}
    (names : ∀ name ∈ location, ∃ part, name.bytes = Text.utf8 part) :
    ∃ text, PathBuf.toStr location.raw = some text := by
  have parts : ∃ texts : List Text, location.raw = texts.map Text.utf8 := by
    induction location with
    | nil => exact ⟨[], rfl⟩
    | cons name location ih =>
      obtain ⟨texts, rest⟩ := ih fun other member => names other (List.mem_cons_of_mem _ member)
      obtain ⟨text, bytes⟩ := names name List.mem_cons_self
      exact ⟨text :: texts, by simp [bytes, rest]⟩
  obtain ⟨texts, raw⟩ := parts
  exact ⟨['/'].intercalate texts, by rw [PathBuf.toStr, raw, ← utf8_intercalate, Bytes.fromUtf8_utf8]⟩

theorem toStr_nonempty {location : Location} {text : Text} (below : location ≠ [])
    (printed : PathBuf.toStr location.raw = some text) : text ≠ [] := by
  rintro rfl
  obtain ⟨name, rest, rfl⟩ := List.exists_cons_of_ne_nil below
  have bytes := Bytes.fromUtf8_eq_some.mp printed
  refine name.valid.1 ?_
  cases rest with
  | nil => simpa using bytes
  | cons next rest =>
    simp [List.intercalate_cons_cons] at bytes

end Anwesen.Vault

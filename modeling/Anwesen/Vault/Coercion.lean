import Anwesen.Foundation.Grouping
import Anwesen.Vault.Numerals

/-! What becomes of the entries of a YAML mapping.

Keys are turned into text before they are inserted, so that two keys of a
mapping are one when they print alike.
-/

set_option autoImplicit false

namespace Anwesen.Vault

open Foundation

mutual
/-- The mappings of a YAML value at all levels. -/
def levels : Yaml → List (List (Yaml × Yaml))
  | .sequence seq => levelsAll seq
  | .mapping entries => entries :: levelsEntries entries
  | .tagged _ value => levels value
  | .null | .bool _ | .number _ | .string _ => []

def levelsAll : List Yaml → List (List (Yaml × Yaml))
  | [] => []
  | v :: rest => levels v ++ levelsAll rest

def levelsEntries : List (Yaml × Yaml) → List (List (Yaml × Yaml))
  | [] => []
  | (_, v) :: rest => levels v ++ levelsEntries rest
end

section

variable (ext : External)

mutual
/-- A value has as many entries as the YAML at every level, each under the text of its key. -/
def Lossless : Yaml → Value → Prop
  | .sequence seq, .sequence out => LosslessAll seq out
  | .mapping entries, .mapping out => out.length = entries.length ∧ LosslessEntries entries out
  | .sequence _, _ | .mapping _, _ => False
  | .tagged _ value, out => Lossless value out
  | .null, out => out = coerce ext .null
  | .bool b, out => out = coerce ext (.bool b)
  | .number n, out => out = coerce ext (.number n)
  | .string s, out => out = coerce ext (.string s)

def LosslessAll : List Yaml → List Value → Prop
  | [], [] => True
  | v :: rest, w :: others => Lossless v w ∧ LosslessAll rest others
  | _, _ => False

def LosslessEntries : List (Yaml × Yaml) → List (Text × Value) → Prop
  | [], _ => True
  | (k, v) :: rest, out =>
      (∃ w, out.lookup (yamlScalarToString ext k) = some w ∧ Lossless v w) ∧ LosslessEntries rest out
end

end

/-- How the YAML library compares numbers; a NaN equals every NaN. -/
def Number.Same : Number → Number → Prop
  | .posInt m, .posInt n => m = n
  | .negInt m, .negInt n => m = n
  | .float f, .float g => (f.isNan = true ∧ g.isNan = true) ∨ f.partialCmp g = some .eq
  | _, _ => False

/-- How it compares scalar keys. -/
def SameKey : Yaml → Yaml → Prop
  | .null, .null => True
  | .bool b, .bool c => b = c
  | .number m, .number n => m.Same n
  | .string s, .string t => s = t
  | _, _ => False

/-- A null, a boolean or a number; a negative integer is stored as such. -/
def Plain : Yaml → Prop
  | .null | .bool _ => True
  | .number (.negInt n) => n.toInt < 0
  | .number _ => True
  | _ => False

def Scalar (key : Yaml) : Prop := Plain key ∨ ∃ s, key = .string s

/-- The keys of a mapping as the library returns them: scalars, no two the same. -/
structure WellKeyed (entries : List (Yaml × Yaml)) : Prop where
  scalars : ∀ entry ∈ entries, Scalar entry.1
  distinct : entries.Pairwise fun a b => ¬ SameKey a.1 b.1

/-- A string key is the text of a null, a boolean or a number that is a key beside it. -/
def Confused (ext : External) (entries : List (Yaml × Yaml)) : Prop :=
  ∃ a ∈ entries, ∃ b ∈ entries, Plain a.1 ∧ b.1 = .string (yamlScalarToString ext a.1)

/-- The library prints different floats differently, and none like an integer or a word. -/
structure FloatsApart (ext : External) : Prop where
  apart : ∀ f g, ext.printYamlFloat f = ext.printYamlFloat g → f = g ∨ (f.isNan = true ∧ g.isNan = true)
  noInteger : ∀ f n, ext.printYamlFloat f ≠ intText n
  noWord : ∀ f, ext.printYamlFloat f ∉ ["null".toList, "true".toList, "false".toList]

/-- Induction over the values inside a YAML value; keys are not looked into. -/
theorem Yaml.induct {motive : Yaml → Prop} (null : motive .null) (bool : ∀ b, motive (.bool b))
    (number : ∀ n, motive (.number n)) (string : ∀ s, motive (.string s))
    (sequence : ∀ seq, (∀ v ∈ seq, motive v) → motive (.sequence seq))
    (mapping : ∀ entries, (∀ entry ∈ entries, motive entry.2) → motive (.mapping entries))
    (tagged : ∀ tag value, motive value → motive (.tagged tag value)) (yaml : Yaml) : motive yaml := by
  refine coerce.induct motive (fun entries => ∀ entry ∈ entries, motive entry.2)
    (fun seq => ∀ v ∈ seq, motive v) null bool number string sequence mapping tagged ?_ ?_ ?_ ?_ yaml
  · exact fun v member => by cases member
  · exact fun v rest here later => List.forall_mem_cons.mpr ⟨here, later⟩
  · exact fun entry member => by cases member
  · exact fun k v rest here later => List.forall_mem_cons.mpr ⟨here, later⟩

section

variable {ext : External}

theorem levelsAll_eq (seq : List Yaml) : levelsAll seq = seq.flatMap levels := by
  induction seq with
  | nil => rw [levelsAll, List.flatMap_nil]
  | cons v rest ih => rw [levelsAll, ih, List.flatMap_cons]

theorem levelsEntries_eq (entries : List (Yaml × Yaml)) :
    levelsEntries entries = entries.flatMap fun entry => levels entry.2 := by
  induction entries with
  | nil => rw [levelsEntries, List.flatMap_nil]
  | cons entry rest ih => rw [levelsEntries, ih, List.flatMap_cons]

theorem coerceAll_eq (seq : List Yaml) : coerceAll ext seq = seq.map (coerce ext) := by
  induction seq with
  | nil => rw [coerceAll, List.map_nil]
  | cons v rest ih => rw [coerceAll, ih, List.map_cons]

theorem coerceEntries_eq (entries : List (Yaml × Yaml)) : coerceEntries ext entries =
    entries.map fun entry => (yamlScalarToString ext entry.1, coerce ext entry.2) := by
  induction entries with
  | nil => rw [coerceEntries, List.map_nil]
  | cons entry rest ih => rw [coerceEntries, ih, List.map_cons]

theorem losslessAll_map (seq : List Yaml) :
    LosslessAll ext seq (seq.map (coerce ext)) ↔ ∀ v ∈ seq, Lossless ext v (coerce ext v) := by
  induction seq with
  | nil => simp [LosslessAll]
  | cons v rest ih => rw [List.map_cons, LosslessAll, ih, List.forall_mem_cons]

theorem losslessEntries_iff (entries : List (Yaml × Yaml)) (out : List (Text × Value)) :
    LosslessEntries ext entries out ↔ ∀ entry ∈ entries, ∃ w,
      out.lookup (yamlScalarToString ext entry.1) = some w ∧ Lossless ext entry.2 w := by
  induction entries with
  | nil => simp [LosslessEntries]
  | cons entry rest ih => rw [LosslessEntries, ih, List.forall_mem_cons]

/-! Which keys print alike. -/

theorem intText_noWord (n : Int) : intText n ∉ ["null".toList, "true".toList, "false".toList] := by
  obtain ⟨first, rest, shape, digit⟩ := intText_head n
  have letters : first ≠ 'n' ∧ first ≠ 't' ∧ first ≠ 'f' := by
    refine ⟨?_, ?_, ?_⟩ <;> rintro rfl <;> rcases digit with digit | digit <;> cases digit
  rw [shape]
  simp [letters]

theorem number_noWord (apart : FloatsApart ext) (n : Number) {word : Text}
    (listed : word ∈ ["null".toList, "true".toList, "false".toList]) : n.text ext ≠ word := by
  rintro rfl
  cases n with
  | posInt n => exact intText_noWord _ listed
  | negInt n => exact intText_noWord _ listed
  | float f => exact apart.noWord f listed

theorem number_same (apart : FloatsApart ext) {m n : Number} (plain : Plain (.number m))
    (plain' : Plain (.number n)) (same : m.text ext = n.text ext) : m.Same n := by
  cases m with
  | posInt m =>
    cases n with
    | posInt n => exact UInt64.toNat_inj.mp (Int.ofNat.inj (intText_inj.mp same))
    | negInt n =>
      have value : (m.toNat : Int) = n.toInt := intText_inj.mp same
      have negative : n.toInt < 0 := plain'
      omega
    | float g => exact absurd same.symm (apart.noInteger g _)
  | negInt m =>
    cases n with
    | posInt n =>
      have value : m.toInt = (n.toNat : Int) := intText_inj.mp same
      have negative : m.toInt < 0 := plain
      omega
    | negInt n => exact Int64.toInt_inj.mp (intText_inj.mp same)
    | float g => exact absurd same.symm (apart.noInteger g _)
  | float f =>
    cases n with
    | posInt n => exact absurd same (apart.noInteger f _)
    | negInt n => exact absurd same (apart.noInteger f _)
    | float g =>
      rcases apart.apart f g same with rfl | nans
      · cases nan : f.isNan with
        | true => exact .inl ⟨nan, nan⟩
        | false =>
          right
          simp [F64.partialCmp, nan]
      · exact .inl nans

/-- Keys that are no strings print alike only when they are the same. -/
theorem plain_same (apart : FloatsApart ext) {a b : Yaml} (plain : Plain a) (plain' : Plain b)
    (same : yamlScalarToString ext a = yamlScalarToString ext b) : SameKey a b := by
  have boolWord : ∀ b, boolText b ∈ ["null".toList, "true".toList, "false".toList] := by decide
  have nullWord : "null".toList ∈ ["null".toList, "true".toList, "false".toList] := by decide
  have nullBool : ∀ b, "null".toList ≠ boolText b := by decide
  have bools : ∀ b c, boolText b = boolText c → b = c := by decide
  cases a with
  | string _ | sequence _ | mapping _ | tagged _ _ => cases plain
  | null =>
    cases b with
    | string _ | sequence _ | mapping _ | tagged _ _ => cases plain'
    | null => trivial
    | bool b => exact absurd same (nullBool b)
    | number n => exact absurd same.symm (number_noWord apart n nullWord)
  | bool c =>
    cases b with
    | string _ | sequence _ | mapping _ | tagged _ _ => cases plain'
    | null => exact absurd same.symm (nullBool c)
    | bool b => exact bools c b same
    | number n => exact absurd same.symm (number_noWord apart n (boolWord c))
  | number m =>
    cases b with
    | string _ | sequence _ | mapping _ | tagged _ _ => cases plain'
    | null => exact absurd same (number_noWord apart m nullWord)
    | bool b => exact absurd same (number_noWord apart m (boolWord b))
    | number n => exact number_same apart plain plain' same

/-- The keys of a mapping print differently unless one is the text of another. -/
theorem nodup_texts_iff (apart : FloatsApart ext) {entries : List (Yaml × Yaml)} (keyed : WellKeyed entries) :
    (entries.map fun entry => yamlScalarToString ext entry.1).Nodup ↔ ¬ Confused ext entries := by
  have plainString : ∀ {key : Yaml} {s : Text}, Plain key → key ≠ .string s := by
    rintro key s plain rfl
    cases plain
  constructor
  · rintro distinct ⟨a, inA, b, inB, plain, text⟩
    have same : yamlScalarToString ext a.1 = yamlScalarToString ext b.1 := by rw [text]; rfl
    obtain rfl := List.inj_on_of_nodup_map distinct inA inB same
    exact plainString plain text
  · intro clear
    rw [List.nodup_iff_pairwise_ne, List.pairwise_map]
    refine keyed.distinct.imp_of_mem fun {a b} inA inB differ same => ?_
    rcases keyed.scalars a inA with plain | ⟨s, isString⟩
    · rcases keyed.scalars b inB with plain' | ⟨t, isString'⟩
      · exact differ (plain_same apart plain plain' same)
      · rw [isString'] at same
        exact clear ⟨a, inA, b, inB, plain, isString'.trans (congrArg Yaml.string same.symm)⟩
    · rcases keyed.scalars b inB with plain' | ⟨t, isString'⟩
      · rw [isString] at same
        exact clear ⟨b, inB, a, inA, plain', isString.trans (congrArg Yaml.string same)⟩
      · rw [isString, isString'] at same differ
        exact differ same

/-- A mapping keeps its entries when their keys print differently and each value keeps its own. -/
theorem lossless_mapping_iff (entries : List (Yaml × Yaml)) :
    Lossless ext (.mapping entries) (coerce ext (.mapping entries)) ↔
      (entries.map fun entry => yamlScalarToString ext entry.1).Nodup ∧
        ∀ entry ∈ entries, Lossless ext entry.2 (coerce ext entry.2) := by
  let pairs := entries.map fun entry => (yamlScalarToString ext entry.1, coerce ext entry.2)
  have coerced : coerceEntries ext entries = pairs := coerceEntries_eq entries
  have texts : pairs.map Prod.fst = entries.map fun entry => yamlScalarToString ext entry.1 := by
    rw [List.map_map]
    rfl
  have size : (collect pairs).size = entries.length ↔
      (entries.map fun entry => yamlScalarToString ext entry.1).Nodup := by
    have kept := @size_inserted_iff _ _ _ _ _ pairs
    rwa [List.length_map, texts] at kept
  rw [coerce, Lossless, coerced, losslessEntries_iff, Std.ExtTreeMap.length_toList, size]
  refine and_congr_right fun distinct => forall₂_congr fun entry member => ?_
  have held : (collect pairs)[yamlScalarToString ext entry.1]? = some (coerce ext entry.2) := by
    rw [← texts] at distinct
    exact getElem?_inserted distinct (List.mem_map_of_mem member)
  simp only [lookup_toList, held, Option.some.injEq, exists_eq_left']

/-- Coercion keeps every entry at every level unless a key is confused at some level. -/
theorem lossless_coerce_iff (apart : FloatsApart ext) (yaml : Yaml)
    (keyed : ∀ entries ∈ levels yaml, WellKeyed entries) :
    Lossless ext yaml (coerce ext yaml) ↔ ∀ entries ∈ levels yaml, ¬ Confused ext entries := by
  induction yaml using Yaml.induct with
  | null => simp [Lossless, levels]
  | bool b => simp [Lossless, levels]
  | number n => simp [Lossless, levels]
  | string s => simp [Lossless, levels]
  | tagged tag value ih =>
    rw [levels] at keyed
    rw [coerce, Lossless, levels]
    exact ih keyed
  | sequence seq ih =>
    rw [levels, levelsAll_eq] at keyed
    simp only [List.mem_flatMap, forall_exists_index, and_imp] at keyed
    rw [coerce, Lossless, levels, coerceAll_eq, levelsAll_eq, losslessAll_map]
    simp only [List.mem_flatMap, forall_exists_index, and_imp]
    constructor
    · exact fun lossless entries v member => (ih v member fun e inner => keyed e v member inner).mp
        (lossless v member) entries
    · exact fun clear v member => (ih v member fun e inner => keyed e v member inner).mpr
        fun entries => clear entries v member
  | mapping entries ih =>
    rw [levels, levelsEntries_eq, List.forall_mem_cons] at keyed
    obtain ⟨here, below⟩ := keyed
    simp only [List.mem_flatMap, forall_exists_index, and_imp] at below
    rw [lossless_mapping_iff, nodup_texts_iff apart here, levels, levelsEntries_eq, List.forall_mem_cons]
    simp only [List.mem_flatMap, forall_exists_index, and_imp]
    refine and_congr_right fun _ => ?_
    constructor
    · exact fun lossless level entry member => (ih entry member fun e inner => below e entry member inner).mp
        (lossless entry member) level
    · exact fun clear entry member => (ih entry member fun e inner => below e entry member inner).mpr
        fun level => clear level entry member

/-- The frontmatter has every entry of its YAML at every level unless a string key is the text of
another key of its mapping. -/
theorem frontmatter_lossless_iff (apart : FloatsApart ext) {yaml : Text} {entries : List (Yaml × Yaml)}
    (content : Text.trim yaml ≠ []) (parsed : ext.parseYaml yaml = .ok (.mapping entries))
    (keyed : ∀ level ∈ levels (.mapping entries), WellKeyed level) :
    (∃ frontmatter, parseFrontmatterAudit ext yaml = .ok (frontmatter, none) ∧
      Lossless ext (.mapping entries) (.mapping frontmatter.toList)) ↔
    ∀ level ∈ levels (.mapping entries), ¬ Confused ext level := by
  have made : parseFrontmatterAudit ext yaml = .ok (collect (coerceEntries ext entries), none) := by
    rw [parseFrontmatterAudit, if_neg content, parsed]
  have coerced : coerce ext (.mapping entries) = .mapping (collect (coerceEntries ext entries)).toList := by
    rw [coerce]
  rw [← lossless_coerce_iff apart _ keyed, coerced, made]
  constructor
  · rintro ⟨frontmatter, same, lossless⟩
    obtain ⟨rfl, -⟩ := Prod.mk.inj (Except.ok.inj same)
    exact lossless
  · exact fun lossless => ⟨_, rfl, lossless⟩

end

def shared : List (Yaml × Yaml) := [(.number (.posInt 1), .string ['a']), (.string ['1'], .string ['b'])]

def inner : List (Yaml × Yaml) := [(.bool true, .string ['b'])]

def outer : List (Yaml × Yaml) := [(.number (.posInt 1), .string ['a']), (.string ['k'], .mapping inner)]

/-- A library that knows two documents; floats print as their bits after a dot. -/
def twoDocuments : External :=
  { External.bare with
    parseYaml := fun s =>
      if s = "1: a\n'1': b\n".toList then .ok (.mapping shared)
      else if s = "1: a\nk:\n  true: b\n".toList then .ok (.mapping outer)
      else .error []
    printYamlFloat := fun f => '.' :: intText f.bits.toNat }

theorem twoDocuments_floatsApart : FloatsApart twoDocuments where
  apart f g same := by
    have digits : intText f.bits.toNat = intText g.bits.toNat := List.tail_eq_of_cons_eq same
    left
    exact congrArg F64.mk (UInt64.toNat_inj.mp (Int.ofNat.inj (intText_inj.mp digits)))
  noInteger f n same := by
    obtain ⟨first, rest, shape, digit⟩ := intText_head n
    have dot : first = '.' := (List.head_eq_of_cons_eq (same.trans shape)).symm
    rw [dot] at digit
    rcases digit with digit | digit <;> cases digit
  noWord f listed := by
    have dotless : ∀ word ∈ ["null".toList, "true".toList, "false".toList], word.head? ≠ some '.' := by
      decide
    exact dotless _ listed rfl

theorem frontmatter_lossless_iff_nested : ∃ frontmatter,
    parseFrontmatterAudit twoDocuments "1: a\nk:\n  true: b\n".toList = .ok (frontmatter, none) ∧
      Lossless twoDocuments (.mapping outer) (.mapping frontmatter.toList) := by
  have both : levels (.mapping outer) = [outer, inner] := by
    simp [levels, levelsEntries, outer, inner]
  have keyed : ∀ level ∈ levels (.mapping outer), WellKeyed level := by
    rw [both, List.forall_mem_cons, List.forall_mem_singleton]
    constructor
    · constructor
      · simp [outer, Scalar, Plain]
      · simp [outer, SameKey]
    · constructor
      · simp [inner, Scalar, Plain]
      · simp [inner]
  refine (frontmatter_lossless_iff twoDocuments_floatsApart (by decide) rfl keyed).mpr ?_
  rw [both, List.forall_mem_cons, List.forall_mem_singleton]
  constructor
  · simp [Confused, outer, Plain, yamlScalarToString, Number.text]
    decide
  · simp [Confused, inner, Plain]

/-- The key 1 and the string '1' are one key of the frontmatter. -/
theorem number_and_digits_merged :
    let made := collect (coerceEntries twoDocuments shared)
    (∀ level ∈ levels (.mapping shared), WellKeyed level) ∧
      parseFrontmatterAudit twoDocuments "1: a\n'1': b\n".toList = .ok (made, none) ∧
      made.size = 1 ∧ ¬ Lossless twoDocuments (.mapping shared) (.mapping made.toList) := by
  intro made
  have entries : coerceEntries twoDocuments shared =
      [(['1'], .string ['a']), (['1'], .string ['b'])] := by
    rw [coerceEntries_eq]
    rfl
  have size : made.size = 1 := by
    simp only [made, entries, collect, List.foldl_cons, List.foldl_nil]
    simp [Std.ExtTreeMap.size_insert]
  refine ⟨?_, rfl, size, ?_⟩
  · have one : levels (.mapping shared) = [shared] := by simp [levels, levelsEntries, shared]
    rw [one, List.forall_mem_singleton]
    constructor
    · simp [shared, Scalar, Plain]
    · simp [shared, SameKey]
  · rw [Lossless, Std.ExtTreeMap.length_toList, size]
    exact fun lossless => absurd lossless.1 (by decide)

end Anwesen.Vault

import Anwesen.Foundation.Grouping
import Anwesen.Vault.Scan

/-! What `doctor` reports about the types of frontmatter values. -/

set_option autoImplicit false

namespace Anwesen.Doctor

open Foundation Vault

def driftSamplesPerShape : Nat := 3

structure DriftShape where
  shape : Text
  count : Nat
  samples : List Text
  deriving DecidableEq

structure TypeDrift where
  key : Text
  shapes : List DriftShape
  deriving DecidableEq

/-- The shape a value counts under: integers and floats are one, dates and datetimes are one. -/
def shapeOf : Value → Text
  | .null => "null".toList
  | .bool _ => "bool".toList
  | .int _ | .float _ => "number".toList
  | .string _ => "string".toList
  | .date _ | .dateTime _ => "date".toList
  | .sequence _ => "list".toList
  | .mapping _ => "mapping".toList

/-- How many notes carry a key in one shape, and the first few of them. -/
abbrev Tally := Nat × List Text

/-- A value of a top-level key in a note. -/
structure Occurrence where
  path : Text
  key : Text
  value : Value

def Occurrence.shape (o : Occurrence) : Text := shapeOf o.value

/-- The keys and values of the notes in the order in which they are counted. -/
def occurrences (notes : List Note) : List Occurrence :=
  notes.flatMap fun note => note.frontmatter.toList.map fun entry => ⟨note.path, entry.1, entry.2⟩

def count (tally : Option Tally) (o : Occurrence) : Tally :=
  let (count, samples) := tally.getD (0, [])
  (count + 1, if samples.length < driftSamplesPerShape then samples ++ [o.path] else samples)

def countShape (shapes : Option (Std.ExtTreeMap Text Tally)) (o : Occurrence) :
    Std.ExtTreeMap Text Tally :=
  grouped Occurrence.shape count (shapes.getD ∅) [o]

def byKey (notes : List Note) : Std.ExtTreeMap Text (Std.ExtTreeMap Text Tally) :=
  grouped Occurrence.key countShape ∅ (occurrences notes)

def detectTypeDrift (notes : List Note) : List TypeDrift :=
  ((byKey notes).toList.filter fun entry => 1 < entry.2.size).map fun entry =>
    ⟨entry.1, entry.2.toList.map fun shape => ⟨shape.1, shape.2.1, shape.2.2⟩⟩

theorem mem_occurrences {notes : List Note} {o : Occurrence} : o ∈ occurrences notes ↔
    ∃ note ∈ notes, note.path = o.path ∧ note.frontmatter[o.key]? = some o.value := by
  simp only [occurrences, List.mem_flatMap, List.mem_map]
  constructor
  · rintro ⟨note, member, entry, listed, rfl⟩
    exact ⟨note, member, rfl, Std.ExtTreeMap.mem_toList_iff_getElem?_eq_some.mp listed⟩
  · rintro ⟨note, member, path, found⟩
    refine ⟨note, member, (o.key, o.value), ?_, by rw [path]⟩
    exact Std.ExtTreeMap.mem_toList_iff_getElem?_eq_some.mpr found

/-- Counting the shapes of one key. -/
theorem foldl_countShape (items : List Occurrence) (shapes : Option (Std.ExtTreeMap Text Tally)) :
    items.foldl (fun entry o => some (countShape entry o)) shapes =
      if items = [] then shapes else some (grouped Occurrence.shape count (shapes.getD ∅) items) := by
  induction items generalizing shapes with
  | nil => rfl
  | cons o items ih =>
    rw [List.foldl_cons, ih]
    cases items with
    | nil => rfl
    | cons _ _ => simp [countShape, grouped]

theorem byKey_getElem? (notes : List Note) (key : Text) : (byKey notes)[key]? =
    let items := (occurrences notes).filter (·.key = key)
    if items = [] then none else some (grouped Occurrence.shape count ∅ items) := by
  rw [byKey, getElem?_grouped, foldl_countShape]
  simp

theorem mem_detectTypeDrift_keys {notes : List Note} {key : Text} :
    key ∈ (detectTypeDrift notes).map TypeDrift.key ↔
      ∃ a ∈ occurrences notes, ∃ b ∈ occurrences notes, a.key = key ∧ b.key = key ∧ a.shape ≠ b.shape := by
  have reported : key ∈ (detectTypeDrift notes).map TypeDrift.key ↔
      ∃ shapes, (byKey notes)[key]? = some shapes ∧ 1 < shapes.size := by
    simp [detectTypeDrift, Std.ExtTreeMap.mem_toList_iff_getElem?_eq_some]
  rw [reported, byKey_getElem?]
  constructor
  · rintro ⟨shapes, found, several⟩
    simp only [Option.ite_none_left_eq_some, Option.some.injEq] at found
    obtain ⟨-, rfl⟩ := found
    obtain ⟨s, inS, t, inT, differ⟩ := one_lt_size_iff.mp several
    simp only [mem_grouped, Std.ExtTreeMap.not_mem_empty, false_or, List.mem_filter,
      decide_eq_true_eq] at inS inT
    obtain ⟨a, ⟨inA, keyA⟩, rfl⟩ := inS
    obtain ⟨b, ⟨inB, keyB⟩, rfl⟩ := inT
    exact ⟨a, inA, b, inB, keyA, keyB, differ⟩
  · rintro ⟨a, inA, b, inB, keyA, keyB, differ⟩
    have listed : a ∈ (occurrences notes).filter (·.key = key) := by simp [inA, keyA]
    refine ⟨_, if_neg (List.ne_nil_of_mem listed), one_lt_size_iff.mpr ?_⟩
    refine ⟨a.shape, mem_grouped.mpr (.inr ⟨a, listed, rfl⟩), b.shape, ?_, differ⟩
    exact mem_grouped.mpr (.inr ⟨b, by simp [inB, keyB], rfl⟩)

/-- A key drifts when two notes carry it in different shapes. -/
theorem drifts_iff {notes : List Note} {key : Text} :
    key ∈ (detectTypeDrift notes).map TypeDrift.key ↔
      ∃ a ∈ notes, ∃ b ∈ notes, ∃ v w : Value, a.frontmatter[key]? = some v ∧
        b.frontmatter[key]? = some w ∧ shapeOf v ≠ shapeOf w := by
  rw [mem_detectTypeDrift_keys]
  constructor
  · rintro ⟨a, inA, b, inB, rfl, same, differ⟩
    obtain ⟨first, inFirst, -, hasV⟩ := mem_occurrences.mp inA
    obtain ⟨second, inSecond, -, hasW⟩ := mem_occurrences.mp inB
    exact ⟨first, inFirst, second, inSecond, a.value, b.value, hasV, same ▸ hasW, differ⟩
  · rintro ⟨a, inA, b, inB, v, w, hasV, hasW, differ⟩
    exact ⟨⟨a.path, key, v⟩, mem_occurrences.mpr ⟨a, inA, rfl, hasV⟩,
      ⟨b.path, key, w⟩, mem_occurrences.mpr ⟨b, inB, rfl, hasW⟩, rfl, rfl, differ⟩

/-- No drift is reported when every key has one shape throughout. -/
theorem detectTypeDrift_eq_nil_iff {notes : List Note} : detectTypeDrift notes = [] ↔
    ∀ a ∈ notes, ∀ b ∈ notes, ∀ (key : Text) (v w : Value), a.frontmatter[key]? = some v →
      b.frontmatter[key]? = some w → shapeOf v = shapeOf w := by
  have empty : detectTypeDrift notes = [] ↔ ∀ key, key ∉ (detectTypeDrift notes).map TypeDrift.key := by
    rw [← List.eq_nil_iff_forall_not_mem, List.map_eq_nil_iff]
  simp only [empty, drifts_iff]
  constructor
  · intro clear a inA b inB key v w hasV hasW
    by_contra differ
    exact clear key ⟨a, inA, b, inB, v, w, hasV, hasW, differ⟩
  · rintro uniform key ⟨a, inA, b, inB, v, w, hasV, hasW, differ⟩
    exact differ (uniform a inA b inB key v w hasV hasW)

/-! What a report says of each key. -/

/-- The notes that carry a key in a shape, in scan order. -/
def carrying (notes : List Note) (key shape : Text) : List Note :=
  notes.filter fun note => note.frontmatter[key]?.map shapeOf = some shape

/-- The drifts are those of the notes, with what they count. -/
structure Drifts (notes : List Note) (drifts : List TypeDrift) : Prop where
  reported : ∀ key, key ∈ drifts.map TypeDrift.key ↔
    ∃ a ∈ notes, ∃ b ∈ notes, ∃ v w : Value, a.frontmatter[key]? = some v ∧
      b.frontmatter[key]? = some w ∧ shapeOf v ≠ shapeOf w
  keys : drifts.Pairwise fun a b => compare a.key.utf8 b.key.utf8 = .lt
  shapes : ∀ drift ∈ drifts, drift.shapes.Pairwise fun a b => compare a.shape.utf8 b.shape.utf8 = .lt
  listed : ∀ drift ∈ drifts, ∀ shape,
    shape ∈ drift.shapes.map DriftShape.shape ↔ carrying notes drift.key shape ≠ []
  counted : ∀ drift ∈ drifts, ∀ s ∈ drift.shapes,
    s.count = (carrying notes drift.key s.shape).length ∧
      s.samples = ((carrying notes drift.key s.shape).take (min 3 s.count)).map Note.path
  total : ∀ drift ∈ drifts, (drift.shapes.map DriftShape.count).sum =
    (notes.filter fun note => note.frontmatter[drift.key]?.isSome).length

/-- A report without its samples. -/
def TypeDrift.unsampled (drift : TypeDrift) : TypeDrift :=
  { drift with shapes := drift.shapes.map fun shape => { shape with samples := [] } }

/-- A note holds a key once. -/
theorem occurrences_key (notes : List Note) (key : Text) : (occurrences notes).filter (·.key = key) =
    notes.filterMap fun note => note.frontmatter[key]?.map fun value => ⟨note.path, key, value⟩ := by
  induction notes with
  | nil => rfl
  | cons note notes ih =>
    have here : (note.frontmatter.toList.map fun entry => Occurrence.mk note.path entry.1 entry.2).filter
        (·.key = key) = (note.frontmatter[key]?.map fun value => ⟨note.path, key, value⟩).toList := by
      rw [List.filter_map]
      have once := filter_toList_key note.frontmatter key
      change (note.frontmatter.toList.filter (·.1 = key)).map _ = _
      rw [once]
      cases note.frontmatter[key]? <;> rfl
    rw [occurrences, List.flatMap_cons, List.filter_append, here, ← occurrences, ih, List.filterMap_cons]
    cases note.frontmatter[key]? <;> rfl

theorem occurrences_shape (notes : List Note) (key shape : Text) :
    (((occurrences notes).filter (·.key = key)).filter (·.shape = shape)).map Occurrence.path =
      (carrying notes key shape).map Note.path := by
  rw [occurrences_key, carrying]
  induction notes with
  | nil => rfl
  | cons note notes ih =>
    rw [List.filterMap_cons, List.filter_cons]
    cases found : note.frontmatter[key]? with
    | none => simpa using ih
    | some value =>
      by_cases same : shapeOf value = shape
      · simpa [Occurrence.shape, same] using ih
      · simpa [Occurrence.shape, same] using ih

/-- Counting on keeps the first few samples. -/
theorem foldl_tally (items : List Occurrence) (tally : Tally) :
    items.foldl (fun entry o => some (count entry o)) (some tally) =
      some (tally.1 + items.length,
        tally.2 ++ (items.map Occurrence.path).take (driftSamplesPerShape - tally.2.length)) := by
  induction items generalizing tally with
  | nil => simp
  | cons o items ih =>
    rw [List.foldl_cons, ih]
    simp only [count, Option.getD_some, List.length_cons, List.map_cons]
    refine congrArg some (Prod.ext (by simp only; omega) ?_)
    by_cases full : driftSamplesPerShape ≤ tally.2.length
    · rw [if_neg (Nat.not_lt.mpr full), Nat.sub_eq_zero_of_le full]
      rfl
    · have more : driftSamplesPerShape - tally.2.length =
          driftSamplesPerShape - (tally.2.length + 1) + 1 := by omega
      rw [if_pos (Nat.not_le.mp full), more, List.take_succ_cons, List.length_append,
        List.length_singleton, List.append_assoc, List.singleton_append]

/-- The tallies of a reported key. -/
theorem mem_tallies {notes : List Note} {key : Text} {shapes : Std.ExtTreeMap Text Tally}
    (found : (byKey notes)[key]? = some shapes) (entry : Text × Tally) :
    entry ∈ shapes.toList ↔ carrying notes key entry.1 ≠ [] ∧
      entry.2 = ((carrying notes key entry.1).length,
        ((carrying notes key entry.1).map Note.path).take driftSamplesPerShape) := by
  rw [byKey_getElem?] at found
  simp only [Option.ite_none_left_eq_some, Option.some.injEq] at found
  obtain ⟨-, rfl⟩ := found
  rw [Std.ExtTreeMap.mem_toList_iff_getElem?_eq_some, getElem?_grouped, Std.ExtTreeMap.getElem?_empty]
  have paths := occurrences_shape notes key entry.1
  generalize ((occurrences notes).filter (·.key = key)).filter (·.shape = entry.1) = items at *
  have lengths := congrArg List.length paths
  rw [List.length_map, List.length_map] at lengths
  rw [← paths, ← lengths, Ne, ← List.length_eq_zero_iff, ← lengths, List.length_eq_zero_iff]
  cases items with
  | nil => simp
  | cons o items =>
    have counted := foldl_tally items (count none o)
    simp only [List.foldl_cons, counted]
    simp [count, driftSamplesPerShape, Nat.add_comm, eq_comm]

theorem tally_listed {notes : List Note} {key shape : Text} {shapes : Std.ExtTreeMap Text Tally}
    (found : (byKey notes)[key]? = some shapes) (carried : carrying notes key shape ≠ []) :
    (shape, ((carrying notes key shape).length,
      ((carrying notes key shape).map Note.path).take driftSamplesPerShape)) ∈ shapes.toList :=
  (mem_tallies found _).mpr ⟨carried, rfl⟩

theorem mem_detectTypeDrift {notes : List Note} {drift : TypeDrift} :
    drift ∈ detectTypeDrift notes ↔ ∃ shapes, (byKey notes)[drift.key]? = some shapes ∧
      1 < shapes.size ∧ drift.shapes = shapes.toList.map fun shape => ⟨shape.1, shape.2.1, shape.2.2⟩ := by
  simp only [detectTypeDrift, List.mem_map, List.mem_filter, decide_eq_true_eq]
  constructor
  · rintro ⟨entry, ⟨listed, several⟩, rfl⟩
    exact ⟨entry.2, Std.ExtTreeMap.mem_toList_iff_getElem?_eq_some.mp listed, several, rfl⟩
  · rintro ⟨shapes, found, several, same⟩
    refine ⟨(drift.key, shapes), ⟨?_, several⟩, by rw [← same]⟩
    exact Std.ExtTreeMap.mem_toList_iff_getElem?_eq_some.mpr found

/-- The tallies of a key add up to the notes that carry it. -/
theorem sum_tallies {notes : List Note} {key : Text} {shapes : Std.ExtTreeMap Text Tally}
    (found : (byKey notes)[key]? = some shapes) : (shapes.toList.map fun shape => shape.2.1).sum =
      (notes.filter fun note => note.frontmatter[key]?.isSome).length := by
  let labels := notes.filterMap fun note => note.frontmatter[key]?.map shapeOf
  have carried : ∀ shape, (labels.filter (· = shape)).length = (carrying notes key shape).length := by
    intro shape
    simp only [labels, carrying]
    clear found
    induction notes with
    | nil => rfl
    | cons note notes ih =>
      rw [List.filterMap_cons, List.filter_cons]
      cases note.frontmatter[key]? with
      | none => simpa using ih
      | some value => by_cases same : shapeOf value = shape <;> simpa [same] using ih
  have length : labels.length = (notes.filter fun note => note.frontmatter[key]?.isSome).length := by
    simp only [labels, List.length_filterMap_eq_countP, List.countP_eq_length_filter, Option.isSome_map]
  have distinct : ((shapes.toList.map fun shape => (shape.1, shape.2.1)).map Prod.fst).Nodup := by
    have keys : (shapes.toList.map fun shape => (shape.1, shape.2.1)).map Prod.fst = shapes.keys := by
      rw [List.map_map, ← Std.ExtTreeMap.map_fst_toList_eq_keys]
      rfl
    rw [keys]
    exact Std.ExtTreeMap.nodup_keys
  have counts : ∀ entry, entry ∈ shapes.toList.map (fun shape => (shape.1, shape.2.1)) ↔
      entry.1 ∈ labels ∧ entry.2 = (labels.filter (· = entry.1)).length := by
    intro entry
    have member : entry.1 ∈ labels ↔ carrying notes key entry.1 ≠ [] := by
      rw [← List.length_pos_iff, ← carried, List.length_pos_iff_exists_mem]
      simp
    rw [member, carried, List.mem_map]
    constructor
    · rintro ⟨shape, listed, rfl⟩
      obtain ⟨some_, tally⟩ := (mem_tallies found shape).mp listed
      exact ⟨some_, by rw [tally]⟩
    · rintro ⟨some_, count⟩
      exact ⟨_, tally_listed found some_, Prod.ext rfl count.symm⟩
  rw [← length, ← (sum_counts distinct counts).2, List.map_map]
  rfl

theorem detectTypeDrift_drifts (notes : List Note) : Drifts notes (detectTypeDrift notes) := by
  refine ⟨fun key => drifts_iff, ?_, ?_, ?_, ?_, ?_⟩
  · rw [detectTypeDrift, List.pairwise_map]
    refine (Std.ExtTreeMap.ordered_keys_toList.filter _).imp fun before => ?_
    rw [Text.compare_utf8, before]
  all_goals
    intro drift reported
    obtain ⟨shapes, found, -, same⟩ := mem_detectTypeDrift.mp reported
    rw [same]
  · rw [List.pairwise_map]
    refine Std.ExtTreeMap.ordered_keys_toList.imp fun before => ?_
    rw [Text.compare_utf8, before]
  · intro shape
    rw [List.map_map, List.mem_map]
    constructor
    · rintro ⟨entry, listed, rfl⟩
      exact ((mem_tallies found entry).mp listed).1
    · exact fun carried => ⟨_, tally_listed found carried, rfl⟩
  · intro s listed
    obtain ⟨entry, member, rfl⟩ := List.mem_map.mp listed
    have tally := ((mem_tallies found entry).mp member).2
    simp only [tally, List.map_take, driftSamplesPerShape, true_and]
    rw [← List.take_take, ← List.length_map Note.path, List.take_length]
  · rw [List.map_map]
    exact sum_tallies found

/-- How many notes carry each key in each shape. -/
def shapeCounts (notes : List Note) : Std.ExtTreeMap Text (Std.ExtTreeMap Text Nat) :=
  (byKey notes).map fun _ shapes => shapes.map fun _ tally => tally.1

/-- The counts of the shapes do not depend on the order of the notes. -/
theorem shapeCounts_perm {notes notes' : List Note} (perm : notes.Perm notes') :
    shapeCounts notes = shapeCounts notes' := by
  have counts : ∀ (items : List Occurrence) (shape : Text),
      ((grouped Occurrence.shape count ∅ items).map fun _ tally => tally.1)[shape]? =
        let carried := items.filter (·.shape = shape)
        if carried = [] then none else some carried.length := by
    intro items shape
    rw [Std.ExtTreeMap.getElem?_map, getElem?_grouped, Std.ExtTreeMap.getElem?_empty]
    cases items.filter (·.shape = shape) with
    | nil => rfl
    | cons o items =>
      rw [List.foldl_cons, foldl_tally]
      simp [count, Nat.add_comm]
  have reordered : (occurrences notes).Perm (occurrences notes') := perm.flatMap_right _
  refine Std.ExtTreeMap.ext_getElem? fun key => ?_
  have items := reordered.filter (·.key = key)
  have none_ : (occurrences notes).filter (·.key = key) = [] ↔
      (occurrences notes').filter (·.key = key) = [] := by
    rw [← List.length_eq_zero_iff, items.length_eq, List.length_eq_zero_iff]
  simp only [shapeCounts, Std.ExtTreeMap.getElem?_map, byKey_getElem?, none_]
  split
  · rfl
  · refine congrArg some (Std.ExtTreeMap.ext_getElem? fun shape => ?_)
    have carried := items.filter (·.shape = shape)
    have none_ : ((occurrences notes).filter (·.key = key)).filter (·.shape = shape) = [] ↔
        ((occurrences notes').filter (·.key = key)).filter (·.shape = shape) = [] := by
      rw [← List.length_eq_zero_iff, carried.length_eq, List.length_eq_zero_iff]
    simp only [counts, none_, carried.length_eq]

/-- A report without its samples is read off the counts. -/
theorem unsampled_detectTypeDrift (notes : List Note) :
    (detectTypeDrift notes).map TypeDrift.unsampled =
      ((shapeCounts notes).toList.filter fun entry => 1 < entry.2.size).map fun entry =>
        ⟨entry.1, entry.2.toList.map fun shape => ⟨shape.1, shape.2, []⟩⟩ := by
  rw [shapeCounts, Std.ExtTreeMap.toList_map, List.filter_map, List.map_map, detectTypeDrift, List.map_map]
  have kept : ((fun entry : Text × Std.ExtTreeMap Text Nat => decide (1 < entry.2.size)) ∘
      fun entry : Text × Std.ExtTreeMap Text Tally => (entry.1, entry.2.map fun _ (tally : Tally) => tally.1)) =
        fun entry => decide (1 < entry.2.size) := by
    funext entry
    simp only [Function.comp_apply, Std.ExtTreeMap.size_map]
  rw [kept]
  refine List.map_congr_left fun entry _ => ?_
  simp only [Function.comp_apply, TypeDrift.unsampled, Std.ExtTreeMap.toList_map, List.map_map]
  rfl

/-- The drifts of any notes are found and counted, and only their samples depend on the order
of the notes. -/
theorem drifts_counted : (∀ notes : List Note, Drifts notes (detectTypeDrift notes)) ∧
    ∀ notes notes' : List Note, notes.Perm notes' →
      (detectTypeDrift notes).map TypeDrift.unsampled =
        (detectTypeDrift notes').map TypeDrift.unsampled := by
  refine ⟨detectTypeDrift_drifts, fun notes notes' perm => ?_⟩
  rw [unsampled_detectTypeDrift, unsampled_detectTypeDrift, shapeCounts_perm perm]

end Anwesen.Doctor

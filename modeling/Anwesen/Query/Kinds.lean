import Anwesen.Foundation.Grouping
import Anwesen.Query.Execution

/-! The homogeneity guard of the merge.

It groups the matched notes by the canonical texts of their values, so it sees
two values as one exactly when they print alike.
-/

set_option autoImplicit false

namespace Anwesen.Query

open Foundation Vault

/-- The values of a key in any two notes are related. -/
def Alike (related : Value → Value → Prop) (key : Text) (notes : List Note) : Prop :=
  ∀ a ∈ notes, ∀ b ∈ notes, a.path ≠ b.path →
    ∀ v ∈ lookupDotted a.frontmatter key, ∀ w ∈ lookupDotted b.frontmatter key, related v w

/-- Every note carries the key, and all of them with one value. -/
structure Homogeneous (key : Text) (notes : List Note) : Prop where
  carried : ∀ note ∈ notes, (lookupDotted note.frontmatter key).isSome = true
  shared : Alike (fun v w => v.eq w = true) key notes

section

variable (ext : External)

def SameText (v w : Value) : Prop := canonicalString ext v = canonicalString ext w

/-- Two values that print alike and differ, or are equal and print differently. -/
def Confused (v w : Value) : Prop := ¬ (SameText ext v w ↔ v.eq w = true)

/-- What the guard promises of a query that names a kind key. -/
structure KindGuarded (store : NoteStore) (query : ParsedQuery) (key : Text) : Prop where
  accepts : (∃ document, executeMerge ext store { query with kindKey := some key } = some (.ok document)) ↔
    Homogeneous key (selected ext store query)
  rejects : ¬ Homogeneous key (selected ext store query) →
    ∃ message, executeMerge ext store { query with kindKey := some key } =
      some (.error (.kindGuard message))

end

section

variable {ext : External} {store : NoteStore} {query : ParsedQuery} {key : Text}

/-! Grouping. -/

theorem missing_foldl (frags : List Fragment) (groups : KindGroups) :
    (frags.foldl (KindGroups.push ext) groups).missing =
      groups.missing ++ (frags.filter fun f => f.kindValue.isNone).map Fragment.path := by
  induction frags generalizing groups with
  | nil => simp
  | cons f frags ih =>
    rw [List.foldl_cons, ih, KindGroups.push]
    cases value : f.kindValue <;> simp [value]

theorem mem_byValue_foldl (frags : List Fragment) (groups : KindGroups) (text : Text) :
    text ∈ (frags.foldl (KindGroups.push ext) groups).byValue ↔
      text ∈ groups.byValue ∨ ∃ f ∈ frags, ∃ v ∈ f.kindValue, canonicalString ext v = text := by
  induction frags generalizing groups with
  | nil => simp
  | cons f frags ih =>
    rw [List.foldl_cons, ih, KindGroups.push]
    cases value : f.kindValue with
    | none => simp [value]
    | some v =>
      by_cases same : canonicalString ext v = text
      · simp [value, same]
      · simp [Std.ExtTreeMap.mem_alter, value, same]

/-- The guard passes when every fragment has a value and all print alike. -/
theorem kindGuard_eq_ok_iff {frags : List Fragment} : kindGuard ext (some key) frags = .ok () ↔
    (∀ f ∈ frags, f.kindValue.isSome = true) ∧
      ∀ f ∈ frags, ∀ g ∈ frags, ∀ v ∈ f.kindValue, ∀ w ∈ g.kindValue, SameText ext v w := by
  have passed : kindGuard ext (some key) frags = .ok () ↔
      (kindGroups ext frags).missing = [] ∧ ¬ 1 < (kindGroups ext frags).byValue.size := by
    rw [← not_not (a := _ = []), ← not_or, kindGuard]
    split
    · simp [*]
    · simp [*]
  have absent : (kindGroups ext frags).missing = [] ↔ ∀ f ∈ frags, f.kindValue.isSome = true := by
    rw [kindGroups, missing_foldl]
    simp [List.filter_eq_nil_iff, Option.isSome_iff_ne_none]
  have texts : ∀ text, text ∈ (kindGroups ext frags).byValue ↔
      ∃ f ∈ frags, ∃ v ∈ f.kindValue, canonicalString ext v = text := by
    intro text
    rw [kindGroups, mem_byValue_foldl]
    simp
  rw [passed, absent, one_lt_size_iff]
  refine and_congr_right fun _ => ⟨fun single f inF g inG v hasV w hasW => ?_, ?_⟩
  · by_contra differ
    exact single ⟨_, (texts _).mpr ⟨f, inF, v, hasV, rfl⟩, _, (texts _).mpr ⟨g, inG, w, hasW, rfl⟩, differ⟩
  · rintro same ⟨a, inA, b, inB, differ⟩
    obtain ⟨f, inF, v, hasV, rfl⟩ := (texts a).mp inA
    obtain ⟨g, inG, w, hasW, rfl⟩ := (texts b).mp inB
    exact differ (same f inF g inG v hasV w hasW)

/-- Every note carries the key, and all values of it print alike. -/
structure Uniform (ext : External) (key : Text) (notes : List Note) : Prop where
  carried : ∀ note ∈ notes, (lookupDotted note.frontmatter key).isSome = true
  shared : Alike (SameText ext) key notes

/-- Grouped by text, the guard tells notes apart whose values print differently. -/
theorem kindGuard_iff_uniform :
    kindGuard ext (some key) (fragments ext store { query with kindKey := some key }) = .ok () ↔
      Uniform ext key (selected ext store query) := by
  have collected : fragments ext store { query with kindKey := some key } =
      (selected ext store query).map (fragmentOf { query with kindKey := some key }) := fragments_eq
  rw [kindGuard_eq_ok_iff, collected]
  simp only [List.forall_mem_map]
  constructor
  · rintro ⟨carried, same⟩
    exact ⟨carried, fun a inA b inB _ => same a inA b inB⟩
  · rintro ⟨carried, alike⟩
    refine ⟨carried, fun a inA b inB v hasV w hasW => ?_⟩
    by_cases path : a.path = b.path
    · -- a note is alone under its path
      have held := mem_selected inA
      rw [path, mem_selected inB] at held
      obtain rfl := Option.some.inj held
      obtain rfl := Option.some.inj (hasV.symm.trans hasW)
      rfl
    · exact alike a inA b inB path v hasV w hasW

/-- The comparator of the order is asked nothing of the kind. -/
theorem orderly_kindKey :
    Orderly ext store { query with kindKey := some key } ↔ Orderly ext store query := by
  have collected : ∀ q : ParsedQuery, fragments ext store q =
      (selected ext store q).map (fragmentOf q) := fun _ => fragments_eq
  simp only [Orderly, collected, TransOn, List.forall_mem_map]
  exact Iff.rfl

/-- The guard does what is asked of it where it takes equal values, and only these, for one,
and the merge behind it comes to an end. -/
theorem kindGuarded_iff_uniform : KindGuarded ext store query key ↔
    (Uniform ext key (selected ext store query) ↔ Homogeneous key (selected ext store query)) ∧
      (Uniform ext key (selected ext store query) →
        (ordering ext store { query with kindKey := some key }).isSome = true) := by
  have guarded := @kindGuard_iff_uniform ext store query key
  have merged := @executeMerge_eq ext store { query with kindKey := some key } query.limit
  cases guard : kindGuard ext (some key) (fragments ext store { query with kindKey := some key }) with
  | error error =>
    obtain ⟨message⟩ := error
    rw [guard] at guarded merged
    have mixed : ¬ Uniform ext key (selected ext store query) := fun uniform => by cases guarded.mpr uniform
    have none_ : ¬ ∃ document, executeMerge ext store { query with kindKey := some key } =
        some (.ok document) := by
      rintro ⟨document, answered⟩
      cases merged.symm.trans answered
    constructor
    · rintro ⟨accepts, -⟩
      exact ⟨iff_of_false mixed fun all => none_ (accepts.mpr all), fun uniform => absurd uniform mixed⟩
    · rintro ⟨same, -⟩
      exact ⟨iff_of_false none_ fun all => mixed (same.mpr all), fun _ => ⟨message, merged⟩⟩
  | ok passed =>
    rw [guard] at guarded merged
    have uniform : Uniform ext key (selected ext store query) := guarded.mp rfl
    cases arranged : ordering ext store { query with kindKey := some key } with
    | none =>
      rw [arranged] at merged
      constructor
      · rintro ⟨accepts, rejects⟩
        -- the merge neither answers nor refuses
        exfalso
        by_cases all : Homogeneous key (selected ext store query)
        · obtain ⟨document, answered⟩ := accepts.mpr all
          cases merged.symm.trans answered
        · obtain ⟨message, refused⟩ := rejects all
          cases merged.symm.trans refused
      · rintro ⟨-, ends⟩
        cases ends uniform
    | some sorted =>
      rw [arranged] at merged
      have answered : ∃ document, executeMerge ext store { query with kindKey := some key } =
          some (.ok document) := ⟨_, merged⟩
      constructor
      · rintro ⟨accepts, -⟩
        exact ⟨iff_of_true uniform (accepts.mp answered), fun _ => rfl⟩
      · rintro ⟨same, -⟩
        exact ⟨iff_of_true answered (same.mp uniform), fun mixed => absurd (same.mp uniform) mixed⟩

/-- Where the texts and the values settle the question alike. -/
theorem alike_iff_iff {notes : List Note} :
    (Alike (SameText ext) key notes ↔ Alike (fun v w => v.eq w = true) key notes) ↔
      Alike (fun v w => ¬ Confused ext v w) key notes ∨
        ¬ Alike (SameText ext) key notes ∧ ¬ Alike (fun v w => v.eq w = true) key notes := by
  constructor
  · intro agree
    by_cases texts : Alike (SameText ext) key notes
    · refine .inl fun a inA b inB path v hasV w hasW => not_not.mpr ?_
      exact iff_of_true (texts a inA b inB path v hasV w hasW)
        (agree.mp texts a inA b inB path v hasV w hasW)
    · exact .inr ⟨texts, mt agree.mpr texts⟩
  · rintro (clear | ⟨texts, values⟩)
    · have pairs : ∀ a ∈ notes, ∀ b ∈ notes, a.path ≠ b.path →
          ∀ v ∈ lookupDotted a.frontmatter key, ∀ w ∈ lookupDotted b.frontmatter key,
            (SameText ext v w ↔ v.eq w = true) :=
        fun a inA b inB path v hasV w hasW => not_not.mp (clear a inA b inB path v hasV w hasW)
      constructor
      · exact fun texts a inA b inB path v hasV w hasW =>
          (pairs a inA b inB path v hasV w hasW).mp (texts a inA b inB path v hasV w hasW)
      · exact fun values a inA b inB path v hasV w hasW =>
          (pairs a inA b inB path v hasV w hasW).mpr (values a inA b inB path v hasV w hasW)
    · exact iff_of_false texts values

/-- Whatever sort keeps the promise of `sort_by`: the guard accepts exactly the homogeneous
sets unless it takes values for one that differ, or tells apart values that are equal, and
nothing else in the set decides, or lets a set pass that cannot be put in order. -/
theorem kindGuarded_iff : (∀ sortBy, KindGuarded (ext.sorting sortBy) store query key) ↔
    (∃ note ∈ selected ext store query, lookupDotted note.frontmatter key = none) ∨
      Alike (fun v w => ¬ Confused ext v w) key (selected ext store query) ∧ Orderly ext store query ∨
      ¬ Alike (SameText ext) key (selected ext store query) ∧
        ¬ Alike (fun v w => v.eq w = true) key (selected ext store query) := by
  have uniform : ∀ sortBy, Uniform (ext.sorting sortBy) key (selected (ext.sorting sortBy) store query) ↔
      Uniform ext key (selected ext store query) :=
    fun _ => ⟨fun holds => ⟨holds.carried, holds.shared⟩, fun holds => ⟨holds.carried, holds.shared⟩⟩
  have guarded : (∀ sortBy, KindGuarded (ext.sorting sortBy) store query key) ↔
      (Uniform ext key (selected ext store query) ↔ Homogeneous key (selected ext store query)) ∧
        (Uniform ext key (selected ext store query) → Orderly ext store query) := by
    rw [← orderly_kindKey, ← always_sorted_iff]
    constructor
    · intro guards
      refine ⟨(uniform .merging).symm.trans (kindGuarded_iff_uniform.mp (guards .merging)).1, ?_⟩
      exact fun all sortBy => (kindGuarded_iff_uniform.mp (guards sortBy)).2 ((uniform sortBy).mpr all)
    · rintro ⟨same, ends⟩ sortBy
      exact kindGuarded_iff_uniform.mpr
        ⟨(uniform sortBy).trans same, fun all => ends ((uniform sortBy).mp all) sortBy⟩
  rw [guarded]
  by_cases carried : ∀ note ∈ selected ext store query, (lookupDotted note.frontmatter key).isSome = true
  · have none_ : ¬ ∃ note ∈ selected ext store query, lookupDotted note.frontmatter key = none := by
      rintro ⟨note, member, missing⟩
      simpa [missing] using carried note member
    have texts : Uniform ext key (selected ext store query) ↔
        Alike (SameText ext) key (selected ext store query) :=
      ⟨Uniform.shared, fun shared => ⟨carried, shared⟩⟩
    have values : Homogeneous key (selected ext store query) ↔
        Alike (fun v w => v.eq w = true) key (selected ext store query) :=
      ⟨Homogeneous.shared, fun shared => ⟨carried, shared⟩⟩
    rw [texts, values, alike_iff_iff, or_iff_right none_]
    constructor
    · rintro ⟨clear | neither, ends⟩
      · by_cases shared : Alike (SameText ext) key (selected ext store query)
        · exact .inl ⟨clear, ends shared⟩
        · exact .inr ⟨shared, mt (alike_iff_iff.mpr (.inl clear)).mpr shared⟩
      · exact .inr neither
    · rintro (⟨clear, orderly⟩ | neither)
      · exact ⟨.inl clear, fun _ => orderly⟩
      · exact ⟨.inr neither, fun shared => absurd shared neither.1⟩
  · have mixed : ¬ Uniform ext key (selected ext store query) := fun all => carried all.carried
    refine iff_of_true ⟨iff_of_false mixed fun all => carried all.carried, fun all => absurd all mixed⟩ (.inl ?_)
    simpa using carried

end

def statusNote (path : String) (status : Value) : Note :=
  ⟨path.toList, (∅ : Frontmatter).insert "status".toList status, [], [], ⟨0, 0⟩, [], 0⟩

theorem lookupDotted_statusNote (path : String) (status : Value) :
    lookupDotted (statusNote path status).frontmatter "status".toList = some status :=
  lookupDotted_insert (by decide) _ _

/-- A number and the string of its digits are merged as one kind. -/
theorem number_and_digits_merge :
    let store := (NoteStore.new.upsert (statusNote "a.md" (.int 1))).upsert
      (statusNote "b.md" (.string "1".toList))
    (∃ document, executeMerge External.bare store { kindKey := some "status".toList } =
        some (.ok document)) ∧
      ¬ Homogeneous "status".toList (selected External.bare store {}) := by
  intro store
  let first := statusNote "a.md" (.int 1)
  let second := statusNote "b.md" (.string "1".toList)
  have different : first.path ≠ second.path := by decide
  have held : ∀ note : Note, note ∈ selected External.bare store {} ↔ note = first ∨ note = second := by
    intro note
    have found : store.get note.path = some note ↔ note = first ∨ note = second := by
      rw [NoteStore.get_upsert, NoteStore.get_upsert, NoteStore.get_new]
      constructor
      · intro found
        split at found
        · exact .inr (Option.some.inj found).symm
        · split at found
          · exact .inl (Option.some.inj found).symm
          · cases found
      · rintro (rfl | rfl)
        · rw [if_neg different.symm, if_pos rfl]
        · rw [if_pos rfl]
    rw [mem_selected_iff, found]
    simp [pathMatches, predicatesMatch]
  have texts : SameText External.bare (.int 1) (.string "1".toList) := by
    rw [SameText]
    decide
  constructor
  · have uniform : Uniform External.bare "status".toList (selected External.bare store {}) := by
      refine ⟨fun note member => ?_, fun a inA b inB path v hasV w hasW => ?_⟩
      · rcases (held note).mp member with rfl | rfl <;> rw [lookupDotted_statusNote] <;> rfl
      · rcases (held a).mp inA with rfl | rfl <;> rcases (held b).mp inB with rfl | rfl
        · exact absurd rfl path
        · rw [lookupDotted_statusNote] at hasV hasW
          obtain rfl := Option.some.inj hasV
          obtain rfl := Option.some.inj hasW
          exact texts
        · rw [lookupDotted_statusNote] at hasV hasW
          obtain rfl := Option.some.inj hasV
          obtain rfl := Option.some.inj hasW
          exact texts.symm
        · exact absurd rfl path
    have passed := kindGuard_iff_uniform.mpr uniform
    rw [show (({ kindKey := some "status".toList } : ParsedQuery)) =
      { ({ kindKey := some "status".toList } : ParsedQuery) with limit := none } from rfl, executeMerge_eq, passed]
    exact ⟨_, rfl⟩
  · intro homogeneous
    have equal := homogeneous.shared first ((held _).mpr (.inl rfl)) second ((held _).mpr (.inr rfl))
      different (.int 1) (lookupDotted_statusNote _ _) (.string "1".toList) (lookupDotted_statusNote _ _)
    cases equal

end Anwesen.Query

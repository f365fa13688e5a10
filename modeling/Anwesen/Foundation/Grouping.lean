import Std.Data.ExtTreeMap.Lemmas
import Mathlib.Algebra.BigOperators.Group.List.Lemmas
import Mathlib.Algebra.GroupWithZero.Nat

/-! Folding items into a map, each into the entry of its key. -/

set_option autoImplicit false

namespace Anwesen.Foundation

variable {α β γ : Type} [Ord β] [Std.TransOrd β] [Std.LawfulEqOrd β]

/-- Every item takes the entry of its key a step further. -/
def grouped (key : α → β) (step : Option γ → α → γ) (groups : Std.ExtTreeMap β γ) (items : List α) :
    Std.ExtTreeMap β γ :=
  items.foldl (fun groups item => groups.alter (key item) fun entry => some (step entry item)) groups

variable {key : α → β} {step : Option γ → α → γ}

/-- An entry is what the items of its key make of it, in their order. -/
theorem getElem?_grouped [DecidableEq β] (items : List α) (groups : Std.ExtTreeMap β γ) (k : β) :
    (grouped key step groups items)[k]? =
      (items.filter (key · = k)).foldl (fun entry item => some (step entry item)) groups[k]? := by
  induction items generalizing groups with
  | nil => rfl
  | cons item items ih =>
    rw [grouped, List.foldl_cons, ← grouped, ih, Std.ExtTreeMap.getElem?_alter]
    by_cases same : key item = k
    · simp [same]
    · simp [same]

theorem mem_grouped [DecidableEq β] {items : List α} {groups : Std.ExtTreeMap β γ} {k : β} :
    k ∈ grouped key step groups items ↔ k ∈ groups ∨ ∃ item ∈ items, key item = k := by
  induction items generalizing groups with
  | nil => simp [grouped]
  | cons item items ih =>
    rw [grouped, List.foldl_cons, ← grouped, ih]
    by_cases same : key item = k
    · simp [same]
    · simp [same, Std.ExtTreeMap.mem_alter]

theorem one_lt_size_iff {groups : Std.ExtTreeMap β γ} :
    1 < groups.size ↔ ∃ a ∈ groups, ∃ b ∈ groups, a ≠ b := by
  have distinct : groups.keys.Pairwise fun a b => a ≠ b := groups.distinct_keys.imp fun differ same =>
    differ (by simp [same])
  simp only [← Std.ExtTreeMap.length_keys, ← Std.ExtTreeMap.mem_keys]
  generalize groups.keys = keys at distinct
  match keys with
  | [] => simp
  | [a] => simp
  | a :: b :: rest =>
    have differ : a ≠ b := (List.pairwise_cons.mp distinct).1 b List.mem_cons_self
    exact ⟨fun _ => ⟨a, by simp, b, by simp, differ⟩, fun _ => by simp⟩

/-- A key of a map stands in its list once. -/
theorem filter_toList_key [DecidableEq β] (groups : Std.ExtTreeMap β γ) (k : β) :
    groups.toList.filter (·.1 = k) = (groups[k]?.map fun value => (k, value)).toList := by
  have distinct : (groups.toList.map Prod.fst).Nodup := by
    rw [Std.ExtTreeMap.map_fst_toList_eq_keys]
    exact Std.ExtTreeMap.nodup_keys
  have members : ∀ entry, entry ∈ groups.toList.filter (·.1 = k) ↔
      entry ∈ (groups[k]?.map fun value => (k, value)).toList := by
    intro entry
    rw [List.mem_filter, Std.ExtTreeMap.mem_toList_iff_getElem?_eq_some, decide_eq_true_eq,
      Option.mem_toList, Option.map_eq_some_iff]
    constructor
    · rintro ⟨found, rfl⟩
      exact ⟨entry.2, found, rfl⟩
    · rintro ⟨value, found, rfl⟩
      exact ⟨found, rfl⟩
  have once : (groups.toList.filter (·.1 = k)).Nodup := (List.Nodup.of_map _ distinct).filter _
  -- both lists have at most one element
  cases found : groups[k]? with
  | none =>
    rw [found] at members
    exact List.eq_nil_iff_forall_not_mem.mpr fun entry member => by simpa using (members entry).mp member
  | some value =>
    rw [found] at members
    exact List.perm_singleton.mp ((List.perm_ext_iff_of_nodup once (List.nodup_singleton _)).mpr members)

omit [Ord β] [Std.TransOrd β] [Std.LawfulEqOrd β] in
/-- Entries that count the occurrences of each label count all of them together. -/
theorem sum_counts [DecidableEq β] {labels : List β} {entries : List (β × Nat)}
    (distinct : (entries.map Prod.fst).Nodup)
    (counts : ∀ entry, entry ∈ entries ↔
      entry.1 ∈ labels ∧ entry.2 = (labels.filter (· = entry.1)).length) :
    (entries.map Prod.fst).Perm labels.dedup ∧ (entries.map Prod.snd).sum = labels.length := by
  have keys : (entries.map Prod.fst).Perm labels.dedup := by
    refine (List.perm_ext_iff_of_nodup distinct labels.nodup_dedup).mpr fun label => ?_
    rw [List.mem_dedup, List.mem_map]
    constructor
    · rintro ⟨entry, listed, rfl⟩
      exact ((counts entry).mp listed).1
    · exact fun member => ⟨(label, (labels.filter (· = label)).length),
        (counts (label, _)).mpr ⟨member, rfl⟩, rfl⟩
  have values : entries.map Prod.snd = (entries.map Prod.fst).map fun label => labels.count label := by
    rw [List.map_map]
    refine List.map_congr_left fun entry listed => ?_
    rw [((counts entry).mp listed).2, Function.comp_apply, List.count_eq_length_filter]
    exact congrArg List.length (List.filter_congr fun other _ => (beq_eq_decide other entry.1).symm)
  refine ⟨keys, ?_⟩
  rw [values, (keys.map _).sum_eq]
  exact List.sum_map_count_dedup_eq_length labels

/-! Inserting entries one after the other. -/

def inserted (entries : List (β × γ)) : Std.ExtTreeMap β γ :=
  entries.foldl (fun map entry => map.insert entry.1 entry.2) ∅

omit [Std.LawfulEqOrd β] in
theorem inserted_concat (entries : List (β × γ)) (entry : β × γ) :
    inserted (entries ++ [entry]) = (inserted entries).insert entry.1 entry.2 := by
  rw [inserted, List.foldl_concat, ← inserted]

theorem mem_inserted {entries : List (β × γ)} {k : β} :
    k ∈ inserted entries ↔ k ∈ entries.map Prod.fst := by
  induction entries using List.reverseRec with
  | nil => simp [inserted]
  | append_singleton entries entry ih =>
    rw [inserted_concat, Std.ExtTreeMap.mem_insert, ih, Std.LawfulEqCmp.compare_eq_iff_eq]
    simp [or_comm, eq_comm]

theorem keys_inserted [DecidableEq β] (entries : List (β × γ)) :
    (inserted entries).keys.Perm (entries.map Prod.fst).dedup := by
  refine (List.perm_ext_iff_of_nodup Std.ExtTreeMap.nodup_keys (List.nodup_dedup _)).mpr fun k => ?_
  rw [Std.ExtTreeMap.mem_keys, mem_inserted, List.mem_dedup]

/-- No entry is lost exactly when no two have one key. -/
theorem size_inserted_iff {entries : List (β × γ)} :
    (inserted entries).size = entries.length ↔ (entries.map Prod.fst).Nodup := by
  classical
  rw [← Std.ExtTreeMap.length_keys, (keys_inserted entries).length_eq, ← List.length_map (f := Prod.fst)]
  constructor
  · intro same
    rw [← (List.dedup_sublist _).eq_of_length same]
    exact List.nodup_dedup _
  · intro distinct
    rw [distinct.dedup]

theorem getElem?_inserted {entries : List (β × γ)} (distinct : (entries.map Prod.fst).Nodup)
    {entry : β × γ} (member : entry ∈ entries) : (inserted entries)[entry.1]? = some entry.2 := by
  induction entries using List.reverseRec with
  | nil => cases member
  | append_singleton entries last ih =>
    rw [inserted_concat, Std.ExtTreeMap.getElem?_insert]
    rw [List.map_append, List.nodup_append] at distinct
    rcases List.mem_append.mp member with earlier | here
    · have differ : last.1 ≠ entry.1 :=
        (distinct.2.2 _ (List.mem_map_of_mem earlier) _ (List.mem_map_of_mem (List.mem_singleton_self _))).symm
      rw [if_neg (mt Std.LawfulEqCmp.compare_eq_iff_eq.mp differ)]
      exact ih distinct.1 earlier
    · rw [List.mem_singleton.mp here, if_pos Std.ReflCmp.compare_self]

/-- The list of a map is looked up like the map. -/
theorem lookup_toList [BEq β] [LawfulBEq β] (groups : Std.ExtTreeMap β γ) (k : β) :
    groups.toList.lookup k = groups[k]? := by
  refine Option.ext fun value => ?_
  rw [← Std.ExtTreeMap.mem_toList_iff_getElem?_eq_some, List.lookup_eq_some_iff]
  constructor
  · rintro ⟨before, after, same, -⟩
    exact same ▸ List.mem_append_right _ List.mem_cons_self
  · intro listed
    obtain ⟨before, after, same⟩ := List.append_of_mem listed
    refine ⟨before, after, same, fun other earlier => ?_⟩
    have distinct : (groups.toList.map Prod.fst).Nodup := by
      rw [Std.ExtTreeMap.map_fst_toList_eq_keys]
      exact Std.ExtTreeMap.nodup_keys
    rw [same, List.map_append, List.nodup_append] at distinct
    have differ := distinct.2.2 _ (List.mem_map_of_mem earlier) k (List.mem_map.mpr ⟨_, List.mem_cons_self, rfl⟩)
    simpa using differ.symm

end Anwesen.Foundation

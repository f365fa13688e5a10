import Anwesen.Query.Ordering
import Anwesen.Store
import Mathlib.Data.List.Perm.Basic

/-! The two ways a parsed query is run over the store: as JSON rows and as one
merged document. -/

set_option autoImplicit false

namespace Anwesen.Query

open Foundation Vault

structure ResultEntry where
  path : Text
  frontmatter : Json
  lastModified : Text
  etag : Text
  size : Nat

structure QueryResponse where
  results : List ResultEntry
  total : Nat
  truncated : Bool

inductive MergeError where
  /-- The body of the answer, naming the offenders. -/
  | kindGuard (message : Text)
  deriving DecidableEq, Repr

/-- The paths of the notes without the key, and those of each of its values. -/
structure KindGroups where
  missing : List Text := []
  byValue : Std.ExtTreeMap Text (List Text) := ∅

section

variable (ext : External)

/-- The rows `execute` collects under the read lock. -/
def rows (store : NoteStore) (query : ParsedQuery) (formatTs : Instant → Text) : List ResultEntry :=
  store.inner.toList.filterMap fun (path, note) =>
    if !pathMatches path (query.pathPrefix.getD []) query.recursive then none
    else if !predicatesMatch ext query.predicates note.frontmatter then none
    else
      some
        { path := note.path
          frontmatter := frontmatterToJson ext note.frontmatter
          lastModified := formatTs note.lastModified
          etag := note.etag
          size := note.size }

def execute (store : NoteStore) (query : ParsedQuery) (formatTs : Instant → Text) : QueryResponse :=
  let matched := rows ext store query formatTs
  let total := matched.length
  match query.limit with
  | some limit =>
      if limit < matched.length then ⟨matched.take limit, total, true⟩ else ⟨matched, total, false⟩
  | none => ⟨matched, total, false⟩

/-- The fragments `execute_merge` collects under the read lock. -/
def fragments (store : NoteStore) (query : ParsedQuery) : List Fragment :=
  store.inner.toList.filterMap fun (path, note) =>
    if !pathMatches path (query.pathPrefix.getD []) query.recursive then none
    else if !predicatesMatch ext query.predicates note.frontmatter then none
    else
      some
        { path := note.path
          body := note.body
          orderValue := query.order.bind fun o => lookupDotted note.frontmatter o.key
          kindValue := query.kindKey.bind fun k => lookupDotted note.frontmatter k }

def KindGroups.push (groups : KindGroups) (f : Fragment) : KindGroups :=
  match f.kindValue with
  | none => { groups with missing := groups.missing ++ [f.path] }
  | some v =>
      { groups with
        byValue := groups.byValue.alter (canonicalString ext v) fun paths =>
          some (paths.getD [] ++ [f.path]) }

def kindGroups (frags : List Fragment) : KindGroups := frags.foldl (KindGroups.push ext) {}

def formatKindError (key : Text) (groups : KindGroups) : Text :=
  let join := List.intercalate ", ".toList
  let heading := "__anw-kind=".toList ++ key ++
    ": merge requires every matched note to share one value for `".toList ++ key ++ "`\n".toList
  let values :=
    if 1 < groups.byValue.size then
      "distinct values found:\n".toList ++ groups.byValue.toList.flatMap fun (val, paths) =>
        "  ".toList ++ val ++ ": ".toList ++ join paths ++ "\n".toList
    else []
  let absent :=
    if groups.missing ≠ [] then
      "notes missing the key: ".toList ++ join groups.missing ++ "\n".toList
    else []
  heading ++ values ++ absent

/-- The homogeneity guard, over all matched notes. -/
def kindGuard (kindKey : Option Text) (frags : List Fragment) : Except MergeError Unit :=
  match kindKey with
  | none => .ok ()
  | some key =>
      let groups := kindGroups ext frags
      if groups.missing ≠ [] ∨ 1 < groups.byValue.size then
        .error (.kindGuard (formatKindError key groups))
      else .ok ()

/-- Each fragment under a line naming its source, joined by blank lines. -/
def assemble (frags : List Fragment) : Text :=
  List.intercalate "\n\n".toList <| frags.map fun f =>
    "<!-- source: ".toList ++ f.path ++ " -->\n".toList ++ f.body

/-- The limit keeps the first ones. -/
def capped (limit : Option Nat) (frags : List Fragment) : List Fragment :=
  match limit with
  | some limit => frags.take limit
  | none => frags

/-- Nothing where `sort_by` panics. -/
def executeMerge (store : NoteStore) (query : ParsedQuery) : Option (Except MergeError Text) :=
  let frags := fragments ext store query
  match kindGuard ext query.kindKey frags with
  | .error error => some (.error error)
  | .ok _ => (sortFragments ext query.order frags).map fun frags => .ok (assemble (capped query.limit frags))

end

section

variable (ext : External)

/-- The notes a query selects, in the order of their paths. -/
def selected (store : NoteStore) (query : ParsedQuery) : List Note :=
  (store.inner.toList.filter fun (path, note) =>
    pathMatches path (query.pathPrefix.getD []) query.recursive &&
      predicatesMatch ext query.predicates note.frontmatter).map (·.2)

def rowOf (formatTs : Instant → Text) (note : Note) : ResultEntry where
  path := note.path
  frontmatter := frontmatterToJson ext note.frontmatter
  lastModified := formatTs note.lastModified
  etag := note.etag
  size := note.size

def fragmentOf (query : ParsedQuery) (note : Note) : Fragment where
  path := note.path
  body := note.body
  orderValue := query.order.bind fun o => lookupDotted note.frontmatter o.key
  kindValue := query.kindKey.bind fun k => lookupDotted note.frontmatter k

/-- All fragments of a query in the order of the merge, before the limit. -/
def ordering (store : NoteStore) (query : ParsedQuery) : Option (List Fragment) :=
  sortFragments ext query.order (fragments ext store query)

/-- What `sort_by` asks of the comparator it is handed. -/
def Orderly (store : NoteStore) (query : ParsedQuery) : Prop :=
  ∀ spec ∈ query.order, TransOn (fragmentCmp ext spec.desc) (fragments ext store query)

end

variable {ext : External} {store : NoteStore} {query : ParsedQuery} {formatTs : Instant → Text}

theorem guards_eq {β : Type} (first second : Bool) (value : β) :
    (if !first then none else if !second then none else some value) =
      if first && second then some value else none := by
  cases first <;> cases second <;> rfl

theorem filterMap_eq_map_filter {α β : Type} {step : α → Option β} {keep : α → Bool} {project : α → β}
    (same : ∀ item, step item = if keep item then some (project item) else none) (items : List α) :
    items.filterMap step = (items.filter keep).map project := by
  induction items with
  | nil => rfl
  | cons item items ih =>
    rw [List.filterMap_cons, List.filter_cons, same item, ih]
    cases keep item <;> rfl

theorem rows_eq : rows ext store query formatTs = (selected ext store query).map (rowOf ext formatTs) := by
  rw [selected, List.map_map]
  exact filterMap_eq_map_filter (fun _ => guards_eq _ _ _) store.inner.toList

theorem fragments_eq : fragments ext store query = (selected ext store query).map (fragmentOf query) := by
  rw [selected, List.map_map]
  exact filterMap_eq_map_filter (fun _ => guards_eq _ _ _) store.inner.toList

/-- The selected notes stand in the ascending order of their paths. -/
theorem selected_ascending :
    (selected ext store query).Pairwise fun a b => compare a.path b.path = .lt := by
  have keyed : ∀ entry ∈ store.inner.toList, entry.2.path = entry.1 := fun entry member =>
    store.keyed entry.1 entry.2 (Std.ExtTreeMap.mem_toList_iff_getElem?_eq_some.mp member)
  rw [selected, List.pairwise_map]
  refine List.Pairwise.filter _ ?_
  refine Std.ExtTreeMap.ordered_keys_toList.imp_of_mem fun {a b} inA inB before => ?_
  rw [keyed a inA, keyed b inB, before]

theorem selected_distinct : ((selected ext store query).map Note.path).Nodup := by
  rw [List.nodup_iff_pairwise_ne, List.pairwise_map]
  refine selected_ascending.imp fun {a b} before same => ?_
  have self : compare b.path b.path = .eq := Std.ReflCmp.compare_self
  rw [same, self] at before
  cases before

theorem mem_selected_iff {note : Note} : note ∈ selected ext store query ↔
    store.get note.path = some note ∧
      pathMatches note.path (query.pathPrefix.getD []) query.recursive = true ∧
      predicatesMatch ext query.predicates note.frontmatter = true := by
  rw [selected, List.mem_map]
  constructor
  · rintro ⟨entry, kept, rfl⟩
    obtain ⟨member, matches_⟩ := List.mem_filter.mp kept
    have held : store.get entry.1 = some entry.2 :=
      Std.ExtTreeMap.mem_toList_iff_getElem?_eq_some.mp member
    rw [NoteStore.path_of_get held]
    exact ⟨held, by simpa using matches_⟩
  · rintro ⟨held, matches_⟩
    refine ⟨(note.path, note), List.mem_filter.mpr ⟨?_, by simpa using matches_⟩, rfl⟩
    exact Std.ExtTreeMap.mem_toList_iff_getElem?_eq_some.mpr held

theorem mem_selected {note : Note} (member : note ∈ selected ext store query) :
    store.get note.path = some note := (mem_selected_iff.mp member).1

/-- What is sorted are the notes the fragments come from. -/
theorem exists_ordering {sorted : List Fragment} (arranged : ordering ext store query = some sorted) :
    ∃ merged : List Note, merged.Perm (selected ext store query) ∧
      sorted = merged.map (fragmentOf query) ∧ (query.order = none → merged = selected ext store query) := by
  cases order : query.order with
  | some spec =>
    rw [ordering, order] at arranged
    have perm := ext.sortBy.perm (show ext.sortBy.sort _ _ = some sorted from arranged)
    rw [fragments_eq] at perm
    obtain ⟨merged, same, perm⟩ : Relation.Comp (· = List.map (fragmentOf query) ·) (·.Perm ·) sorted
        (selected ext store query) := by
      rw [List.eq_map_comp_perm]
      exact perm
    exact ⟨merged, perm, same, by simp⟩
  | none =>
    refine ⟨selected ext store query, List.Perm.refl _, ?_, fun _ => rfl⟩
    have total : TotalOn (compareOn Fragment.path) (fragments ext store query) := totalOn_of_transCmp
    rw [ordering, order] at arranged
    obtain rfl := Option.some.inj (arranged.symm.trans (ext.sortBy.stable total))
    rw [fragments_eq]
    refine List.mergeSort_of_pairwise (List.pairwise_map.mpr ?_)
    exact selected_ascending.imp fun {a b} before => by simp [fragmentOf, before]

theorem fragments_distinct : ((fragments ext store query).map Fragment.path).Nodup := by
  have paths : Fragment.path ∘ fragmentOf query = Note.path := rfl
  rw [fragments_eq, List.map_map, paths]
  exact selected_distinct

/-- Whatever sort keeps the promise of `sort_by`, it comes to an end exactly where the
comparator is transitive on what it sorts. -/
theorem always_sorted_iff : (∀ sortBy, (ordering (ext.sorting sortBy) store query).isSome = true) ↔
    Orderly ext store query := by
  have distinct : ((fragments ext store query).map Fragment.path).Nodup := fragments_distinct
  cases order : query.order with
  | none =>
    have total : TotalOn (compareOn Fragment.path) (fragments ext store query) := totalOn_of_transCmp
    refine iff_of_true (fun sortBy => ?_) fun spec none_ => by simp [order] at none_
    rw [ordering, order]
    exact Option.isSome_of_eq_some (sortBy.stable total)
  | some spec =>
    have sorts : ∀ sortBy, ordering (ext.sorting sortBy) store query =
        sortBy.sort (fragmentCmp ext spec.desc) (fragments ext store query) := by
      intro sortBy
      rw [ordering, order]
      rfl
    have transitive : Orderly ext store query ↔ TransOn (fragmentCmp ext spec.desc) (fragments ext store query) := by
      simp [Orderly, order]
    rw [transitive, ← totalOn_fragmentCmp_iff distinct]
    simp only [sorts]
    constructor
    · intro always
      by_contra cyclic
      have refused := always .refusing
      rw [SortBy.refusing_eq_none cyclic] at refused
      cases refused
    · exact fun total sortBy => Option.isSome_of_eq_some (sortBy.stable total)

theorem ordering_sorted {spec : OrderSpec} {sorted : List Fragment} (order : query.order = some spec)
    (trans : TransOn (fragmentCmp ext spec.desc) (fragments ext store query))
    (arranged : ordering ext store query = some sorted) :
    sorted.Pairwise fun a b => fragmentCmp ext spec.desc b a ≠ .lt := by
  obtain ⟨other, same, pairwise⟩ := (mergeOrder_of_transOn fragments_distinct trans).sorted spec.key
  rw [ordering, order] at arranged
  obtain rfl := Option.some.inj (arranged.symm.trans same)
  exact pairwise

theorem execute_unlimited : execute ext store { query with limit := none } formatTs =
    ⟨(selected ext store query).map (rowOf ext formatTs), (selected ext store query).length, false⟩ := by
  simp only [execute, rows_eq, List.length_map]
  rfl

theorem execute_limited (limit : Nat) : execute ext store { query with limit := some limit } formatTs =
    ⟨((selected ext store query).map (rowOf ext formatTs)).take limit, (selected ext store query).length,
      limit < (selected ext store query).length⟩ := by
  have same : selected ext store { query with limit := some limit } = selected ext store query := rfl
  simp only [execute, rows_eq, List.length_map, same]
  split
  · simp [*]
  · rename_i fits
    simpa [fits] using Nat.le_of_not_lt fits

/-- The limit cuts what the guard has passed and the sort has ordered. -/
theorem executeMerge_eq (limit : Option Nat) : executeMerge ext store { query with limit := limit } =
    match kindGuard ext query.kindKey (fragments ext store query) with
    | .error error => some (.error error)
    | .ok _ => (ordering ext store query).map fun sorted => .ok (assemble (capped limit sorted)) := rfl

/-- The JSON rows and the merged document, with and without a limit, on one store. -/
structure ModesAgree (ext : External) (store : NoteStore) (query : ParsedQuery)
    (formatTs : Instant → Text) : Prop where
  merged : kindGuard ext query.kindKey (fragments ext store query) = .ok () →
    ∃ notes : List Note, (notes.map Note.path).Nodup ∧
      (∀ note ∈ notes, store.get note.path = some note) ∧
      executeMerge ext store { query with limit := none } =
        some (.ok (assemble (notes.map (fragmentOf query)))) ∧
      (notes.map (rowOf ext formatTs)).Perm
        (execute ext store { query with limit := none } formatTs).results ∧
      (query.order = none → notes.map (rowOf ext formatTs) =
        (execute ext store { query with limit := none } formatTs).results)
  limited : ∀ n, let all := execute ext store { query with limit := none } formatTs
    let capped := execute ext store { query with limit := some n } formatTs
    all.total = all.results.length ∧ capped.results = all.results.take (min n all.total) ∧
      capped.total = all.total ∧ (capped.truncated = true ↔ n < all.total)
  document : ∀ n,
    (∃ error, executeMerge ext store { query with limit := none } = some (.error error) ∧
      executeMerge ext store { query with limit := some n } = some (.error error)) ∨
    ∃ sorted, ordering ext store query = some sorted ∧
      executeMerge ext store { query with limit := none } = some (.ok (assemble sorted)) ∧
      executeMerge ext store { query with limit := some n } =
        some (.ok (assemble (sorted.take
          (min n (execute ext store { query with limit := none } formatTs).total))))

theorem length_ordering {sorted : List Fragment} (arranged : ordering ext store query = some sorted) :
    sorted.length = (selected ext store query).length := by
  obtain ⟨merged, perm, rfl, -⟩ := exists_ordering arranged
  rw [List.length_map, perm.length_eq]

/-- The modes agree exactly where the merge comes to an end. -/
theorem modesAgree_iff : ModesAgree ext store query formatTs ↔
    (kindGuard ext query.kindKey (fragments ext store query) = .ok () →
      (ordering ext store query).isSome = true) := by
  constructor
  · intro agree passed
    obtain ⟨notes, -, -, merged, -⟩ := agree.merged passed
    cases arranged : ordering ext store query with
    | some sorted => rfl
    | none =>
      rw [executeMerge_eq, passed, arranged] at merged
      cases merged
  · intro ends
    constructor
    case merged =>
      intro passed
      obtain ⟨sorted, arranged⟩ := Option.isSome_iff_exists.mp (ends passed)
      obtain ⟨notes, perm, rfl, unordered⟩ := exists_ordering arranged
      refine ⟨notes, ((perm.map _).nodup_iff).mpr selected_distinct, fun note member => ?_, ?_, ?_, ?_⟩
      · exact mem_selected (perm.mem_iff.mp member)
      · rw [executeMerge_eq, passed, arranged]
        rfl
      · rw [execute_unlimited]
        exact perm.map _
      · intro order
        rw [execute_unlimited, unordered order]
    case limited =>
      intro n
      rw [execute_unlimited, execute_limited]
      simp [List.take_eq_take_iff]
    case document =>
      intro n
      rw [executeMerge_eq, executeMerge_eq, execute_unlimited]
      cases guard : kindGuard ext query.kindKey (fragments ext store query) with
      | error error => exact .inl ⟨error, rfl, rfl⟩
      | ok passed =>
        obtain ⟨sorted, arranged⟩ := Option.isSome_iff_exists.mp (ends guard)
        have cut : sorted.take n = sorted.take (min n (selected ext store query).length) := by
          rw [← length_ordering arranged, ← List.take_eq_take_min]
        rw [arranged]
        refine .inr ⟨sorted, rfl, rfl, ?_⟩
        dsimp only
        rw [← cut]
        rfl

/-- The modes agree, whatever sort keeps the promise of `sort_by`, exactly where the guard
refuses the notes or the comparator of their order is transitive on them. -/
theorem modes_agree_iff : (∀ sortBy, ModesAgree (ext.sorting sortBy) store query formatTs) ↔
    kindGuard ext query.kindKey (fragments ext store query) ≠ .ok () ∨ Orderly ext store query := by
  have guarded : ∀ sortBy, kindGuard (ext.sorting sortBy) query.kindKey
      (fragments (ext.sorting sortBy) store query) = kindGuard ext query.kindKey (fragments ext store query) :=
    fun _ => rfl
  simp only [modesAgree_iff, guarded]
  rw [forall_comm, always_sorted_iff, imp_iff_not_or]

/-- The notes `00.md` to `59.md`, whose numbers are written as numbers and as texts by turns. -/
def numberedNote (i : Nat) : Note where
  path := [Nat.digitChar (i / 10), Nat.digitChar (i % 10)] ++ ".md".toList
  frontmatter := (∅ : Frontmatter).insert "num".toList
    (if i % 2 = 0 then .int (Int64.ofNat i) else .string (intText i))
  body := []
  rawBytes := []
  lastModified := ⟨0, 0⟩
  etag := []
  size := 0

def numbered : NoteStore := .replace ((List.range 60).map numberedNote)

def byNumber : ParsedQuery := { order := some ⟨"num".toList, false⟩ }

theorem fragment_numbered {i : Nat} (listed : numbered.get (numberedNote i).path = some (numberedNote i)) :
    fragmentOf byNumber (numberedNote i) ∈ fragments .bare numbered byNumber := by
  rw [fragments_eq]
  exact List.mem_map_of_mem (mem_selected_iff.mpr
    ⟨listed, by simp [byNumber, pathMatches], by simp [byNumber, predicatesMatch]⟩)

/-- The number 8 stands before the number 10, that before the text 11, and that before
the number 8: where `sort_by` gives up, there is no document. -/
theorem numbers_and_texts_unmerged :
    let ext := External.bare.sorting .refusing
    executeMerge ext numbered byNumber = none ∧ ¬ ModesAgree ext numbered byNumber ext.printInstant := by
  have cyclic : ¬ TotalOn (fragmentCmp .bare false) (fragments .bare numbered byNumber) := by
    intro total
    have closes := total.closed _ (@fragment_numbered 8 rfl) _ (@fragment_numbered 10 rfl) _
      (@fragment_numbered 11 rfl) (by decide +kernel) (by decide +kernel)
    exact absurd closes (by decide +kernel)
  have unsorted : ordering (External.bare.sorting .refusing) numbered byNumber = none :=
    SortBy.refusing_eq_none cyclic
  have unmerged : executeMerge (External.bare.sorting .refusing) numbered byNumber = none := by
    rw [show byNumber = { byNumber with limit := none } from rfl, executeMerge_eq, unsorted]
    rfl
  refine ⟨unmerged, fun agree => ?_⟩
  obtain ⟨notes, -, -, merged, -⟩ := agree.merged rfl
  exact absurd (unmerged.symm.trans merged) (by simp)

end Anwesen.Query

import Anwesen.Foundation.Grouping
import Anwesen.Http.Notes
import Anwesen.Query.Execution
import Anwesen.Query.Scoping

/-! Folder listings and queries scoped to the folder.

A listing groups the notes below its folder by what follows the folder in their
paths; a query tests each path against the folder. Both pick the same notes.
-/

set_option autoImplicit false

namespace Anwesen.Http

open Foundation Vault Query

/-- What the paths of notes below a folder start with. -/
def folderPrefix (folder : Text) : Text := if folder = [] then [] else folder ++ ['/']

/-- The notes below a prefix, each with the rest of its path. -/
def below (start : Text) (items : List (Text × Note)) : List (Text × Note) :=
  items.filterMap fun item =>
    match Text.stripPrefix start item.1 with
    | none | some [] => none
    | some rel => some (rel, item.2)

def firstSegment (rel : Text) : Text := rel.takeWhile (· ≠ '/')

def later (entry : Option Instant) (item : Text × Note) : Instant :=
  match entry with
  | some t => if item.2.lastModified.compare t = .gt then item.2.lastModified else t
  | none => item.2.lastModified

def leaf (_ : Option (Instant × Nat)) (item : Text × Note) : Instant × Nat :=
  (item.2.lastModified, item.2.size)

section

variable {start : Text} {items : List (Text × Note)} {listing : Listing}

theorem insert_eq_alter {β γ : Type} [Ord β] [Std.TransOrd β] [Std.LawfulEqOrd β]
    (groups : Std.ExtTreeMap β γ) (key : β) (value : γ) :
    groups.insert key value = groups.alter key fun _ => some value := by
  refine Std.ExtTreeMap.ext_getElem? fun other => ?_
  simp [Std.ExtTreeMap.getElem?_insert, Std.ExtTreeMap.getElem?_alter]

/-- A listing is two groupings, of the files by their names and of deeper notes
by their first segments. -/
theorem foldl_visit (items : List (Text × Note)) (listing : Listing) :
    let rels := below start items
    items.foldl (fun listing item => Listing.visit start listing item.1 item.2) listing =
      { files := grouped Prod.fst leaf listing.files (rels.filter (!·.1.contains '/'))
        dirs := grouped (firstSegment ·.1) later listing.dirs (rels.filter (·.1.contains '/'))
        foundAny := listing.foundAny || !rels.isEmpty } := by
  induction items generalizing listing with
  | nil => simp [below, grouped]
  | cons item items ih =>
    rw [List.foldl_cons]
    refine (ih _).trans ?_
    cases stripped : Text.stripPrefix start item.1 with
    | none => simp [below, Listing.visit, stripped]
    | some rel =>
      cases rel with
      | nil => simp [below, Listing.visit, stripped]
      | cons char rel =>
        have cut : below start (item :: items) = (char :: rel, item.2) :: below start items := by
          simp [below, stripped]
        rw [cut]
        by_cases deep : (char :: rel).contains '/' = true
        · simp only [Listing.visit, stripped, deep, if_true, List.filter_cons, Bool.not_true,
            Bool.false_eq_true, if_false, grouped, List.foldl_cons]
          congr 1
          · refine congrArg (fun dirs => List.foldl _ dirs _) (congrArg (listing.dirs.alter _) ?_)
            funext entry
            cases entry <;> rfl
          · simp
        · simp only [Listing.visit, stripped, deep, if_true, List.filter_cons, Bool.not_false,
            Bool.false_eq_true, if_false, grouped, List.foldl_cons]
          congr 1
          · rw [insert_eq_alter]
            rfl
          · simp

theorem mem_below {rel : Text} {note : Note} : (rel, note) ∈ below start items ↔
    rel ≠ [] ∧ (start ++ rel, note) ∈ items := by
  simp only [below, List.mem_filterMap]
  constructor
  · rintro ⟨item, member, found⟩
    cases stripped : Text.stripPrefix start item.1 with
    | none => simp [stripped] at found
    | some rest =>
      cases rest with
      | nil => simp [stripped] at found
      | cons char rest =>
        simp only [stripped, Option.some.injEq, Prod.mk.injEq] at found
        obtain ⟨rfl, rfl⟩ := found
        rw [← Text.stripPrefix_eq_some.mp stripped]
        exact ⟨List.cons_ne_nil _ _, member⟩
  · rintro ⟨nonempty, member⟩
    have stripped : Text.stripPrefix start (start ++ rel) = some rel :=
      Text.stripPrefix_eq_some.mpr rfl
    refine ⟨_, member, ?_⟩
    cases rel with
    | nil => exact absurd rfl nonempty
    | cons char rel => simp [stripped]

theorem foldl_leaf (items : List (Text × Note)) :
    items.foldl (fun entry item => some (leaf entry item)) none = items.getLast?.map (leaf none) := by
  induction items using List.reverseRec with
  | nil => rfl
  | append_singleton items item _ => simp [leaf]

/-- The running maximum is one of the timestamps, and none is later. -/
theorem foldl_later (items : List (Text × Note)) (t : Instant) :
    ∃ latest, items.foldl (fun entry item => some (later entry item)) (some t) = some latest ∧
      (latest = t ∨ ∃ item ∈ items, item.2.lastModified = latest) ∧
      (t.compare latest).isLE = true ∧
      ∀ item ∈ items, (item.2.lastModified.compare latest).isLE = true := by
  have self : ∀ i : Instant, i.compare i = .eq := fun _ => Std.ReflCmp.compare_self
  induction items generalizing t with
  | nil => exact ⟨t, rfl, .inl rfl, by simp [self], by simp⟩
  | cons item items ih =>
    obtain ⟨latest, folded, origin, start, all⟩ := ih (later (some t) item)
    refine ⟨latest, folded, ?_, ?_⟩
    · rcases origin with rfl | ⟨other, member, same⟩
      · by_cases newer : item.2.lastModified.compare t = .gt
        · exact .inr ⟨item, List.mem_cons_self, by simp [later, newer]⟩
        · exact .inl (by simp [later, newer])
      · exact .inr ⟨other, List.mem_cons_of_mem _ member, same⟩
    · -- the step keeps the later of the two
      have step : (t.compare (later (some t) item)).isLE = true ∧
          (item.2.lastModified.compare (later (some t) item)).isLE = true := by
        by_cases newer : item.2.lastModified.compare t = .gt
        · have older : t.compare item.2.lastModified = .lt := Std.OrientedCmp.gt_iff_lt.mp newer
          simp [later, newer, older, self]
        · simp [later, newer, self, Ordering.isLE_iff_ne_gt]
      refine ⟨Std.TransCmp.isLE_trans step.1 start, fun other member => ?_⟩
      rcases List.mem_cons.mp member with rfl | listed
      · exact Std.TransCmp.isLE_trans step.2 start
      · exact all other listed

end

/-! The notes below a folder. -/

/-- Every path of the store consists of nonempty segments. -/
def PlainStore (store : NoteStore) : Prop :=
  ∀ path note, store.get path = some note → [] ∉ path.splitOn '/'

/-- The notes of a store below a folder, each with the rest of its path. -/
def belowFolder (store : NoteStore) (folder : Text) : List (Text × Note) :=
  below (folderPrefix folder) store.inner.toList

def listing (store : NoteStore) (folder : Text) : Listing :=
  store.inner.toList.foldl
    (fun listing item => Listing.visit (folderPrefix folder) listing item.1 item.2) {}

section

variable {ext : External} {store : NoteStore} {folder name rel path : Text} {note : Note}

theorem mem_belowFolder : (rel, note) ∈ belowFolder store folder ↔
    rel ≠ [] ∧ store.get (folderPrefix folder ++ rel) = some note := by
  rw [belowFolder, mem_below, Std.ExtTreeMap.mem_toList_iff_getElem?_eq_some]
  rfl

theorem listing_eq : listing store folder =
    { files := grouped Prod.fst leaf ∅ ((belowFolder store folder).filter (!·.1.contains '/'))
      dirs := grouped (firstSegment ·.1) later ∅ ((belowFolder store folder).filter (·.1.contains '/'))
      foundAny := !(belowFolder store folder).isEmpty } := by
  refine (foldl_visit _ _).trans ?_
  rw [Bool.false_or]
  rfl

/-- Under a name stands the note of that name. -/
theorem listing_files_iff {value : Instant × Nat} : (listing store folder).files[name]? = some value ↔
    ∃ note, (name, note) ∈ belowFolder store folder ∧ '/' ∉ name ∧
      value = (note.lastModified, note.size) := by
  rw [listing_eq]
  simp only [getElem?_grouped, Std.ExtTreeMap.getElem?_empty, foldl_leaf, Option.map_eq_some_iff]
  generalize kept : ((belowFolder store folder).filter (!·.1.contains '/')).filter (·.1 = name) = items
  have mem_items : ∀ item, item ∈ items ↔ item ∈ belowFolder store folder ∧ '/' ∉ item.1 ∧ item.1 = name := by
    intro item
    simp [← kept, and_comm]
  constructor
  · rintro ⟨item, last, rfl⟩
    obtain ⟨member, leafy, rfl⟩ := (mem_items item).mp (List.mem_of_getLast? last)
    exact ⟨item.2, member, leafy, rfl⟩
  · rintro ⟨note, member, leafy, rfl⟩
    have listed := (mem_items (name, note)).mpr ⟨member, leafy, rfl⟩
    obtain ⟨item, last⟩ := List.getLast?_isSome.mpr (List.ne_nil_of_mem listed) |> Option.isSome_iff_exists.mp
    obtain ⟨other, -, same⟩ := (mem_items item).mp (List.mem_of_getLast? last)
    -- one note stands under the path
    have found := (mem_belowFolder.mp (show (item.1, item.2) ∈ belowFolder store folder from other)).2
    rw [same, (mem_belowFolder.mp member).2] at found
    exact ⟨item, last, by rw [leaf, Option.some.inj found]⟩

theorem mem_listing_dirs : name ∈ (listing store folder).dirs ↔
    ∃ item ∈ belowFolder store folder, '/' ∈ item.1 ∧ firstSegment item.1 = name := by
  simp [listing_eq, mem_grouped, and_assoc]

theorem listing_dirs_latest {latest : Instant} (found : (listing store folder).dirs[name]? = some latest) :
    (∃ item ∈ belowFolder store folder, '/' ∈ item.1 ∧ firstSegment item.1 = name ∧
      item.2.lastModified = latest) ∧
    ∀ item ∈ belowFolder store folder, '/' ∈ item.1 → firstSegment item.1 = name →
      (item.2.lastModified.compare latest).isLE = true := by
  rw [listing_eq] at found
  simp only [getElem?_grouped, Std.ExtTreeMap.getElem?_empty] at found
  generalize kept : ((belowFolder store folder).filter (·.1.contains '/')).filter
    (firstSegment ·.1 = name) = items at found
  have mem_items : ∀ item, item ∈ items ↔
      item ∈ belowFolder store folder ∧ '/' ∈ item.1 ∧ firstSegment item.1 = name := by
    intro item
    simp [← kept, and_comm]
  cases items with
  | nil => cases found
  | cons first items =>
    obtain ⟨latest', folded, origin, start, all⟩ := foldl_later items first.2.lastModified
    obtain rfl : latest' = latest := Option.some.inj (folded.symm.trans found)
    constructor
    · rcases origin with rfl | ⟨item, member, same⟩
      · obtain ⟨inside, deep, named⟩ := (mem_items first).mp List.mem_cons_self
        exact ⟨first, inside, deep, named, rfl⟩
      · obtain ⟨inside, deep, named⟩ := (mem_items item).mp (List.mem_cons_of_mem _ member)
        exact ⟨item, inside, deep, named, same⟩
    · intro item inside deep named
      rcases List.mem_cons.mp ((mem_items item).mpr ⟨inside, deep, named⟩) with rfl | member
      · exact start
      · exact all item member

/-- The segments of a path below a canonical folder. -/
theorem splitOn_below (canonical : Canonical folder) (rel : Text) :
    (folderPrefix folder ++ rel).splitOn '/' = segments folder ++ rel.splitOn '/' := by
  rcases canonical with rfl | clean
  · rfl
  · have nonempty : folder ≠ [] := by
      rintro rfl
      exact clean (List.mem_singleton_self [])
    rw [folderPrefix, if_neg nonempty, segments_eq_splitOn clean, List.append_assoc,
      List.singleton_append, List.splitOn_append_cons_self]

/-- Below a folder by segments is below it by prefix. -/
theorem prefix_segments_iff (canonical : Canonical folder) (plain : [] ∉ path.splitOn '/')
    (other : path ≠ folder) :
    segments folder <+: path.splitOn '/' ↔ ∃ rel, rel ≠ [] ∧ path = folderPrefix folder ++ rel := by
  constructor
  · intro front
    rcases canonical with rfl | clean
    · exact ⟨path, other, rfl⟩
    · have nonempty : folder ≠ [] := by
        rintro rfl
        exact clean (List.mem_singleton_self [])
      rw [segments_eq_splitOn clean] at front
      obtain ⟨rel, rfl⟩ := splitOn_prefix_iff.mpr ⟨front, other.symm⟩
      refine ⟨rel, ?_, by rw [folderPrefix, if_neg nonempty]⟩
      rintro rfl
      refine plain ?_
      rw [List.append_assoc, List.singleton_append, List.splitOn_append_cons_self]
      simp
  · rintro ⟨rel, -, rfl⟩
    rw [splitOn_below canonical]
    exact List.prefix_append _ _

theorem exists_splitOn (rel : Text) :
    ∃ rest, rel.splitOn '/' = firstSegment rel :: rest ∧ (rest = [] ↔ '/' ∉ rel) := by
  have head : ∃ rest, rel.splitOn '/' = firstSegment rel :: rest := by
    induction rel with
    | nil => exact ⟨[], rfl⟩
    | cons char rel ih =>
      obtain ⟨rest, split⟩ := ih
      rw [List.splitOn_cons_eq_if_modifyHead, split]
      by_cases slash : char = '/'
      · exact ⟨firstSegment rel :: rest, by simp [slash, firstSegment]⟩
      · exact ⟨rest, by simp [slash, firstSegment]⟩
  obtain ⟨rest, split⟩ := head
  refine ⟨rest, split, ?_⟩
  rw [← length_splitOn_le_one, split]
  simp

theorem canonical_intercalate {front : List Text} (names : ∀ seg ∈ front, seg ≠ [] ∧ '/' ∉ seg) :
    Canonical (['/'].intercalate front) ∧ segments (['/'].intercalate front) = front := by
  by_cases none_ : front = []
  · subst none_
    exact ⟨.inl rfl, rfl⟩
  · have split := List.splitOn_intercalate '/' (fun seg member => (names seg member).2) none_
    have clean : [] ∉ (['/'].intercalate front).splitOn '/' := by
      rw [split]
      exact fun member => (names [] member).1 rfl
    exact ⟨.inr clean, (segments_eq_splitOn clean).trans split⟩

theorem dropWhile_canonical (canonical : Canonical folder) : folder.dropWhile (· = '/') = folder := by
  cases folder with
  | nil => rfl
  | cons char folder =>
    refine List.dropWhile_cons_of_neg ?_
    rintro slash
    obtain rfl : char = '/' := by simpa using slash
    have split : ('/' :: folder).splitOn '/' = [] :: folder.splitOn '/' :=
      List.splitOn_append_cons_self [] folder
    rcases canonical with empty | clean
    · cases empty
    · exact clean (by simp [split])

theorem path_of_mem_below (member : (rel, note) ∈ belowFolder store folder) :
    note.path = folderPrefix folder ++ rel ∧ store.get note.path = some note := by
  have found := (mem_belowFolder.mp member).2
  have path := NoteStore.path_of_get found
  exact ⟨path, by rw [path, found]⟩

/-- What extends the segments of a folder is below it. -/
theorem exists_mem_below (plain : PlainStore store) (canonical : Canonical folder)
    (held : store.get note.path = some note) {seg : Text} {rest : List Text}
    (split : note.path.splitOn '/' = segments folder ++ seg :: rest) :
    ∃ rel, (rel, note) ∈ belowFolder store folder ∧ rel.splitOn '/' = seg :: rest := by
  have other : note.path ≠ folder := by
    intro same
    rcases canonical with rfl | clean
    · rw [same] at held
      exact plain [] note held (List.mem_singleton_self [])
    · rw [same, segments_eq_splitOn clean] at split
      simp at split
  obtain ⟨rel, nonempty, path⟩ := (prefix_segments_iff canonical (plain _ _ held) other).mp
    (split ▸ List.prefix_append _ _)
  refine ⟨rel, mem_belowFolder.mpr ⟨nonempty, path ▸ held⟩, ?_⟩
  rw [path, splitOn_below canonical] at split
  exact List.append_cancel_left split

end

/-! The listing as an answer. -/

def entries (answer : Response) : List FolderEntry :=
  match answer.body with
  | .folder listed => listed.entries
  | _ => []

def fileEntries (answer : Response) : List FolderEntry :=
  (entries answer).filter (·.kind = "file".toList)

def dirEntries (answer : Response) : List FolderEntry :=
  (entries answer).filter (·.kind = "dir".toList)

/-- A path leads on below a folder, under this next segment. -/
def Deeper (folder name path : Text) : Prop :=
  ∃ rest, rest ≠ [] ∧ path.splitOn '/' = segments folder ++ name :: rest

/-- A listing describes what the queries scoped to its folder return: the files
are the children, the directories the next segments of the rest. -/
structure Describes (ext : External) (store : NoteStore) (folder : Text)
    (children subtree : QueryResponse) : Prop where
  files : ((fileEntries (listFolder ext store folder)).map fun e =>
      (folderPrefix folder ++ e.name, e.lastModified, e.size)).Perm
    (children.results.map fun row => (row.path, row.lastModified, some row.size))
  distinct : ((dirEntries (listFolder ext store folder)).map FolderEntry.name).Nodup
  dirs : ∀ name, name ∈ (dirEntries (listFolder ext store folder)).map FolderEntry.name ↔
    ∃ row ∈ subtree.results, Deeper folder name row.path
  latest : ∀ e ∈ dirEntries (listFolder ext store folder), e.size = none ∧
    ∃ latest, e.lastModified = ext.printInstant latest ∧
      (∃ note, store.get note.path = some note ∧ Deeper folder e.name note.path ∧
        note.lastModified = latest) ∧
      ∀ note, store.get note.path = some note → Deeper folder e.name note.path →
        (note.lastModified.compare latest).isLE = true
  sorted : (entries (listFolder ext store folder)).Pairwise fun a b =>
    (compare a.name b.name).isLE = true
  missing : folder ≠ [] → ((listFolder ext store folder).status = 404 ↔ subtree.results = [])

section

variable (ext : External)

def fileEntry (item : Text × Instant × Nat) : FolderEntry :=
  ⟨item.1, "file".toList, ext.printInstant item.2.1, some item.2.2⟩

def dirEntry (item : Text × Instant) : FolderEntry :=
  ⟨item.1, "dir".toList, ext.printInstant item.2, none⟩

end

section

variable {ext : External} {store : NoteStore} {folder name rel path : Text} {note : Note}

theorem listFolder_eq : listFolder ext store folder =
    if !(listing store folder).foundAny && folder ≠ [] then notFound
    else ⟨200, some "application/json".toList, none, .folder ⟨folder,
      ((listing store folder).files.toList.map (fileEntry ext) ++
        (listing store folder).dirs.toList.map (dirEntry ext)).mergeSort fun a b =>
          (compare a.name b.name).isLE⟩⟩ := rfl

theorem entries_perm : (entries (listFolder ext store folder)).Perm
    ((listing store folder).files.toList.map (fileEntry ext) ++
      (listing store folder).dirs.toList.map (dirEntry ext)) := by
  rw [listFolder_eq]
  split
  · rename_i missing
    rw [Bool.and_eq_true] at missing
    have none_ : belowFolder store folder = [] := by
      simpa [listing_eq] using missing.1
    simp [listing_eq, none_, grouped, notFound, entries]
  · exact List.mergeSort_perm _ _

theorem filter_kind {kind : Text} {first rest : List FolderEntry} (same : ∀ e ∈ first, e.kind = kind)
    (other : ∀ e ∈ rest, e.kind ≠ kind) : (first ++ rest).filter (·.kind = kind) = first := by
  have kept : first.filter (·.kind = kind) = first :=
    List.filter_eq_self.mpr fun e member => decide_eq_true (same e member)
  have dropped : rest.filter (·.kind = kind) = [] :=
    List.filter_eq_nil_iff.mpr fun e member => by simpa using other e member
  rw [List.filter_append, kept, dropped, List.append_nil]

theorem fileEntries_perm : (fileEntries (listFolder ext store folder)).Perm
    ((listing store folder).files.toList.map (fileEntry ext)) := by
  refine (entries_perm.filter _).trans (List.Perm.of_eq (filter_kind ?_ ?_))
  · exact List.forall_mem_map.mpr fun _ _ => rfl
  · exact List.forall_mem_map.mpr fun _ _ => (by decide : "dir".toList ≠ "file".toList)

theorem dirEntries_perm : (dirEntries (listFolder ext store folder)).Perm
    ((listing store folder).dirs.toList.map (dirEntry ext)) := by
  refine ((entries_perm.trans List.perm_append_comm).filter _).trans
    (List.Perm.of_eq (filter_kind ?_ ?_))
  · exact List.forall_mem_map.mpr fun _ _ => rfl
  · exact List.forall_mem_map.mpr fun _ _ => (by decide : "file".toList ≠ "dir".toList)

theorem entries_sorted : (entries (listFolder ext store folder)).Pairwise fun a b =>
    (compare a.name b.name).isLE = true := by
  rw [listFolder_eq]
  split
  · exact .nil
  · refine List.pairwise_mergeSort (fun a b c => ?_) (fun a b => ?_) _
    · exact Std.TransCmp.isLE_trans
    · have flipped : (compare b.name a.name).isLE = (compare a.name b.name).isGE :=
        Std.OrientedCmp.isGE_eq_isLE.symm
      rw [flipped]
      cases compare a.name b.name <;> rfl

theorem mem_selected_scoped {recursive : Bool} (canonical : Canonical folder) :
    note ∈ selected ext store { pathPrefix := some folder, recursive := recursive } ↔
      store.get note.path = some note ∧ Under (segments folder) recursive note.path := by
  rw [mem_selected_iff, ← pathMatches_canonical canonical]
  simp [predicatesMatch]

theorem results_eq {query : ParsedQuery} (unlimited : query.limit = none) :
    (execute ext store query ext.printInstant).results =
      (selected ext store query).map (rowOf ext ext.printInstant) := by
  simp only [execute, unlimited, rows_eq]

/-- The children of a folder are the notes below it without a further slash. -/
theorem under_false_iff (plain : PlainStore store) (canonical : Canonical folder)
    (other : store.get folder = none) :
    store.get note.path = some note ∧ Under (segments folder) false note.path ↔
      ∃ name, (name, note) ∈ belowFolder store folder ∧ '/' ∉ name := by
  constructor
  · rintro ⟨held, front, short⟩
    have different : note.path ≠ folder := by
      intro same
      rw [same, other] at held
      cases held
    obtain ⟨name, nonempty, path⟩ :=
      (prefix_segments_iff canonical (plain _ _ held) different).mp front
    refine ⟨name, mem_belowFolder.mpr ⟨nonempty, path ▸ held⟩, ?_⟩
    rw [← length_splitOn_le_one]
    have bound := short rfl
    rw [path, splitOn_below canonical, List.length_append] at bound
    omega
  · rintro ⟨name, member, leafy⟩
    obtain ⟨path, held⟩ := path_of_mem_below member
    have bound := length_splitOn_le_one.mpr leafy
    refine ⟨held, ?_⟩
    rw [Under, path, splitOn_below canonical, List.length_append]
    exact ⟨List.prefix_append _ _, fun _ => by omega⟩

theorem deeper_iff (canonical : Canonical folder) (member : (rel, note) ∈ belowFolder store folder) :
    Deeper folder name note.path ↔ '/' ∈ rel ∧ firstSegment rel = name := by
  obtain ⟨path, -⟩ := path_of_mem_below member
  obtain ⟨rest, split, single⟩ := exists_splitOn rel
  rw [Deeper, path, splitOn_below canonical, split]
  constructor
  · rintro ⟨others, nonempty, same⟩
    obtain ⟨rfl, rfl⟩ := List.cons.inj (List.append_cancel_left same)
    exact ⟨not_not.mp (mt single.mpr nonempty), rfl⟩
  · rintro ⟨deep, rfl⟩
    exact ⟨rest, fun empty => single.mp empty deep, rfl⟩

/-- The files of a listing are the rows of the query for the folder's children. -/
theorem files_perm (plain : PlainStore store) (canonical : Canonical folder)
    (other : store.get folder = none) :
    ((fileEntries (listFolder ext store folder)).map fun e =>
      (folderPrefix folder ++ e.name, e.lastModified, e.size)).Perm
    ((execute ext store { pathPrefix := some folder, recursive := false } ext.printInstant).results.map
      fun row => (row.path, row.lastModified, some row.size)) := by
  rw [results_eq rfl, List.map_map]
  refine (fileEntries_perm.map _).trans ?_
  rw [List.map_map]
  refine (List.perm_ext_iff_of_nodup ?_ ?_).mpr fun row => ?_
  · refine List.pairwise_map.mpr ((listing store folder).files.distinct_keys_toList.imp ?_)
    intro a b differ same
    have names : a.1 = b.1 := List.append_cancel_left (congrArg Prod.fst same)
    exact differ (by simp [names])
  · refine List.Nodup.of_map Prod.fst ?_
    rw [List.map_map]
    exact selected_distinct
  · simp only [List.mem_map, Function.comp_apply]
    constructor
    · rintro ⟨⟨name, value⟩, listed, rfl⟩
      have found := Std.ExtTreeMap.mem_toList_iff_getElem?_eq_some.mp listed
      obtain ⟨note, member, leafy, rfl⟩ := listing_files_iff.mp found
      have inside := (under_false_iff plain canonical other).mpr ⟨name, member, leafy⟩
      refine ⟨note, (mem_selected_scoped canonical).mpr inside, ?_⟩
      simp [rowOf, fileEntry, (path_of_mem_below member).1]
    · rintro ⟨note, inside, rfl⟩
      obtain ⟨name, member, leafy⟩ := (under_false_iff plain canonical other).mp
        ((mem_selected_scoped canonical).mp inside)
      have found := listing_files_iff.mpr ⟨note, member, leafy, rfl⟩
      refine ⟨(name, _), Std.ExtTreeMap.mem_toList_iff_getElem?_eq_some.mpr found, ?_⟩
      simp [rowOf, fileEntry, (path_of_mem_below member).1]

theorem mem_dirNames : name ∈ (dirEntries (listFolder ext store folder)).map FolderEntry.name ↔
    name ∈ (listing store folder).dirs := by
  rw [(dirEntries_perm.map _).mem_iff, List.map_map, ← Std.ExtTreeMap.mem_keys,
    ← Std.ExtTreeMap.map_fst_toList_eq_keys]
  rfl

theorem dirs_distinct : ((dirEntries (listFolder ext store folder)).map FolderEntry.name).Nodup := by
  refine (dirEntries_perm.map _).nodup_iff.mpr ?_
  have keys := (listing store folder).dirs.nodup_keys
  rw [← Std.ExtTreeMap.map_fst_toList_eq_keys] at keys
  rw [List.map_map]
  exact keys

/-- A directory is listed for every next segment below which there is a note. -/
theorem mem_dirNames_iff (plain : PlainStore store) (canonical : Canonical folder) :
    name ∈ (dirEntries (listFolder ext store folder)).map FolderEntry.name ↔
      ∃ note, store.get note.path = some note ∧ Deeper folder name note.path := by
  rw [mem_dirNames, mem_listing_dirs]
  constructor
  · rintro ⟨item, member, deep, named⟩
    have inside : (item.1, item.2) ∈ belowFolder store folder := member
    exact ⟨item.2, (path_of_mem_below inside).2, (deeper_iff canonical inside).mpr ⟨deep, named⟩⟩
  · rintro ⟨note, held, deeper⟩
    obtain ⟨rest, nonempty, split⟩ := deeper
    obtain ⟨rel, member, -⟩ := exists_mem_below plain canonical held split
    have named := (deeper_iff canonical member).mp ⟨rest, nonempty, split⟩
    exact ⟨(rel, note), member, named⟩

theorem dirs_latest (plain : PlainStore store) (canonical : Canonical folder) :
    ∀ e ∈ dirEntries (listFolder ext store folder), e.size = none ∧
      ∃ latest, e.lastModified = ext.printInstant latest ∧
        (∃ note, store.get note.path = some note ∧ Deeper folder e.name note.path ∧
          note.lastModified = latest) ∧
        ∀ note, store.get note.path = some note → Deeper folder e.name note.path →
          (note.lastModified.compare latest).isLE = true := by
  intro e member
  obtain ⟨⟨name, latest⟩, listed, rfl⟩ := List.mem_map.mp (dirEntries_perm.mem_iff.mp member)
  have found := Std.ExtTreeMap.mem_toList_iff_getElem?_eq_some.mp listed
  obtain ⟨⟨item, inside, deep, named, same⟩, all⟩ := listing_dirs_latest found
  have below_ : (item.1, item.2) ∈ belowFolder store folder := inside
  refine ⟨rfl, latest, rfl, ⟨item.2, (path_of_mem_below below_).2, ?_, same⟩, ?_⟩
  · exact (deeper_iff canonical below_).mpr ⟨deep, named⟩
  · intro note held deeper
    obtain ⟨rest, nonempty, split⟩ := deeper
    obtain ⟨rel, inside', -⟩ := exists_mem_below plain canonical held split
    obtain ⟨deep', named'⟩ := (deeper_iff canonical inside').mp ⟨rest, nonempty, split⟩
    exact all (rel, note) inside' deep' named'

/-- The rows of the recursive query are the notes below the folder. -/
theorem exists_row_iff (plain : PlainStore store) (canonical : Canonical folder)
    (other : store.get folder = none) {property : Text → Prop} :
    (∃ row ∈ (execute ext store { pathPrefix := some folder } ext.printInstant).results,
      property row.path) ↔ ∃ item ∈ belowFolder store folder, property item.2.path := by
  have selected_iff (note : Note) : note ∈ selected ext store { pathPrefix := some folder } ↔
      ∃ rel, (rel, note) ∈ belowFolder store folder := by
    have picked : note ∈ selected ext store { pathPrefix := some folder } ↔
        store.get note.path = some note ∧ Under (segments folder) true note.path :=
      mem_selected_scoped canonical
    rw [picked]
    constructor
    · rintro ⟨held, front, -⟩
      have different : note.path ≠ folder := by
        intro same
        rw [same, other] at held
        cases held
      obtain ⟨rel, nonempty, path⟩ :=
        (prefix_segments_iff canonical (plain _ _ held) different).mp front
      exact ⟨rel, mem_belowFolder.mpr ⟨nonempty, path ▸ held⟩⟩
    · rintro ⟨rel, member⟩
      obtain ⟨path, held⟩ := path_of_mem_below member
      refine ⟨held, ?_, nofun⟩
      rw [path, splitOn_below canonical]
      exact List.prefix_append _ _
  rw [results_eq rfl]
  constructor
  · rintro ⟨row, listed, holds⟩
    obtain ⟨note, inside, rfl⟩ := List.mem_map.mp listed
    obtain ⟨rel, member⟩ := (selected_iff note).mp inside
    exact ⟨(rel, note), member, holds⟩
  · rintro ⟨item, member, holds⟩
    exact ⟨_, List.mem_map.mpr ⟨item.2, (selected_iff item.2).mpr ⟨item.1, member⟩, rfl⟩, holds⟩

theorem status_eq_404_iff (nonempty : folder ≠ []) :
    (listFolder ext store folder).status = 404 ↔ belowFolder store folder = [] := by
  rw [listFolder_eq, listing_eq]
  cases none_ : belowFolder store folder <;> simp [notFound, nonempty]

/-- A listing and the queries scoped to its folder describe the same notes. -/
theorem describes (plain : PlainStore store) (canonical : Canonical folder)
    (other : store.get folder = none) :
    Describes ext store folder
      (execute ext store { pathPrefix := some folder, recursive := false } ext.printInstant)
      (execute ext store { pathPrefix := some folder } ext.printInstant) where
  files := files_perm plain canonical other
  distinct := dirs_distinct
  dirs name := by
    rw [mem_dirNames_iff plain canonical, exists_row_iff plain canonical other]
    constructor
    · rintro ⟨note, held, rest, nonempty, split⟩
      obtain ⟨rel, member, -⟩ := exists_mem_below plain canonical held split
      exact ⟨(rel, note), member, rest, nonempty, split⟩
    · rintro ⟨item, member, deeper⟩
      have inside : (item.1, item.2) ∈ belowFolder store folder := member
      exact ⟨item.2, (path_of_mem_below inside).2, deeper⟩
  latest := dirs_latest plain canonical
  sorted := entries_sorted
  missing nonempty := by
    rw [status_eq_404_iff nonempty]
    have some_row := @exists_row_iff ext store folder plain canonical other fun _ => True
    simp only [and_true] at some_row
    rw [List.eq_nil_iff_forall_not_mem, List.eq_nil_iff_forall_not_mem]
    simpa using (not_congr some_row).symm

/-- Every step along the segments of a note is an entry of the listing it is taken from. -/
theorem descends (plain : PlainStore store) (held : store.get note.path = some note) {front : List Text}
    {seg : Text} {rest : List Text} (split : note.path.splitOn '/' = front ++ seg :: rest) :
    ∃ e ∈ entries (listFolder ext store (['/'].intercalate front)), e.name = seg ∧
      e.kind = if rest = [] then "file".toList else "dir".toList := by
  have names : ∀ other ∈ front, other ≠ [] ∧ '/' ∉ other := by
    intro other member
    have listed : other ∈ note.path.splitOn '/' := by simp [split, member]
    exact ⟨fun empty => plain _ _ held (empty ▸ listed), separable_splitOn '/' note.path other listed⟩
  obtain ⟨canonical, same⟩ := canonical_intercalate names
  by_cases last : rest = []
  · subst last
    obtain ⟨rel, member, single⟩ := exists_mem_below plain canonical held (same.symm ▸ split)
    have whole : ['/'].intercalate (rel.splitOn '/') = rel := List.intercalate_splitOn '/'
    obtain rfl : rel = seg := by rw [← whole, single, List.intercalate_singleton]
    have leafy : '/' ∉ rel := separable_splitOn '/' rel rel (by simp [single])
    have found := listing_files_iff.mpr ⟨note, member, leafy, rfl⟩
    have listed := List.mem_map_of_mem (f := fileEntry ext)
      (Std.ExtTreeMap.mem_toList_iff_getElem?_eq_some.mpr found)
    obtain ⟨inside, -⟩ := List.mem_filter.mp (fileEntries_perm.mem_iff.mpr listed)
    exact ⟨_, inside, rfl, rfl⟩
  · have deeper : Deeper (['/'].intercalate front) seg note.path := ⟨rest, last, same.symm ▸ split⟩
    have named : seg ∈ (dirEntries (listFolder ext store _)).map FolderEntry.name :=
      (mem_dirNames_iff plain canonical).mpr ⟨note, held, deeper⟩
    obtain ⟨e, listed, rfl⟩ := List.mem_map.mp named
    obtain ⟨member, kind⟩ := List.mem_filter.mp listed
    exact ⟨e, member, rfl, by simpa [last] using kind⟩

/-- For every canonical folder that is no note itself the listing and the scoped
queries describe one subtree, so that every note is reached from the root. -/
theorem listing_describes (plain : PlainStore store) :
    (∀ folder, Canonical folder → store.get folder = none → ∀ childrenRaw subtreeRaw,
      Scoped folder false childrenRaw → Scoped folder true subtreeRaw →
        ∃ children subtree, parse ext childrenRaw = .ok children ∧ parse ext subtreeRaw = .ok subtree ∧
          Describes ext store folder (execute ext store children ext.printInstant)
            (execute ext store subtree ext.printInstant)) ∧
    ∀ note, store.get note.path = some note → ∀ front seg rest,
      note.path.splitOn '/' = front ++ seg :: rest →
        ∃ e ∈ entries (listFolder ext store (['/'].intercalate front)), e.name = seg ∧
          e.kind = if rest = [] then "file".toList else "dir".toList := by
  constructor
  · intro folder canonical other childrenRaw subtreeRaw first second
    have children : parse ext childrenRaw = _ := parse_scoped first
    have subtree : parse ext subtreeRaw = _ := parse_scoped second
    rw [dropWhile_canonical canonical] at children subtree
    exact ⟨_, _, children, subtree, describes plain canonical other⟩
  · exact fun note held front seg rest split => descends plain held split

theorem listing_describes_nested :
    let store := (NoteStore.new.upsert (emptyNote "a/b.md")).upsert (emptyNote "a/c/d.md")
    ∃ children subtree, parse External.bare "__anw-path=a&__anw-recursive=false".toList = .ok children ∧
      parse External.bare "__anw-path=a".toList = .ok subtree ∧
      Describes External.bare store "a".toList
        (execute External.bare store children External.bare.printInstant)
        (execute External.bare store subtree External.bare.printInstant) := by
  intro store
  have get_eq (path : Text) : store.get path = if "a/c/d.md".toList = path then some (emptyNote "a/c/d.md")
      else if "a/b.md".toList = path then some (emptyNote "a/b.md") else none := by
    simp only [store, NoteStore.get_upsert, NoteStore.get_new]
    rfl
  have plain : PlainStore store := by
    intro path note held
    rw [get_eq] at held
    split at held
    · rename_i same
      subst same
      decide
    · split at held
      · rename_i same
        subst same
        decide
      · cases held
  have other : store.get "a".toList = none := by
    rw [get_eq]
    decide
  have path : Control "path".toList "a".toList "__anw-path=a".toList :=
    ⟨"__anw-path".toList, "a".toList, by decide, Percent.encodes_self (by decide +kernel),
      Percent.encodes_self (by decide +kernel)⟩
  have setting : Control "recursive".toList (boolText false) "__anw-recursive=false".toList :=
    ⟨"__anw-recursive".toList, "false".toList, by decide, Percent.encodes_self (by decide +kernel),
      Percent.encodes_self (by decide +kernel)⟩
  exact (listing_describes plain).1 _ (.inr (by decide)) other _ _ (.pathFirst path setting)
    (.default path)

end

end Anwesen.Http

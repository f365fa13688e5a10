import Anwesen.Foundation.PrefixRange
import Anwesen.Vault.Scan

/-! The in-memory note store, an ordered map from note paths to notes. -/

set_option autoImplicit false

namespace Anwesen

open Foundation
open Vault (Note)

/-- Every note stands under its own path. -/
structure NoteStore where
  inner : Std.ExtTreeMap Text Note
  keyed : ∀ (path : Text) (note : Note), inner[path]? = some note → note.path = path

namespace NoteStore

@[ext] theorem ext {first second : NoteStore}
    (same : ∀ path : Text, first.inner[path]? = second.inner[path]?) : first = second := by
  obtain ⟨first, _⟩ := first
  obtain ⟨second, _⟩ := second
  obtain rfl : first = second := Std.ExtTreeMap.ext_getElem? same
  rfl

def new : NoteStore := ⟨∅, by simp⟩

def get (store : NoteStore) (path : Text) : Option Note := store.inner[path]?

theorem eq_of_get {first second : NoteStore} (same : ∀ path, first.get path = second.get path) :
    first = second := ext same

theorem path_of_get {store : NoteStore} {path : Text} {note : Note}
    (found : store.get path = some note) : note.path = path := store.keyed path note found

@[simp] theorem get_new (path : Text) : new.get path = none := by simp [get, new]

def len (store : NoteStore) : Nat := store.inner.size

def upsert (store : NoteStore) (note : Note) : NoteStore where
  inner := store.inner.insert note.path note
  keyed := by
    intro path other found
    rw [Std.ExtTreeMap.getElem?_insert] at found
    split at found
    · rename_i same
      cases found
      exact Std.LawfulEqOrd.eq_of_compare same
    · exact store.keyed path other found

def delete (store : NoteStore) (path : Text) : NoteStore where
  inner := store.inner.erase path
  keyed := by
    intro other note found
    rw [Std.ExtTreeMap.getElem?_erase] at found
    split at found
    · cases found
    · exact store.keyed other note found

theorem get_upsert (store : NoteStore) (note : Note) (path : Text) :
    (store.upsert note).get path = if note.path = path then some note else store.get path := by
  simp only [get, upsert, Std.ExtTreeMap.getElem?_insert, Std.LawfulEqOrd.compare_eq_iff_eq]

theorem get_delete (store : NoteStore) (path other : Text) :
    (store.delete path).get other = if path = other then none else store.get other := by
  simp only [get, delete, Std.ExtTreeMap.getElem?_erase, Std.LawfulEqOrd.compare_eq_iff_eq]

def deleteAll (store : NoteStore) (paths : List Text) : NoteStore := paths.foldl delete store

def upsertAll (store : NoteStore) (notes : List Note) : NoteStore := notes.foldl upsert store

theorem get_deleteAll (store : NoteStore) (paths : List Text) (path : Text) :
    (store.deleteAll paths).get path = if path ∈ paths then none else store.get path := by
  induction paths generalizing store with
  | nil => simp [deleteAll]
  | cons head rest ih =>
    rw [deleteAll, List.foldl_cons, ← deleteAll, ih, get_delete]
    by_cases later : path ∈ rest
    · simp [later]
    · by_cases here : head = path
      · simp [here]
      · simp [later, here, Ne.symm here]

/-- The note that stays of those inserted one after the other under a path. -/
def lastAt (notes : List Note) (path : Text) : Option Note :=
  notes.reverse.find? fun note => note.path = path

theorem get_upsertAll (store : NoteStore) (notes : List Note) (path : Text) :
    (store.upsertAll notes).get path = (lastAt notes path).or (store.get path) := by
  induction notes generalizing store with
  | nil => simp [upsertAll, lastAt]
  | cons head rest ih =>
    rw [upsertAll, List.foldl_cons, ← upsertAll, ih, get_upsert, lastAt, lastAt,
      List.reverse_cons, List.find?_append, Option.or_assoc]
    congr 1
    by_cases here : head.path = path <;> simp [here]

theorem lastAt_eq_none {notes : List Note} {path : Text} :
    lastAt notes path = none ↔ ∀ note ∈ notes, note.path ≠ path := by
  simp [lastAt]

theorem lastAt_mem {notes : List Note} {path : Text} {note : Note}
    (found : lastAt notes path = some note) : note ∈ notes ∧ note.path = path := by
  have member := List.mem_of_find?_eq_some found
  exact ⟨List.mem_reverse.mp member, by simpa using List.find?_some found⟩

/-- Where the notes inserted under a path agree, their order does not matter. -/
theorem lastAt_of_agree {notes : List Note} {path : Text} {note : Note} (member : note ∈ notes)
    (same : note.path = path) (agree : ∀ other ∈ notes, other.path = path → other = note) :
    lastAt notes path = some note := by
  cases found : lastAt notes path with
  | none => exact absurd same (lastAt_eq_none.mp found note member)
  | some other => rw [agree other (lastAt_mem found).1 (lastAt_mem found).2]

theorem lastAt_cons (note : Note) (rest : List Note) (path : Text) :
    lastAt (note :: rest) path = (lastAt rest path).or (if note.path = path then some note else none) := by
  by_cases same : note.path = path <;> simp [lastAt, List.find?_append, same]

/-- Of two lists the later one counts. -/
theorem lastAt_append_or (before after : List Note) (path : Text) :
    lastAt (before ++ after) path = (lastAt after path).or (lastAt before path) := by
  simp [lastAt, List.find?_append]

/-- Of notes that were read from their paths, the one at a path is what was read there. -/
theorem lastAt_filterMap {read : Text → Option Note} {paths : List Text}
    (named : ∀ path ∈ paths, ∀ note, read path = some note → note.path = path) (path : Text) :
    lastAt (paths.filterMap read) path = if path ∈ paths then read path else none := by
  induction paths with
  | nil => rfl
  | cons first rest ih =>
    have inRest := ih fun other member => named other (List.mem_cons_of_mem _ member)
    cases found : read first with
    | none =>
      rw [List.filterMap_cons_none found, inRest]
      by_cases here : path = first
      · subst here
        simp [found]
      · simp [here]
    | some note =>
      have at_ := named first List.mem_cons_self note found
      rw [List.filterMap_cons_some found, lastAt_cons, inRest, at_]
      by_cases here : path = first
      · subst here
        by_cases again : path ∈ rest <;> simp [again, found]
      · have apart : ¬ first = path := fun same => here same.symm
        by_cases again : path ∈ rest <;> simp [again, here, apart]

def replace (notes : List Note) : NoteStore := new.upsertAll notes

theorem get_replace (notes : List Note) (path : Text) :
    (replace notes).get path = lastAt notes path := by
  simp [replace, get_upsertAll]

/-- `str::trim_end_matches('/')` and one slash. -/
def dirPrefix (dir : Text) : Text := (dir.reverse.dropWhile (· = '/')).reverse ++ ['/']

/-- The keys `range(prefix..)` yields while they start with the prefix. -/
def doomed (store : NoteStore) (dir : Text) : List Text :=
  (store.inner.keys.dropWhile fun path => compare path (dirPrefix dir) = .lt).takeWhile
    ((dirPrefix dir).isPrefixOf ·)

theorem mem_doomed {store : NoteStore} {dir path : Text} :
    path ∈ store.doomed dir ↔ (store.get path).isSome = true ∧ dirPrefix dir <+: path := by
  rw [doomed, mem_prefixRange Std.ExtTreeMap.ordered_keys, Std.ExtTreeMap.mem_keys, get,
    Std.ExtTreeMap.mem_iff_isSome_getElem?]

def dropPrefixes : NoteStore → List Text → NoteStore × Nat
  | store, [] => (store, 0)
  | store, dir :: rest =>
      let (next, dropped) := dropPrefixes (store.deleteAll (store.doomed dir)) rest
      (next, (store.doomed dir).length + dropped)

theorem get_dropPrefixes (store : NoteStore) (dirs : List Text) (path : Text) :
    (store.dropPrefixes dirs).1.get path =
      if ∃ dir ∈ dirs, dirPrefix dir <+: path then none else store.get path := by
  induction dirs generalizing store with
  | nil => simp [dropPrefixes]
  | cons dir rest ih =>
    simp only [dropPrefixes, ih, get_deleteAll, mem_doomed, List.mem_cons, exists_eq_or_imp]
    by_cases later : ∃ dir ∈ rest, dirPrefix dir <+: path
    · simp [later]
    · by_cases here : dirPrefix dir <+: path
      · cases found : store.get path <;> simp [later, here]
      · simp [later, here]

/-- Deletes, then directories, then upserts; the count is of the notes dropped
with a directory. -/
def applyBatch (store : NoteStore) (upserts : List Note) (deletes deletePrefixes : List Text) :
    NoteStore × Nat :=
  let (kept, dropped) := (store.deleteAll deletes).dropPrefixes deletePrefixes
  (kept.upsertAll upserts, dropped)

theorem get_applyBatch (store : NoteStore) (upserts : List Note) (deletes deletePrefixes : List Text)
    (path : Text) :
    (store.applyBatch upserts deletes deletePrefixes).1.get path =
      (lastAt upserts path).or
        (if path ∈ deletes ∨ ∃ dir ∈ deletePrefixes, dirPrefix dir <+: path then none
          else store.get path) := by
  simp only [applyBatch, get_upsertAll, get_dropPrefixes, get_deleteAll]
  congr 1
  by_cases covered : ∃ dir ∈ deletePrefixes, dirPrefix dir <+: path
  · simp [covered]
  · simp [covered]

/-- The keys a directory dooms, each once. -/
theorem nodup_doomed (store : NoteStore) (dir : Text) : (store.doomed dir).Nodup := by
  have distinct : store.inner.keys.Nodup := Std.ExtTreeMap.distinct_keys.imp fun differ same =>
    differ (by rw [same]; exact Std.ReflCmp.compare_self)
  exact (distinct.sublist (List.dropWhile_sublist _)).sublist (List.takeWhile_sublist _)

/-- The notes dropped with the directories are counted once each. -/
theorem exists_dropped (store : NoteStore) (dirs : List Text) :
    ∃ paths : List Text, paths.Nodup ∧ (store.dropPrefixes dirs).2 = paths.length ∧
      ∀ path, path ∈ paths ↔
        (store.get path).isSome = true ∧ ∃ dir ∈ dirs, dirPrefix dir <+: path := by
  induction dirs generalizing store with
  | nil => exact ⟨[], List.nodup_nil, rfl, by simp⟩
  | cons dir rest ih =>
    obtain ⟨paths, distinct, counted, listed⟩ := ih (store.deleteAll (store.doomed dir))
    refine ⟨store.doomed dir ++ paths, ?_, by simp [dropPrefixes, counted], fun path => ?_⟩
    · refine List.nodup_append'.mpr ⟨nodup_doomed store dir, distinct, fun path here later => ?_⟩
      -- what the first directory took is not there for the others
      have held := ((listed path).mp later).1
      rw [get_deleteAll, if_pos here] at held
      cases held
    · rw [List.mem_append, listed, mem_doomed, get_deleteAll]
      by_cases here : path ∈ store.doomed dir
      · have held := mem_doomed.mp here
        simp [held]
      · rw [mem_doomed, not_and] at here
        simp only [mem_doomed, List.mem_cons, exists_eq_or_imp]
        cases found : store.get path with
        | none => simp
        | some note => simp [here (by simp [found])]

/-- What a batch makes of a store. -/
structure Batched (store : NoteStore) (upserts : List Note) (deletes deletePrefixes : List Text)
    (result : NoteStore × Nat) : Prop where
  upserted : ∀ before note after, upserts = before ++ note :: after →
    (∀ later ∈ after, later.path ≠ note.path) → result.1.get note.path = some note
  dropped : ∀ path, (∀ note ∈ upserts, note.path ≠ path) →
    path ∈ deletes ∨ (∃ dir ∈ deletePrefixes, dirPrefix dir <+: path) → result.1.get path = none
  kept : ∀ path, (∀ note ∈ upserts, note.path ≠ path) → path ∉ deletes →
    (∀ dir ∈ deletePrefixes, ¬ dirPrefix dir <+: path) → result.1.get path = store.get path
  counted : ∃ paths : List Text, paths.Nodup ∧ result.2 = paths.length ∧ ∀ path, path ∈ paths ↔
    (store.get path).isSome = true ∧ path ∉ deletes ∧ ∃ dir ∈ deletePrefixes, dirPrefix dir <+: path
  keyed : ∀ path note, result.1.get path = some note → note.path = path
  ordered : result.1.inner.keys.Pairwise fun a b => compare a.utf8 b.utf8 = .lt

theorem lastAt_append {before after : List Note} {note : Note}
    (last : ∀ later ∈ after, later.path ≠ note.path) :
    lastAt (before ++ note :: after) note.path = some note := by
  have later : after.reverse.find? (fun other => decide (other.path = note.path)) = none := by
    simpa using last
  simp [lastAt, List.find?_append, later]

theorem applyBatch_batched (store : NoteStore) (upserts : List Note)
    (deletes deletePrefixes : List Text) :
    Batched store upserts deletes deletePrefixes (store.applyBatch upserts deletes deletePrefixes) where
  upserted before note after parts last := by
    rw [get_applyBatch, parts, lastAt_append last, Option.some_or]
  dropped path absent gone := by
    rw [get_applyBatch, lastAt_eq_none.mpr absent, Option.none_or, if_pos gone]
  kept path absent named outside := by
    rw [get_applyBatch, lastAt_eq_none.mpr absent, Option.none_or, if_neg]
    rintro (member | ⟨dir, listed, below⟩)
    · exact named member
    · exact outside dir listed below
  counted := by
    obtain ⟨paths, distinct, counted, listed⟩ := exists_dropped (store.deleteAll deletes) deletePrefixes
    refine ⟨paths, distinct, counted, fun path => ?_⟩
    rw [listed, get_deleteAll]
    by_cases named : path ∈ deletes <;> simp [named]
  keyed path note found := path_of_get found
  ordered := Std.ExtTreeMap.ordered_keys.imp fun before => by rw [Text.compare_utf8, before]

end NoteStore

end Anwesen

import Anwesen.Foundation.Delimiters
import Anwesen.Query.Execution

/-! A merged document, taken apart again into the notes it was put together from.

The marker lines are comments in the text, so a body may hold one of its own. A note
that holds none can be told apart from its neighbours.
-/

set_option autoImplicit false

namespace Anwesen.Query

open Foundation Vault

/-- Where a merged document goes on with the next note. -/
def seam : Delimiter Char := ⟨"\n\n<!-- source: ".toList, by decide, by decide⟩

/-- Where the line that names a note ends. -/
def markerEnd : Delimiter Char := ⟨" -->\n".toList, by decide, by decide⟩

/-- The path and the body of every note in a merged document. -/
def takeApart (document : Text) : Option (List (Text × Text)) :=
  if document = [] then some []
  else (Text.stripPrefix "<!-- source: ".toList document).bind fun rest =>
    (seam.pieces rest).mapM markerEnd.cut

/-- The path does not end its own line, and nothing behind it reads as another note. -/
structure Legible (path body : Text) : Prop where
  named : ¬ markerEnd.marks <:+: path
  alone : ¬ seam.marks <:+: path ++ (markerEnd.marks ++ body)

instance (path body : Text) : Decidable (Legible path body) :=
  decidable_of_iff (¬ markerEnd.marks <:+: path ∧ ¬ seam.marks <:+: path ++ (markerEnd.marks ++ body))
    ⟨fun holds => ⟨holds.1, holds.2⟩, fun legible => ⟨legible.named, legible.alone⟩⟩

theorem mapM_eq_some_iff {α β : Type} {read : α → Option β} {items : List α} {results : List β} :
    items.mapM read = some results ↔ items.map read = results.map some := by
  induction items generalizing results with
  | nil => cases results <;> simp
  | cons item items ih =>
    rw [List.mapM_cons, List.map_cons]
    cases first : read item with
    | none => cases results <;> simp
    | some value =>
      cases results with
      | nil => cases rest : items.mapM read <;> simp
      | cons result results =>
        rw [List.map_cons, List.cons.injEq, ← ih]
        cases rest : items.mapM read <;> simp

/-- All that stands between two seams. -/
def Fragment.part (f : Fragment) : Text := f.path ++ (markerEnd.marks ++ f.body)

theorem assemble_cons_cons (first next : Fragment) (rest : List Fragment) :
    assemble (first :: next :: rest) =
      "<!-- source: ".toList ++ first.part ++ "\n\n".toList ++ assemble (next :: rest) := by
  simp [assemble, List.intercalate_cons_cons, Fragment.part, markerEnd]

theorem assemble_eq {frags : List Fragment} (present : frags ≠ []) :
    assemble frags = "<!-- source: ".toList ++ seam.marks.intercalate (frags.map Fragment.part) := by
  induction frags with
  | nil => exact absurd rfl present
  | cons first rest ih =>
    cases rest with
    | nil => simp [assemble, Fragment.part, markerEnd]
    | cons next rest =>
      have joined : seam.marks = "\n\n".toList ++ "<!-- source: ".toList := by decide
      rw [assemble_cons_cons, ih (List.cons_ne_nil _ _), List.map_cons (a := first), List.map_cons,
        List.intercalate_cons_cons, joined]
      simp only [List.append_assoc]

theorem map_cut_iff {parts : List Text} {frags : List Fragment} :
    parts.map markerEnd.cut = (frags.map fun f => (f.path, f.body)).map some ↔
      parts = frags.map Fragment.part ∧ ∀ f ∈ frags, ¬ markerEnd.marks <:+: f.path := by
  induction frags generalizing parts with
  | nil => simp
  | cons first rest ih =>
    cases parts with
    | nil => simp
    | cons part parts =>
      simp only [List.map_cons, List.cons.injEq, List.forall_mem_cons, ih, Delimiter.cut_eq_some_iff,
        Fragment.part]
      exact and_and_and_comm

/-- A merged document is taken apart into its notes unless one of them is taken for more. -/
theorem takeApart_assemble_iff (frags : List Fragment) :
    takeApart (assemble frags) = some (frags.map fun f => (f.path, f.body)) ↔
      ∀ f ∈ frags, Legible f.path f.body := by
  by_cases empty : frags = []
  · subst empty
    simp [assemble, takeApart]
  · have assembled := assemble_eq empty
    have opened : assemble frags ≠ [] := by simp [assembled]
    have parted : frags.map Fragment.part ≠ [] := by simpa using empty
    rw [takeApart, if_neg opened, Text.stripPrefix_eq_some.mpr assembled, Option.bind_some, mapM_eq_some_iff,
      map_cut_iff, Delimiter.pieces_intercalate_iff parted, List.forall_mem_map, ← forall₂_and]
    exact forall₂_congr fun f _ =>
      ⟨fun holds => ⟨holds.2, holds.1⟩, fun legible => ⟨legible.alone, legible.named⟩⟩

section

variable (ext : External) (store : NoteStore) (query : ParsedQuery) (formatTs : Instant → Text)

/-- By the order key, where the comparator of it is transitive on the notes; without one by
their paths. -/
def InMergeOrder (notes : List Note) : Prop :=
  match query.order with
  | some spec => TransOn (fragmentCmp ext spec.desc) (notes.map (fragmentOf query)) →
      notes.Pairwise fun a b => fragmentCmp ext spec.desc (fragmentOf query b) (fragmentOf query a) ≠ .lt
  | none => notes.Pairwise fun a b => compare a.path b.path = .lt

/-- What a merged document says: as many notes as there are rows, the first ones of all
that match in the order of the merge, and in their order all that is read back, unless
one of them is illegible. -/
structure MergedOf (document : Text) (notes : List Note) : Prop where
  stored : ∀ note ∈ notes, store.get note.path = some note
  first : ∃ others, InMergeOrder ext query (notes ++ others) ∧
    ((notes ++ others).map (rowOf ext formatTs)).Perm
      (execute ext store { query with limit := none } formatTs).results
  counted : notes.length = (execute ext store query formatTs).results.length
  assembled : document = assemble (notes.map (fragmentOf query))
  readable : takeApart document = some (notes.map fun note => (note.path, note.body)) ↔
    ∀ note ∈ notes, Legible note.path note.body

variable {ext store query} {document : Text}

theorem length_results : (execute ext store query formatTs).results.length =
    match query.limit with
    | some limit => min limit (selected ext store query).length
    | none => (selected ext store query).length := by
  simp only [execute, rows_eq]
  cases query.limit with
  | none => simp
  | some limit =>
    dsimp only
    split
    · simp
    · rename_i fits
      rw [List.length_map, Nat.not_lt] at fits
      rw [List.length_map, Nat.min_eq_right fits]

/-- The sort leaves the notes in the order of the merge. -/
theorem inMergeOrder_of_sorted {merged : List Note} (perm : merged.Perm (selected ext store query))
    (arranged : ordering ext store query = some (merged.map (fragmentOf query)))
    (unordered : query.order = none → merged = selected ext store query) : InMergeOrder ext query merged := by
  rw [InMergeOrder]
  split
  · rename_i spec order
    intro trans
    have matched : TransOn (fragmentCmp ext spec.desc) (fragments ext store query) := by
      simp only [fragments_eq, TransOn, List.mem_map, ← perm.mem_iff] at trans ⊢
      exact trans
    exact List.pairwise_map.mp (ordering_sorted order matched arranged)
  · rename_i order
    rw [unordered order]
    exact selected_ascending

end

def sourceNote (path body : String) : Note := ⟨path.toList, ∅, body.toList, [], ⟨0, 0⟩, [], 0⟩

/-- A body may forge the marker of another note. -/
example : assemble [⟨"a.md".toList, "x\n\n<!-- source: b.md -->\ny".toList, none, none⟩] =
    assemble [⟨"a.md".toList, "x".toList, none, none⟩, ⟨"b.md".toList, "y".toList, none, none⟩] := by
  decide

end Anwesen.Query

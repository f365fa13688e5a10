import Anwesen.Foundation.Transition
import Anwesen.Vault.Operations
import Anwesen.Watcher.Window

/-! The incremental index against a full rescan, over whole runs.

A state is the file system, the reports not yet read, and the store. Operations
change the file system and queue their reports; a window reads a nonempty prefix
of the queue at the tree of that moment and applies its batch.
-/

set_option autoImplicit false

namespace Anwesen.Watcher

open Foundation Vault

/-- How a rename is reported: both sides in one event, each side for itself (as inotify
does, before the event that pairs them), or each side without its direction (as FSEvents). -/
inductive Renaming where
  | both | sides | sidesThenBoth | undirected
  deriving DecidableEq

/-- The reports of a rename, by the sides of it that lie within the vault. -/
def renameReports (source target : Option Location) : Renaming → List Report
  | .undirected => (source.map .renameAny).toList ++ (target.map .renameAny).toList
  | .sides => (source.map .renameFrom).toList ++ (target.map .renameTo).toList
  | .both =>
      match source, target with
      | some source, some target => [.renameBoth source target]
      | _, _ => (source.map .renameFrom).toList ++ (target.map .renameTo).toList
  | .sidesThenBoth =>
      match source, target with
      | some source, some target =>
          [.renameFrom source, .renameTo target, .renameBoth source target]
      | _, _ => (source.map .renameFrom).toList ++ (target.map .renameTo).toList

def reports (form : Renaming) (root : Location) : Operation → List Report
  | .create at_ _ => ((below root at_).map .create).toList
  | .write at_ _ => ((below root at_).map .modify).toList
  | .remove at_ => ((below root at_).map .remove).toList
  | .rename source target => renameReports (below root source) (below root target) form

structure State where
  fs : Fs
  queue : List Report
  store : NoteStore

inductive Label where
  | operate (operation : Operation) (form : Renaming)
  | window (size : Nat)

def noticesOf (queue : List Report) : List (Notice FileName) := queue.flatMap Report.notices

section System

variable (ext : External) (root : Location)

def step (state : State) : Label → Option State
  | .operate operation form =>
      (operation.apply state.fs).map fun fs =>
        { state with fs, queue := state.queue ++ reports form root operation }
  | .window size =>
      if 0 < size ∧ size ≤ state.queue.length then
        some { state with
          queue := state.queue.drop size
          store := applyWindow ext state.fs root.raw
            ((state.queue.take size).map (Report.event root)) state.store }
      else none

/-- The vault stays a tree of directories and readable notes, its root in place. -/
def Admissible (state : State) : Label → Prop
  | .operate operation _ => operation.Spares root ∧
      ∀ fs, operation.apply state.fs = some fs → Tame ext fs root
  | .window _ => True

/-- Every rename is reported with the direction of its sides. -/
def Directed : Label → Prop
  | .operate _ form => form ≠ .undirected
  | .window _ => True

/-- No window reads an undirected rename of a name that now holds the other kind of
node, while notes of the old kind are stored and nothing else accounts for them. -/
def Unambiguous (state : State) : Label → Prop
  | .operate _ _ => True
  | .window size => Resolved Eligible (view state.fs root) (noticesOf (state.queue.take size))
      (noticesOf (state.queue.drop size)) (held state.store)

instance (state : State) (label : Label) : Decidable (Admissible ext root state label) :=
  match label with
  | .window _ => .isTrue trivial
  | .operate operation _ =>
      match done : operation.apply state.fs with
      | none => decidable_of_iff (∀ path ∈ operation.paths, ¬ path <+: root)
          (by simp [Admissible, Operation.Spares, done])
      | some fs => decidable_of_iff ((∀ path ∈ operation.paths, ¬ path <+: root) ∧ Tame ext fs root)
          (by simp [Admissible, Operation.Spares, done])

/-- The store is a mirror of the vault up to the reports that are still queued. -/
structure Mirrors (state : State) : Prop where
  tame : Tame ext state.fs root
  named : Named (noticesOf state.queue)
  covered : Covered Eligible (load ext) (view state.fs root) (noticesOf state.queue)
    (held state.store)
  keys : ∀ path note, state.store.get path = some note →
    ∃ location, Eligible location ∧ path = location.key

end System

@[simp] theorem noticesOf_append (first rest : List Report) :
    noticesOf (first ++ rest) = noticesOf first ++ noticesOf rest := by simp [noticesOf]

theorem noticesOf_split (queue : List Report) (size : Nat) :
    noticesOf queue = noticesOf (queue.take size) ++ noticesOf (queue.drop size) := by
  rw [← noticesOf_append, List.take_append_drop]

section Steps

variable {ext : External} {root : Location} {form : Renaming}

theorem notices_undirected (source target : Option Location) :
    noticesOf (renameReports source target .undirected) = undirected source target := by
  cases source <;> cases target <;> rfl

/-- A rename reported in both ways names its sides twice, in the same order. -/
theorem notices_directed (source target : Option Location) (direct : form ≠ .undirected) :
    noticesOf (renameReports source target form) = directed source target ∨
      noticesOf (renameReports source target form) =
        directed source target ++ directed source target := by
  cases form with
  | undirected => exact absurd rfl direct
  | both | sides =>
    left
    cases source <;> cases target <;> rfl
  | sidesThenBoth =>
    cases source <;> cases target
    case some.some => exact .inr rfl
    case none.none | none.some | some.none => exact .inl rfl

theorem mem_notices_renameReports {source target : Option Location} {notice : Notice FileName}
    (member : notice ∈ noticesOf (renameReports source target form)) :
    notice.path ∈ source ∨ notice.path ∈ target := by
  by_cases direct : form = .undirected
  · subst direct
    rw [notices_undirected, mem_undirected] at member
    rcases member with ⟨from_, known, rfl⟩ | ⟨to_, known, rfl⟩
    · exact .inl known
    · exact .inr known
  · have listed : notice ∈ directed source target := by
      rcases notices_directed source target direct with once | twice
      · exact once ▸ member
      · rw [twice] at member
        exact (List.mem_append.mp member).elim id id
    rcases mem_directed.mp listed with ⟨from_, known, rfl⟩ | ⟨to_, known, rfl⟩
    · exact .inl known
    · exact .inr known

theorem shift_rename {view view' : View FileName Leaf} {source target : Option Location}
    (move : Move view view' source target) :
    Shift view view' (noticesOf (renameReports source target form)) := by
  by_cases direct : form = .undirected
  · rw [direct, notices_undirected]
    exact move.shift_undirected
  · rcases notices_directed source target direct with once | twice
    · rw [once]
      exact move.shift_directed
    · rw [twice]
      exact move.shift_directed.doubled

theorem shift_of_apply {fs fs' : Fs} {operation : Operation} (spares : operation.Spares root)
    (done : operation.apply fs = some fs') :
    Shift (view fs root) (view fs' root) (noticesOf (reports form root operation)) := by
  cases operation with
  | create at_ content =>
    have move := (create_move (spares at_ List.mem_cons_self) done).shift_directed
    cases place : below root at_ <;> simpa [reports, noticesOf, Report.notices, directed, place] using move
  | remove at_ =>
    have move := (remove_move (spares at_ List.mem_cons_self) done).shift_directed
    cases place : below root at_ <;> simpa [reports, noticesOf, Report.notices, directed, place] using move
  | write at_ content =>
    have change := write_shift (spares at_ List.mem_cons_self) done
    cases place : below root at_ <;> simpa [reports, noticesOf, Report.notices, place] using change
  | rename source target =>
    exact shift_rename (rename_move (spares source List.mem_cons_self)
      (spares target (List.mem_cons_of_mem _ List.mem_cons_self)) done)

/-- An operation's notices name its own paths. -/
theorem mem_reports {operation : Operation} {notice : Notice FileName}
    (member : notice ∈ noticesOf (reports form root operation)) :
    ∃ path ∈ operation.paths, below root path = some notice.path := by
  cases operation with
  | create at_ _ | write at_ _ | remove at_ =>
    cases place : below root at_ <;>
      simp [reports, noticesOf, Report.notices, place] at member
    exact ⟨at_, List.mem_cons_self, by rw [member]; exact place⟩
  | rename source target =>
    rcases mem_notices_renameReports member with left | right
    · exact ⟨source, List.mem_cons_self, left⟩
    · exact ⟨target, List.mem_cons_of_mem _ List.mem_cons_self, right⟩

/-- Every path of an operation is there before it or after it. -/
theorem present_of_apply {fs fs' : Fs} {operation : Operation} (done : operation.apply fs = some fs')
    {path : Location} (member : path ∈ operation.paths) :
    (fs.lookup path).isSome = true ∨ (fs'.lookup path).isSome = true := by
  cases operation with
  | create at_ content =>
    obtain rfl := List.mem_singleton.mp member
    simp only [Operation.apply, Option.dite_none_right_eq_some, Option.some.injEq] at done
    obtain ⟨fits, rfl⟩ := done
    right
    simp only [FileTree.lookup_attach, if_pos (List.prefix_refl _), List.drop_length]
    rfl
  | write at_ content =>
    obtain rfl := List.mem_singleton.mp member
    simp only [Operation.apply, Option.dite_none_right_eq_some] at done
    exact .inl done.1.1
  | remove at_ =>
    obtain rfl := List.mem_singleton.mp member
    simp only [Operation.apply, Option.ite_none_right_eq_some] at done
    exact .inl done.1.2
  | rename source target =>
    simp only [Operation.apply, Option.ite_none_right_eq_some] at done
    have moved := FileTree.isSome_of_rename done.2
    rcases List.mem_cons.mp member with rfl | member
    · exact .inl moved
    · obtain rfl := List.mem_singleton.mp member
      right
      rw [FileTree.lookup_rename done.1.1 done.2, if_pos (List.prefix_refl _), List.drop_length,
        List.append_nil]
      exact moved

theorem named_of_apply {fs fs' : Fs} {operation : Operation} (before : Tame ext fs root)
    (after : Tame ext fs' root) (done : operation.apply fs = some fs') :
    Named (noticesOf (reports form root operation)) := by
  intro notice member
  obtain ⟨path, listed, place⟩ := mem_reports member
  obtain ⟨rfl, nonempty⟩ := below_eq_some place
  refine ⟨nonempty, ?_⟩
  rcases present_of_apply done listed with present | present
  · obtain ⟨node, found⟩ := Option.isSome_iff_exists.mp present
    exact before.plain _ node found
  · obtain ⟨node, found⟩ := Option.isSome_iff_exists.mp present
    exact after.plain _ node found

theorem mirrors_step {state next : State} {label : Label} (mirrors : Mirrors ext root state)
    (admissible : Admissible ext root state label) (clear : Unambiguous root state label)
    (taken : step ext root state label = some next) : Mirrors ext root next := by
  cases label with
  | operate operation form =>
    obtain ⟨fs, done, rfl⟩ := Option.map_eq_some_iff.mp taken
    obtain ⟨spares, tame⟩ := admissible
    have tameNext := tame fs done
    refine ⟨tameNext, ?_, ?_, mirrors.keys⟩
    · intro notice member
      rw [noticesOf_append] at member
      rcases List.mem_append.mp member with old | new
      · exact mirrors.named notice old
      · exact named_of_apply mirrors.tame tameNext done notice new
    · rw [noticesOf_append]
      exact covered_shift tameNext.loads_view (shift_of_apply spares done) mirrors.covered
  | window size =>
    simp only [step, Option.ite_none_right_eq_some, Option.some.injEq] at taken
    obtain ⟨_, rfl⟩ := taken
    -- what is read and what stays queued are the two parts of the notices
    have split := noticesOf_split state.queue size
    have named : Named (noticesOf (state.queue.take size)) := fun notice member =>
      mirrors.named notice (split ▸ List.mem_append_left _ member)
    have covered := split ▸ mirrors.covered
    refine ⟨mirrors.tame, fun notice member => mirrors.named notice ?_, ?_, ?_⟩
    · exact split ▸ List.mem_append_right _ member
    · simp only [applyWindow_reports mirrors.tame named]
      exact covered_window mirrors.tame.loads_view
        (window_laws mirrors.tame named state.store) clear covered
    · intro path note found
      simp only [applyWindow_reports mirrors.tame named] at found
      rcases key_of_batch mirrors.tame named found with known | old
      · exact known
      · exact mirrors.keys path note old

/-- Before the first operation the store of a full scan mirrors the vault. -/
theorem mirrors_scanned {fs : Fs} (tame : Tame ext fs root) :
    Mirrors ext root ⟨fs, [], scanned ext fs root⟩ where
  tame := tame
  named := fun _ member => by cases member
  covered := covered_nil fun _ eligible => get_scanned tame eligible
  keys := fun _ _ found => key_of_scanned tame found

/-- With no report left, the mirror is what a full scan would hold. -/
theorem Mirrors.eq_scanned {state : State} (mirrors : Mirrors ext root state)
    (drained : state.queue = []) : state.store = scanned ext state.fs root := by
  have covered := mirrors.covered
  rw [drained] at covered
  exact scanned_of_agree mirrors.tame mirrors.keys fun location eligible => covered.agree eligible

end Steps

section Runs

variable (ext : External) (root : Location)

/-- No notice of a directed report leaves the direction open. -/
theorem directed_reports {operation : Operation} {form : Renaming} {path : Location}
    (direct : form ≠ .undirected) :
    Notice.renamed path ∉ noticesOf (reports form root operation) := by
  cases operation with
  | create at_ _ | write at_ _ | remove at_ =>
    cases place : below root at_ <;> simp [reports, noticesOf, Report.notices, place]
  | rename source target =>
    have none_ : Notice.renamed path ∉ directed (below root source) (below root target) := by
      simp [mem_directed]
    rw [reports]
    rcases notices_directed (below root source) (below root target) direct with once | twice
    · rwa [once]
    · rw [twice, List.mem_append, not_or]
      exact ⟨none_, none_⟩

/-- Every interleaving of operations and windows ends, once no report is queued, with
the store a full rescan would fill, when renames are reported with their direction. -/
theorem store_eq_rescan {fs : Fs} (tame : Tame ext fs root) {labels : List Label} {final : State}
    (allowed : Meets (step ext root)
      (fun state label => Admissible ext root state label ∧ Directed label)
      ⟨fs, [], scanned ext fs root⟩ labels)
    (reached : run (step ext root) ⟨fs, [], scanned ext fs root⟩ labels = some final)
    (drained : final.queue = []) : final.store = scanned ext final.fs root := by
  have invariant : Mirrors ext root final ∧
      ∀ path, Notice.renamed path ∉ noticesOf final.queue := by
    -- no undirected notice is ever queued, so no window is ambiguous
    refine run_invariant (fun state => Mirrors ext root state ∧
      ∀ path, Notice.renamed path ∉ noticesOf state.queue) ?_
      ⟨mirrors_scanned tame, fun _ member => by cases member⟩ allowed reached
    rintro state label next ⟨mirrors, directed⟩ ⟨admissible, direct⟩ taken
    constructor
    · refine mirrors_step mirrors admissible ?_ taken
      cases label with
      | operate operation form => trivial
      | window size =>
        intro path target member
        exact absurd (noticesOf_split state.queue size ▸ List.mem_append_left _ member)
          (directed path)
    · intro path member
      cases label with
      | operate operation form =>
        obtain ⟨fs, _, rfl⟩ := Option.map_eq_some_iff.mp taken
        rw [noticesOf_append] at member
        rcases List.mem_append.mp member with old | new
        · exact directed path old
        · exact directed_reports root direct new
      | window size =>
        simp only [step, Option.ite_none_right_eq_some, Option.some.injEq] at taken
        obtain ⟨_, rfl⟩ := taken
        exact directed path (noticesOf_split state.queue size ▸ List.mem_append_right _ member)
  exact invariant.1.eq_scanned drained

/-- A directory renamed away and a file created under its name, before one window. -/
def reusedName (form : Renaming) : List Label :=
  [.operate (.rename [vaultName, folderName] [vaultName, otherName]) form,
    .operate (.create [vaultName, folderName] (soleFile (plainFile "new"))) form]

def oneNoteStart : State := ⟨oneNote, [], scanned .bare oneNote [vaultName]⟩

/-- The first window ends between the sides of the rename. -/
def reusedDirected : State :=
  (run (step .bare [vaultName]) oneNoteStart
    (reusedName .sidesThenBoth ++ [.window 1, .window 3])).get (by decide +kernel)

instance (label : Label) : Decidable (Directed label) :=
  match label with
  | .operate _ form => inferInstanceAs (Decidable (form ≠ .undirected))
  | .window _ => .isTrue trivial

theorem store_eq_rescan_reused :
    reusedDirected.store = scanned .bare reusedDirected.fs [vaultName] :=
  store_eq_rescan .bare [vaultName] oneNote_tame
    (show Meets (step .bare [vaultName])
      (fun state label => Admissible .bare [vaultName] state label ∧ Directed label) oneNoteStart
      (reusedName .sidesThenBoth ++ [.window 1, .window 3]) by decide +kernel)
    (Option.some_get _).symm (by decide +kernel)

/-- Whatever way renames are reported, the same holds of the runs whose windows never
read a reused name ambiguously. -/
theorem unpaired_store_eq_rescan {fs : Fs} (tame : Tame ext fs root) {labels : List Label}
    {final : State}
    (allowed : Meets (step ext root)
      (fun state label => Admissible ext root state label ∧ Unambiguous root state label)
      ⟨fs, [], scanned ext fs root⟩ labels)
    (reached : run (step ext root) ⟨fs, [], scanned ext fs root⟩ labels = some final)
    (drained : final.queue = []) : final.store = scanned ext final.fs root := by
  have mirrors : Mirrors ext root final :=
    run_invariant (Mirrors ext root)
      (fun _ _ _ mirrors allowed taken => mirrors_step mirrors allowed.1 allowed.2 taken)
      (mirrors_scanned tame) allowed reached
  exact mirrors.eq_scanned drained

/-- An undirected rename of a name that is free, or holds a directory that is no note. -/
def calm (fs : Fs) : Notice FileName → Bool
  | .renamed path => (fs.lookup (root ++ path)).isNone ||
      (fs.hasDir (root ++ path) && !isNote path)
  | _ => true

def Quiet (state : State) : Label → Prop
  | .operate _ _ => True
  | .window size => (noticesOf (state.queue.take size)).all (calm root state.fs) = true

instance (state : State) (label : Label) : Decidable (Quiet root state label) :=
  match label with
  | .operate _ _ => .isTrue trivial
  | .window _ => inferInstanceAs (Decidable (_ = true))

variable {root}

theorem Quiet.unambiguous {state : State} {label : Label} (quiet : Quiet root state label) :
    Unambiguous root state label := by
  cases label with
  | operate operation form => trivial
  | window size =>
    intro path target member eligible _ kind
    -- a name that is taken again is not free, so it is a directory and no note
    have missing : state.fs.lookup (root ++ path) ≠ none := by
      rcases kind with ⟨directory, _⟩ | ⟨⟨content, leaf⟩, _⟩
      · simp [show state.fs.lookup (root ++ path) = _ from directory]
      · simp [show state.fs.lookup (root ++ path) = _ from leaf]
    have calm := List.all_eq_true.mp quiet _ member
    simp only [Watcher.calm, Bool.or_eq_true, Option.isNone_iff_eq_none, missing, false_or,
      Bool.and_eq_true, Bool.not_eq_true'] at calm
    obtain ⟨directory, other⟩ := calm
    rcases kind with ⟨_, rfl⟩ | ⟨⟨content, leaf⟩, _⟩
    · exact absurd eligible.1 (by simp [other])
    · rw [FileTree.hasDir_iff, show state.fs.lookup (root ++ path) = _ from leaf] at directory
      cases directory

/-- The directory is renamed, and one window reads both sides. -/
def movedAway : List Label :=
  [.operate (.rename [vaultName, folderName] [vaultName, otherName]) .undirected, .window 2]

def movedUnpaired : State :=
  (run (step .bare [vaultName]) oneNoteStart movedAway).get (by decide +kernel)

theorem unpaired_store_eq_rescan_moved :
    movedUnpaired.store = scanned .bare movedUnpaired.fs [vaultName] :=
  unpaired_store_eq_rescan .bare [vaultName] oneNote_tame
    (Meets.mono (fun _ _ calm => ⟨calm.1, Quiet.unambiguous calm.2⟩)
      (show Meets (step .bare [vaultName]) (fun state label =>
        Admissible .bare [vaultName] state label ∧ Quiet [vaultName] state label)
        oneNoteStart movedAway by decide +kernel))
    (Option.some_get _).symm (by decide +kernel)

def reusedUnpaired : State :=
  (run (step .bare [vaultName]) oneNoteStart (reusedName .undirected ++ [.window 3])).get
    (by decide +kernel)

/-- The file under the directory's name hides that the directory left: its note stays. -/
theorem unpaired_store_stale :
    Tame .bare oneNote [vaultName] ∧
      Meets (step .bare [vaultName]) (Admissible .bare [vaultName]) oneNoteStart
        (reusedName .undirected ++ [.window 3]) ∧
      run (step .bare [vaultName]) oneNoteStart (reusedName .undirected ++ [.window 3]) =
        some reusedUnpaired ∧
      reusedUnpaired.queue = [] ∧ (reusedUnpaired.store.get "D/x.md".toList).isSome = true ∧
      (scanned .bare reusedUnpaired.fs [vaultName]).get "D/x.md".toList = none := by
  refine ⟨oneNote_tame, by decide +kernel, (Option.some_get _).symm, ?_, by decide +kernel, ?_⟩
  · exact List.isEmpty_iff.mp (by decide +kernel)
  · exact Option.isNone_iff_eq_none.mp (by decide +kernel)

end Runs

end Anwesen.Watcher

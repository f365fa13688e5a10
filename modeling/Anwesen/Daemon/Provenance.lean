import Anwesen.Daemon.Supervision
import Anwesen.Http.Notes

/-! Whatever the daemon serves was in the vault at some moment of its run.

A walk and a window read what is there when they read it, and what they cast is all that
the store ever gets. This holds whatever is lost, late or overtaken. The modification time
of a file is read after its bytes, so nothing is said of it.
-/

set_option autoImplicit false

namespace Anwesen.Daemon

open Foundation Vault Watcher

/-- The notes that a cast brings. -/
def Cast.notes : Cast → List Note
  | .rebuild notes => notes
  | .batch window => window.upserts

/-- Every note that is held or under way is of this origin. -/
structure Sourced (origin : Note → Prop) (mailed : Mailed) : Prop where
  store : ∀ path note, mailed.processes.store.get path = some note → origin note
  walk : ∀ walk ∈ mailed.processes.walk, ∀ note ∈ walk.notes, origin note
  mail : ∀ cast ∈ mailed.mail, ∀ note ∈ cast.notes, origin note

/-- The note is that of a scan, but for its modification time. -/
def Present (ext : External) (root : Location) (fs : Fs) (note : Note) : Prop :=
  ∃ modified, (scanned ext fs root).get note.path = some { note with lastModified := modified }

section

variable {ext : External} {root : Location} {fs : Fs} {origin : Note → Prop} {note : Note}
  {mailed later : Mailed} {tree next : Supervised}

/-! What is read is there. -/

theorem present_of_scanned (found : (scanned ext fs root).get note.path = some note) :
    Present ext root fs note :=
  ⟨note.lastModified, found⟩

theorem present_of_current (tame : Tame ext fs root) {location : Location} (eligible : Eligible location)
    (noted : current (load ext) (view fs root) location = some note) : Present ext root fs note := by
  refine present_of_scanned ?_
  rw [key_of_current noted, get_scanned tame eligible, noted]

theorem present_of_visit (tame : Tame ext fs root) {walk further : Walk} (orderly : walk.Orderly fs root)
    (visited : walk.visit ext fs root = some further) (member : note ∈ further.notes) :
    note ∈ walk.notes ∨ Present ext root fs note := by
  obtain ⟨pending, notes⟩ := walk
  cases pending with
  | nil => cases visited
  | cons item rest =>
    obtain ⟨location, directory⟩ := item
    cases directory with
    | true =>
      cases visited
      exact .inl member
    | false =>
      cases visited
      refine (List.mem_append.mp member).imp_right fun read => ?_
      have noted := Option.mem_toList.mp read
      obtain ⟨visible_, plain, _⟩ := orderly.places _ List.mem_cons_self
      obtain ⟨eligible, _⟩ := Walk.entryNote_place visible_ plain tame noted
      rw [Walk.entryNote_eligible tame eligible] at noted
      exact present_of_current tame eligible noted

theorem present_of_window (tidy : Tidy ext root mailed) {size : Nat} {batch : IndexBatch}
    (sent : (debounce ext mailed.processes.fs root.raw
      (((mailed.processes.queue.take size).map (eventOf root)).map .ok)).2 = some batch)
    (member : note ∈ batch.upserts) : Present ext root mailed.processes.fs note := by
  have tame : Tame ext mailed.processes.fs root := tidy.tame
  have named := named_of_window tidy (List.take_append_drop size mailed.processes.queue).symm
  rcases (debounce_entries ext tame named).2 with cast | ⟨none_, _⟩
  · obtain rfl := Option.some.inj (sent.symm.trans cast)
    obtain ⟨_, _, location, _, eligible, noted⟩ := source_of_note tame named member
    exact present_of_current tame eligible noted
  · rw [none_] at sent
    cases sent

theorem Sourced.mono {wider : Note → Prop} (sourced : Sourced origin mailed)
    (implies : ∀ note, origin note → wider note) : Sourced wider mailed where
  store path note found := implies note (sourced.store path note found)
  walk walk walking note member := implies note (sourced.walk walk walking note member)
  mail cast waiting note member := implies note (sourced.mail cast waiting note member)

/-- A handled cast brings its notes and no others. -/
theorem mem_handle {store : NoteStore} {cast : Cast} {path : Text}
    (found : (cast.handle store).get path = some note) : note ∈ cast.notes ∨ store.get path = some note := by
  cases cast with
  | rebuild notes =>
    have last : NoteStore.lastAt notes path = some note := (NoteStore.get_replace notes path).symm.trans found
    exact .inl (NoteStore.lastAt_mem last).1
  | batch window =>
    have after : (applyIndexBatch store window).get path = some note := found
    rw [get_applyIndexBatch] at after
    cases inserted : NoteStore.lastAt window.upserts path with
    | some other =>
      rw [inserted, Option.some_or] at after
      obtain rfl := Option.some.inj after
      exact .inl (NoteStore.lastAt_mem inserted).1
    | none =>
      rw [inserted, Option.none_or] at after
      split at after
      · cases after
      · exact .inr after

theorem sourced_step {label : Label} (tidy : Tidy ext root mailed) (sourced : Sourced origin mailed)
    (now : ∀ note, Present ext root mailed.processes.fs note → origin note)
    (taken : Mailed.step ext root mailed label = some later) : Sourced origin later := by
  obtain ⟨rebuilds, batches⟩ := mailed.sent
  rcases mailed_cases taken with ⟨cast, rest, waiting, rfl, mail, processes⟩ | ⟨_, _, state, moves, rfl⟩
  · refine ⟨fun path note found => ?_, ?_, fun other member => ?_⟩
    · rw [processes] at found
      rcases mem_handle found with brought | held
      · exact sourced.mail cast (waiting ▸ List.mem_cons_self) note brought
      · exact sourced.store path note held
    · rw [processes]
      exact sourced.walk
    · exact sourced.mail other (waiting ▸ List.mem_cons_of_mem _ (mail ▸ member))
  cases moves with
  | rebuilds waiting => simp [rebuilds] at waiting
  | batches waiting => simp [batches] at waiting
  | changes | loses | unwatches | watches =>
    exact ⟨sourced.store, sourced.walk, by simpa [Mailed.ofState, rebuilds, batches] using sourced.mail⟩
  | rescans =>
    refine ⟨sourced.store, fun walk walking note member => ?_,
      by simpa [Mailed.ofState, rebuilds, batches] using sourced.mail⟩
    obtain rfl := Option.some.inj walking
    cases member
  | visits walking visited =>
    refine ⟨sourced.store, fun walk now_ note member => ?_,
      by simpa [Mailed.ofState, rebuilds, batches] using sourced.mail⟩
    obtain rfl := Option.some.inj now_
    rcases present_of_visit tidy.tame (tidy.walks _ walking) visited member with old | read
    · exact sourced.walk _ walking note old
    · exact now note read
  | finishes walking =>
    refine ⟨sourced.store, fun walk none_ => (by cases none_), fun cast member note brought => ?_⟩
    simp only [Mailed.ofState, rebuilds, batches, List.nil_append, List.map_cons, List.map_nil,
      List.append_nil, List.mem_append, List.mem_singleton] at member
    rcases member with old | rfl
    · exact sourced.mail cast old note brought
    · exact sourced.walk _ walking note brought
  | takes _ _ read =>
    refine ⟨sourced.store, sourced.walk, fun cast member note brought => ?_⟩
    simp only [Mailed.ofState, rebuilds, batches, List.nil_append, List.map_nil, List.append_nil,
      List.mem_append, List.mem_map] at member
    rcases member with old | ⟨batch, cast_, rfl⟩
    · exact sourced.mail cast old note brought
    · exact now note (present_of_window tidy (read ▸ Option.mem_toList.mp cast_) brought)

/-! Over runs. -/

theorem sourced_attended (sourced : Sourced origin mailed) (scanning writing : Bool) :
    Sourced origin (mailed.attended scanning writing) := by
  constructor
  case store => cases scanning <;> exact sourced.store
  case walk =>
    cases scanning with
    | true => exact sourced.walk
    | false =>
      intro walk none_
      cases none_
  case mail =>
    cases writing with
    | true => exact sourced.mail
    | false =>
      intro cast none_
      cases none_

theorem sourced_supervised {label : Supervised.Label} (kept : Supervised.Kept ext root tree)
    (sourced : Sourced origin tree.view)
    (now : ∀ note, Present ext root tree.view.processes.fs note → origin note)
    (taken : tree.step ext root label = some next) : Sourced origin next.view := by
  cases Supervised.moves_of_step taken with
  | processes moved _ shown =>
    exact shown ▸ sourced_attended (sourced_step kept.tidy sourced now moved) _ _
  | scannerDies _ shown | writerDies shown => exact shown ▸ sourced_attended sourced _ _
  | scannerRestarts gone began =>
    exact sourced_step kept.tidy sourced now (began (Supervised.risen kept.alive gone))
  | writerRestarts _ shown => exact shown ▸ sourced

end

section

variable (ext : External) (root : Location) {fs : Fs} {before labels : List Supervised.Label}
  {start tree : Supervised}

/-- The note was in the vault at some moment of the run. -/
def WasThere (start : Supervised) (labels : List Supervised.Label) (note : Note) : Prop :=
  ∃ prior earlier, prior <+: labels ∧ run (Supervised.step ext root) start prior = some earlier ∧
    Present ext root earlier.mailed.processes.fs note

/-- What the daemon holds and has under way is in the vault as it is. -/
def Accurate (start : Supervised) : Prop :=
  Sourced (Present ext root start.mailed.processes.fs) start.view

structure Traced (start : Supervised) (seen : List Supervised.Label) (tree : Supervised) : Prop where
  ran : run (Supervised.step ext root) start seen = some tree
  kept : Supervised.Kept ext root tree
  sourced : Sourced (WasThere ext root start seen) tree.view

variable {ext root}

theorem traced_start (kept : Supervised.Kept ext root start) (accurate : Accurate ext root start) :
    Traced ext root start [] start where
  ran := rfl
  kept := kept
  sourced := accurate.mono fun _ present => ⟨[], start, List.nil_prefix, rfl, present⟩

theorem traced_step {seen : List Supervised.Label} {label : Supervised.Label} {next : Supervised}
    (traced : Traced ext root start seen tree) (admissible : Supervised.Admissible ext root tree label)
    (taken : tree.step ext root label = some next) : Traced ext root start (seen ++ [label]) next := by
  refine ⟨run_append.mpr ⟨tree, traced.ran, by rwa [run_singleton]⟩,
    traced.kept.step admissible taken, ?_⟩
  have sourced : Sourced (WasThere ext root start (seen ++ [label])) tree.view := by
    refine traced.sourced.mono ?_
    rintro note ⟨prior, earlier, inside, ran, present⟩
    exact ⟨prior, earlier, inside.trans (List.prefix_append _ _), ran, present⟩
  refine sourced_supervised traced.kept sourced (fun note present => ?_) taken
  rw [Supervised.fs_view] at present
  exact ⟨seen, tree, List.prefix_append _ _, traced.ran, present⟩

theorem accurate_of_rest (settling : Settling ext root tree.view) (rest : tree.AtRest) :
    Accurate ext root tree := by
  have whole := settling.eq_scanned rest.idle
  rw [Supervised.fs_view] at whole
  constructor
  case store =>
    intro path note found
    rw [whole] at found
    refine present_of_scanned ?_
    rwa [NoteStore.path_of_get found]
  case walk =>
    intro walk walking
    rw [show tree.view.processes.walk = none from rest.idle.walk] at walking
    cases walking
  case mail =>
    intro cast waiting
    rw [mail_of_idle rest.idle] at waiting
    cases waiting

variable (ext root)

/-- Whatever is lost, late or overtaken, and whoever dies: each note that the store holds is
that of a scan of the vault as it was at some moment of the run, and each answer to a
request for a note is 404 or that of such a note, both but for the modification time. -/
theorem serves_what_was_there (tame : Tame ext fs root)
    (allowed : Meets (Supervised.step ext root) (Supervised.Admissible ext root) (.starting fs) before)
    (first : run (Supervised.step ext root) (.starting fs) before = some start)
    (accurate : Accurate ext root start)
    (tamed : Meets (Supervised.step ext root) (Supervised.Admissible ext root) start labels)
    (reached : run (Supervised.step ext root) start labels = some tree) :
    (∀ path note, tree.mailed.processes.store.get path = some note → WasThere ext root start labels note) ∧
      ∀ path canonical headers, Http.target path = .ok (.note canonical) →
        Http.getNotes ext tree.mailed.processes.store path headers = Http.notFound ∨
          ∃ prior earlier note modified, prior <+: labels ∧
            run (Supervised.step ext root) start prior = some earlier ∧
            (scanned ext earlier.mailed.processes.fs root).get canonical = some note ∧
            Http.getNotes ext tree.mailed.processes.store path headers =
              Http.respondNote ext { note with lastModified := modified } headers := by
  have kept : Supervised.Kept ext root start :=
    run_invariant (Supervised.Kept ext root)
      (fun _ _ _ kept admissible taken => kept.step admissible taken)
      (Supervised.kept_starting tame) allowed first
  have traced : Traced ext root start labels tree :=
    run_trace (fun _ _ _ _ traced admissible taken => traced_step traced admissible taken)
      (traced_start kept accurate) tamed reached
  have held : ∀ path note, tree.mailed.processes.store.get path = some note →
      WasThere ext root start labels note := by
    intro path note found
    rw [← Supervised.store_view] at found
    exact traced.sourced.store path note found
  refine ⟨held, fun path canonical headers aimed => ?_⟩
  cases found : tree.mailed.processes.store.get canonical with
  | none =>
    left
    simp only [Http.getNotes, aimed, found]
  | some note =>
    obtain rfl := NoteStore.path_of_get found
    obtain ⟨prior, earlier, inside, ran, modified, present⟩ := held _ note found
    refine .inr ⟨prior, earlier, _, note.lastModified, inside, ran, present, ?_⟩
    simp only [Http.getNotes, aimed, found]

/-- The daemon once it has read the note. -/
def startup : List Supervised.Label :=
  [.process .visit, .process .visit, .process .visit, .process .finish, .process .rebuild, .process .watch]

def started : Supervised :=
  (run (Supervised.step .bare [vaultName]) (.starting oneNote) startup).get (by decide +kernel)

theorem started_accurate : Accurate .bare [vaultName] started :=
  accurate_of_rest
    (settled_of_own
      (Supervised.settling_of_fresh (Supervised.kept_starting oneNote_tame) (.inr rfl)) rfl
      (show ∀ label ∈ startup, Supervised.Own label by simp [startup, Supervised.Own, Own])
      (Option.some_get _).symm).1
    ⟨by decide +kernel, by decide +kernel, idle_of_empty (by decide +kernel) (by decide +kernel)⟩

/-- The note is removed, and its batch lost with the writer. -/
def outdating : List Supervised.Label :=
  [.process (.change (.remove notePlace)), .process (.window 1), .writerDies, .writerRestarts]

def outdated : Supervised :=
  (run (Supervised.step .bare [vaultName]) started outdating).get (by decide +kernel)

theorem serves_what_was_there_outdated :
    (∀ path note, outdated.mailed.processes.store.get path = some note →
        WasThere .bare [vaultName] started outdating note) ∧
      ∀ path canonical headers, Http.target path = .ok (.note canonical) →
        Http.getNotes .bare outdated.mailed.processes.store path headers = Http.notFound ∨
          ∃ prior earlier note modified, prior <+: outdating ∧
            run (Supervised.step .bare [vaultName]) started prior = some earlier ∧
            (scanned .bare earlier.mailed.processes.fs [vaultName]).get canonical = some note ∧
            Http.getNotes .bare outdated.mailed.processes.store path headers =
              Http.respondNote .bare { note with lastModified := modified } headers :=
  serves_what_was_there .bare [vaultName] oneNote_tame
    (show Meets (Supervised.step .bare [vaultName]) (Supervised.Admissible .bare [vaultName])
      (.starting oneNote) startup by decide +kernel)
    (show run (Supervised.step .bare [vaultName]) (.starting oneNote) startup = some started from
      (Option.some_get _).symm)
    started_accurate
    (show Meets (Supervised.step .bare [vaultName]) (Supervised.Admissible .bare [vaultName])
      started outdating by decide +kernel)
    (Option.some_get _).symm

end

end Anwesen.Daemon

import Anwesen.Daemon.Drafting
import Anwesen.Foundation.Weighing

/-! The daemon whose debouncers outlive their watchers.

`JoinHandle::abort` ends a task where it comes to wait, and from the first event of a
window to its cast it does not wait. A debouncer at work goes on after its watcher is
gone, may take more from its channel, and casts its batch while another watcher is there.
-/

set_option autoImplicit false

namespace Anwesen.Daemon

open Foundation Vault Watcher

/-- A debouncer whose watcher is gone: what its channel holds, and its window. -/
structure Aborted where
  queue : List (Option (Notice FileName))
  draft : Option Draft

/-- The debouncer that a step leaves behind. -/
def Drafted.leaves (drafted : Drafted) : Drafted.Label → List Aborted
  | .process .unwatch => [⟨drafted.mailed.processes.queue, drafted.draft⟩]
  | _ => []

structure Aborting where
  drafted : Drafted
  tasks : List Aborted

namespace Aborting

/-- The steps of the daemon, and those of a debouncer that was aborted. -/
inductive Label where
  | watched (label : Drafted.Label)
  | collect (index size : Nat)
  | draft (index : Nat) (act : Drafted.Act)
  | await (index : Nat)

def starting (fs : Fs) : Aborting := ⟨.starting fs, []⟩

section

variable (ext : External) (root : Location)

def step (aborting : Aborting) : Label → Option Aborting
  | .watched label => (aborting.drafted.step ext root label).map fun drafted =>
      ⟨drafted, aborting.tasks ++ aborting.drafted.leaves label⟩
  | .collect index size =>
      match aborting.tasks[index]? with
      | some ⟨queue, none⟩ =>
          if 0 < size ∧ size ≤ queue.length then
            some { aborting with
              tasks := aborting.tasks.set index ⟨queue.drop size, some (.mapping (queue.take size) 0 false [])⟩ }
          else none
      | _ => none
  | .draft index act => aborting.tasks[index]?.bind fun task =>
      -- it works on its window as any debouncer does
      (Drafted.step ext root ⟨aborting.drafted.mailed, task.draft⟩ (.draft act)).map fun next =>
        { drafted := { aborting.drafted with mailed := next.mailed }
          tasks := aborting.tasks.set index { task with draft := next.draft } }
  | .await index =>
      match aborting.tasks[index]? with
      -- the abort acts, and what the channel still holds is lost
      | some ⟨_, none⟩ => some { aborting with tasks := aborting.tasks.eraseIdx index }
      | _ => none

end

/-- The steps one by one. -/
inductive Moves (ext : External) (root : Location) : Aborting → Label → Aborting → Prop where
  | watches {drafted later : Drafted} {label : Drafted.Label} (tasks : List Aborted) :
      drafted.step ext root label = some later →
      Moves ext root ⟨drafted, tasks⟩ (.watched label) ⟨later, tasks ++ drafted.leaves label⟩
  | collects {queue : List (Option (Notice FileName))} {size : Nat} (drafted : Drafted)
      (before after : List Aborted) : 0 < size → size ≤ queue.length →
      Moves ext root ⟨drafted, before ++ ⟨queue, none⟩ :: after⟩ (.collect before.length size)
        ⟨drafted, before ++ ⟨queue.drop size, some (.mapping (queue.take size) 0 false [])⟩ :: after⟩
  | drafts {drafted next : Drafted} {draft : Draft} {act : Drafted.Act}
      (queue : List (Option (Notice FileName))) (before after : List Aborted) :
      Drafted.step ext root ⟨drafted.mailed, some draft⟩ (.draft act) = some next →
      Moves ext root ⟨drafted, before ++ ⟨queue, some draft⟩ :: after⟩ (.draft before.length act)
        ⟨{ drafted with mailed := next.mailed }, before ++ ⟨queue, next.draft⟩ :: after⟩
  | awaits (drafted : Drafted) (queue : List (Option (Notice FileName))) (before after : List Aborted) :
      Moves ext root ⟨drafted, before ++ ⟨queue, none⟩ :: after⟩ (.await before.length)
        ⟨drafted, before ++ after⟩

/-- A task of a list, by its place among the others. -/
theorem exists_around {tasks : List Aborted} {index : Nat} {task : Aborted}
    (found : tasks[index]? = some task) :
    ∃ before after, tasks = before ++ task :: after ∧ before.length = index := by
  obtain ⟨inside, rfl⟩ := List.getElem?_eq_some_iff.mp found
  refine ⟨tasks.take index, tasks.drop (index + 1), ?_, ?_⟩
  · rw [List.getElem_cons_drop, List.take_append_drop]
  · rw [List.length_take]
    omega

theorem moves_of_step {ext : External} {root : Location} {aborting after : Aborting} {label : Label}
    (taken : aborting.step ext root label = some after) :
    Aborting.Moves ext root aborting label after := by
  obtain ⟨drafted, tasks⟩ := aborting
  cases label with
  | watched label =>
    obtain ⟨later, moved, rfl⟩ := Option.map_eq_some_iff.mp taken
    exact Moves.watches tasks moved
  | collect index size =>
    simp only [step] at taken
    split at taken
    · rename_i queue found
      obtain ⟨before, after, rfl, rfl⟩ := exists_around found
      simp only [Option.ite_none_right_eq_some, Option.some.injEq] at taken
      obtain ⟨⟨positive, fitting⟩, rfl⟩ := taken
      simpa using Moves.collects drafted before after positive fitting
    · cases taken
  | draft index act =>
    obtain ⟨⟨queue, draft⟩, found, taken⟩ := Option.bind_eq_some_iff.mp taken
    obtain ⟨next, moved, rfl⟩ := Option.map_eq_some_iff.mp taken
    obtain ⟨before, after, rfl, rfl⟩ := exists_around found
    cases draft with
    | none => cases act <;> cases moved
    | some draft => simpa using Moves.drafts queue before after moved
  | await index =>
    simp only [step] at taken
    split at taken
    · rename_i queue found
      obtain ⟨before, after, rfl, rfl⟩ := exists_around found
      cases taken
      rw [List.eraseIdx_append_of_length_le (Nat.le_refl _), Nat.sub_self, List.eraseIdx_cons_zero]
      exact Moves.awaits drafted queue before after
    · cases taken

end Aborting

/-- The events that a debouncer has not coalesced yet. -/
def Aborted.events (task : Aborted) : List (Option (Notice FileName)) :=
  task.draft.elim [] Draft.events ++ task.queue

/-- What the debouncer has and what it has made of it fits the vault. -/
structure Aborted.Fits (fs : Fs) (root : Location) (task : Aborted) : Prop where
  placed : ∀ notice, some notice ∈ task.events → Placed fs root notice.path
  paired : ∀ path, some (.renamed path) ∉ task.events
  fits : ∀ draft ∈ task.draft, draft.Fits fs root

section

variable {ext : External} {root : Location} {fs fs' : Fs} {mailed : Mailed} {draft : Option Draft}
  {drafted later : Drafted} {batch : IndexBatch} {task : Aborted}

/-! What an aborted debouncer has goes on fitting the vault. -/

theorem Aborted.Fits.changed {change : FileChange} (fits : task.Fits fs root) (tame : Tame ext fs root)
    (tame' : Tame ext fs' root) (done : change.apply fs = some fs') : task.Fits fs' root where
  placed notice listed := (fits.placed notice listed).changed done
  paired := fits.paired
  fits draft member := by
    have held : draft.events <+: task.events := by
      rw [Aborted.events, Option.mem_def.mp member, Option.elim]
      exact List.prefix_append _ _
    exact (fits.fits draft member).changed tame tame' done
      (fun notice listed => fits.placed notice (held.subset listed))
      (fun path listed => fits.paired path (held.subset listed))

/-- A debouncer that is left behind has what the loop held. -/
theorem Drafting.leaves (drafting : Drafting ext root drafted) (label : Drafted.Label) :
    ∀ task ∈ drafted.leaves label, task.Fits drafted.mailed.processes.fs root := by
  intro task member
  unfold Drafted.leaves at member
  split at member
  · obtain rfl := List.mem_singleton.mp member
    exact ⟨fun notice listed => drafting.placed listed, drafting.unrenamed, drafting.fits⟩
  · cases member

theorem Aborted.Fits.collect {queue : List (Option (Notice FileName))} {size : Nat}
    (fits : Aborted.Fits fs root ⟨queue, none⟩) (positive : 0 < size) (fitting : size ≤ queue.length) :
    Aborted.Fits fs root ⟨queue.drop size, some (.mapping (queue.take size) 0 false [])⟩ := by
  have whole : Aborted.events ⟨queue.drop size, some (.mapping (queue.take size) 0 false [])⟩ = queue :=
    List.take_append_drop size queue
  refine ⟨fun notice listed => fits.placed notice (whole ▸ listed),
    fun path listed => fits.paired path (whole ▸ listed), ?_⟩
  rintro draft ⟨⟩
  refine ⟨List.ne_nil_of_length_pos ?_, Nat.zero_le _, by simp, by simp⟩
  rw [List.length_take]
  omega

/-- An act coalesces all events of the window or none. -/
theorem events_of_act {one : Draft} {act : Drafted.Act}
    (taken : Drafted.step ext root ⟨mailed, some one⟩ (.draft act) = some later) :
    later.draft.elim [] Draft.events = one.events ∨ later.draft.elim [] Draft.events = [] := by
  cases Drafted.moves_of_step taken with
  | maps => exact .inl rfl
  | coalesces =>
    right
    rw [Draft.coalesced]
    split <;> rfl
  | readsNote | readsTree | sends => exact .inr rfl

theorem Aborted.Fits.act {queue : List (Option (Notice FileName))} {one : Draft} {act : Drafted.Act}
    (fits : Aborted.Fits mailed.processes.fs root ⟨queue, some one⟩)
    (tame : Tame ext mailed.processes.fs root)
    (taken : Drafted.step ext root ⟨mailed, some one⟩ (.draft act) = some later) :
    Aborted.Fits mailed.processes.fs root ⟨queue, later.draft⟩ := by
  have fewer : Aborted.events ⟨queue, later.draft⟩ ⊆ Aborted.events ⟨queue, some one⟩ := by
    intro entry listed
    rw [Aborted.events] at listed
    rcases events_of_act taken with same | none_
    · rwa [same] at listed
    · rw [none_] at listed
      exact List.mem_append_right _ listed
  refine ⟨fun notice listed => fits.placed notice (fewer listed),
    fun path listed => fits.paired path (fewer listed), ?_⟩
  exact Drafted.fits_act tame (fits.fits _ rfl)
    (fun notice listed => fits.placed notice (List.mem_append_left _ listed)) taken

/-! What an aborted debouncer casts reaches the others as any cast does. -/

theorem asking_false (mailed : Mailed) : mailed.asking false = mailed := rfl

/-- An act touches the other processes by its casts only. -/
theorem mailed_of_act {one : Draft} {act : Drafted.Act}
    (taken : Drafted.step ext root ⟨mailed, some one⟩ (.draft act) = some later) :
    (∃ overflow, later.mailed = mailed.asking overflow) ∨
      ∃ overflow batch, act = .send ∧ one = .building overflow [] [] batch ∧
        later.mailed = mailed.posting batch := by
  cases Drafted.moves_of_step taken with
  | maps | readsNote | readsTree => exact .inl ⟨false, (asking_false mailed).symm⟩
  | coalesces mailed events overflow => exact .inl ⟨overflow, rfl⟩
  | sends mailed overflow batch => exact .inr ⟨overflow, batch, rfl, rfl, rfl⟩

theorem view_asking (mailed : Mailed) (draft : Option Draft) (overflow : Bool) :
    Drafted.view ext root ⟨mailed.asking overflow, draft⟩ =
      (Drafted.view ext root ⟨mailed, draft⟩).asking overflow := by
  cases draft with
  | none => rfl
  | some one => cases one <;> rfl

theorem Tidy.asking (tidy : Tidy ext root mailed) (overflow : Bool) :
    Tidy ext root (mailed.asking overflow) :=
  ⟨tidy.tame, tidy.deaf, tidy.placed, tidy.last, tidy.walks, tidy.rebuilds, tidy.batches, tidy.keys,
    fun _ => .inr (.inl (.inr (.inr (.inl (Nat.succ_pos _)))))⟩

theorem Tidy.posting (tidy : Tidy ext root (Drafted.view ext root ⟨mailed, draft⟩))
    (keyed : Keyed batch.upserts) : Tidy ext root (Drafted.view ext root ⟨mailed.posting batch, draft⟩) := by
  have known := tidy.keyed
  have posted : ∀ mail : List Cast, (∀ cast ∈ mail, cast.Keyed) → ∀ cast ∈ mail ++ [.batch batch], cast.Keyed := by
    intro mail known cast member
    rcases List.mem_append.mp member with old | new
    · exact known cast old
    · exact List.mem_singleton.mp new ▸ keyed
  cases draft with
  | none => exact tidy.mail (posted _ known)
  | some one =>
    cases one with
    | mapping => exact tidy.mail (posted _ known)
    | building overflow upserts upsertTrees part =>
      refine tidy.mail fun cast member => ?_
      rcases List.mem_append.mp member with old | new
      · exact posted _ (fun cast held => known cast (List.mem_append_left _ held)) cast old
      · exact known cast (List.mem_append_right _ new)

theorem Drafting.asking (drafting : Drafting ext root ⟨mailed, draft⟩) (overflow : Bool) :
    Drafting ext root ⟨mailed.asking overflow, draft⟩ := by
  refine ⟨?_, drafting.alive, ?_, drafting.heard, drafting.fits⟩
  · rw [view_asking]
    exact drafting.tidy.asking overflow
  · rw [view_asking]
    exact drafting.paired

theorem Drafting.posting (drafting : Drafting ext root ⟨mailed, draft⟩) (keyed : Keyed batch.upserts) :
    Drafting ext root ⟨mailed.posting batch, draft⟩ := by
  refine ⟨drafting.tidy.posting keyed, drafting.alive, ?_, drafting.heard, drafting.fits⟩
  rw [view_processes]
  have paired := drafting.paired
  rwa [view_processes] at paired

/-- A batch sets an entry, or leaves it as it was. -/
theorem entryAt_applied {store store' : NoteStore} {place : Place} {entry : Option Note}
    (same : entryAt store' place = entry ∨ entryAt store' place = entryAt store place)
    (right_ : entryAt (applyIndexBatch store batch) place = entry) :
    entryAt (applyIndexBatch store' batch) place = entry := by
  simp only [entryAt, held, get_applyIndexBatch] at same right_ ⊢
  cases inserted : NoteStore.lastAt batch.upserts place.1.key with
  | some note => rwa [inserted, Option.some_or] at right_
  | none =>
    rw [inserted, Option.none_or] at right_
    rw [Option.none_or]
    split at right_ <;> rename_i dropped
    · rwa [if_pos dropped]
    · rw [if_neg dropped]
      exact same.elim id fun kept => kept.trans right_

/-- What is cast besides does no harm if it is up to date, or a walk is still to begin. -/
theorem assured_posting {place : Place} (assured : Assured ext root (Drafted.view ext root ⟨mailed, draft⟩) place)
    (told : Pending mailed.processes ∨ UpToDate ext root mailed.processes batch place) :
    Assured ext root (Drafted.view ext root ⟨mailed.posting batch, draft⟩) place := by
  have landed : ∀ entry, (∀ store, entryAt (applyIndexBatch store batch) place = entry ∨
      entryAt (applyIndexBatch store batch) place = entryAt store place) →
      entryAt (Drafted.view ext root ⟨mailed, draft⟩).landed place = entry →
      entryAt (Drafted.view ext root ⟨mailed.posting batch, draft⟩).landed place = entry := by
    intro entry told right_
    have now := landed_posting mailed batch
    cases draft with
    | none => exact (congrArg (entryAt · place) now).trans ((told _).elim id fun kept => kept.trans right_)
    | some one =>
      cases one with
      | mapping => exact (congrArg (entryAt · place) now).trans ((told _).elim id fun kept => kept.trans right_)
      | building overflow upserts upsertTrees part =>
        simp only [Drafted.view, landed_posting] at right_ ⊢
        exact entryAt_applied (told _) right_
  unfold Assured at assured ⊢
  rw [view_processes] at assured ⊢
  rcases told with pending | lost | ⟨notice, queued, path⟩ | told
  · exact .inl (pending.imp_left (List.mem_append_right _))
  · exact .inl (.inl (List.mem_append_right _ lost))
  · exact assured.imp_right fun known =>
      ⟨known.1, .inr (.inr ⟨notice, List.mem_append_right _ queued, path⟩)⟩
  · exact assured.imp_right fun known => ⟨known.1, known.2.imp_left (landed _ told)⟩

theorem Drafted.Prepared.asking (prepared : Drafted.Prepared ext root ⟨mailed, draft⟩) (overflow : Bool) :
    Drafted.Prepared ext root ⟨mailed.asking overflow, draft⟩ := by
  cases overflow with
  | false => exact prepared
  | true =>
    refine ⟨prepared.drafting.asking true, fun place => .inl (.inr ?_), prepared.upToDate⟩
    rw [view_asking]
    exact Nat.succ_pos _

theorem Drafted.Prepared.posting (prepared : Drafted.Prepared ext root ⟨mailed, draft⟩)
    (keyed : Keyed batch.upserts)
    (told : Pending mailed.processes ∨ ∀ place, UpToDate ext root mailed.processes batch place) :
    Drafted.Prepared ext root ⟨mailed.posting batch, draft⟩ where
  drafting := prepared.drafting.posting keyed
  assured place := assured_posting (prepared.assured place) (told.imp_right fun told => told place)
  upToDate := prepared.upToDate

end

namespace Aborting

section

variable (ext : External) (root : Location)

/-- The vault stays a tree of directories and readable notes. -/
def Admissible (aborting : Aborting) : Label → Prop
  | .watched label => aborting.drafted.Admissible ext root label
  | .collect _ _ | .draft _ _ | .await _ => True

/-- Besides what disturbs a daemon without such debouncers: what one of them still casts is
up to date, unless another walk is to begin. -/
def Undisturbed (aborting : Aborting) : Label → Prop
  | .watched label => aborting.drafted.Undisturbed ext root label
  | .draft index .send => Pending aborting.drafted.mailed.processes ∨
      ∀ queue overflow batch, aborting.tasks[index]? = some ⟨queue, some (.building overflow [] [] batch)⟩ →
        ∀ place, UpToDate ext root aborting.drafted.mailed.processes batch place
  | .collect _ _ | .draft _ .map | .draft _ .coalesce | .draft _ .read | .await _ => True

/-- What holds whatever happens when. -/
structure Kept (aborting : Aborting) : Prop where
  drafting : Drafting ext root aborting.drafted
  tasks : ∀ task ∈ aborting.tasks, task.Fits aborting.drafted.mailed.processes.fs root

end

section

variable {ext : External} {root : Location} {aborting after : Aborting} {label : Label}

/-- The tree is that of before, or one file of it has changed. -/
theorem fs_watched {drafted later : Drafted} {label : Drafted.Label}
    (taken : drafted.step ext root label = some later) :
    later.mailed.processes.fs = drafted.mailed.processes.fs ∨
      ∃ change, label = .process (.change change) ∧
        change.apply drafted.mailed.processes.fs = some later.mailed.processes.fs := by
  cases Drafted.moves_of_step taken with
  | @proceeds mailed later label draft window unwatch moved =>
    by_cases still : ∀ one, label ≠ .change one
    · exact .inl (fs_unchanged still moved)
    obtain ⟨change, rfl⟩ : ∃ one, label = .change one := by simpa using still
    obtain ⟨next, stepped, rfl⟩ := Option.map_eq_some_iff.mp moved
    obtain ⟨fs, done, rfl⟩ := Option.map_eq_some_iff.mp stepped
    exact .inr ⟨change, rfl, done⟩
  | unwatches draft moved => exact .inl (fs_unchanged (by simp) moved)
  | collects | maps | coalesces | readsNote | readsTree | sends => exact .inl rfl

theorem tasks_watched {drafted later : Drafted} {label : Drafted.Label} {tasks : List Aborted}
    (kept : Kept ext root ⟨drafted, tasks⟩) (admissible : drafted.Admissible ext root label)
    (taken : drafted.step ext root label = some later) :
    ∀ task ∈ tasks ++ drafted.leaves label, task.Fits later.mailed.processes.fs root := by
  intro task member
  have fits : task.Fits drafted.mailed.processes.fs root :=
    (List.mem_append.mp member).elim (kept.tasks task) (kept.drafting.leaves label task)
  rcases fs_watched taken with same | ⟨change, rfl, done⟩
  · rwa [same]
  · exact fits.changed kept.drafting.tame (admissible _ done) done

/-- One task of the list is replaced. -/
theorem Kept.replace {drafted later : Drafted} {before rest : List Aborted} {task new : Aborted}
    (kept : Kept ext root ⟨drafted, before ++ task :: rest⟩) (drafting : Drafting ext root later)
    (same : later.mailed.processes.fs = drafted.mailed.processes.fs)
    (fits : new.Fits drafted.mailed.processes.fs root) : Kept ext root ⟨later, before ++ new :: rest⟩ := by
  refine ⟨drafting, fun other member => ?_⟩
  rw [same]
  rcases List.mem_append.mp member with old | listed
  · exact kept.tasks other (List.mem_append_left _ old)
  rcases List.mem_cons.mp listed with rfl | old
  · exact fits
  · exact kept.tasks other (List.mem_append_right _ (List.mem_cons_of_mem _ old))

theorem kept_step (kept : Kept ext root aborting) (admissible : aborting.Admissible ext root label)
    (taken : aborting.step ext root label = some after) : Kept ext root after := by
  cases moves_of_step taken with
  | watches tasks moved =>
    exact ⟨Drafted.drafting_step kept.drafting admissible moved, tasks_watched kept admissible moved⟩
  | @collects queue size drafted before rest positive fitting =>
    have fits := kept.tasks ⟨queue, none⟩ (List.mem_append_right _ List.mem_cons_self)
    exact kept.replace kept.drafting rfl (fits.collect positive fitting)
  | @drafts drafted next draft act queue before rest moved =>
    have fits := kept.tasks ⟨queue, some draft⟩ (List.mem_append_right _ List.mem_cons_self)
    have acted := fits.act kept.drafting.tame moved
    rcases mailed_of_act moved with ⟨overflow, same⟩ | ⟨overflow, batch, rfl, rfl, same⟩
    · rw [same]
      exact kept.replace (kept.drafting.asking overflow) rfl acted
    · have keyed : Keyed batch.upserts := (fits.fits _ rfl).2.1
      rw [same]
      exact kept.replace (kept.drafting.posting keyed) rfl acted
  | awaits drafted queue before rest =>
    refine ⟨kept.drafting, fun task member => kept.tasks task ?_⟩
    rcases List.mem_append.mp member with old | old
    · exact List.mem_append_left _ old
    · exact List.mem_append_right _ (List.mem_cons_of_mem _ old)

theorem prepared_step (kept : Kept ext root aborting) (prepared : aborting.drafted.Prepared ext root)
    (admissible : aborting.Admissible ext root label) (undisturbed : aborting.Undisturbed ext root label)
    (taken : aborting.step ext root label = some after) : after.drafted.Prepared ext root := by
  cases moves_of_step taken with
  | watches tasks moved => exact Drafted.prepared_step prepared admissible undisturbed moved
  | collects | awaits => exact prepared
  | @drafts drafted next draft act queue before rest moved =>
    rcases mailed_of_act moved with ⟨overflow, same⟩ | ⟨overflow, batch, rfl, rfl, same⟩
    · rw [same]
      exact prepared.asking overflow
    · have fits := kept.tasks _ (List.mem_append_right before List.mem_cons_self)
      rw [same]
      exact prepared.posting (fits.fits _ rfl).2.1
        (undisturbed.imp_right fun told => told queue overflow batch (by simp))

end

end Aborting

/-! Left alone, the aborted debouncers come to their end. -/

/-- What the batch of a window still costs the writer. -/
def Draft.owed : Draft → Nat
  | .mapping _ _ _ _ => 0
  | .building _ _ _ _ => 2

/-- What an aborted debouncer can still do and have done: any event may cost a rescan. -/
def Aborted.work (fs : Fs) (root : Location) (task : Aborted) : Nat :=
  task.events.length * (((fs.under root).length + 6) * 2) + task.queue.length * 5 +
    task.draft.elim 0 (fun draft => draft.left + draft.owed) + 1

section

variable {ext : External} {root : Location} {mailed : Mailed} {later : Drafted}

variable (root) in
theorem work_asked (mailed : Mailed) : (mailed.asking true).bySender.work root =
    mailed.bySender.work root + ((mailed.processes.fs.under root).length + 4) := by
  obtain ⟨⟨fs, watching, up, queue, rescans, walk, rebuilds, batches, store⟩, mail, _⟩ := mailed
  cases watching <;>
    simp only [State.work, Mailed.bySender, Mailed.asking, State.behind, Nat.add_mul, Nat.one_mul,
      ↓reduceIte, Bool.false_eq_true] <;> omega

theorem work_posted (mailed : Mailed) (batch : IndexBatch) :
    (mailed.posting batch).bySender.work root = mailed.bySender.work root + 1 := by
  obtain ⟨⟨fs, watching, up, queue, rescans, walk, rebuilds, batches, store⟩, mail, _⟩ := mailed
  have changed : (mail ++ [Cast.batch batch]).filterMap Cast.changes = mail.filterMap Cast.changes ++ [batch] := by
    rw [List.filterMap_append]
    rfl
  have walked : (mail ++ [Cast.batch batch]).filterMap Cast.walked = mail.filterMap Cast.walked := by
    rw [List.filterMap_append]
    exact List.append_nil _
  cases watching <;>
    simp only [State.work, Mailed.bySender, Mailed.posting, State.behind, changed, walked,
      List.length_append, List.length_singleton, ↓reduceIte, Bool.false_eq_true] <;> omega

theorem work_asking (draft : Option Draft) (overflow : Bool) :
    Drafted.work ext root ⟨mailed.asking overflow, draft⟩ ≤
      Drafted.work ext root ⟨mailed, draft⟩ + ((mailed.processes.fs.under root).length + 4) * 2 := by
  cases overflow with
  | false => exact Nat.le_add_right _ _
  | true =>
    have same : (Drafted.view ext root ⟨mailed, draft⟩).processes.fs = mailed.processes.fs := by
      rw [view_processes]
      rfl
    have asked := work_asked root (Drafted.view ext root ⟨mailed, draft⟩)
    rw [same] at asked
    have left_ : Drafted.left ⟨mailed.asking true, draft⟩ = Drafted.left ⟨mailed, draft⟩ := rfl
    rw [Drafted.work, Drafted.work, view_asking]
    omega

theorem work_posting (draft : Option Draft) (batch : IndexBatch) :
    Drafted.work ext root ⟨mailed.posting batch, draft⟩ = Drafted.work ext root ⟨mailed, draft⟩ + 2 := by
  have posted : (Drafted.view ext root ⟨mailed.posting batch, draft⟩).bySender.work root =
      (Drafted.view ext root ⟨mailed, draft⟩).bySender.work root + 1 := by
    cases draft with
    | none => exact work_posted mailed batch
    | some one =>
      cases one with
      | mapping events => exact work_posted (mailed.onto events) batch
      | building overflow upserts upsertTrees part =>
        simp only [Drafted.view, work_posted]
  have left_ : Drafted.left ⟨mailed.posting batch, draft⟩ = Drafted.left ⟨mailed, draft⟩ := rfl
  rw [Drafted.work, Drafted.work]
  omega

/-- Each act is paid for by the window. -/
theorem work_act {queue : List (Option (Notice FileName))} {one : Draft} {act : Drafted.Act}
    (fits : Aborted.Fits mailed.processes.fs root ⟨queue, some one⟩)
    (tame : Tame ext mailed.processes.fs root)
    (taken : Drafted.step ext root ⟨mailed, some one⟩ (.draft act) = some later) (draft : Option Draft) :
    Drafted.work ext root ⟨later.mailed, draft⟩ +
        Aborted.work mailed.processes.fs root ⟨queue, later.draft⟩ <
      Drafted.work ext root ⟨mailed, draft⟩ +
        Aborted.work mailed.processes.fs root ⟨queue, some one⟩ := by
  cases Drafted.moves_of_step taken with
  | @maps events position mailed overflow actions inside =>
    have few : (mapEvent mailed.processes.fs root.raw (eventOf root events[position])).length ≤ 2 := by
      refine Drafted.length_mapEvent tame fun notice same => fits.placed notice ?_
      rw [← Option.mem_def.mp same]
      exact List.mem_append_left _ (List.getElem_mem inside)
    simp only [Aborted.work, Aborted.events, Option.elim, Draft.events, Draft.left, Draft.owed,
      List.length_append]
    omega
  | coalesces mailed events overflow actions =>
    have asked : Drafted.work ext root ⟨mailed.asking overflow, draft⟩ ≤ _ := work_asking draft overflow
    have most := Drafted.left_coalesced overflow actions
    have owed : (Draft.coalesced overflow actions).elim 0 (fun draft => draft.left + draft.owed) ≤
        (Draft.coalesced overflow actions).elim 0 Draft.left + 2 := by
      rw [Draft.coalesced]
      split
      · exact Nat.zero_le _
      · exact Nat.le_refl _
    have none_ : (Draft.coalesced overflow actions).elim [] Draft.events = [] := by
      rw [Draft.coalesced]
      split <;> rfl
    -- an event of the window pays for the rescan and the batch
    have paid : (events.length + queue.length) * (((mailed.processes.fs.under root).length + 6) * 2) ≥
        ((mailed.processes.fs.under root).length + 6) * 2 +
          queue.length * (((mailed.processes.fs.under root).length + 6) * 2) := by
      have some_ : 0 < events.length := List.length_pos_iff.mpr (fits.fits _ rfl).1
      rw [Nat.add_mul]
      exact Nat.add_le_add_right (Nat.le_mul_of_pos_left _ some_) _
    simp only [Aborted.work, Aborted.events, none_, List.nil_append]
    simp only [Option.elim, Draft.events, Draft.left, Draft.owed, List.length_append] at most owed ⊢
    omega
  | readsNote | readsTree =>
    simp only [Aborted.work, Aborted.events, Option.elim, Draft.events, Draft.left, Draft.owed, List.length_cons]
    omega
  | sends mailed overflow batch =>
    have posted : Drafted.work ext root ⟨mailed.posting batch, draft⟩ = _ := work_posting draft batch
    simp only [Aborted.work, Aborted.events, Option.elim, Draft.events, Draft.left, Draft.owed, posted]
    omega

end

namespace Aborting

section

variable {ext : External} {root : Location} {aborting after : Aborting} {label : Label}

/-- Everything but a change, a loss of events and the end of the watch. -/
def Own : Label → Prop
  | .watched label => Drafted.Own label
  | .collect _ _ | .draft _ _ | .await _ => True

/-- Nothing is outstanding, and there is no debouncer but the watcher's. -/
structure AtRest (aborting : Aborting) : Prop where
  drafted : aborting.drafted.AtRest
  alone : aborting.tasks = []

variable (ext root) in
def work (aborting : Aborting) : Nat :=
  aborting.drafted.work ext root +
    weigh (Aborted.work aborting.drafted.mailed.processes.fs root) aborting.tasks

theorem leaves_of_own {drafted : Drafted} {label : Drafted.Label} (own : Drafted.Own label) :
    drafted.leaves label = [] := by
  unfold Drafted.leaves
  split
  · cases own
  · rfl

theorem fs_of_own (own : Own label) (taken : aborting.step ext root label = some after) :
    after.drafted.mailed.processes.fs = aborting.drafted.mailed.processes.fs := by
  cases moves_of_step taken with
  | watches tasks moved => exact Drafted.fs_of_own own moved
  | @drafts _ next _ act _ _ _ moved =>
    have own : Drafted.Own (.draft act) := trivial
    have same : next.mailed.processes.fs = _ := Drafted.fs_of_own own moved
    exact same
  | collects | awaits => rfl

/-- Every own step leaves less to do. -/
theorem work_decreases (kept : Kept ext root aborting) (own : Own label)
    (taken : aborting.step ext root label = some after) : after.work ext root < aborting.work ext root := by
  have same := fs_of_own own taken
  cases moves_of_step taken with
  | watches tasks moved =>
    have shrunk := Drafted.work_decreases kept.drafting own moved
    simp only at same shrunk
    simp only [work, leaves_of_own own, List.append_nil, same]
    omega
  | @collects queue size drafted before rest positive fitting =>
    have events : Aborted.events ⟨queue.drop size, some (.mapping (queue.take size) 0 false [])⟩ = queue :=
      List.take_append_drop size queue
    have less : Aborted.work drafted.mailed.processes.fs root
          ⟨queue.drop size, some (.mapping (queue.take size) 0 false [])⟩ <
        Aborted.work drafted.mailed.processes.fs root ⟨queue, none⟩ := by
      simp only [Aborted.work, events, Option.elim, Draft.left, Draft.owed, List.length_drop,
        List.length_take, List.length_nil]
      simp only [Aborted.events, Option.elim, List.nil_append]
      omega
    simp only [work, weigh_append, weigh]
    omega
  | @drafts drafted next draft act queue before rest moved =>
    have fits := kept.tasks ⟨queue, some draft⟩ (List.mem_append_right _ List.mem_cons_self)
    obtain ⟨mailed, watched⟩ := drafted
    have less := work_act fits kept.drafting.tame moved watched
    simp only at same less
    simp only [work, same, weigh_append, weigh]
    omega
  | awaits drafted queue before rest =>
    simp only [work, weigh_append, weigh, Aborted.work]
    omega

theorem own_step_of_kept (kept : Kept ext root aborting) (restless : ¬ AtRest aborting) :
    ∃ label next, Own label ∧ aborting.step ext root label = some next := by
  obtain ⟨drafted, tasks⟩ := aborting
  cases tasks with
  | nil =>
    obtain ⟨label, next, own, taken⟩ :=
      Drafted.own_step_of_drafting kept.drafting fun rest => restless ⟨rest, rfl⟩
    exact ⟨.watched label, _, own, Option.map_eq_some_iff.mpr ⟨next, taken, rfl⟩⟩
  | cons task rest =>
    obtain ⟨queue, draft⟩ := task
    cases draft with
    | none => exact ⟨.await 0, _, trivial, rfl⟩
    | some draft =>
      have fits := kept.tasks _ List.mem_cons_self
      obtain ⟨act, next, taken⟩ := Drafted.act_step ext draft (fits.fits _ rfl)
      exact ⟨.draft 0 act, _, trivial, Option.map_eq_some_iff.mpr ⟨next, taken, rfl⟩⟩

theorem admissible_of_own (own : Own label) : Admissible ext root aborting label := by
  cases label with
  | watched label => exact Drafted.admissible_of_own own
  | collect | draft | await => trivial

variable (ext root) in
theorem aborting_settles : Settles (step ext root) Own (Kept ext root) AtRest (work ext root) where
  kept _ _ _ kept own taken := kept_step kept (admissible_of_own own) taken
  shrinks _ _ _ kept own taken := work_decreases kept own taken
  lively _ kept restless := own_step_of_kept kept restless

theorem no_step_of_rest (rest : AtRest aborting) (own : Own label) : aborting.step ext root label = none := by
  obtain ⟨drafted, tasks⟩ := aborting
  obtain ⟨rest, rfl⟩ := rest
  cases label with
  | watched label => exact Option.map_eq_none_iff.mpr (Drafted.no_step_of_rest rest own)
  | collect | draft | await => rfl

end

section

variable (ext : External) (root : Location) {fs : Fs} {labels alone : List Label} {aborting final : Aborting}

/-- With the events mapped and the notes read one by one while files change, and with the
debouncers of watchers that are gone: left alone, the daemon is done after a bounded number
of steps, and then the store is that of a scan. -/
theorem aborts_left_alone (tame : Tame ext fs root)
    (allowed : Meets (step ext root) (fun aborting label =>
      Admissible ext root aborting label ∧ Undisturbed ext root aborting label) (starting fs) labels)
    (reached : run (step ext root) (starting fs) labels = some aborting)
    (mine : ∀ label ∈ alone, Own label)
    (undisturbed : Meets (step ext root) (Undisturbed ext root) aborting alone)
    (ran : run (step ext root) aborting alone = some final) :
    alone.length ≤ aborting.work ext root ∧
      ((∀ label, Own label → step ext root final label = none) →
        final.drafted.mailed.processes.store = scanned ext aborting.drafted.mailed.processes.fs root) := by
  have prepared : Kept ext root aborting ∧ aborting.drafted.Prepared ext root := by
    refine run_invariant (fun aborting => Kept ext root aborting ∧ aborting.drafted.Prepared ext root) ?_
      ?_ allowed reached
    · rintro state label next ⟨kept, prepared⟩ ⟨admissible, quiet⟩ taken
      exact ⟨kept_step kept admissible taken, prepared_step kept prepared admissible quiet taken⟩
    · have first := Drafted.prepared_starting tame
      exact ⟨⟨first.drafting, fun _ member => (by cases member)⟩, first⟩
  refine ⟨?_, fun stuck => ?_⟩
  · have bound := ((aborting_settles ext root).bounded prepared.1 mine ran).1
    omega
  · have rest := (aborting_settles ext root).rests prepared.1 mine ran stuck
    have owns : Meets (step ext root) (fun _ label => Own label) aborting alone :=
      Meets.of_forall (fun _ => mine) _
    have kept : (Kept ext root final ∧ final.drafted.Prepared ext root) ∧
        final.drafted.mailed.processes.fs = aborting.drafted.mailed.processes.fs := by
      refine run_invariant (fun later => (Kept ext root later ∧ later.drafted.Prepared ext root) ∧
        later.drafted.mailed.processes.fs = aborting.drafted.mailed.processes.fs) ?_ ⟨prepared, rfl⟩
        (owns.and undisturbed) ran
      rintro state label next ⟨⟨kept, prepared⟩, same⟩ ⟨own, quiet⟩ taken
      have admissible : state.Admissible ext root label := admissible_of_own own
      exact ⟨⟨kept_step kept admissible taken, prepared_step kept prepared admissible quiet taken⟩,
        (fs_of_own own taken).trans same⟩
    obtain ⟨⟨-, drafting, assured, _⟩, same⟩ := kept
    obtain ⟨⟨mailed, draft⟩, tasks⟩ := final
    obtain rfl : draft = none := rest.drafted.draft
    have settling : Settling ext root mailed := ⟨drafting.tidy, drafting.alive, assured⟩
    rw [← same]
    exact settling.eq_scanned rest.drafted.idle

end

/-- As for windows of a watcher; and a watcher ends, and an aborted debouncer casts, only
while a rescan is due. -/
def Calm (aborting : Aborting) : Label → Prop
  | .watched (.process .unwatch) => 0 < aborting.drafted.mailed.processes.rescans
  | .watched label => aborting.drafted.Calm label
  | .draft _ .send => 0 < aborting.drafted.mailed.processes.rescans
  | .collect _ _ | .draft _ .map | .draft _ .coalesce | .draft _ .read | .await _ => True

instance (aborting : Aborting) (label : Label) : Decidable (Calm aborting label) :=
  match label with
  | .watched (.process .unwatch) | .draft _ .send =>
      inferInstanceAs (Decidable (0 < aborting.drafted.mailed.processes.rescans))
  | .watched (.process .finish) => inferInstanceAs (Decidable (aborting.drafted.Calm (.process .finish)))
  | .watched (.process (.change change)) =>
      inferInstanceAs (Decidable (aborting.drafted.Calm (.process (.change change))))
  | .watched (.process (.overflow _)) | .watched (.process (.window _)) | .watched (.process .rescanNow)
  | .watched (.process .visit) | .watched (.process .rebuild) | .watched (.process .batch)
  | .watched (.process .watch) | .watched (.collect _) | .watched (.draft _) => .isTrue trivial
  | .collect _ _ | .draft _ .map | .draft _ .coalesce | .draft _ .read | .await _ => .isTrue trivial

instance (ext : External) (root : Location) (aborting : Aborting) (label : Label) :
    Decidable (Admissible ext root aborting label) :=
  match label with
  | .watched label => inferInstanceAs (Decidable (aborting.drafted.Admissible ext root label))
  | .collect _ _ | .draft _ _ | .await _ => .isTrue trivial

theorem Calm.undisturbed {ext : External} {root : Location} {aborting : Aborting} {label : Label}
    (calm : Calm aborting label) : Undisturbed ext root aborting label := by
  cases label with
  | collect | await => trivial
  | draft index act =>
    cases act with
    | send => exact .inl (.inr calm)
    | map | coalesce | read => trivial
  | watched label =>
    cases label with
    | collect | draft => trivial
    | process label =>
      cases label with
      | unwatch => exact fun place => .inl (.inr calm)
      | change change =>
        have quiet : aborting.drafted.Calm (.process (.change change)) := calm
        exact (quiet.undisturbed : aborting.drafted.Undisturbed ext root _)
      | finish =>
        have quiet : aborting.drafted.Calm (.process .finish) := calm
        exact (quiet.undisturbed : aborting.drafted.Undisturbed ext root _)
      | overflow | window | rescanNow | visit | rebuild | batch | watch => trivial

/-- The note is edited as the watcher comes down, while a rescan is due: the debouncer has
read the first text, the next watcher hears of the second. -/
def editedTwice : List Label :=
  (Drafted.upAndWatching ++ [Drafted.Label.process (.overflow []), .collect 1, .draft .map,
    .draft .coalesce, .process (.change (.edit notePlace (plainFile "once"))), .collect 1,
    .draft .map]).map .watched ++
  [.watched (.process .unwatch), .draft 0 .coalesce, .draft 0 .read, .watched (.process .watch),
    .watched (.process (.change (.edit notePlace (plainFile "twice"))))]

def editedTwiceEnd : Aborting :=
  (run (step .bare [vaultName]) (starting oneNote) editedTwice).get (by decide +kernel)

/-- What the new watcher's debouncer casts is overtaken by the older text, and the rescan
outdoes both. -/
def editedTwiceAlone : List Label :=
  [.watched (.collect 1), .watched (.draft .map), .watched (.draft .coalesce), .watched (.draft .read),
    .watched (.draft .send), .draft 0 .send, .await 0] ++
  ([.batch, .batch, .rescanNow, .visit, .visit, .visit, .finish, .rebuild].map
    fun label : Daemon.Label => .watched (.process label))

def editedTwiceRest : Aborting :=
  (run (step .bare [vaultName]) editedTwiceEnd editedTwiceAlone).get (by decide +kernel)

theorem aborts_left_alone_editedTwice :
    editedTwiceAlone.length ≤ editedTwiceEnd.work .bare [vaultName] ∧
      editedTwiceRest.drafted.mailed.processes.store =
        scanned .bare editedTwiceEnd.drafted.mailed.processes.fs [vaultName] :=
  have settled := aborts_left_alone .bare [vaultName] oneNote_tame
    (Meets.mono (fun _ _ holds => ⟨holds.1, holds.2.undisturbed⟩)
      (show Meets (step .bare [vaultName]) (fun aborting label =>
        Admissible .bare [vaultName] aborting label ∧ Calm aborting label)
        (starting oneNote) editedTwice by decide +kernel))
    (Option.some_get _).symm (by simp [editedTwiceAlone, Own, Drafted.Own, Daemon.Own])
    (Meets.mono (fun _ _ calm => calm.undisturbed)
      (show Meets (step .bare [vaultName]) Calm editedTwiceEnd editedTwiceAlone by decide +kernel))
    (show run (step .bare [vaultName]) editedTwiceEnd editedTwiceAlone = some editedTwiceRest from
      (Option.some_get _).symm)
  have rest : AtRest editedTwiceRest :=
    ⟨⟨Option.isNone_iff_eq_none.mp (by decide +kernel),
      idle_of_empty (by decide +kernel) (by decide +kernel)⟩, List.isEmpty_iff.mp (by decide +kernel)⟩
  ⟨settled.1, settled.2 fun _ own => no_step_of_rest rest own⟩

end Aborting

end Anwesen.Daemon

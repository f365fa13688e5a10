import Anwesen.Daemon.Consistency
import Anwesen.Daemon.IndexWriter
import Anwesen.Daemon.Settling

/-! The daemon with one mailbox for the index writer.

The writer handles what the scanner and the watcher cast in the order in which it
was cast. These are fewer schedules than the senders' queues alone allow.
-/

set_option autoImplicit false

namespace Anwesen.Daemon

open Foundation Vault Watcher

/-- What the other processes cast to the index writer. -/
inductive Cast where
  | rebuild (notes : List Note)
  | batch (batch : IndexBatch)

namespace Cast

def message : Cast → IndexWriterMessage
  | .rebuild notes => .rebuild notes
  | .batch window => .batch window

def handle (store : NoteStore) (cast : Cast) : NoteStore := handleCast store cast.message

def walked : Cast → Option (List Note)
  | .rebuild notes => some notes
  | .batch _ => none

def changes : Cast → Option IndexBatch
  | .rebuild _ => none
  | .batch window => some window

/-- The writer's step that handles the cast. -/
def label : Cast → Label
  | .rebuild _ => .rebuild
  | .batch _ => .batch

end Cast

/-- The processes and the writer's mailbox. A cast is in the mailbox at once, so
nothing stays with its sender. -/
structure Mailed where
  processes : State
  mail : List Cast
  sent : processes.rebuilds = [] ∧ processes.batches = []

namespace Mailed

def ofState (state : State) (mail : List Cast) : Mailed where
  processes := { state with rebuilds := [], batches := [] }
  mail := mail ++ state.rebuilds.map .rebuild ++ state.batches.map .batch
  sent := ⟨rfl, rfl⟩

def starting (fs : Fs) : Mailed := ofState (Daemon.starting fs) []

/-- The next cast in the mailbox is handled, or a process makes its step and casts. -/
def step (ext : External) (root : Location) (mailed : Mailed) : Label → Option Mailed
  | .rebuild =>
      match mailed.mail with
      | .rebuild notes :: rest => some
          { mailed with
            processes := { mailed.processes with
              store := Cast.handle mailed.processes.store (.rebuild notes) }
            mail := rest }
      | _ => none
  | .batch =>
      match mailed.mail with
      | .batch window :: rest => some
          { mailed with
            processes := { mailed.processes with
              store := Cast.handle mailed.processes.store (.batch window) }
            mail := rest }
      | _ => none
  | label => (Daemon.step ext root mailed.processes label).map fun next => ofState next mailed.mail

/-- The store once the mailbox is empty. -/
def landed (mailed : Mailed) : NoteStore := mailed.mail.foldl Cast.handle mailed.processes.store

end Mailed

/-- The same daemon with casts queued before those it has queued. -/
def State.behind (state : State) (mail : List Cast) : State :=
  { state with
    rebuilds := mail.filterMap Cast.walked ++ state.rebuilds
    batches := mail.filterMap Cast.changes ++ state.batches }

/-- The mailbox taken apart by sender. -/
def Mailed.bySender (mailed : Mailed) : State := mailed.processes.behind mailed.mail

section

variable {ext : External} {root : Location} {state next : State} {mailed later : Mailed} {label : Label}

@[simp] theorem bySender_ofState (state : State) (mail : List Cast) :
    (Mailed.ofState state mail).bySender = state.behind mail := by
  have walked : ∀ notes : List (List Note),
      (notes.map Cast.rebuild).filterMap Cast.walked = notes ∧
        (notes.map Cast.rebuild).filterMap Cast.changes = [] := by
    intro notes
    induction notes with
    | nil => exact ⟨rfl, rfl⟩
    | cons _ _ ih => simp [Cast.walked, Cast.changes, ih]
  have changed : ∀ windows : List IndexBatch,
      (windows.map Cast.batch).filterMap Cast.walked = [] ∧
        (windows.map Cast.batch).filterMap Cast.changes = windows := by
    intro windows
    induction windows with
    | nil => exact ⟨rfl, rfl⟩
    | cons _ _ ih => simp [Cast.walked, Cast.changes, ih]
  simp [Mailed.bySender, Mailed.ofState, State.behind, walked, changed]

/-- Only the writer looks at what is queued for it. -/
theorem step_behind {mail : List Cast} (rebuild : label ≠ .rebuild) (batch : label ≠ .batch)
    (taken : step ext root state label = some next) :
    step ext root (state.behind mail) label = some (next.behind mail) := by
  refine step_of_moves ?_
  cases moves_of_step taken with
  | rebuilds => exact absurd rfl rebuild
  | batches => exact absurd rfl batch
  | changes done => exact .changes done
  | loses watching part => exact .loses watching part
  | takes positive fits read =>
    simp only [State.behind, ← List.append_assoc]
    exact .takes positive fits read
  | rescans up alone due => exact .rescans up alone due
  | visits walking visited => exact .visits walking visited
  | finishes walking =>
    simp only [State.behind, ← List.append_assoc]
    exact .finishes walking
  | unwatches watching => exact .unwatches watching
  | watches up off => exact .watches up off

/-- A cast is handled, or a process makes its step. -/
theorem mailed_cases (taken : Mailed.step ext root mailed label = some later) :
    (∃ cast rest, mailed.mail = cast :: rest ∧ label = cast.label ∧
      later.mail = rest ∧
      later.processes = { mailed.processes with store := cast.handle mailed.processes.store }) ∨
    label ≠ .rebuild ∧ label ≠ .batch ∧
      ∃ next, Moves ext root mailed.processes label next ∧ later = .ofState next mailed.mail := by
  cases label with
  | rebuild | batch =>
    simp only [Mailed.step] at taken
    split at taken <;> cases taken
    exact .inl ⟨_, _, ‹_›, rfl, rfl, rfl⟩
  | change | overflow | window | rescanNow | visit | finish | unwatch | watch =>
    obtain ⟨next, moved, rfl⟩ := Option.map_eq_some_iff.mp taken
    exact .inr ⟨by simp, by simp, next, moves_of_step moved, rfl⟩

/-- Each step with the mailbox is the step of that label with a queue for each sender. -/
theorem step_bySender (taken : Mailed.step ext root mailed label = some later) :
    step ext root mailed.bySender label = some later.bySender := by
  rcases mailed_cases taken with ⟨cast, rest, waiting, rfl, mail, processes⟩ |
      ⟨rebuild, batch, next, moves, rfl⟩
  · refine step_of_moves ?_
    rw [Mailed.bySender, Mailed.bySender, mail, processes, waiting]
    cases cast with
    | rebuild notes => exact .rebuilds rfl
    | batch window => exact .batches rfl
  · rw [bySender_ofState]
    exact step_behind rebuild batch (step_of_moves moves)

/-- A run with the mailbox is a run with a queue for each sender, label for label. -/
theorem run_bySender {fs : Fs} {labels : List Label}
    (reached : run (Mailed.step ext root) (.starting fs) labels = some mailed) :
    run (step ext root) (starting fs) labels = some mailed.bySender :=
  run_of_simulates (fun _ _ _ taken => step_bySender taken) reached

variable (ext root) in
/-- While something is outstanding, a process can move or the next cast be handled. -/
theorem own_step_of_mail (alive : Alive mailed.bySender) (restless : ¬ Idle mailed.bySender) :
    ∃ label later, Own label ∧ Mailed.step ext root mailed label = some later := by
  cases mail : mailed.mail with
  | cons cast rest =>
    cases cast with
    | rebuild notes => exact ⟨.rebuild, _, trivial, by simp only [Mailed.step, mail]; rfl⟩
    | batch window => exact ⟨.batch, _, trivial, by simp only [Mailed.step, mail]; rfl⟩
  | nil =>
    obtain ⟨rebuilds, batches⟩ := mailed.sent
    have same : mailed.bySender = mailed.processes := by
      simp only [Mailed.bySender, State.behind, mail, List.filterMap_nil, List.nil_append]
    rw [same] at alive restless
    obtain ⟨label, next, own, moved⟩ := own_step_of_not_idle ext root alive restless
    refine ⟨label, Mailed.ofState next mailed.mail, own, ?_⟩
    cases label with
    | rebuild => simp [step, rebuilds] at moved
    | batch => simp [step, batches] at moved
    | change | overflow | unwatch => cases own
    | window | rescanNow | visit | finish | watch => exact Option.map_eq_some_iff.mpr ⟨next, moved, rfl⟩

theorem no_mail_step_of_idle (idle : Idle mailed.bySender) (own : Own label) :
    Mailed.step ext root mailed label = none := by
  cases taken : Mailed.step ext root mailed label with
  | none => rfl
  | some later =>
    have moved := step_bySender taken
    rw [no_step_of_idle idle own] at moved
    cases moved

variable (ext root) in
theorem mailed_settles : Settles (Mailed.step ext root) Own (fun mailed => Alive mailed.bySender)
    (fun mailed => Idle mailed.bySender) (fun mailed => mailed.bySender.work root) where
  kept _ _ _ alive _ taken := alive_step alive (step_bySender taken)
  shrinks _ _ _ _ own taken := work_step own (step_bySender taken)
  lively _ alive restless := own_step_of_mail ext root alive restless

end

end Anwesen.Daemon

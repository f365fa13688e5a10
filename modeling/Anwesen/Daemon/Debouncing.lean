import Anwesen.Daemon.LeftAlone
import Anwesen.Watcher.Debouncer

/-! The daemon with the debouncer's loop spelled out.

What the loop has collected and what waits in its channel are, in this order, the
queue of the daemon whose windows are single steps.
-/

set_option autoImplicit false

namespace Anwesen.Daemon

open Foundation Vault Watcher

/-- The same daemon with events queued before those it has queued. -/
def State.onto (state : State) (held : List (Option (Notice FileName))) : State :=
  { state with queue := held ++ state.queue }

/-- The window is mapped and read, and what is made of it is cast. -/
def State.flushed (ext : External) (root : Location) (state : State)
    (events : List (Option (Notice FileName))) : State :=
  let result := debounce ext state.fs root.raw ((events.map (eventOf root)).map .ok)
  { state with
    rescans := if result.1 then state.rescans + 1 else state.rescans
    batches := state.batches ++ result.2.toList }

def Mailed.onto (mailed : Mailed) (held : List (Option (Notice FileName))) : Mailed :=
  { mailed with processes := mailed.processes.onto held, sent := mailed.sent }

/-- The queue of the processes is the channel of the loop, which runs with the watcher. -/
structure Debounced where
  mailed : Mailed
  phase : Phase (Option (Notice FileName))
  now : Nat

namespace Debounced

/-- A step of the loop comes some time after what was before it. -/
inductive Label where
  | process (label : Daemon.Label)
  | loop (time : Nat) (label : Collector.Label (Option (Notice FileName)) Unit)

def starting (fs : Fs) : Debounced := ⟨.starting fs, .waiting, 0⟩

def held (debounced : Debounced) : List (Option (Notice FileName)) := debounced.phase.held.map Prod.fst

/-- The loop, `time` later. -/
def loop (debounced : Debounced) (time : Nat) : Collector (Option (Notice FileName)) Unit :=
  ⟨debounced.now + time, debounced.mailed.processes.watching, debounced.mailed.processes.queue,
    debounced.phase, []⟩

section

variable (ext : External) (root : Location) (width : Nat)

/-- The loop has moved, and what it handed on is mapped at once. -/
def moved (debounced : Debounced) (loop : Collector (Option (Notice FileName)) Unit) : Debounced where
  mailed := .ofState (loop.rounds.foldl
    (fun state round => state.flushed ext root (round.entries.map Prod.fst))
    { debounced.mailed.processes with queue := loop.channel }) debounced.mailed.mail
  phase := loop.phase
  now := loop.now

def step (debounced : Debounced) : Label → Option Debounced
  | .process label =>
      match label with
      | .window _ => none
      -- the abort acts where the task waits next, and what it has collected is lost: the
      -- label is that moment, and a window that is handed on before it is still cast
      | .unwatch => (Mailed.step ext root debounced.mailed .unwatch).map fun mailed =>
          { debounced with mailed, phase := .waiting }
      | label => (Mailed.step ext root debounced.mailed label).map fun mailed =>
          { debounced with mailed }
  | .loop time label =>
      if debounced.mailed.processes.watching = true ∧ label.isOwn = true then
        (Collector.step width (debounced.loop time) label).map (debounced.moved ext root)
      else none

end

/-- The daemon whose windows are single steps. -/
def view (debounced : Debounced) : Mailed := debounced.mailed.onto debounced.held

/-- What a step is to that daemon. -/
def steps (debounced : Debounced) : Label → List Daemon.Label
  | .process (.overflow kept) => [.overflow (debounced.held ++ kept)]
  | .process label => [label]
  | .loop _ (.handOn _) => [.window debounced.held.length]
  | .loop _ _ => []

/-- Without a watcher there is no loop; a round under way has an entry. -/
structure Ready (debounced : Debounced) : Prop where
  deaf : debounced.mailed.processes.watching = false →
    debounced.phase = .waiting ∧ debounced.mailed.processes.queue = []
  begun : debounced.phase = .waiting ∨ debounced.phase.held ≠ []

end Debounced

section

variable {ext : External} {root : Location} {width : Nat} {state next : State} {mailed later : Mailed}
  {debounced after : Debounced} {label : Label}

/-- Where a label finds the events that were queued before. -/
def Label.onto (held : List (Option (Notice FileName))) : Label → Label
  | .overflow kept => .overflow (held ++ kept)
  | label => label

/-- Only a window takes events from the queue, and only the end of the watch drops them. -/
theorem step_onto {held : List (Option (Notice FileName))} (window : ∀ size, label ≠ .window size)
    (unwatch : label ≠ .unwatch) (taken : step ext root state label = some next) :
    step ext root (state.onto held) (label.onto held) = some (next.onto held) := by
  refine step_of_moves ?_
  cases moves_of_step taken with
  | takes => exact absurd rfl (window _)
  | unwatches => exact absurd rfl unwatch
  | @changes change _ done =>
    have queued : held ++ (if state.watching = true then
          state.queue ++ (change.notices root).map some else state.queue) =
        if state.watching = true then held ++ state.queue ++ (change.notices root).map some
        else held ++ state.queue := by
      split <;> simp
    simp only [State.onto, queued]
    exact .changes done
  | loses watching part =>
    simp only [State.onto, ← List.append_assoc]
    exact .loses watching (part.append_left held)
  | rescans up alone due => exact .rescans up alone due
  | visits walking visited => exact .visits walking visited
  | finishes walking => exact .finishes walking
  | rebuilds waiting => exact .rebuilds waiting
  | batches waiting => exact .batches waiting
  | watches up off => exact .watches up off

theorem mailed_onto {held : List (Option (Notice FileName))} (window : ∀ size, label ≠ .window size)
    (unwatch : label ≠ .unwatch) (taken : Mailed.step ext root mailed label = some later) :
    Mailed.step ext root (mailed.onto held) (label.onto held) = some (later.onto held) := by
  cases label with
  | window size => exact absurd rfl (window size)
  | unwatch => exact absurd rfl unwatch
  | rebuild | batch =>
    simp only [Mailed.step] at taken
    split at taken <;> cases taken
    rename_i here
    simp only [Mailed.step, Label.onto, Mailed.onto, here]
    rfl
  | change | overflow | rescanNow | visit | finish | watch =>
    obtain ⟨next, moved, rfl⟩ := Option.map_eq_some_iff.mp taken
    exact Option.map_eq_some_iff.mpr ⟨next.onto held, step_onto window unwatch moved, rfl⟩

@[simp] theorem onto_nil (mailed : Mailed) : mailed.onto [] = mailed := rfl

/-- Whatever was queued is dropped with the watcher. -/
theorem unwatch_onto {held : List (Option (Notice FileName))}
    (taken : Mailed.step ext root mailed .unwatch = some later) :
    Mailed.step ext root (mailed.onto held) .unwatch = some later := by
  obtain ⟨next, dropped, rfl⟩ := Option.map_eq_some_iff.mp taken
  cases moves_of_step dropped with
  | unwatches watching => exact Option.map_eq_some_iff.mpr ⟨_, if_pos watching, rfl⟩

theorem queue_of_unwatch (taken : Mailed.step ext root mailed .unwatch = some later) :
    later.processes.queue = [] := by
  obtain ⟨next, dropped, rfl⟩ := Option.map_eq_some_iff.mp taken
  cases moves_of_step dropped with
  | unwatches => rfl

/-- A window that takes what is held is what becomes of it when the loop hands it on. -/
theorem window_onto {held : List (Option (Notice FileName))} (nonempty : held ≠ []) :
    Mailed.step ext root (mailed.onto held) (.window held.length) =
      some (.ofState (mailed.processes.flushed ext root held) mailed.mail) := by
  have allowed : 0 < held.length ∧ held.length ≤ (mailed.onto held).processes.queue.length := by
    refine ⟨List.length_pos_iff.mpr nonempty, ?_⟩
    simp [Mailed.onto, State.onto]
  refine Option.map_eq_some_iff.mpr ⟨_, if_pos allowed, ?_⟩
  simp [Mailed.onto, State.onto, State.flushed, Mailed.ofState]

/-- As long as no round is handed on, the loop only moves events from its channel to
what it holds. -/
theorem moved_quiet {loop : Collector (Option (Notice FileName)) Unit} {time : Nat}
    {own : Collector.Label (Option (Notice FileName)) Unit} (mine : own.isOwn = true)
    (moves : Collector.Moves width (debounced.loop time) own loop) (quiet : loop.rounds = []) :
    (debounced.moved ext root loop).view = debounced.view := by
  have received := Collector.received_step moves
  simp only [Collector.received, quiet, Collector.Label.arrival_of_own mine, Debounced.loop,
    List.flatMap_nil, List.nil_append, Option.toList_none, List.append_nil] at received
  obtain ⟨rebuilds, batches⟩ := debounced.mailed.sent
  simp [Debounced.view, Debounced.moved, Debounced.held, Mailed.onto, State.onto, Mailed.ofState, quiet,
    received, rebuilds, batches]

namespace Debounced

/-- Each step, seen from the daemon whose windows are single steps. -/
theorem view_step {label : Label} (ready : Ready debounced)
    (taken : debounced.step ext root width label = some after) :
    run (Mailed.step ext root) debounced.view (debounced.steps label) = some after.view := by
  cases label with
  | process label =>
    cases label with
    | window size => cases taken
    | unwatch =>
      obtain ⟨mailed, dropped, rfl⟩ := Option.map_eq_some_iff.mp taken
      exact (run_singleton _ _).trans (unwatch_onto dropped)
    | change | overflow | rescanNow | visit | finish | rebuild | batch | watch =>
      obtain ⟨mailed, moved, rfl⟩ := Option.map_eq_some_iff.mp taken
      exact (run_singleton _ _).trans (mailed_onto (by simp) (by simp) moved)
  | loop time label =>
    simp only [step, Option.ite_none_right_eq_some] at taken
    obtain ⟨⟨watching, mine⟩, taken⟩ := taken
    obtain ⟨loop, moved, rfl⟩ := Option.map_eq_some_iff.mp taken
    have moves := Collector.moves_of_step moved
    cases label with
    | arrive | close | pass => cases mine
    | receive | check | elapse | hangUp =>
      have quiet : loop.rounds = [] := by cases moves <;> rfl
      exact congrArg some (moved_quiet mine moves quiet).symm
    | handOn moment =>
      cases moves with
      | handsOn _ phase =>
        have full : debounced.phase = .full _ _ := phase
        have nonempty : debounced.held ≠ [] := by
          rcases ready.begun with waiting | begun
          · rw [full] at waiting
            cases waiting
          · simpa [held] using begun
        refine (run_singleton _ _).trans ((window_onto nonempty).trans ?_)
        simp only [held, full]
        rfl

theorem flushed_watching (rounds : List (Round (Option (Notice FileName)) Unit)) (state : State) :
    (rounds.foldl (fun state round => state.flushed ext root (round.entries.map Prod.fst)) state).watching =
      state.watching := by
  induction rounds generalizing state with
  | nil => rfl
  | cons round rest ih => exact ih _

/-- Nothing is queued for a watcher that is not there. -/
theorem deaf_step {label : Daemon.Label} (window : ∀ size, label ≠ .window size)
    (unwatch : label ≠ .unwatch) (taken : Mailed.step ext root mailed label = some later)
    (deaf : later.processes.watching = false) :
    mailed.processes.watching = false ∧ later.processes.queue = mailed.processes.queue := by
  rcases mailed_cases taken with ⟨cast, rest, _, _, _, processes⟩ | ⟨_, _, next, moves, rfl⟩
  · rw [processes] at deaf ⊢
    exact ⟨deaf, rfl⟩
  cases moves with
  | takes => exact absurd rfl (window _)
  | unwatches => exact absurd rfl unwatch
  | changes =>
    have off : mailed.processes.watching = false := deaf
    exact ⟨off, if_neg (by simp [off])⟩
  | loses watching =>
    rw [show mailed.processes.watching = false from deaf] at watching
    cases watching
  | watches => cases deaf
  | rescans | visits | finishes | rebuilds | batches => exact ⟨deaf, rfl⟩

/-- A round that is under way stays so, or a new one begins with an entry. -/
theorem begun_step {time : Nat} {label : Collector.Label (Option (Notice FileName)) Unit}
    {loop : Collector (Option (Notice FileName)) Unit} (ready : Ready debounced)
    (watching : debounced.mailed.processes.watching = true)
    (moves : Collector.Moves width (debounced.loop time) label loop) :
    loop.phase = .waiting ∨ loop.phase.held ≠ [] := by
  have begun : (debounced.loop time).phase = .waiting ∨ (debounced.loop time).phase.held ≠ [] := ready.begun
  cases moves with
  | arrives | closes | passes => exact begun
  | opens | joins => exact .inr (by simp)
  | goesOn phase | fills phase | elapses phase =>
    rw [phase] at begun
    exact .inr (begun.resolve_left (by simp))
  | breaksOff _ gone | stops _ gone =>
    rw [show (debounced.loop time).connected = true from watching] at gone
    cases gone
  | handsOn => exact .inl rfl

theorem ready_step {label : Label} (ready : Ready debounced)
    (taken : debounced.step ext root width label = some after) : Ready after := by
  cases label with
  | process label =>
    cases label with
    | window size => cases taken
    | unwatch =>
      obtain ⟨mailed, dropped, rfl⟩ := Option.map_eq_some_iff.mp taken
      exact ⟨fun _ => ⟨rfl, queue_of_unwatch dropped⟩, .inl rfl⟩
    | change | overflow | rescanNow | visit | finish | rebuild | batch | watch =>
      obtain ⟨mailed, moved, rfl⟩ := Option.map_eq_some_iff.mp taken
      refine ⟨fun off => ?_, ready.begun⟩
      obtain ⟨deaf, queue⟩ := deaf_step (by simp) (by simp) moved off
      exact (ready.deaf deaf).imp_right queue.trans
  | loop time label =>
    simp only [step, Option.ite_none_right_eq_some] at taken
    obtain ⟨⟨watching, mine⟩, taken⟩ := taken
    obtain ⟨loop, moved, rfl⟩ := Option.map_eq_some_iff.mp taken
    have moves := Collector.moves_of_step moved
    refine ⟨fun off => ?_, begun_step ready watching moves⟩
    have still : (debounced.moved ext root loop).mailed.processes.watching = true :=
      (flushed_watching _ _).trans watching
    rw [still] at off
    cases off

theorem ready_starting (fs : Fs) : Ready (starting fs) := ⟨fun _ => ⟨rfl, rfl⟩, .inl rfl⟩

variable (ext root width) in
/-- A run, as the daemon whose windows are single steps makes it. -/
def trace : Debounced → List Label → List Daemon.Label
  | _, [] => []
  | debounced, label :: rest =>
      debounced.steps label ++
        (debounced.step ext root width label).elim [] fun next => trace next rest

theorem view_run {labels : List Label} (ready : Ready debounced)
    (reached : run (step ext root width) debounced labels = some after) :
    run (Mailed.step ext root) debounced.view (trace ext root width debounced labels) = some after.view := by
  induction labels generalizing debounced with
  | nil =>
    cases reached
    rfl
  | cons label rest ih =>
    obtain ⟨next, taken, reached⟩ := run_cons.mp reached
    rw [trace, taken]
    exact run_append.mpr ⟨next.view, view_step ready taken, ih (ready_step ready taken) reached⟩

theorem ready_run {labels : List Label} (ready : Ready debounced)
    (reached : run (step ext root width) debounced labels = some after) : Ready after :=
  run_invariant Ready (fun _ _ _ ready _ taken => ready_step ready taken) ready
    (Meets.of_forall (fun _ _ _ => trivial) _ : Meets _ (fun _ _ => True) _ labels) reached

/-! Left alone, the loop and the processes come to rest. -/

/-- Everything but a change, a loss of events and the end of the watch. -/
def Own : Label → Prop
  | .process label => Daemon.Own label
  | .loop _ _ => True

variable (root) in
def work (debounced : Debounced) : Nat :=
  debounced.view.bySender.work root + (debounced.loop 0).left

theorem queue_of_own {label : Daemon.Label} (own : Daemon.Own label)
    (window : ∀ size, label ≠ .window size) (taken : Mailed.step ext root mailed label = some later) :
    later.processes.queue = mailed.processes.queue := by
  rcases mailed_cases taken with ⟨cast, rest, _, _, _, processes⟩ | ⟨_, _, next, moves, rfl⟩
  · rw [processes]
  cases moves with
  | takes => exact absurd rfl (window _)
  | changes | loses | unwatches => cases own
  | rescans | visits | finishes | rebuilds | batches | watches => rfl

theorem left_moved (loop : Collector (Option (Notice FileName)) Unit) :
    ((debounced.moved ext root loop).loop 0).left = loop.left := by
  have queue : ∀ (rounds : List (Round (Option (Notice FileName)) Unit)) (state : State),
      (rounds.foldl (fun state round => state.flushed ext root (round.entries.map Prod.fst)) state).queue =
        state.queue := by
    intro rounds
    induction rounds with
    | nil => exact fun _ => rfl
    | cons round rest ih => exact fun state => ih _
  simp only [Collector.left, Debounced.loop, moved, Mailed.ofState, queue]

theorem work_decreases {label : Label} (ready : Ready debounced) (own : Own label)
    (taken : debounced.step ext root width label = some after) : after.work root < debounced.work root := by
  have seen := view_step ready taken
  cases label with
  | process label =>
    have own : Daemon.Own label := own
    cases label with
    | window size => cases taken
    | change | overflow | unwatch => cases own
    | rescanNow | visit | finish | rebuild | batch | watch =>
      have shrunk := work_step own (step_bySender ((run_singleton _ _).symm.trans seen))
      obtain ⟨mailed, moved, rfl⟩ := Option.map_eq_some_iff.mp taken
      have queue := queue_of_own own (by simp) moved
      simp only [work, Collector.left, Debounced.loop, queue]
      omega
  | loop time label =>
    simp only [step, Option.ite_none_right_eq_some] at taken
    obtain ⟨⟨watching, mine⟩, taken⟩ := taken
    obtain ⟨loop, moved, rfl⟩ := Option.map_eq_some_iff.mp taken
    have fewer := Collector.left_step mine (Collector.moves_of_step moved)
    have channel : (debounced.loop time).left = (debounced.loop 0).left := rfl
    have less : ((debounced.moved ext root loop).view.bySender).work root ≤
        debounced.view.bySender.work root := by
      cases label with
      | arrive | close | pass => cases mine
      | receive | check | elapse | hangUp =>
        rw [Option.some.inj (seen : some debounced.view = some _)]
      | handOn moment =>
        have own : Daemon.Own (.window debounced.held.length) := trivial
        exact (work_step own (step_bySender ((run_singleton _ _).symm.trans seen))).le
    rw [work, work, left_moved]
    omega

variable (ext root width) in
/-- With an empty channel and no round under way, the processes themselves have to move. -/
theorem process_step (alive : Alive debounced.view.bySender) (restless : ¬ Idle debounced.view.bySender)
    (waiting : debounced.phase = .waiting) (queue : debounced.mailed.processes.queue = []) :
    ∃ label next, Own label ∧ debounced.step ext root width label = some next := by
  have same : debounced.view = debounced.mailed := by
    rw [view, held, waiting]
    rfl
  rw [same] at alive restless
  obtain ⟨label, mailed, own, moved⟩ := own_step_of_mail ext root alive restless
  have mine : Own (.process label) := own
  cases label with
  | change | overflow | unwatch => cases own
  | window size =>
    obtain ⟨next, taken, _⟩ := Option.map_eq_some_iff.mp moved
    simp only [Daemon.step, queue, List.length_nil, Option.ite_none_right_eq_some] at taken
    omega
  | rescanNow | visit | finish | rebuild | batch | watch =>
    exact ⟨_, _, mine, Option.map_eq_some_iff.mpr ⟨mailed, moved, rfl⟩⟩

variable (ext root width) in
/-- While something is outstanding, the loop, a process or the writer can move. -/
theorem own_step_of_ready (ready : Ready debounced) (alive : Alive debounced.view.bySender)
    (restless : ¬ Idle debounced.view.bySender) :
    ∃ label next, Own label ∧ debounced.step ext root width label = some next := by
  by_cases watching : debounced.mailed.processes.watching = true
  case neg =>
    obtain ⟨waiting, queue⟩ := ready.deaf (by simpa using watching)
    exact process_step ext root width alive restless waiting queue
  have loops : ∀ (time : Nat) (label : Collector.Label (Option (Notice FileName)) Unit),
      label.isOwn = true → (Collector.step width (debounced.loop time) label).isSome = true →
      ∃ label next, Own label ∧ debounced.step ext root width label = some next := by
    intro time label own moves
    obtain ⟨loop, moved⟩ := Option.isSome_iff_exists.mp moves
    refine ⟨.loop time label, debounced.moved ext root loop, trivial, ?_⟩
    exact (if_pos ⟨watching, own⟩).trans (Option.map_eq_some_iff.mpr ⟨loop, moved, rfl⟩)
  cases phase : debounced.phase with
  | waiting =>
    cases queue : debounced.mailed.processes.queue with
    | nil => exact process_step ext root width alive restless phase queue
    | cons event rest => exact loops 0 .receive rfl (by simp [Collector.step, loop, phase, queue])
  | checking deadline entries => exact loops 0 .check rfl (by simp [Collector.step, loop, phase])
  | awaiting deadline entries =>
    exact loops deadline .elapse rfl (by simp [Collector.step, loop, phase])
  | full deadline entries => exact loops 0 (.handOn ()) rfl (by simp [Collector.step, loop, phase])
  | stopped =>
    have begun := ready.begun
    rw [phase] at begun
    simp at begun

theorem steps_of_own {label : Label} (own : Own label) : ∀ one ∈ debounced.steps label, Daemon.Own one := by
  intro one member
  cases label with
  | process label =>
    have own : Daemon.Own label := own
    cases label with
    | change | overflow | unwatch => cases own
    | window | rescanNow | visit | finish | rebuild | batch | watch =>
      obtain rfl := List.mem_singleton.mp member
      exact own
  | loop time label =>
    cases label with
    | arrive | close | pass | receive | check | elapse | hangUp => cases member
    | handOn =>
      obtain rfl := List.mem_singleton.mp member
      trivial

theorem steps_cases (debounced : Debounced) (label : Label) :
    debounced.steps label = [] ∨ ∃ one, debounced.steps label = [one] := by
  cases label with
  | process label => cases label <;> exact .inr ⟨_, rfl⟩
  | loop time label =>
    cases label with
    | arrive | close | pass | receive | check | elapse | hangUp => exact .inl rfl
    | handOn => exact .inr ⟨_, rfl⟩

/-- At rest the loop waits on an empty channel, and nothing can move. -/
theorem no_step_of_rest {label : Label} (ready : Ready debounced) (idle : Idle debounced.view.bySender)
    (own : Own label) : debounced.step ext root width label = none := by
  cases taken : debounced.step ext root width label with
  | none => rfl
  | some after =>
    have seen := view_step ready taken
    rcases steps_cases debounced label with silent | ⟨one, single⟩
    · have queued : debounced.held ++ debounced.mailed.processes.queue = [] := idle.queue
      obtain ⟨nothing, queue⟩ := List.append_eq_nil_iff.mp queued
      have waiting : debounced.phase = .waiting :=
        ready.begun.resolve_right fun begun => begun (List.map_eq_nil_iff.mp nothing)
      have watching : debounced.mailed.processes.watching = true := idle.watching
      cases label with
      | process label => cases label <;> cases silent
      | loop time label =>
        cases label <;>
          simp [step, Collector.step, Collector.Label.isOwn, loop, waiting, queue, watching] at taken
    · rw [single, run_singleton] at seen
      have mine := steps_of_own own one (single ▸ List.mem_singleton_self one)
      rw [no_mail_step_of_idle idle mine] at seen
      cases seen

/-- What the steps with a mailbox keep, the steps with the loop spelled out keep. -/
theorem kept_view {label : Label} (invariant : Mailed → Prop) (condition : Mailed → Daemon.Label → Prop)
    (preserved : ∀ mailed one later, invariant mailed → condition mailed one →
      Mailed.step ext root mailed one = some later → invariant later)
    (ready : Ready debounced) (holds : invariant debounced.view)
    (allowed : ∀ one ∈ debounced.steps label, condition debounced.view one)
    (taken : debounced.step ext root width label = some after) : invariant after.view := by
  have seen := view_step ready taken
  rcases steps_cases debounced label with none_ | ⟨one, single⟩
  · rw [none_] at seen
    exact Option.some.inj seen ▸ holds
  · rw [single, run_singleton] at seen
    exact preserved _ one _ holds (allowed one (single ▸ List.mem_singleton_self one)) seen

variable (ext root width) in
theorem loop_settles : Settles (step ext root width) Own
    (fun debounced => Ready debounced ∧ Alive debounced.view.bySender)
    (fun debounced => Idle debounced.view.bySender) (work root) where
  kept debounced label next holds _ taken := by
    refine ⟨ready_step holds.1 taken, ?_⟩
    exact kept_view (fun mailed => Alive mailed.bySender) (fun _ _ => True)
      (fun _ _ _ alive _ moved => alive_step alive (step_bySender moved)) holds.1 holds.2
      (fun _ _ => trivial) taken
  shrinks debounced label next holds own taken := work_decreases holds.1 own taken
  lively debounced holds restless := own_step_of_ready ext root width holds.1 holds.2 restless

variable (ext root) in
/-- The condition on a step is that on the step it is to the daemon with whole windows. -/
def Allowed (debounced : Debounced) (label : Label) : Prop :=
  ∀ one ∈ debounced.steps label,
    Admissible ext root debounced.view.processes one ∧ Undisturbed ext root debounced.view one

theorem settling_step {label : Label} (ready : Ready debounced) (settling : Settling ext root debounced.view)
    (allowed : Allowed ext root debounced label)
    (taken : debounced.step ext root width label = some after) : Settling ext root after.view :=
  kept_view (Settling ext root)
    (fun mailed one => Admissible ext root mailed.processes one ∧ Undisturbed ext root mailed one)
    (fun _ _ _ settling conditions moved => settling.step conditions.1 conditions.2 moved) ready settling
    allowed taken

theorem fs_view {label : Label} (ready : Ready debounced) (own : Own label)
    (taken : debounced.step ext root width label = some after) :
    after.mailed.processes.fs = debounced.mailed.processes.fs :=
  kept_view (fun mailed => mailed.processes.fs = debounced.mailed.processes.fs)
    (fun _ one => Daemon.Own one)
    (fun _ _ _ same own moved => (fs_step own.ne_change (step_bySender moved)).trans same) ready rfl
    (steps_of_own own) taken

end Debounced

end

namespace Debounced

variable (ext : External) (root : Location) (width : Nat) {fs : Fs} {labels alone : List Label}
  {debounced final : Debounced}

/-- A run of the daemon with the loop spelled out is a run of the daemon whose windows
are single steps and whose senders have queues of their own. -/
theorem run_refines (reached : run (step ext root width) (starting fs) labels = some final) :
    run (Daemon.step ext root) (Daemon.starting fs) (trace ext root width (starting fs) labels) =
      some final.view.bySender :=
  run_bySender (view_run (ready_starting fs) reached)

/-- The note changes once the daemon is up, and its event is lost while the loop waits. -/
def lostEditLoop : List Label :=
  lostEdit.map .process

def lostEditLoopEnd : Debounced :=
  (run (step .bare [vaultName] 100) (starting oneNote) lostEditLoop).get (by decide +kernel)

/-- The loop takes the notice of it, waits out its window and asks for the rescan. -/
def lostEditLoopAlone : List Label :=
  [.loop 3 .receive, .loop 0 .check, .loop 100 .elapse, .loop 0 (.handOn ())] ++
    lostEditAlone.tail.map .process

def lostEditLoopRest : Debounced :=
  (run (step .bare [vaultName] 100) lostEditLoopEnd lostEditLoopAlone).get (by decide +kernel)

theorem run_refines_lostEdit :
    run (Daemon.step .bare [vaultName]) (Daemon.starting oneNote)
        (trace .bare [vaultName] 100 (starting oneNote) (lostEditLoop ++ lostEditLoopAlone)) =
      some lostEditLoopRest.view.bySender :=
  run_refines .bare [vaultName] 100
    (run_append.mpr ⟨lostEditLoopEnd, (Option.some_get _).symm, (Option.some_get _).symm⟩)

end Debounced

end Anwesen.Daemon

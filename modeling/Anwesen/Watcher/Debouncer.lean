import Anwesen.Foundation.Collecting
import Anwesen.Watcher.Batch

/-! The debouncer's loop: the backend's events in, casts out.

A round is mapped and read at the tree of the moment it is handed on.
-/

set_option autoImplicit false

namespace Anwesen.Watcher

open Foundation Vault

/-- An event, or the text of the backend's error. -/
abbrev Notification := Except Text Event

/-- The loop, the time `/health` shows for the last event, and what was cast to the
scanner and to the index writer. -/
structure Debouncer where
  loop : Collector Notification Fs
  lastEvent : Option Nat
  rescans : Nat
  batches : List IndexBatch

namespace Debouncer

abbrev Label := Collector.Label Notification Fs

def start : Debouncer := ⟨⟨0, true, [], .waiting, []⟩, none, 0, []⟩

section

variable (ext : External) (vaultRoot : PathBuf) (window : Nat)

/-- What the loop does besides moving on. -/
def effect (debouncer : Debouncer) : Label → Debouncer
  | .receive =>
      match debouncer.loop.phase with
      -- the event that opens a round, and only this one, is recorded
      | .waiting => { debouncer with lastEvent := some debouncer.loop.now }
      | _ => debouncer
  | .handOn fs =>
      let result := debounce ext fs vaultRoot (debouncer.loop.phase.held.map Prod.fst)
      { debouncer with
        rescans := if result.1 then debouncer.rescans + 1 else debouncer.rescans
        batches := debouncer.batches ++ result.2.toList }
  | .arrive _ | .close | .pass _ | .check | .elapse | .hangUp => debouncer

/-- One step of `run_debouncer`, of its channel or of the clock. -/
def step (debouncer : Debouncer) (label : Label) : Option Debouncer :=
  (Collector.step window debouncer.loop label).map fun loop =>
    { debouncer.effect ext vaultRoot label with loop }

/-- What a round was turned into. -/
def outcome (round : Round Notification Fs) : Bool × Option IndexBatch :=
  debounce ext round.moment vaultRoot (round.entries.map Prod.fst)

/-- When the round that was opened last was opened. -/
def opened (loop : Collector Notification Fs) : Option Nat :=
  (loop.phase.held.head?.or (loop.rounds.getLast?.bind fun round => round.entries.head?)).map Prod.snd

/-- What was cast is what became of the rounds so far. -/
structure Cast (debouncer : Debouncer) : Prop where
  rescans : debouncer.rescans =
    debouncer.loop.rounds.countP fun round => (outcome ext vaultRoot round).1
  batches : debouncer.batches =
    debouncer.loop.rounds.filterMap fun round => (outcome ext vaultRoot round).2
  lastEvent : debouncer.lastEvent = opened debouncer.loop

end

section

variable {ext : External} {vaultRoot : PathBuf} {window : Nat} {debouncer next final : Debouncer}
  {label : Label} {labels : List Label}

theorem filterMap_one {α β : Type} (f : α → Option β) (value : α) : [value].filterMap f = (f value).toList := by
  cases made : f value <;> simp [made]

theorem loop_step (taken : step ext vaultRoot window debouncer label = some next) :
    Collector.step window debouncer.loop label = some next.loop := by
  obtain ⟨loop, moved, rfl⟩ := Option.map_eq_some_iff.mp taken
  exact moved

theorem loop_run (reached : run (step ext vaultRoot window) debouncer labels = some final) :
    run (Collector.step window) debouncer.loop labels = some final.loop :=
  run_of_simulates (fun _ _ _ taken => loop_step taken) reached

/-- While a round is under way, it is the one opened last. -/
theorem opened_of_held {loop : Collector Notification Fs} {entry : Notification × Nat}
    {rest : List (Notification × Nat)} (held : loop.phase.held = entry :: rest) :
    opened loop = some entry.2 := by simp [opened, held]

theorem cast_step (cast : Cast ext vaultRoot debouncer) (timed : debouncer.loop.Timed window)
    (taken : step ext vaultRoot window debouncer label = some next) : Cast ext vaultRoot next := by
  obtain ⟨loop, moved, rfl⟩ := Option.map_eq_some_iff.mp taken
  obtain ⟨rescans, batches, lastEvent⟩ := cast
  have standing := timed.standing
  cases Collector.moves_of_step moved with
  | arrives | closes | passes => exact ⟨rescans, batches, lastEvent⟩
  | opens phase channel =>
    refine ⟨?_, ?_, ?_⟩
    · simpa only [effect, phase] using rescans
    · simpa only [effect, phase] using batches
    · simp [effect, phase, opened]
  | joins phase channel =>
    rw [phase] at standing
    obtain ⟨entry, time, rest, rfl, _⟩ := standing.1.opened
    rw [opened_of_held (by rw [phase]; rfl)] at lastEvent
    refine ⟨?_, ?_, ?_⟩
    · simpa only [effect, phase] using rescans
    · simpa only [effect, phase] using batches
    · simp only [effect, phase]
      exact lastEvent.trans (opened_of_held rfl).symm
  | goesOn phase | fills phase | elapses phase | breaksOff phase | stops phase =>
    refine ⟨rescans, batches, lastEvent.trans ?_⟩
    simp only [opened, phase]
    rfl
  | handsOn fs phase =>
    rw [phase] at standing
    obtain ⟨entry, time, rest, rfl, _⟩ := standing.1.opened
    rw [opened_of_held (by rw [phase]; rfl)] at lastEvent
    have held : debouncer.loop.phase.held = (entry, time) :: rest := by
      rw [phase]
      rfl
    refine ⟨?_, ?_, ?_⟩
    · simp only [effect, held, rescans, List.countP_append, List.countP_singleton, outcome]
      split <;> rfl
    · simp only [effect, held, batches, List.filterMap_append, filterMap_one, outcome]
    · simp [effect, lastEvent, opened]

/-- What holds of the loop in every run from its start. -/
theorem cast_run (reached : run (step ext vaultRoot window) .start labels = some final) :
    Cast ext vaultRoot final ∧ final.loop.Timed window := by
  have always : Meets (step ext vaultRoot window) (fun _ _ => True) .start labels :=
    Meets.of_forall (fun _ _ _ => trivial) _
  refine run_invariant (fun later => Cast ext vaultRoot later ∧ later.loop.Timed window) ?_ ?_ always
    reached
  · intro state label next holds _ taken
    have moves := Collector.moves_of_step (loop_step taken)
    exact ⟨cast_step holds.1 holds.2 taken, Collector.timed_step holds.2 moves⟩
  · exact ⟨⟨rfl, rfl, rfl⟩, Collector.timed_idle⟩

/-- Every event is in one round, in the order of arrival, and what was cast is what
became of the rounds. Rounds open at least a window apart while the backend sends. -/
theorem debouncer_accounts (ext : External) (vaultRoot : PathBuf) (window : Nat)
    (reached : run (step ext vaultRoot window) .start labels = some final) :
    final.loop.received.map Prod.fst ++ final.loop.channel =
        labels.filterMap Collector.Label.arrival ∧
      (∀ round ∈ final.loop.rounds, Collector.Fits window round.deadline round.entries) ∧
      (final.loop.connected = true → final.loop.rounds.Pairwise fun earlier later =>
        ∀ entry ∈ later.entries, earlier.deadline ≤ entry.2) ∧
      Cast ext vaultRoot final := by
  obtain ⟨cast, timed⟩ := cast_run reached
  refine ⟨Collector.received_run (loop_run reached), timed.fits, fun connected => ?_, cast⟩
  refine timed.apart.imp_of_mem fun {earlier _} listed _ after entry member => ?_
  have full := (timed.ended earlier listed).2.resolve_right (by simp [connected])
  exact Nat.le_trans full (after entry member)

/-- Once the backend is gone, the loop stops after a bounded number of steps, and
every event that ever arrived is in one of its rounds. -/
theorem debouncer_drains (ext : External) (vaultRoot : PathBuf) (window : Nat) {alone : List Label}
    (reached : run (step ext vaultRoot window) .start labels = some debouncer)
    (closed : debouncer.loop.connected = false) (mine : ∀ label ∈ alone, label.isOwn = true)
    (ran : run (step ext vaultRoot window) debouncer alone = some final) :
    alone.length ≤ debouncer.loop.left ∧
      ((∀ label : Label, label.isOwn = true → step ext vaultRoot window final label = none) →
        (final.loop.rounds.flatMap Round.entries).map Prod.fst =
            labels.filterMap Collector.Label.arrival ∧ Cast ext vaultRoot final) := by
  have whole := run_append.mpr ⟨debouncer, reached, ran⟩
  have someTree : Nonempty Fs := ⟨.empty⟩
  have settles : Settles (Collector.step window : Collector Notification Fs → Label → _) _ _ _ _ :=
    Collector.settles
  have ranLoop := loop_run ran
  refine ⟨Nat.le_of_add_right_le (settles.bounded closed mine ranLoop).1, fun stuck => ?_⟩
  have stopped : final.loop.phase = .stopped := by
    refine settles.rests closed mine ranLoop fun label own => ?_
    exact Option.map_eq_none_iff.mp (stuck label own)
  have emptied := Collector.emptied_run (by simp [Collector.Emptied, start]) (loop_run whole) stopped
  have received := Collector.received_run (loop_run whole)
  have silent : alone.filterMap Collector.Label.arrival = [] := by
    refine List.filterMap_eq_nil_iff.mpr fun label member => ?_
    exact Collector.Label.arrival_of_own (mine label member)
  refine ⟨?_, (cast_run whole).1⟩
  simpa [emptied.2, Collector.received, stopped, silent, start] using received

end

/-- An error opens a round, an overflow notice joins it, and the backend goes away. -/
def overflowed : List Label :=
  [.arrive (.error "gone".toList), .receive, .arrive (.ok ⟨.other, [], true⟩), .check, .pass 40, .receive,
    .check, .pass 60, .elapse, .handOn .empty, .arrive (.ok ⟨.create, [], false⟩), .close]

def overflowedEnd : Debouncer := (run (step .bare [] 100) .start overflowed).get (by decide +kernel)

def drained : List Label := [.receive, .check, .hangUp, .handOn .empty, .hangUp]

def drainedEnd : Debouncer := (run (step .bare [] 100) overflowedEnd drained).get (by decide +kernel)

theorem debouncer_accounts_overflowed :
    overflowedEnd.loop.received.map Prod.fst ++ overflowedEnd.loop.channel =
        overflowed.filterMap Collector.Label.arrival ∧
      (∀ round ∈ overflowedEnd.loop.rounds, Collector.Fits 100 round.deadline round.entries) ∧
      (overflowedEnd.loop.connected = true → overflowedEnd.loop.rounds.Pairwise fun earlier later =>
        ∀ entry ∈ later.entries, earlier.deadline ≤ entry.2) ∧
      Cast .bare [] overflowedEnd :=
  debouncer_accounts .bare [] 100 (Option.some_get _).symm

theorem debouncer_drains_overflowed :
    drained.length ≤ overflowedEnd.loop.left ∧
      (drainedEnd.loop.rounds.flatMap Round.entries).map Prod.fst =
          overflowed.filterMap Collector.Label.arrival ∧ Cast .bare [] drainedEnd :=
  have reached : run (step .bare [] 100) .start overflowed = some overflowedEnd := (Option.some_get _).symm
  have drains := debouncer_drains .bare [] 100 reached (by decide +kernel) (by decide)
    (show run (step .bare [] 100) overflowedEnd drained = some drainedEnd from (Option.some_get _).symm)
  have stopped : drainedEnd.loop.phase = .stopped := by
    have left_ : drainedEnd.loop.phase.left = 0 := by decide +kernel
    cases phase : drainedEnd.loop.phase <;> simp_all [Phase.left]
  ⟨drains.1, drains.2 fun _ own => Option.map_eq_none_iff.mpr (Collector.step_of_stopped stopped own)⟩

end Debouncer

end Anwesen.Watcher

import Anwesen.Daemon.Supervision

/-! What `/health` tells of the daemon, over whole runs.

The scanner, the watcher and the writer note what they do in a shared record, and each
process counts its starts; the endpoint reads both and the store.
-/

set_option autoImplicit false

namespace Anwesen.Daemon

open Foundation Vault Watcher

/-! The record. -/

inductive WatcherState where
  | running
  | degraded
  deriving DecidableEq

def WatcherState.asStr : WatcherState → Text
  | .running => "running".toList
  | .degraded => "degraded".toList

/-- Milliseconds since the epoch, as `timestamp_millis` rounds down. -/
def timestampMillis (at_ : Instant) : Int := at_.seconds * 1000 + at_.nanos / 1000000

def ofTimestampMillis (millis : Int) : Instant := ⟨millis / 1000, (millis % 1000).toNat * 1000000⟩

/-- A stamp of zero means never; a watcher state of zero is a running one. -/
structure HealthState where
  inFlightRescan : Bool
  lastIndexUpdateMs : Int
  lastEventMs : Int
  watcherStateByte : UInt8

namespace HealthState

def new : HealthState := ⟨false, 0, 0, 0⟩

def setInFlightRescan (health : HealthState) (on : Bool) : HealthState :=
  { health with inFlightRescan := on }

def recordIndexUpdate (health : HealthState) (at_ : Instant) : HealthState :=
  { health with lastIndexUpdateMs := timestampMillis at_ }

def recordEvent (health : HealthState) (at_ : Instant) : HealthState :=
  { health with lastEventMs := timestampMillis at_ }

def setWatcherState (health : HealthState) (state : WatcherState) : HealthState :=
  { health with
    watcherStateByte := match state with
      | .running => 0
      | .degraded => 1 }

def stamped (millis : Int) : Option Instant :=
  if millis = 0 then none else some (ofTimestampMillis millis)

def lastIndexUpdate (health : HealthState) : Option Instant := stamped health.lastIndexUpdateMs

def lastEvent (health : HealthState) : Option Instant := stamped health.lastEventMs

def watcherState (health : HealthState) : WatcherState :=
  if health.watcherStateByte = 0 then .running else .degraded

end HealthState

/-! The counters. -/

inductive Role where
  | vaultScanner
  | filesystemWatcher
  | indexWriter
  | httpServer
  deriving DecidableEq

structure RoleCounter where
  started : Bool
  restarts : UInt32
  deriving DecidableEq

namespace RoleCounter

def new : RoleCounter := ⟨false, 0⟩

/-- The first start counts as none. The count is what the start logs. -/
def recordInit (counter : RoleCounter) : RoleCounter × UInt32 :=
  if counter.started then (⟨true, counter.restarts + 1⟩, counter.restarts + 1)
  else (⟨true, counter.restarts⟩, 0)

/-- The counter of a process that was started this often. -/
def counted (starts : Nat) : RoleCounter := ⟨0 < starts, .ofNat (starts - 1)⟩

theorem recordInit_counted (starts : Nat) : (counted starts).recordInit.1 = counted (starts + 1) := by
  cases starts with
  | zero => rfl
  | succ starts => simp [recordInit, counted]

end RoleCounter

structure RestartCounters where
  vaultScanner : RoleCounter
  filesystemWatcher : RoleCounter
  indexWriter : RoleCounter
  httpServer : RoleCounter

namespace RestartCounters

def new : RestartCounters := ⟨.new, .new, .new, .new⟩

def of (counters : RestartCounters) : Role → RoleCounter
  | .vaultScanner => counters.vaultScanner
  | .filesystemWatcher => counters.filesystemWatcher
  | .indexWriter => counters.indexWriter
  | .httpServer => counters.httpServer

/-- Each role counts with its own counter. -/
def recordInit (counters : RestartCounters) : Role → RestartCounters
  | .vaultScanner => { counters with vaultScanner := counters.vaultScanner.recordInit.1 }
  | .filesystemWatcher => { counters with filesystemWatcher := counters.filesystemWatcher.recordInit.1 }
  | .indexWriter => { counters with indexWriter := counters.indexWriter.recordInit.1 }
  | .httpServer => { counters with httpServer := counters.httpServer.recordInit.1 }

/-- In the order of the names. -/
def snapshot (counters : RestartCounters) : List (Text × UInt32) :=
  [("filesystem_watcher".toList, counters.filesystemWatcher.restarts),
    ("http_server".toList, counters.httpServer.restarts),
    ("index_writer".toList, counters.indexWriter.restarts),
    ("vault_scanner".toList, counters.vaultScanner.restarts)]

theorem of_recordInit (counters : RestartCounters) (role other : Role) :
    (counters.recordInit role).of other =
      if role = other then (counters.of other).recordInit.1 else counters.of other := by
  cases role <;> cases other <;> rfl

end RestartCounters

/-! The endpoint. -/

structure HealthResponse where
  vaultPath : Text
  noteCount : Nat
  lastIndexUpdateTs : Option Text
  lastEventTs : Option Text
  watcherState : Text
  inFlightRescan : Bool
  restarts : List (Text × UInt32)

/-- What the endpoint reads, of a vault whose path reads as this text. -/
def getHealth (ext : External) (vault : Text) (store : NoteStore) (health : HealthState)
    (counters : RestartCounters) : HealthResponse where
  vaultPath := vault
  noteCount := store.len
  lastIndexUpdateTs := health.lastIndexUpdate.map ext.printInstant
  lastEventTs := health.lastEvent.map ext.printInstant
  watcherState := health.watcherState.asStr
  inFlightRescan := health.inFlightRescan
  restarts := counters.snapshot

/-! The daemon that keeps the record. -/

/-- `opened` holds while the debouncer has the first event of a window. -/
structure Monitored where
  tree : Supervised
  opened : Bool
  health : HealthState
  counters : RestartCounters

namespace Monitored

/-- A step of the processes or their supervisor at a time, or what only the record shows:
the debouncer opens a window, a watcher cannot bind, the server is started. -/
inductive Label where
  | supervised (label : Supervised.Label) (now : Instant)
  | received (now : Instant)
  | watcherFails
  | serverStarts

/-- The writer has been started, and the scanner whose first walk begins. -/
def starting (fs : Fs) : Monitored where
  tree := .starting fs
  opened := false
  health := HealthState.new.setInFlightRescan true
  counters := (RestartCounters.new.recordInit .indexWriter).recordInit .vaultScanner

/-- What the process that makes the step notes. -/
def noted (health : HealthState) (now : Instant) : Supervised.Label → HealthState
  | .process .rescanNow | .scannerRestarts => health.setInFlightRescan true
  | .process .finish => health.setInFlightRescan false
  | .process .rebuild | .process .batch => health.recordIndexUpdate now
  | .process .watch => health.setWatcherState .running
  | _ => health

def counts (counters : RestartCounters) : Supervised.Label → RestartCounters
  | .scannerRestarts => counters.recordInit .vaultScanner
  | .writerRestarts => counters.recordInit .indexWriter
  | .process .watch => counters.recordInit .filesystemWatcher
  | _ => counters

def takesWindow : Supervised.Label → Bool
  | .process (.window _) => true
  | _ => false

/-- A window ends that was opened, or ends with the watcher. -/
def opens (opened : Bool) : Supervised.Label → Bool
  | .process (.window _) | .process .unwatch => false
  | _ => opened

def step (ext : External) (root : Location) (monitored : Monitored) : Label → Option Monitored
  | .supervised label now =>
      if takesWindow label && !monitored.opened then none
      else
        (monitored.tree.step ext root label).map fun tree =>
          { tree
            opened := opens monitored.opened label
            health := noted monitored.health now label
            counters := counts monitored.counters label }
  | .received now =>
      if monitored.opened = false ∧ monitored.tree.mailed.processes.queue ≠ [] then
        some { monitored with opened := true, health := monitored.health.recordEvent now }
      else none
  -- a first start that fails ends the start of the daemon itself
  | .watcherFails =>
      if monitored.counters.filesystemWatcher.started = true ∧
          monitored.tree.mailed.processes.watching = false then
        some
          { monitored with
            health := monitored.health.setWatcherState .degraded
            counters := monitored.counters.recordInit .filesystemWatcher }
      else none
  | .serverStarts =>
      some { monitored with counters := monitored.counters.recordInit .httpServer }

def report (ext : External) (vault : Text) (monitored : Monitored) : HealthResponse :=
  getHealth ext vault monitored.tree.mailed.processes.store monitored.health monitored.counters

end Monitored

/-! What the record says, from the steps so far. -/

/-- The role that the step starts. -/
def Monitored.Label.starts : Monitored.Label → Option Role
  | .supervised .scannerRestarts _ => some .vaultScanner
  | .supervised .writerRestarts _ => some .indexWriter
  | .supervised (.process .watch) _ | .watcherFails => some .filesystemWatcher
  | .serverStarts => some .httpServer
  | .supervised _ _ | .received _ => none

/-- Whether a watcher that the step starts can bind. -/
def Monitored.Label.binds : Monitored.Label → Option Bool
  | .supervised (.process .watch) _ => some true
  | .watcherFails => some false
  | .supervised _ _ | .received _ | .serverStarts => none

/-- When the step has the writer handle a message. -/
def Monitored.Label.handles : Monitored.Label → Option Instant
  | .supervised (.process .rebuild) now | .supervised (.process .batch) now => some now
  | .supervised _ _ | .received _ | .watcherFails | .serverStarts => none

/-- When the step has the debouncer receive the first event of a window. -/
def Monitored.Label.receives : Monitored.Label → Option Instant
  | .received now => some now
  | .supervised _ _ | .watcherFails | .serverStarts => none

/-- The latest of what the steps did. -/
def latest {Label Stamp : Type} (stamp : Label → Option Stamp) (seen : List Label) : Option Stamp :=
  (seen.filterMap stamp).getLast?

theorem latest_concat {Label Stamp : Type} (stamp : Label → Option Stamp) (seen : List Label) (label : Label) :
    latest stamp (seen ++ [label]) = (stamp label).or (latest stamp seen) := by
  rw [latest, List.filterMap_append, List.getLast?_append]
  cases stamped : stamp label <;> simp [stamped, latest]

/-- The starts at the start of the daemon: of the writer and of the scanner. -/
def initially : Role → Nat
  | .indexWriter | .vaultScanner => 1
  | .filesystemWatcher | .httpServer => 0

/-- How often the role was started. -/
def startsOf (seen : List Monitored.Label) (role : Role) : Nat :=
  seen.countP (fun label => label.starts = some role) + initially role

/-- The record after these steps. -/
structure Records (seen : List Monitored.Label) (monitored : Monitored) : Prop where
  starts : ∀ role, monitored.counters.of role = .counted (startsOf seen role)
  handled : monitored.health.lastIndexUpdateMs = (latest Monitored.Label.handles seen).elim 0 timestampMillis
  received : monitored.health.lastEventMs = (latest Monitored.Label.receives seen).elim 0 timestampMillis
  bound : monitored.health.watcherStateByte =
    (latest Monitored.Label.binds seen).elim 0 fun bound => if bound then 0 else 1
  watching : monitored.tree.mailed.processes.watching = true →
    latest Monitored.Label.binds seen = some true
  walking : monitored.tree.scanning = true →
    monitored.health.inFlightRescan = monitored.tree.mailed.processes.walk.isSome

section

variable {ext : External} {root : Location} {monitored later : Monitored} {seen : List Monitored.Label}
  {label : Monitored.Label}

theorem records_starting (fs : Fs) : Records [] (.starting fs) where
  starts role := by cases role <;> rfl
  handled := rfl
  received := rfl
  bound := rfl
  watching on := by cases on
  walking _ := rfl

variable (ext root) in
/-- The steps one by one. -/
inductive Monitored.Steps (monitored : Monitored) : Monitored.Label → Monitored → Prop where
  | supervised {label : Supervised.Label} {now : Instant} {tree : Supervised} :
      monitored.tree.step ext root label = some tree →
      Steps monitored (.supervised label now)
        ⟨tree, opens monitored.opened label, noted monitored.health now label,
          counts monitored.counters label⟩
  | received {now : Instant} :
      Steps monitored (.received now)
        { monitored with opened := true, health := monitored.health.recordEvent now }
  | watcherFails : monitored.tree.mailed.processes.watching = false →
      Steps monitored .watcherFails
        { monitored with
          health := monitored.health.setWatcherState .degraded
          counters := monitored.counters.recordInit .filesystemWatcher }
  | serverStarts :
      Steps monitored .serverStarts
        { monitored with counters := monitored.counters.recordInit .httpServer }

theorem steps_of_step (taken : monitored.step ext root label = some later) :
    Monitored.Steps ext root monitored label later := by
  cases label with
  | supervised label now =>
    simp only [Monitored.step, Option.ite_none_left_eq_some, Option.map_eq_some_iff] at taken
    obtain ⟨_, tree, moved, rfl⟩ := taken
    exact .supervised moved
  | received now =>
    simp only [Monitored.step, Option.ite_none_right_eq_some, Option.some.injEq] at taken
    obtain ⟨_, rfl⟩ := taken
    exact .received
  | watcherFails =>
    simp only [Monitored.step, Option.ite_none_right_eq_some, Option.some.injEq] at taken
    obtain ⟨⟨_, off⟩, rfl⟩ := taken
    exact .watcherFails off
  | serverStarts =>
    cases taken
    exact .serverStarts

theorem counters_step (taken : Monitored.Steps ext root monitored label later) :
    later.counters = label.starts.elim monitored.counters monitored.counters.recordInit := by
  cases taken with
  | @supervised label =>
    cases label with
    | process label => cases label <;> rfl
    | scannerDies | scannerRestarts | writerDies | writerRestarts => rfl
  | received | watcherFails | serverStarts => rfl

theorem handled_step (taken : Monitored.Steps ext root monitored label later) :
    later.health.lastIndexUpdateMs =
      label.handles.elim monitored.health.lastIndexUpdateMs timestampMillis := by
  cases taken with
  | @supervised label =>
    cases label with
    | process label => cases label <;> rfl
    | scannerDies | scannerRestarts | writerDies | writerRestarts => rfl
  | received | watcherFails | serverStarts => rfl

theorem received_step (taken : Monitored.Steps ext root monitored label later) :
    later.health.lastEventMs = label.receives.elim monitored.health.lastEventMs timestampMillis := by
  cases taken with
  | @supervised label =>
    cases label with
    | process label => cases label <;> rfl
    | scannerDies | scannerRestarts | writerDies | writerRestarts => rfl
  | received | watcherFails | serverStarts => rfl

theorem bound_step (taken : Monitored.Steps ext root monitored label later) :
    later.health.watcherStateByte =
      label.binds.elim monitored.health.watcherStateByte fun bound => if bound then 0 else 1 := by
  cases taken with
  | @supervised label =>
    cases label with
    | process label => cases label <;> rfl
    | scannerDies | scannerRestarts | writerDies | writerRestarts => rfl
  | received | watcherFails | serverStarts => rfl

theorem watching_of (mailed : Mailed) (scanning writing : Bool) :
    (Supervised.of mailed scanning writing).mailed.processes.watching = mailed.processes.watching := by
  cases scanning <;> rfl

/-- Only a watcher that binds watches from then on. -/
theorem watched_before {tree next : Supervised} {label : Supervised.Label}
    (unbound : label ≠ .process .watch) (taken : tree.step ext root label = some next)
    (on : next.mailed.processes.watching = true) : tree.mailed.processes.watching = true := by
  cases label with
  | process label =>
    obtain ⟨mailed, moved, rfl⟩ := Option.map_eq_some_iff.mp taken
    rw [watching_of] at on
    rcases mailed_cases moved with ⟨_, _, _, _, _, processes⟩ | ⟨_, _, state, moves, rfl⟩
    · rwa [processes] at on
    · cases moves with
      | loses watching => exact watching
      | watches => exact absurd rfl unbound
      | unwatches => cases on
      | changes | takes | rescans | visits | finishes | rebuilds | batches => exact on
  | scannerDies | writerDies =>
    simp only [Supervised.step, Option.ite_none_right_eq_some, Option.some.injEq] at taken
    obtain ⟨_, rfl⟩ := taken
    rwa [watching_of] at on
  | scannerRestarts | writerRestarts =>
    simp only [Supervised.step, Option.ite_none_left_eq_some, Option.some.injEq] at taken
    obtain ⟨_, rfl⟩ := taken
    rwa [watching_of] at on

/-- The flag goes up and down with the walks of a scanner that is there. -/
theorem walking_step {tree next : Supervised} {label : Supervised.Label} {health : HealthState} {now : Instant}
    (taken : tree.step ext root label = some next)
    (holds : tree.scanning = true → health.inFlightRescan = tree.mailed.processes.walk.isSome)
    (there : next.scanning = true) :
    (Monitored.noted health now label).inFlightRescan = next.mailed.processes.walk.isSome := by
  cases label with
  | process label =>
    obtain ⟨mailed, moved, rfl⟩ := Option.map_eq_some_iff.mp taken
    have same : tree.scanning = true := there
    have before := holds same
    rw [same]
    rcases mailed_cases moved with ⟨cast, _, _, rfl, _, processes⟩ | ⟨_, _, state, moves, rfl⟩
    · have kept : mailed.processes.walk = tree.mailed.processes.walk := by rw [processes]
      cases cast <;> exact before.trans (congrArg Option.isSome kept).symm
    · cases moves with
      | visits walking => exact before.trans (by rw [walking]; rfl)
      | rescans | finishes => rfl
      | changes | loses | takes | rebuilds | batches | unwatches | watches => exact before
  | scannerDies =>
    simp only [Supervised.step, Option.ite_none_right_eq_some, Option.some.injEq] at taken
    obtain ⟨_, rfl⟩ := taken
    cases there
  | scannerRestarts =>
    simp only [Supervised.step, Option.ite_none_left_eq_some, Option.some.injEq] at taken
    obtain ⟨_, rfl⟩ := taken
    rfl
  | writerDies =>
    simp only [Supervised.step, Option.ite_none_right_eq_some, Option.some.injEq] at taken
    obtain ⟨_, rfl⟩ := taken
    have same : tree.scanning = true := there
    rw [same]
    exact holds same
  | writerRestarts =>
    simp only [Supervised.step, Option.ite_none_left_eq_some, Option.some.injEq] at taken
    obtain ⟨_, rfl⟩ := taken
    have same : tree.scanning = true := there
    rw [same]
    exact holds same

theorem records_step (records : Records seen monitored) (taken : monitored.step ext root label = some later) :
    Records (seen ++ [label]) later := by
  have steps := steps_of_step taken
  refine ⟨fun role => ?_, ?_, ?_, ?_, ?_, ?_⟩
  · rw [counters_step steps, startsOf, List.countP_append, List.countP_singleton]
    have before := records.starts role
    cases started : label.starts with
    | none => simpa [startsOf, started] using before
    | some other =>
      rw [Option.elim, RestartCounters.of_recordInit, before]
      by_cases same : other = role
      · subst same
        simp only [if_true, decide_true, RoleCounter.recordInit_counted]
        rw [startsOf, Nat.add_right_comm]
      · simp [startsOf, same]
  · rw [handled_step steps, latest_concat, records.handled]
    cases label.handles <;> rfl
  · rw [received_step steps, latest_concat, records.received]
    cases label.receives <;> rfl
  · rw [bound_step steps, latest_concat, records.bound]
    cases label.binds <;> rfl
  · intro on
    rw [latest_concat]
    cases steps with
    | @supervised label _ _ moved =>
      by_cases bound : label = .process .watch
      · subst bound
        rfl
      · have before := records.watching (watched_before bound moved on)
        cases label with
        | process label =>
          cases label with
          | watch => exact absurd rfl bound
          | change | overflow | window | rescanNow | visit | finish | rebuild | batch | unwatch => exact before
        | scannerDies | scannerRestarts | writerDies | writerRestarts => exact before
    | received | serverStarts => exact records.watching on
    | watcherFails off => exact absurd on (by simp [off])
  · intro there
    cases steps with
    | supervised moved => exact walking_step moved records.walking there
    | received | watcherFails | serverStarts => exact records.walking there

end

/-- What the endpoint answers after these steps. -/
structure Tells (ext : External) (seen : List Monitored.Label) (monitored : Monitored)
    (response : HealthResponse) : Prop where
  notes : response.noteCount = monitored.tree.mailed.processes.store.len
  updated : response.lastIndexUpdateTs = (latest Monitored.Label.handles seen).bind fun now =>
    (HealthState.stamped (timestampMillis now)).map ext.printInstant
  heard : response.lastEventTs = (latest Monitored.Label.receives seen).bind fun now =>
    (HealthState.stamped (timestampMillis now)).map ext.printInstant
  degraded : response.watcherState = WatcherState.degraded.asStr ↔
    latest Monitored.Label.binds seen = some false
  running : monitored.tree.mailed.processes.watching = true →
    response.watcherState = WatcherState.running.asStr
  walking : monitored.tree.scanning = true →
    (response.inFlightRescan = true ↔ monitored.tree.mailed.processes.walk.isSome = true)
  restarts : response.restarts =
    [("filesystem_watcher".toList, Role.filesystemWatcher), ("http_server".toList, .httpServer),
      ("index_writer".toList, .indexWriter), ("vault_scanner".toList, .vaultScanner)].map
      fun entry => (entry.1, .ofNat (startsOf seen entry.2 - 1))

/-- In every run, whoever dies, the endpoint tells how often each process was started
again, whether a scanner that is there walks, when the writer last handled a message and
the debouncer last received an event, and if the last watcher that was started could bind. -/
theorem health_tells (ext : External) (root : Location) (vault : Text) {fs : Fs}
    {labels : List Monitored.Label} {monitored : Monitored}
    (reached : run (Monitored.step ext root) (.starting fs) labels = some monitored) :
    Tells ext labels monitored (monitored.report ext vault) := by
  have records : Records labels monitored :=
    run_history (fun _ _ _ _ records taken => records_step records taken) (records_starting fs) reached
  have stamps : ∀ now : Option Instant,
      (HealthState.stamped (now.elim 0 timestampMillis)).map ext.printInstant =
        now.bind fun now => (HealthState.stamped (timestampMillis now)).map ext.printInstant := by
    intro now
    cases now <;> rfl
  have shown : (monitored.report ext vault).watcherState = (if
      ((latest Monitored.Label.binds labels).elim 0 fun bound => if bound then 0 else 1 : UInt8) = 0
      then WatcherState.running else .degraded).asStr := by
    rw [← records.bound]
    rfl
  constructor
  case notes => rfl
  case updated =>
    rw [← stamps, ← records.handled]
    rfl
  case heard =>
    rw [← stamps, ← records.received]
    rfl
  case degraded =>
    rw [shown]
    rcases latest Monitored.Label.binds labels with _ | _ | _ <;> decide
  case running =>
    intro on
    rw [shown, records.watching on]
    rfl
  case walking =>
    intro there
    rw [← records.walking there]
    rfl
  case restarts =>
    have counts : ∀ role, (monitored.counters.of role).restarts = .ofNat (startsOf labels role - 1) :=
      fun role => congrArg RoleCounter.restarts (records.starts role)
    simp only [List.map_cons, List.map_nil, ← counts]
    rfl

/-- One edit reaches the store; then the writer is started again and the watch ends for good. -/
def watchLost : List Monitored.Label :=
  let at_ (label : Supervised.Label) (seconds : Int) : Monitored.Label := .supervised label ⟨seconds, 0⟩
  [at_ (.process .visit) 1, at_ (.process .visit) 1, at_ (.process .visit) 1, at_ (.process .finish) 2,
    at_ (.process .rebuild) 2, at_ (.process .watch) 3, .serverStarts,
    at_ (.process (.change (.edit notePlace (plainFile "new")))) 4, .received ⟨5, 0⟩,
    at_ (.process (.window 1)) 6, at_ (.process .batch) 7, at_ .writerDies 8, at_ .writerRestarts 8,
    at_ (.process .unwatch) 9, .watcherFails]

def watchLostEnd : Monitored :=
  (run (Monitored.step .bare [vaultName]) (.starting oneNote) watchLost).get (by decide +kernel)

theorem health_tells_watchLost :
    Tells .bare watchLost watchLostEnd (watchLostEnd.report .bare "/V".toList) :=
  health_tells .bare [vaultName] "/V".toList (Option.some_get _).symm

/-- The watcher was started twice and the writer too. -/
example : (watchLostEnd.report .bare "/V".toList).restarts.map Prod.snd = [1, 0, 1, 0] := by
  decide +kernel

end Anwesen.Daemon

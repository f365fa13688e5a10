import Anwesen.Daemon.Snapshots
import Anwesen.Http.Handling
import Anwesen.Http.Instruments

/-! Requests under way while the index writer works.

Every request has a process of its own, which may die, and a client, who may leave.
Whatever the interleaving, an answer is that of one store between the arrival of the
request and its answer, or tells that the request's own process died.
-/

set_option autoImplicit false

namespace Anwesen.Daemon

open Foundation Http

/-- How far the handler process of a request has come. -/
inductive Stage where
  | spawned
  /-- The call is under way at the lock of the store. -/
  | asking
  | replied (reply : Reply Seen)
  /-- The process is gone, and what it has sent back before, if anything. -/
  | exited (response : Option Response)
  | answered

structure Flight where
  request : Request
  trace : TraceHeaders
  start : Nat
  /-- How many messages had been handled when the request came. -/
  arrived : Nat
  connected : Bool
  phase : Stage

namespace Flight

variable (around : Surroundings)

/-- The handler process sends its response and ends. -/
def respond (flight : Flight) : Option Flight :=
  match flight.phase, flight.request.handler around with
  | .spawned, .answers response => some { flight with phase := .exited (some response) }
  | .replied reply, .asks _ respond => some { flight with phase := .exited (some (respond reply)) }
  | _, _ => none

/-- A panic under the lock gives the guard back unpoisoned: it is one after the reply. -/
def panic (flight : Flight) : Option Flight :=
  match flight.phase with
  | .spawned | .replied _ => some { flight with phase := .exited none }
  | .asking | .exited _ | .answered => none

/-- The client leaves before it is answered. -/
def disconnect (flight : Flight) : Option Flight :=
  match flight.phase with
  | .answered => none
  | .spawned | .asking | .replied _ | .exited _ => some { flight with connected := false }

/-- What the middleware has to give to the client, if it is still there. -/
def outcome (flight : Flight) : Option Response :=
  match flight.phase with
  | .exited response => if flight.connected then some (response.getD internalServerError) else none
  | .spawned | .asking | .replied _ | .answered => none

end Flight

structure Delivery where
  id : Nat
  request : Request
  response : Response
  /-- How many messages had been handled when the request came, and when it was answered. -/
  arrived : Nat
  answered : Nat
  observed : Observation

structure Server where
  /-- The threads are those of the requests, and the index writer with none. -/
  locked : Locked (Option Nat) NoteStore (Reply Seen)
  flights : List Flight
  delivered : List Delivery
  /-- Nothing where no export is configured. -/
  telemetry : Option Telemetry

namespace Server

inductive Label where
  | message (message : IndexWriterMessage)
  | arrive (request : Request) (start : Nat) (traceparent tracestate : Option Bytes)
  | ask (id : Nat)
  | advance (thread : Option Nat)
  | release (thread : Option Nat)
  | respond (id : Nat)
  | panic (id : Nat)
  | deliver (id : Nat) (elapsed : Nat)
  | disconnect (id : Nat)

def Label.taken : Label → Option IndexWriterMessage
  | .message cast => some cast
  | .arrive _ _ _ _ | .ask _ | .advance _ | .release _ | .respond _ | .panic _ | .deliver _ _
  | .disconnect _ => none

/-- The requests, in the order in which they came. -/
def Label.arrival : Label → Option Request
  | .arrive request _ _ _ => some request
  | .message _ | .ask _ | .advance _ | .release _ | .respond _ | .panic _ | .deliver _ _
  | .disconnect _ => none

def start (telemetry : Option Telemetry) : Server := ⟨.start .new, [], [], telemetry⟩

/-- How many messages have been handled. -/
def handled (server : Server) : Nat :=
  server.locked.log.countP fun entry => entry.call.mode = .writing

/-- A change of one request, where it can be made. -/
def replace (server : Server) (id : Nat) (change : Flight → Option Flight) : Option Server :=
  (server.flights[id]?.bind change).map fun flight => { server with flights := server.flights.set id flight }

/-- What `telemetry_wrap` has seen of the request. -/
def observation (around : Surroundings) (flight : Flight) (response : Response) (elapsed : Nat) :
    Observation where
  route := classifyRoute flight.request.path
  method := "GET".toList
  status := response.status
  ifNoneMatchPresent := !flight.request.headers.ifNoneMatch.isEmpty
  bodyBytes := around.bodyBytes response.body
  duration := elapsed
  start := flight.start
  trace := flight.trace

def step (around : Surroundings) (server : Server) : Label → Option Server
  | .message message =>
      (Locked.step server.locked (.acquire none message.method.call)).map fun locked => { server with locked }
  | .arrive request start traceparent tracestate =>
      some { server with flights := server.flights ++ [
        { request, start
          trace := .fromHeaders traceparent tracestate
          arrived := server.handled
          connected := true
          phase := .spawned }] }
  | .ask id =>
      server.flights[id]?.bind fun flight =>
        match flight.phase, flight.request.handler around with
        | .spawned, .asks method _ =>
            (Locked.step server.locked (.acquire (some id) method.call)).map fun locked =>
              { server with locked, flights := server.flights.set id { flight with phase := .asking } }
        | _, _ => none
  | .advance thread =>
      (Locked.step server.locked (.advance thread)).map fun locked => { server with locked }
  | .release none =>
      (Locked.step server.locked (.release none)).map fun locked => { server with locked }
  | .release (some id) =>
      (Locked.step server.locked (.release (some id))).bind fun locked =>
        locked.log.getLast?.bind fun entry =>
          { server with locked }.replace id fun flight => some { flight with phase := .replied entry.result }
  | .respond id => server.replace id (·.respond around)
  | .panic id => server.replace id (·.panic)
  | .deliver id elapsed =>
      server.flights[id]?.bind fun flight =>
        flight.outcome.map fun response =>
          { server with
            flights := server.flights.set id { flight with phase := .answered }
            delivered := server.delivered ++ [⟨id, flight.request, response, flight.arrived, server.handled,
              observation around flight response elapsed⟩]
            telemetry := server.telemetry.map (·.finish (observation around flight response elapsed)) }
  | .disconnect id => server.replace id (·.disconnect)

/-- The steps one by one. -/
inductive Moves (around : Surroundings) : Server → Label → Server → Prop where
  | takes {server : Server} {locked : Locked (Option Nat) NoteStore (Reply Seen)}
      (message : IndexWriterMessage) :
      Locked.step server.locked (.acquire none message.method.call) = some locked →
      Moves around server (.message message) { server with locked }
  | arrives (server : Server) (request : Request) (start : Nat) (traceparent tracestate : Option Bytes) :
      Moves around server (.arrive request start traceparent tracestate)
        { server with flights := server.flights ++ [
          ⟨request, .fromHeaders traceparent tracestate, start, server.handled, true, .spawned⟩] }
  | asks {server : Server} {id : Nat} {flight : Flight} {method : Method Seen}
      {respond : Reply Seen → Response} {locked : Locked (Option Nat) NoteStore (Reply Seen)} :
      server.flights[id]? = some flight → flight.phase = .spawned →
      flight.request.handler around = .asks method respond →
      Locked.step server.locked (.acquire (some id) method.call) = some locked →
      Moves around server (.ask id)
        { server with locked, flights := server.flights.set id { flight with phase := .asking } }
  | advances {server : Server} {locked : Locked (Option Nat) NoteStore (Reply Seen)} (thread : Option Nat) :
      Locked.step server.locked (.advance thread) = some locked →
      Moves around server (.advance thread) { server with locked }
  | returns {server : Server} {locked : Locked (Option Nat) NoteStore (Reply Seen)} :
      Locked.step server.locked (.release none) = some locked →
      Moves around server (.release none) { server with locked }
  | replies {server : Server} {id : Nat} {flight : Flight}
      {locked : Locked (Option Nat) NoteStore (Reply Seen)}
      {entry : Returned (Option Nat) NoteStore (Reply Seen)} :
      server.flights[id]? = some flight → Locked.step server.locked (.release (some id)) = some locked →
      locked.log.getLast? = some entry →
      Moves around server (.release (some id))
        { server with locked, flights := server.flights.set id { flight with phase := .replied entry.result } }
  | responds {server : Server} {id : Nat} {flight later : Flight} :
      server.flights[id]? = some flight → flight.respond around = some later →
      Moves around server (.respond id) { server with flights := server.flights.set id later }
  | panics {server : Server} {id : Nat} {flight later : Flight} :
      server.flights[id]? = some flight → flight.panic = some later →
      Moves around server (.panic id) { server with flights := server.flights.set id later }
  | delivers {server : Server} {id : Nat} {flight : Flight} {response : Response} (elapsed : Nat) :
      server.flights[id]? = some flight → flight.outcome = some response →
      Moves around server (.deliver id elapsed)
        { server with
          flights := server.flights.set id { flight with phase := .answered }
          delivered := server.delivered ++ [⟨id, flight.request, response, flight.arrived, server.handled,
            observation around flight response elapsed⟩]
          telemetry := server.telemetry.map (·.finish (observation around flight response elapsed)) }
  | disconnects {server : Server} {id : Nat} {flight later : Flight} :
      server.flights[id]? = some flight → flight.disconnect = some later →
      Moves around server (.disconnect id) { server with flights := server.flights.set id later }

section

variable {around : Surroundings} {server next : Server} {label : Label}

theorem replace_eq_some {id : Nat} {change : Flight → Option Flight} :
    server.replace id change = some next ↔ ∃ flight later, server.flights[id]? = some flight ∧
      change flight = some later ∧ { server with flights := server.flights.set id later } = next := by
  simp only [replace, Option.map_eq_some_iff, Option.bind_eq_some_iff]
  constructor
  · rintro ⟨later, ⟨flight, found, changed⟩, same⟩
    exact ⟨flight, later, found, changed, same⟩
  · rintro ⟨flight, later, found, changed, same⟩
    exact ⟨later, ⟨flight, found, changed⟩, same⟩

theorem moves_of_step (taken : step around server label = some next) : Moves around server label next := by
  cases label with
  | message message =>
    obtain ⟨locked, moved, rfl⟩ := Option.map_eq_some_iff.mp taken
    exact .takes message moved
  | arrive request start traceparent tracestate =>
    obtain rfl := Option.some.inj taken
    exact .arrives server request start traceparent tracestate
  | ask id =>
    obtain ⟨flight, found, taken⟩ := Option.bind_eq_some_iff.mp taken
    split at taken
    · rename_i phase handler
      obtain ⟨locked, moved, rfl⟩ := Option.map_eq_some_iff.mp taken
      exact .asks found phase handler moved
    · cases taken
  | advance thread =>
    obtain ⟨locked, moved, rfl⟩ := Option.map_eq_some_iff.mp taken
    exact .advances thread moved
  | release thread =>
    cases thread with
    | none =>
      obtain ⟨locked, moved, rfl⟩ := Option.map_eq_some_iff.mp taken
      exact .returns moved
    | some id =>
      obtain ⟨locked, moved, taken⟩ := Option.bind_eq_some_iff.mp taken
      obtain ⟨entry, last, taken⟩ := Option.bind_eq_some_iff.mp taken
      obtain ⟨flight, later, found, same, rfl⟩ := replace_eq_some.mp taken
      obtain rfl := Option.some.inj same
      exact .replies found moved last
  | respond id =>
    obtain ⟨flight, later, found, changed, rfl⟩ := replace_eq_some.mp taken
    exact .responds found changed
  | panic id =>
    obtain ⟨flight, later, found, changed, rfl⟩ := replace_eq_some.mp taken
    exact .panics found changed
  | deliver id elapsed =>
    obtain ⟨flight, found, taken⟩ := Option.bind_eq_some_iff.mp taken
    obtain ⟨response, outcome, rfl⟩ := Option.map_eq_some_iff.mp taken
    exact .delivers elapsed found outcome
  | disconnect id =>
    obtain ⟨flight, later, found, changed, rfl⟩ := replace_eq_some.mp taken
    exact .disconnects found changed

end

end Server

/-- It held of the store at some time, told by the number of messages handled by then. -/
def Glimpsed (messages : List IndexWriterMessage) (first last : Nat) (what : NoteStore → Prop) : Prop :=
  ∃ count, first ≤ count ∧ count ≤ last ∧ what (written (messages.take count))

/-- Where a request can be by now: what its process has got from the store is from
after its arrival, and without a response the process has died. -/
def Flight.Fits (around : Surroundings) (messages : List IndexWriterMessage) (now : Nat) (died : Prop)
    (flight : Flight) : Prop :=
  flight.arrived ≤ now ∧
    match flight.phase with
    | .spawned | .asking | .answered => True
    | .replied reply => ∃ method respond, flight.request.handler around = .asks method respond ∧
        Glimpsed messages flight.arrived now fun store => reply = (method.result store).2
    | .exited none => died
    | .exited (some response) =>
        Glimpsed messages flight.arrived now fun store => response = flight.request.answer around store

/-- The process of the request has died, or the answer is that of a store between the
arrival of the request and the answer. -/
def Delivery.Right (around : Surroundings) (messages : List IndexWriterMessage) (died : Prop)
    (delivery : Delivery) : Prop :=
  delivery.response = internalServerError ∧ died ∨
    Glimpsed messages delivery.arrived delivery.answered fun store =>
      delivery.response = delivery.request.answer around store

section

variable {around : Surroundings} {messages more : List IndexWriterMessage} {first last later : Nat}
  {died dead : Prop}

theorem Glimpsed.mono {what : NoteStore → Prop} (glimpsed : Glimpsed messages first last what)
    (known : last ≤ messages.length) (after : last ≤ later) : Glimpsed (messages ++ more) first later what := by
  obtain ⟨count, since, until_, holds⟩ := glimpsed
  refine ⟨count, since, until_.trans after, ?_⟩
  rwa [List.take_append_of_le_length (until_.trans known)]

theorem Flight.Fits.mono {flight : Flight} (fits : flight.Fits around messages last died)
    (known : last ≤ messages.length) (after : last ≤ later) (still : died → dead) :
    flight.Fits around (messages ++ more) later dead := by
  obtain ⟨arrived, phase⟩ := fits
  refine ⟨arrived.trans after, ?_⟩
  split at phase
  · trivial
  · trivial
  · trivial
  · obtain ⟨method, respond, asks, glimpsed⟩ := phase
    exact ⟨method, respond, asks, Glimpsed.mono glimpsed known after⟩
  · exact still phase
  · exact Glimpsed.mono phase known after

/-- The process has its own steps to make, and not under the lock. -/
def Flight.Running (flight : Flight) : Prop :=
  flight.phase = .spawned ∨ ∃ reply, flight.phase = .replied reply

theorem Flight.Running.not_asking {flight : Flight} (running : flight.Running) : flight.phase ≠ .asking := by
  rcases running with spawned | ⟨reply, replied⟩
  · simp [spawned]
  · simp [replied]

theorem Flight.Running.not_answered {flight : Flight} (running : flight.Running) :
    flight.phase ≠ .answered := by
  rcases running with spawned | ⟨reply, replied⟩
  · simp [spawned]
  · simp [replied]

theorem Flight.respond_eq_some {flight responded : Flight} (sent : flight.respond around = some responded) :
    (∃ response, responded = { flight with phase := .exited response }) ∧ flight.Running := by
  unfold Flight.respond at sent
  split at sent
  · rename_i spawned handler
    exact ⟨⟨_, (Option.some.inj sent).symm⟩, .inl spawned⟩
  · rename_i replied handler
    exact ⟨⟨_, (Option.some.inj sent).symm⟩, .inr ⟨_, replied⟩⟩
  · cases sent

theorem Flight.panic_eq_some {flight dying : Flight} (dies : flight.panic = some dying) :
    (∃ response, dying = { flight with phase := .exited response }) ∧ flight.Running := by
  unfold Flight.panic at dies
  split at dies
  · rename_i spawned
    exact ⟨⟨_, (Option.some.inj dies).symm⟩, .inl spawned⟩
  · rename_i replied
    exact ⟨⟨_, (Option.some.inj dies).symm⟩, .inr ⟨_, replied⟩⟩
  all_goals cases dies

theorem Flight.disconnect_eq_some {flight left : Flight} (leaves : flight.disconnect = some left) :
    left = { flight with connected := false } ∧ flight.phase ≠ .answered := by
  unfold Flight.disconnect at leaves
  split at leaves
  · cases leaves
  all_goals
    rename_i phase
    exact ⟨(Option.some.inj leaves).symm, by simp [phase]⟩

theorem Flight.exited_of_outcome {flight : Flight} {response : Response}
    (given : flight.outcome = some response) : ∃ sent, flight.phase = .exited sent := by
  unfold Flight.outcome at given
  split at given
  · rename_i sent exited
    exact ⟨sent, exited⟩
  all_goals cases given

theorem Flight.Fits.respond {flight responded : Flight} (fits : flight.Fits around messages last died)
    (sent : flight.respond around = some responded) : responded.Fits around messages last died := by
  obtain ⟨arrived, phase⟩ := fits
  unfold Flight.respond at sent
  split at sent
  · rename_i handler
    obtain rfl := Option.some.inj sent
    have answer := exec_handler around flight.request (written (messages.take flight.arrived))
    rw [handler] at answer
    exact ⟨arrived, flight.arrived, Nat.le_refl _, arrived, answer⟩
  · rename_i reply method respond replied handler
    obtain rfl := Option.some.inj sent
    rw [replied] at phase
    obtain ⟨asked, responds, asks, count, since, until_, result⟩ := phase
    obtain ⟨rfl, rfl⟩ := Handler.asks.inj (asks.symm.trans handler)
    have answer := exec_handler around flight.request (written (messages.take count))
    rw [handler, Handler.exec, ← result] at answer
    exact ⟨arrived, count, since, until_, answer⟩
  · cases sent

theorem Flight.Fits.panic {flight dying : Flight} (fits : flight.Fits around messages last died)
    (dies : flight.panic = some dying) (dead : died) : dying.Fits around messages last died := by
  unfold Flight.panic at dies
  split at dies
  all_goals cases dies
  all_goals exact ⟨fits.1, dead⟩

theorem Flight.Fits.disconnect {flight left : Flight} (fits : flight.Fits around messages last died)
    (leaves : flight.disconnect = some left) : left.Fits around messages last died := by
  unfold Flight.disconnect at leaves
  split at leaves
  all_goals cases leaves
  all_goals exact fits

/-- A client is told what the process sent, or that it sent nothing. -/
theorem Flight.Fits.outcome {flight : Flight} {response : Response}
    (fits : flight.Fits around messages last died) (given : flight.outcome = some response) :
    response = internalServerError ∧ died ∨
      Glimpsed messages flight.arrived last fun store => response = flight.request.answer around store := by
  obtain ⟨arrived, phase⟩ := fits
  unfold Flight.outcome at given
  split at given
  · rename_i sent exited
    rw [exited] at phase
    obtain ⟨connected, rfl⟩ : flight.connected = true ∧ sent.getD internalServerError = response := by
      simpa using given
    cases sent with
    | none => exact .inl ⟨rfl, phase⟩
    | some sent => exact .inr phase
  all_goals cases given

end

namespace Server

/-- What the server has gone through explains where each request is. -/
structure Consistent (around : Surroundings) (seen : List Label) (server : Server) : Prop where
  linear : ∃ before, Locked.Linear .new server.locked before
  calls : server.locked.writes = (seen.filterMap Label.taken).map fun message => message.method.call
  requests : server.flights.map Flight.request = seen.filterMap Label.arrival
  flights : ∀ id (flight : Flight), server.flights[id]? = some flight →
    flight.Fits around (seen.filterMap Label.taken) server.handled (.panic id ∈ seen)
  pending : ∀ id call, (some id, call) ∈ server.locked.pending →
    ∃ flight method respond, server.flights[id]? = some flight ∧ flight.phase = .asking ∧
      flight.request.handler around = .asks method respond ∧ call = method.call
  asking : ∀ id flight, server.flights[id]? = some flight → flight.phase = .asking →
    ∃ call, (some id, call) ∈ server.locked.pending
  delivered : ∀ delivery ∈ server.delivered, delivery.answered ≤ server.handled ∧
    delivery.Right around (seen.filterMap Label.taken) (.panic delivery.id ∈ seen)
  answered : ∀ delivery ∈ server.delivered, ∃ flight, server.flights[delivery.id]? = some flight ∧
    flight.phase = .answered ∧ flight.request = delivery.request
  told : ∀ id flight, server.flights[id]? = some flight → flight.phase = .answered →
    ∃ delivery ∈ server.delivered, delivery.id = id
  once : (server.delivered.map Delivery.id).Nodup

section

variable {around : Surroundings} {seen : List Label} {server next : Server} {label : Label}

theorem history (what : Label → Option IndexWriterMessage) (seen : List Label) (label : Label) :
    (seen ++ [label]).filterMap what = seen.filterMap what ++ (what label).toList := by
  rw [List.filterMap_append, List.filterMap_cons]
  cases what label <;> rfl

theorem message_writes (message : IndexWriterMessage) : (message.method : Method Seen).mode = .writing := by
  cases message <;> rfl

theorem reads_of_asks {request : Request} {method : Method Seen} {respond : Reply Seen → Response}
    (asks : request.handler around = .asks method respond) : method.mode = .reading := by
  have looks := looks_handler around request
  rw [asks] at looks
  obtain ⟨look, -, reading⟩ := looks
  exact reading

/-- At the lock a step is nothing, or one of the lock in which a message takes it to write. -/
theorem locks_of_moves (moves : Moves around server label next) :
    next.locked = server.locked ∧ label.taken = none ∨
      ∃ locking, Locked.step server.locked locking = some next.locked ∧
        locking.write = label.taken.map fun message => message.method.call := by
  cases moves with
  | takes message moved =>
    refine .inr ⟨_, moved, ?_⟩
    have writing : (message.method : Method Seen).call.mode = .writing := message_writes message
    rw [Locked.Label.write, if_pos writing]
    rfl
  | asks found phase handler moved =>
    refine .inr ⟨_, moved, ?_⟩
    have reading := reads_of_asks handler
    simp [Locked.Label.write, Method.call, reading, Label.taken]
  | advances thread moved => exact .inr ⟨_, moved, rfl⟩
  | returns moved => exact .inr ⟨_, moved, rfl⟩
  | replies found moved last => exact .inr ⟨_, moved, rfl⟩
  | arrives | responds | panics | delivers | disconnects => exact .inl ⟨rfl, rfl⟩

theorem log_of_locking {locked after : Locked (Option Nat) NoteStore (Reply Seen)}
    {locking : Locked.Label (Option Nat) NoteStore (Reply Seen)}
    (taken : Locked.step locked locking = some after) : locked.log <+: after.log := by
  cases Locked.moves_of_step taken with
  | acquires | advances => exact List.prefix_rfl
  | releases => exact List.prefix_append _ _

theorem handled_mono (moves : Moves around server label next) : server.handled ≤ next.handled := by
  rcases locks_of_moves moves with ⟨same, -⟩ | ⟨locking, taken, -⟩
  · rw [handled, handled, same]
  · exact (log_of_locking taken).sublist.countP_le

namespace Consistent

/-- No more messages have been handled than taken. -/
theorem known (consistent : Consistent around seen server) :
    server.handled ≤ (seen.filterMap Label.taken).length := by
  have written := congrArg List.length consistent.calls
  rw [List.length_map, Locked.writes, List.filter_append, List.length_append, List.filter_map,
    List.length_map, ← List.countP_eq_length_filter] at written
  rw [← written]
  exact Nat.le_add_right _ _

theorem linear_step (consistent : Consistent around seen server) (moves : Moves around server label next) :
    ∃ before, Locked.Linear .new next.locked before := by
  obtain ⟨before, linear⟩ := consistent.linear
  rcases locks_of_moves moves with ⟨same, -⟩ | ⟨locking, taken, -⟩
  · exact ⟨before, same ▸ linear⟩
  · exact Locked.linear_step linear taken

theorem calls_step (consistent : Consistent around seen server) (moves : Moves around server label next) :
    next.locked.writes =
      ((seen ++ [label]).filterMap Label.taken).map fun message => message.method.call := by
  obtain ⟨before, linear⟩ := consistent.linear
  rw [history, List.map_append]
  rcases locks_of_moves moves with ⟨same, nothing⟩ | ⟨locking, taken, writes⟩
  · rw [same, consistent.calls, nothing]
    simp
  · rw [Locked.writes_step linear taken, consistent.calls, writes]
    cases label.taken <;> rfl

/-- What holds of every request and of a changed one holds after the change. -/
theorem forall_set {what : Nat → Flight → Prop} {flights : List Flight} {id : Nat} {new : Flight}
    (others : ∀ other flight, flights[other]? = some flight → what other flight) (changed : what id new)
    (other : Nat) (flight : Flight) (found : (flights.set id new)[other]? = some flight) : what other flight := by
  rw [List.getElem?_set] at found
  split at found
  · rename_i same
    subst same
    split at found
    · exact Option.some.inj found ▸ changed
    · cases found
  · exact others other flight found

theorem forall_append {what : Nat → Flight → Prop} {flights : List Flight} {new : Flight}
    (others : ∀ other flight, flights[other]? = some flight → what other flight)
    (added : what flights.length new) (other : Nat) (flight : Flight)
    (found : (flights ++ [new])[other]? = some flight) : what other flight := by
  rcases Nat.lt_or_ge other flights.length with before | after
  · rw [List.getElem?_append_left before] at found
    exact others other flight found
  · rw [List.getElem?_append_right after, List.getElem?_singleton] at found
    split at found
    · rename_i last
      obtain rfl : other = flights.length := by omega
      exact Option.some.inj found ▸ added
    · cases found

/-- Whose call is released has been asking. -/
theorem asking_of_release (consistent : Consistent around seen server) {id : Nat}
    {locked : Locked (Option Nat) NoteStore (Reply Seen)}
    (taken : Locked.step server.locked (.release (some id)) = some locked) :
    ∃ flight, server.flights[id]? = some flight ∧ flight.phase = .asking := by
  obtain ⟨holder, _, member, thread, -⟩ := Locked.release_eq_some taken
  have waits : (some id, holder.call) ∈ server.locked.pending := List.mem_map.mpr ⟨holder, member, thread ▸ rfl⟩
  obtain ⟨flight, _, _, found, asking, -⟩ := consistent.pending id holder.call waits
  exact ⟨flight, found, asking⟩

/-- The reply of a call is that of the store at the time of its release. -/
theorem glimpsed_reply (consistent : Consistent around seen server) {id : Nat} {flight : Flight}
    {locked : Locked (Option Nat) NoteStore (Reply Seen)}
    {entry : Returned (Option Nat) NoteStore (Reply Seen)} (found : server.flights[id]? = some flight)
    (taken : Locked.step server.locked (.release (some id)) = some locked)
    (last : locked.log.getLast? = some entry) :
    ∃ method respond, flight.request.handler around = .asks method respond ∧
      Glimpsed (seen.filterMap Label.taken) flight.arrived server.handled fun store =>
        entry.result = (method.result store).2 := by
  obtain ⟨before, linear⟩ := consistent.linear
  obtain ⟨later, after⟩ := Locked.linear_step linear taken
  have calls := (Locked.writes_step linear taken).trans
    ((List.append_nil _).trans consistent.calls)
  obtain ⟨holder, result, member, thread, rest, rfl⟩ := Locked.release_eq_some taken
  have waits : (some id, holder.call) ∈ server.locked.pending := List.mem_map.mpr ⟨holder, member, thread ▸ rfl⟩
  obtain ⟨asker, method, respond, listed, -, asks, call⟩ := consistent.pending id holder.call waits
  obtain rfl := Option.some.inj (listed.symm.trans found)
  have same : (⟨some id, holder.call, result⟩ : Returned (Option Nat) NoteStore (Reply Seen)) = entry := by
    simpa using last
  have made : entry.call = method.call := same ▸ call
  -- the log up to the entry leads to the store of the messages handled by then
  have replays := after.replays
  rw [same] at replays calls
  obtain ⟨store, first, returned, -⟩ := replays_append.mp replays
  have logged : ((server.locked.log ++ [entry]).map Returned.call).filter (fun call => call.mode = .writing) <+:
      (seen.filterMap Label.taken).map fun message => message.method.call := by
    rw [← calls, Locked.writes, List.filter_append]
    exact List.prefix_append _ _
  refine ⟨method, respond, asks, server.handled, (consistent.flights id asker found).1, Nat.le_refl _, ?_⟩
  rw [handled, ← written_of_replays logged first, ← returned, made]
  exact congrArg Prod.snd (Method.exec_routine method store)

theorem flights_step (consistent : Consistent around seen server) (moves : Moves around server label next) :
    ∀ id (flight : Flight), next.flights[id]? = some flight →
      flight.Fits around ((seen ++ [label]).filterMap Label.taken) next.handled (.panic id ∈ seen ++ [label]) := by
  have after := handled_mono moves
  have others : ∀ id (flight : Flight), server.flights[id]? = some flight →
      flight.Fits around ((seen ++ [label]).filterMap Label.taken) next.handled (.panic id ∈ seen ++ [label]) := by
    intro id flight found
    rw [history]
    exact (consistent.flights id flight found).mono consistent.known after (List.mem_append_left _)
  cases moves with
  | takes | advances | returns => exact others
  | arrives =>
    exact forall_append others ⟨Nat.le_refl _, trivial⟩
  | asks found phase handler moved =>
    exact forall_set others ⟨(others _ _ found).1, trivial⟩
  | replies found moved last =>
    obtain ⟨method, respond, asks, glimpsed⟩ := glimpsed_reply consistent found moved last
    refine forall_set others ⟨(others _ _ found).1, method, respond, asks, ?_⟩
    rw [history]
    exact Glimpsed.mono glimpsed consistent.known after
  | responds found changed => exact forall_set others ((others _ _ found).respond changed)
  | panics found changed =>
    exact forall_set others ((others _ _ found).panic changed (List.mem_append_right _ (List.mem_singleton_self _)))
  | delivers elapsed found outcome =>
    exact forall_set others ⟨(others _ _ found).1, trivial⟩
  | disconnects found changed => exact forall_set others ((others _ _ found).disconnect changed)

/-- A step adds a request, goes on with one that is not answered, or leaves all as they are. -/
theorem flights_of_moves (consistent : Consistent around seen server) (moves : Moves around server label next) :
    label.arrival = none ∧ next.flights = server.flights ∨
      (∃ flight : Flight, label.arrival = some flight.request ∧ next.flights = server.flights ++ [flight]) ∨
      ∃ id old new, label.arrival = none ∧ server.flights[id]? = some old ∧
        next.flights = server.flights.set id new ∧ new.request = old.request ∧ old.phase ≠ .answered := by
  cases moves with
  | takes | advances | returns => exact .inl ⟨rfl, rfl⟩
  | arrives => exact .inr (.inl ⟨_, rfl, rfl⟩)
  | asks found phase handler moved => exact .inr (.inr ⟨_, _, _, rfl, found, rfl, rfl, by simp [phase]⟩)
  | replies found moved last =>
    obtain ⟨asker, listed, asking⟩ := consistent.asking_of_release moved
    obtain rfl := Option.some.inj (listed.symm.trans found)
    exact .inr (.inr ⟨_, _, _, rfl, found, rfl, rfl, by simp [asking]⟩)
  | responds found sent =>
    obtain ⟨⟨_, rfl⟩, running⟩ := Flight.respond_eq_some sent
    exact .inr (.inr ⟨_, _, _, rfl, found, rfl, rfl, running.not_answered⟩)
  | panics found dies =>
    obtain ⟨⟨_, rfl⟩, running⟩ := Flight.panic_eq_some dies
    exact .inr (.inr ⟨_, _, _, rfl, found, rfl, rfl, running.not_answered⟩)
  | delivers elapsed found outcome =>
    obtain ⟨_, exited⟩ := Flight.exited_of_outcome outcome
    exact .inr (.inr ⟨_, _, _, rfl, found, rfl, rfl, by simp [exited]⟩)
  | disconnects found leaves =>
    obtain ⟨rfl, open_⟩ := Flight.disconnect_eq_some leaves
    exact .inr (.inr ⟨_, _, _, rfl, found, rfl, rfl, open_⟩)

theorem requests_set {flights : List Flight} {id : Nat} {old new : Flight} (found : flights[id]? = some old)
    (same : new.request = old.request) :
    (flights.set id new).map Flight.request = flights.map Flight.request := by
  refine List.ext_getElem? fun other => ?_
  rw [List.getElem?_map, List.getElem?_map, List.getElem?_set]
  split
  · rename_i here
    subst here
    obtain ⟨inside, -⟩ := List.getElem?_eq_some_iff.mp found
    rw [if_pos inside, found, Option.map_some, Option.map_some, same]
  · rfl

theorem requests_step (consistent : Consistent around seen server) (moves : Moves around server label next) :
    next.flights.map Flight.request = (seen ++ [label]).filterMap Label.arrival := by
  rw [List.filterMap_append, ← consistent.requests]
  rcases consistent.flights_of_moves moves with ⟨nobody, same⟩ | ⟨flight, came, same⟩ |
    ⟨id, old, new, nobody, found, same, kept, -⟩
  · simp [same, nobody]
  · simp [same, came]
  · simp [same, nobody, requests_set found kept]

theorem answered_step (consistent : Consistent around seen server) (moves : Moves around server label next)
    {delivery : Delivery} (member : delivery ∈ server.delivered) :
    ∃ flight, next.flights[delivery.id]? = some flight ∧ flight.phase = .answered ∧
      flight.request = delivery.request := by
  obtain ⟨flight, found, answered, request⟩ := consistent.answered delivery member
  refine ⟨flight, ?_, answered, request⟩
  rcases consistent.flights_of_moves moves with ⟨-, same⟩ | ⟨other, -, same⟩ |
    ⟨id, old, new, -, listed, same, -, open_⟩
  · rwa [same]
  · obtain ⟨inside, -⟩ := List.getElem?_eq_some_iff.mp found
    rwa [same, List.getElem?_append_left inside]
  · have different : id ≠ delivery.id := by
      rintro rfl
      obtain rfl := Option.some.inj (listed.symm.trans found)
      exact open_ answered
    rwa [same, List.getElem?_set_ne different]

theorem pending_step (consistent : Consistent around seen server) (moves : Moves around server label next) :
    ∀ id call, (some id, call) ∈ next.locked.pending →
      ∃ flight method respond, next.flights[id]? = some flight ∧ flight.phase = .asking ∧
        flight.request.handler around = .asks method respond ∧ call = method.call := by
  intro id call waits
  -- who waits is not affected by what happens to another request
  have apart : ∀ {other : Nat} {new : Flight}, other ≠ id → (some id, call) ∈ server.locked.pending →
      ∃ flight method respond, (server.flights.set other new)[id]? = some flight ∧ flight.phase = .asking ∧
        flight.request.handler around = .asks method respond ∧ call = method.call := by
    intro other new different waiting
    obtain ⟨flight, method, respond, found, rest⟩ := consistent.pending id call waiting
    exact ⟨flight, method, respond, (List.getElem?_set_ne different).trans found, rest⟩
  have elsewhere : ∀ {other : Nat} {old : Flight}, server.flights[other]? = some old → old.phase ≠ .asking →
      (some id, call) ∈ server.locked.pending → other ≠ id := by
    rintro other old listed idle waiting rfl
    obtain ⟨flight, _, _, found, asking, -⟩ := consistent.pending other call waiting
    obtain rfl := Option.some.inj (listed.symm.trans found)
    exact idle asking
  cases moves with
  | takes message moved =>
    rw [(Locked.pending_acquire moved).1] at waits
    rcases List.mem_append.mp waits with before | new
    · exact consistent.pending id call before
    · cases List.mem_singleton.mp new
  | arrives =>
    obtain ⟨flight, method, respond, found, rest⟩ := consistent.pending id call waits
    obtain ⟨inside, -⟩ := List.getElem?_eq_some_iff.mp found
    exact ⟨flight, method, respond, (List.getElem?_append_left inside).trans found, rest⟩
  | asks found phase handler moved =>
    obtain ⟨added, fresh⟩ := Locked.pending_acquire moved
    rw [added] at waits
    rcases List.mem_append.mp waits with before | new
    · exact apart (elsewhere found (by simp [phase]) before) before
    · cases List.mem_singleton.mp new
      obtain ⟨inside, -⟩ := List.getElem?_eq_some_iff.mp found
      exact ⟨_, _, _, List.getElem?_set_self inside, rfl, handler, rfl⟩
  | advances thread moved =>
    rw [Locked.pending_advance moved] at waits
    exact consistent.pending id call waits
  | returns moved =>
    rw [Locked.pending_release moved] at waits
    exact consistent.pending id call (List.mem_filter.mp waits).1
  | @replies asked flight locked entry found moved last =>
    rw [Locked.pending_release moved] at waits
    obtain ⟨before, kept⟩ := List.mem_filter.mp waits
    have different : some id ≠ some asked := of_decide_eq_true kept
    exact apart (fun same => different (congrArg some same.symm)) before
  | responds found sent =>
    obtain ⟨-, running⟩ := Flight.respond_eq_some sent
    exact apart (elsewhere found running.not_asking waits) waits
  | panics found dies =>
    obtain ⟨-, running⟩ := Flight.panic_eq_some dies
    exact apart (elsewhere found running.not_asking waits) waits
  | delivers elapsed found outcome =>
    obtain ⟨_, exited⟩ := Flight.exited_of_outcome outcome
    exact apart (elsewhere found (by simp [exited]) waits) waits
  | @disconnects other flight left found leaves =>
    obtain ⟨rfl, -⟩ := Flight.disconnect_eq_some leaves
    obtain ⟨listed, method, respond, there, rest⟩ := consistent.pending id call waits
    by_cases same : other = id
    · subst same
      obtain rfl := Option.some.inj (found.symm.trans there)
      obtain ⟨inside, -⟩ := List.getElem?_eq_some_iff.mp found
      exact ⟨_, method, respond, List.getElem?_set_self inside, rest⟩
    · exact apart same waits

theorem asking_step (consistent : Consistent around seen server) (moves : Moves around server label next) :
    ∀ id flight, next.flights[id]? = some flight → flight.phase = .asking →
      ∃ call, (some id, call) ∈ next.locked.pending := by
  cases moves with
  | takes message moved =>
    intro id flight found asking
    obtain ⟨call, waits⟩ := consistent.asking id flight found asking
    exact ⟨call, (Locked.pending_acquire moved).1 ▸ List.mem_append_left _ waits⟩
  | arrives => exact forall_append consistent.asking fun asking => by cases asking
  | asks found phase handler moved =>
    have added := (Locked.pending_acquire moved).1
    refine forall_set (fun id flight found asking => ?_) fun _ => ⟨_, added ▸ List.mem_append_right _ (List.mem_singleton_self _)⟩
    obtain ⟨call, waits⟩ := consistent.asking id flight found asking
    exact ⟨call, added ▸ List.mem_append_left _ waits⟩
  | advances thread moved =>
    intro id flight found asking
    obtain ⟨call, waits⟩ := consistent.asking id flight found asking
    exact ⟨call, (Locked.pending_advance moved).symm ▸ waits⟩
  | returns moved =>
    intro id flight found asking
    obtain ⟨call, waits⟩ := consistent.asking id flight found asking
    rw [Locked.pending_release moved]
    exact ⟨call, List.mem_filter.mpr ⟨waits, by simp⟩⟩
  | @replies asked flight locked entry found moved last =>
    intro id other listed asking
    rw [List.getElem?_set] at listed
    split at listed
    · split at listed
      · obtain rfl := Option.some.inj listed
        cases asking
      · cases listed
    · rename_i different
      obtain ⟨call, waits⟩ := consistent.asking id other listed asking
      rw [Locked.pending_release moved]
      refine ⟨call, List.mem_filter.mpr ⟨waits, decide_eq_true ?_⟩⟩
      exact fun same => different (Option.some.inj same).symm
  | responds found sent =>
    obtain ⟨⟨_, rfl⟩, -⟩ := Flight.respond_eq_some sent
    exact forall_set consistent.asking fun asking => by cases asking
  | panics found dies =>
    obtain ⟨⟨_, rfl⟩, -⟩ := Flight.panic_eq_some dies
    exact forall_set consistent.asking fun asking => by cases asking
  | delivers elapsed found outcome => exact forall_set consistent.asking fun asking => by cases asking
  | disconnects found leaves =>
    obtain ⟨rfl, -⟩ := Flight.disconnect_eq_some leaves
    exact forall_set consistent.asking fun asking => consistent.asking _ _ found asking

theorem delivered_step (consistent : Consistent around seen server) (moves : Moves around server label next) :
    ∀ delivery ∈ next.delivered, delivery.answered ≤ next.handled ∧
      delivery.Right around ((seen ++ [label]).filterMap Label.taken) (.panic delivery.id ∈ seen ++ [label]) := by
  have after := handled_mono moves
  have earlier : ∀ delivery ∈ server.delivered, delivery.answered ≤ next.handled ∧
      delivery.Right around ((seen ++ [label]).filterMap Label.taken) (.panic delivery.id ∈ seen ++ [label]) := by
    intro delivery member
    obtain ⟨answered, right⟩ := consistent.delivered delivery member
    refine ⟨answered.trans after, ?_⟩
    rw [history]
    rcases right with ⟨failed, died⟩ | glimpsed
    · exact .inl ⟨failed, List.mem_append_left _ died⟩
    · exact .inr (Glimpsed.mono glimpsed (answered.trans consistent.known) (Nat.le_refl _))
  cases moves with
  | delivers elapsed found outcome =>
    refine List.forall_mem_append.mpr ⟨earlier, List.forall_mem_singleton.mpr ⟨Nat.le_refl _, ?_⟩⟩
    rw [history]
    rcases (consistent.flights _ _ found).outcome outcome with ⟨failed, died⟩ | glimpsed
    · exact .inl ⟨failed, List.mem_append_left _ died⟩
    · exact .inr (Glimpsed.mono glimpsed consistent.known (Nat.le_refl _))
  | takes | arrives | asks | advances | returns | replies | responds | panics | disconnects => exact earlier

theorem answered_of_moves (consistent : Consistent around seen server) (moves : Moves around server label next) :
    ∀ delivery ∈ next.delivered, ∃ flight, next.flights[delivery.id]? = some flight ∧
      flight.phase = .answered ∧ flight.request = delivery.request := by
  have earlier : ∀ delivery ∈ server.delivered, ∃ flight, next.flights[delivery.id]? = some flight ∧
      flight.phase = .answered ∧ flight.request = delivery.request := fun _ => consistent.answered_step moves
  cases moves with
  | delivers elapsed found outcome =>
    obtain ⟨inside, -⟩ := List.getElem?_eq_some_iff.mp found
    exact List.forall_mem_append.mpr ⟨earlier,
      List.forall_mem_singleton.mpr ⟨_, List.getElem?_set_self inside, rfl, rfl⟩⟩
  | takes | arrives | asks | advances | returns | replies | responds | panics | disconnects => exact earlier

theorem told_step (consistent : Consistent around seen server) (moves : Moves around server label next) :
    ∀ id flight, next.flights[id]? = some flight → flight.phase = .answered →
      ∃ delivery ∈ next.delivered, delivery.id = id := by
  cases moves with
  | takes | advances | returns => exact consistent.told
  | arrives => exact forall_append consistent.told fun answered => by cases answered
  | asks | replies => exact forall_set consistent.told fun answered => by cases answered
  | responds found sent =>
    obtain ⟨⟨_, rfl⟩, -⟩ := Flight.respond_eq_some sent
    exact forall_set consistent.told fun answered => by cases answered
  | panics found dies =>
    obtain ⟨⟨_, rfl⟩, -⟩ := Flight.panic_eq_some dies
    exact forall_set consistent.told fun answered => by cases answered
  | delivers elapsed found outcome =>
    refine forall_set (fun id flight listed answered => ?_) fun _ =>
      ⟨_, List.mem_append_right _ (List.mem_singleton_self _), rfl⟩
    obtain ⟨delivery, member, same⟩ := consistent.told id flight listed answered
    exact ⟨delivery, List.mem_append_left _ member, same⟩
  | disconnects found leaves =>
    obtain ⟨rfl, open_⟩ := Flight.disconnect_eq_some leaves
    exact forall_set consistent.told fun answered => absurd answered open_

theorem once_step (consistent : Consistent around seen server) (moves : Moves around server label next) :
    (next.delivered.map Delivery.id).Nodup := by
  cases moves with
  | @delivers id flight response elapsed found outcome =>
    rw [List.map_append, List.map_singleton]
    refine List.Nodup.append consistent.once (List.nodup_singleton _) ?_
    rw [List.disjoint_singleton]
    intro known
    obtain ⟨delivery, member, rfl⟩ := List.mem_map.mp known
    obtain ⟨other, listed, answered, -⟩ := consistent.answered delivery member
    obtain rfl := Option.some.inj (listed.symm.trans found)
    obtain ⟨_, exited⟩ := Flight.exited_of_outcome outcome
    rw [answered] at exited
    cases exited
  | takes | arrives | asks | advances | returns | replies | responds | panics | disconnects =>
    exact consistent.once

end Consistent

theorem consistent_start (around : Surroundings) (telemetry : Option Telemetry) :
    Consistent around [] (start telemetry) where
  linear := ⟨.new, Locked.linear_start _⟩
  calls := rfl
  requests := rfl
  flights _ _ found := by cases found
  pending _ _ waits := by cases waits
  asking _ _ found := by cases found
  delivered := List.forall_mem_nil _
  answered := List.forall_mem_nil _
  told _ _ found := by cases found
  once := List.nodup_nil

theorem consistent_step (consistent : Consistent around seen server)
    (taken : step around server label = some next) : Consistent around (seen ++ [label]) next :=
  have moves := moves_of_step taken
  { linear := consistent.linear_step moves
    calls := consistent.calls_step moves
    requests := consistent.requests_step moves
    flights := consistent.flights_step moves
    pending := consistent.pending_step moves
    asking := consistent.asking_step moves
    delivered := consistent.delivered_step moves
    answered := consistent.answered_of_moves moves
    told := consistent.told_step moves
    once := consistent.once_step moves }

theorem consistent_run {labels : List Label} {final : Server} {telemetry : Option Telemetry}
    (reached : run (step around) (start telemetry) labels = some final) : Consistent around labels final :=
  run_history (fun _ _ _ _ consistent taken => consistent_step consistent taken)
    (consistent_start around telemetry) reached

/-- Every answer is to a request that came, is its only one, and is right. -/
structure Answers (around : Surroundings) (labels : List Label) (delivered : List Delivery) : Prop where
  once : (delivered.map Delivery.id).Nodup
  asked : ∀ delivery ∈ delivered, (labels.filterMap Label.arrival)[delivery.id]? = some delivery.request
  right : ∀ delivery ∈ delivered,
    delivery.Right around (labels.filterMap Label.taken) (.panic delivery.id ∈ labels)

theorem answers_from_one_store {labels : List Label} {final : Server} {telemetry : Option Telemetry}
    (reached : run (step around) (start telemetry) labels = some final) :
    Answers around labels final.delivered := by
  have consistent := consistent_run reached
  refine ⟨consistent.once, fun delivery member => ?_, fun delivery member => (consistent.delivered _ member).2⟩
  obtain ⟨flight, found, -, request⟩ := consistent.answered delivery member
  rw [← consistent.requests, List.getElem?_map, found, Option.map_some, request]

end

/-- A note is put in and taken out around two looks, and one process dies. -/
def crossed : List Label :=
  [.message (.upsert (emptyNote "a.md")), .advance none, .release none,
    .arrive (.notes "a.md".toList {}) 0 none none, .arrive (.notes [] {}) 0 none none,
    .arrive (.notes "b.md".toList {}) 0 none none, .ask 0, .ask 1, .advance (some 1), .advance (some 0),
    .release (some 0), .release (some 1), .message (.delete "a.md".toList), .advance none, .release none,
    .panic 2, .respond 0, .deliver 0 5, .disconnect 1, .deliver 2 3]

def around : Surroundings := ⟨.bare, captureOnce, fun _ => [], fun _ => 0⟩

def crossedEnd : Server := (run (step around) (start none) crossed).get (by decide +kernel)

theorem answers_from_one_store_crossed : Answers around crossed crossedEnd.delivered :=
  answers_from_one_store
    (show run (step around) (start none) crossed = some crossedEnd from (Option.some_get _).symm)

end Server

end Anwesen.Daemon

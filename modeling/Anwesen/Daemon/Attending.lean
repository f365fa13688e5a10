import Anwesen.Daemon.Requests
import Anwesen.Foundation.Settling

/-! Every request is attended to: what is under way ends, and who stays is answered. -/

set_option autoImplicit false

namespace Anwesen.Daemon

open Foundation Http

namespace Server

/-- The steps the server takes by itself. -/
def Own : Label → Prop
  | .ask _ | .advance _ | .release _ | .respond _ | .deliver _ _ => True
  | .message _ | .arrive _ _ _ _ | .panic _ | .disconnect _ => False

end Server

/-- The steps left to a request, but for those under the lock. -/
def Flight.left (flight : Flight) : Nat :=
  match flight.phase with
  | .spawned => 5
  | .asking | .replied _ => 2
  | .exited _ => if flight.connected then 1 else 0
  | .answered => 0

/-- Answered, or its process has ended and nobody is there to be answered. -/
def Flight.Done (flight : Flight) : Prop :=
  flight.phase = .answered ∨ ∃ response, flight.phase = .exited response ∧ flight.connected = false

theorem Flight.done_of_left {flight : Flight} (nothing : flight.left = 0) : flight.Done := by
  cases phase : flight.phase with
  | answered => exact .inl phase
  | exited response =>
    refine .inr ⟨response, phase, ?_⟩
    simpa [Flight.left, phase] using nothing
  | spawned | asking | replied => simp [Flight.left, phase] at nothing

namespace Server

def work (server : Server) : Nat := weigh Flight.left server.flights + server.locked.left

structure AtRest (server : Server) : Prop where
  free : server.locked.holders = []
  done : ∀ flight ∈ server.flights, flight.Done

section

variable {around : Surroundings} {seen : List Label} {server next : Server} {label : Label}

theorem left_exited_le (flight : Flight) (response : Option Response) :
    { flight with phase := .exited response }.left ≤ 1 := by
  dsimp only [Flight.left]
  split <;> omega

theorem left_of_running {flight : Flight} (running : flight.Running) : 2 ≤ flight.left := by
  rcases running with spawned | ⟨reply, replied⟩
  · rw [Flight.left, spawned]
    exact Nat.le_add_left 2 3
  · rw [Flight.left, replied]

theorem left_of_outcome {flight : Flight} {response : Response} (given : flight.outcome = some response) :
    flight.left = 1 := by
  unfold Flight.outcome at given
  split at given
  · rename_i sent exited
    rw [Flight.left, exited]
    split at given
    · rename_i connected
      exact if_pos connected
    · cases given
  all_goals cases given

theorem work_shrinks (consistent : Consistent around seen server) (own : Own label)
    (taken : step around server label = some next) : next.work < server.work := by
  obtain ⟨before, linear⟩ := consistent.linear
  cases moves_of_step taken with
  | takes | arrives | panics | disconnects => cases own
  | @asks id flight method respond locked found phase handler moved =>
    have looks := looks_handler around flight.request
    rw [handler] at looks
    obtain ⟨look, routine, -⟩ := looks
    have moved_left := Locked.left_acquire moved
    have once : method.call.routine.length server.locked.shared = 1 :=
      congrArg (Routine.length · server.locked.shared) routine
    have flights := weigh_set Flight.left found { flight with phase := .asking }
    have spawned : flight.left = 5 := by rw [Flight.left, phase]
    have asking : { flight with phase := .asking }.left = 2 := rfl
    simp only [work]
    omega
  | advances thread moved =>
    have fewer := Locked.left_step linear (.inl rfl) moved
    simp only [work]
    omega
  | returns moved =>
    have fewer := Locked.left_step linear (.inr rfl) moved
    simp only [work]
    omega
  | @replies id flight locked entry found moved last =>
    have fewer := Locked.left_step linear (.inr rfl) moved
    obtain ⟨asker, listed, asking⟩ := consistent.asking_of_release moved
    obtain rfl := Option.some.inj (listed.symm.trans found)
    have flights := weigh_set Flight.left found { asker with phase := .replied entry.result }
    have replied : { asker with phase := .replied entry.result }.left = 2 := rfl
    have asked : asker.left = 2 := by rw [Flight.left, asking]
    simp only [work]
    omega
  | @responds id flight later found sent =>
    obtain ⟨⟨response, rfl⟩, running⟩ := Flight.respond_eq_some sent
    have flights := weigh_set Flight.left found { flight with phase := .exited response }
    have exited := left_exited_le flight response
    have more := left_of_running running
    simp only [work]
    omega
  | @delivers id flight response elapsed found outcome =>
    have flights := weigh_set Flight.left found { flight with phase := .answered }
    have answered : { flight with phase := .answered }.left = 0 := rfl
    have more := left_of_outcome outcome
    simp only [work]
    omega

theorem exists_step (taken : (step around server label).isSome = true) (own : Own label) :
    ∃ label next, Own label ∧ step around server label = some next :=
  have ⟨next, taken⟩ := Option.isSome_iff_exists.mp taken
  ⟨label, next, own, taken⟩

/-- While the lock is held, who has it can go on. -/
theorem exists_step_of_held (consistent : Consistent around seen server) (held : server.locked.holders ≠ []) :
    ∃ label next, Own label ∧ step around server label = some next := by
  obtain ⟨thread, locking, locked, label, moved⟩ := Locked.exists_step held
  rcases label with rfl | rfl
  · exact ⟨.advance thread, _, trivial, Option.map_eq_some_iff.mpr ⟨locked, moved, rfl⟩⟩
  · cases thread with
    | none => exact ⟨.release none, _, trivial, Option.map_eq_some_iff.mpr ⟨locked, moved, rfl⟩⟩
    | some id =>
      obtain ⟨flight, found, -⟩ := consistent.asking_of_release moved
      obtain ⟨holder, result, -, -, -, rfl⟩ := Locked.release_eq_some moved
      have taken : (step around server (.release (some id))).isSome = true := by
        simp [step, moved, replace, found]
      exact exists_step taken trivial

/-- With the lock free, a request that is not done can go on. -/
theorem exists_step_of_undone (consistent : Consistent around seen server) (free : server.locked.holders = [])
    {id : Nat} {flight : Flight} (found : server.flights[id]? = some flight) (undone : ¬ flight.Done) :
    ∃ label next, Own label ∧ step around server label = some next := by
  have fits := (consistent.flights id flight found).2
  cases phase : flight.phase with
  | spawned =>
    cases handler : flight.request.handler around with
    | answers response =>
      have taken : (step around server (.respond id)).isSome = true := by
        simp [step, replace, found, Flight.respond, phase, handler]
      exact exists_step taken trivial
    | asks method respond =>
      have reading := reads_of_asks handler
      have taken : (step around server (.ask id)).isSome = true := by
        simp [step, found, phase, handler, Locked.step, Locked.Free, free, Method.call, reading]
      exact exists_step taken trivial
  | asking =>
    obtain ⟨call, waits⟩ := consistent.asking id flight found phase
    rw [Locked.pending, free] at waits
    cases waits
  | replied reply =>
    rw [phase] at fits
    obtain ⟨method, respond, asks, -⟩ := fits
    have taken : (step around server (.respond id)).isSome = true := by
      simp [step, replace, found, Flight.respond, phase, asks]
    exact exists_step taken trivial
  | exited response =>
    cases connected : flight.connected with
    | false => exact absurd (.inr ⟨response, phase, connected⟩) undone
    | true =>
      have taken : (step around server (.deliver id 0)).isSome = true := by
        simp [step, found, Flight.outcome, phase, connected]
      exact exists_step taken trivial
  | answered => exact absurd (.inl phase) undone

/-- Left to itself the server ends all that is under way. -/
theorem requests_settle (around : Surroundings) :
    Settles (step around) Own (fun server => ∃ seen, Consistent around seen server) AtRest work where
  kept := by
    rintro server label next ⟨seen, consistent⟩ own taken
    exact ⟨_, consistent_step consistent taken⟩
  shrinks := by
    rintro server label next ⟨seen, consistent⟩ own taken
    exact work_shrinks consistent own taken
  lively := by
    rintro server ⟨seen, consistent⟩ restless
    by_cases free : server.locked.holders = []
    · obtain ⟨flight, member, undone⟩ : ∃ flight ∈ server.flights, ¬ flight.Done := by
        by_contra all
        refine restless ⟨free, fun flight member => ?_⟩
        by_contra undone
        exact all ⟨flight, member, undone⟩
      obtain ⟨id, found⟩ := List.getElem?_of_mem member
      exact exists_step_of_undone consistent free found undone
    · exact exists_step_of_held consistent free

/-- Without further requests and messages, the requests under way end after a bounded
number of steps, whatever their order, and every client that has stayed has its answer. -/
theorem clients_answered {labels alone : List Label} {server final : Server} {telemetry : Option Telemetry}
    (reached : run (step around) (start telemetry) labels = some server) (mine : ∀ label ∈ alone, Own label)
    (ran : run (step around) server alone = some final) :
    alone.length ≤ server.work ∧ ((∀ label, Own label → step around final label = none) →
      ∀ id flight, final.flights[id]? = some flight → flight.connected = true →
        ∃ delivery ∈ final.delivered, delivery.id = id) := by
  have invariant : ∃ seen, Consistent around seen server := ⟨labels, consistent_run reached⟩
  obtain ⟨bound, seen, consistent⟩ := (requests_settle around).bounded invariant mine ran
  refine ⟨by omega, fun stuck id flight found connected => ?_⟩
  have rest := (requests_settle around).rests invariant mine ran stuck
  rcases rest.done flight (List.mem_of_getElem? found) with answered | ⟨_, -, gone⟩
  · exact consistent.told id flight found answered
  · rw [connected] at gone
    cases gone

/-- At rest there is nothing to do. -/
theorem no_step_of_rest (rest : AtRest server) (own : Own label) : step around server label = none := by
  rw [Option.eq_none_iff_forall_ne_some]
  intro next taken
  have done : ∀ id (flight : Flight), server.flights[id]? = some flight → flight.Done := fun _ flight found =>
    rest.done flight (List.mem_of_getElem? found)
  cases moves_of_step taken with
  | takes | arrives | panics | disconnects => cases own
  | asks found phase handler moved =>
    rcases done _ _ found with answered | ⟨_, exited, -⟩ <;> simp_all
  | advances thread moved => simp [Locked.step, rest.free] at moved
  | returns moved => simp [Locked.step, rest.free] at moved
  | replies found moved last => simp [Locked.step, rest.free] at moved
  | responds found sent =>
    obtain ⟨-, running⟩ := Flight.respond_eq_some sent
    rcases done _ _ found with answered | ⟨_, exited, -⟩
    · exact running.not_answered answered
    · rcases running with spawned | ⟨_, replied⟩ <;> simp_all
  | delivers elapsed found outcome =>
    have left := left_of_outcome outcome
    rcases done _ _ found with answered | ⟨_, exited, gone⟩
    · simp [Flight.left, answered] at left
    · simp [Flight.left, exited, gone] at left

end

def crossedRest : Server := (run (step around) crossedEnd [.respond 1]).get (by decide +kernel)

theorem clients_answered_crossed :
    [Label.respond 1].length ≤ crossedEnd.work ∧
      ∀ id flight, crossedRest.flights[id]? = some flight → flight.connected = true →
        ∃ delivery ∈ crossedRest.delivered, delivery.id = id :=
  have settled := clients_answered
    (show run (step around) (start none) crossed = some crossedEnd from (Option.some_get _).symm)
    (show ∀ label ∈ [Label.respond 1], Own label by simp [Own])
    (show run (step around) crossedEnd [.respond 1] = some crossedRest from (Option.some_get _).symm)
  have done : ∀ flight ∈ crossedRest.flights, flight.left = 0 := by decide +kernel
  have rest : AtRest crossedRest :=
    ⟨List.isEmpty_iff.mp (by decide +kernel), fun flight member => Flight.done_of_left (done flight member)⟩
  ⟨settled.1, settled.2 fun _ own => no_step_of_rest rest own⟩

end Server

end Anwesen.Daemon

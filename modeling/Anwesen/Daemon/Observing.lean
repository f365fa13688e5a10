import Anwesen.Daemon.Requests

/-! What the instruments tell of the requests that were answered. -/

set_option autoImplicit false

namespace Anwesen.Http

open Foundation Vault Query

/-- The extractor turns a path down as a bad request. -/
def TurnsDown (extract : Bytes → Except Response Text) : Prop :=
  ∀ raw rejection, extract raw = .error rejection → rejection.status = 400

def statuses : List Nat := [200, 304, 400, 404, 500]

/-- A status the handlers give, and that of an unchanged note only to who has named one. -/
structure Fitting (headers : Headers) (response : Response) : Prop where
  known : response.status ∈ statuses
  asked : response.status = 304 → headers.ifNoneMatch ≠ []

section

variable {ext : External} {store : NoteStore} {headers : Headers} {response : Response}

theorem fitting_ok (contentType etag : Option Text) (body : Body) :
    Fitting headers ⟨200, contentType, etag, body⟩ := ⟨by simp [statuses], by simp⟩

theorem fitting_badRequest (reason : Text) : Fitting headers (badRequest reason) :=
  ⟨by simp [badRequest, statuses], by simp [badRequest]⟩

theorem fitting_notFound : Fitting headers notFound := ⟨by simp [notFound, statuses], by simp [notFound]⟩

theorem fitting_internalServerError : Fitting headers internalServerError :=
  ⟨by simp [internalServerError, statuses], by simp [internalServerError]⟩

theorem fitting_respondListing (folder : Text) (listing : Listing) :
    Fitting headers (respondListing ext folder listing) := by
  rw [respondListing]
  split
  · exact fitting_notFound
  · exact fitting_ok _ _ _

theorem fitting_listFolder (folder : Text) : Fitting headers (listFolder ext store folder) :=
  fitting_respondListing folder (collectListing folder store)

theorem fitting_respondNote (note : Note) : Fitting headers (respondNote ext note headers) := by
  rw [respondNote]
  split
  · rename_i matched
    refine ⟨by simp [statuses], fun _ nothing => ?_⟩
    rw [nothing] at matched
    cases matched
  · split <;> exact fitting_ok _ _ _

theorem fitting_getNotes (path : Text) : Fitting headers (getNotes ext store path headers) := by
  rw [getNotes]
  split
  · exact fitting_badRequest _
  · exact fitting_listFolder _
  · split
    · exact fitting_notFound
    · exact fitting_respondNote _

theorem fitting_getQuery (serialize : QueryResponse → Text) (raw : Option Text) :
    Fitting headers (getQuery ext serialize store raw headers) := by
  rw [getQuery]
  split
  · exact fitting_badRequest _
  · split
    · split
      · exact fitting_ok _ _ _
      · exact fitting_badRequest _
      · exact fitting_internalServerError
    · exact fitting_ok _ _ _

theorem fitting_answer {around : Surroundings} (turnsDown : TurnsDown around.extract) (request : Request) :
    Fitting request.headers (request.answer around store) := by
  cases request with
  | notes tail headers =>
    rw [Request.answer, route]
    split
    · exact fitting_listFolder _
    · split
      · rename_i rejection rejected
        have status := turnsDown _ rejection rejected
        exact ⟨by simp [status, statuses], by simp [status]⟩
      · exact fitting_getNotes _
  | query raw headers => exact fitting_getQuery _ _

end

/-- The conditional requests under a route, by their status and outcome. -/
def conditionalKeys (route : Text) : List Attributes :=
  (statuses.product [notModified, revalidated]).map fun key => ⟨route, key.1, key.2⟩

/-- All the requests under a route and status. -/
def outcomeKeys (route : Text) (status : Nat) : List Attributes :=
  [notModified, revalidated, unconditional].map fun outcome => ⟨route, status, outcome⟩

/-- What can be read off the counters of a route. -/
structure Shares (route : Text) (observed : List Observation) (tel : Telemetry) : Prop where
  unchanged : tel.requests ⟨route, 304, notModified⟩ =
    observed.countP fun seen => seen.route = route ∧ seen.status = 304
  conditional : weigh tel.requests (conditionalKeys route) =
    observed.countP fun seen => seen.route = route ∧ seen.ifNoneMatchPresent = true
  timed : ∀ status, weigh tel.requests (outcomeKeys route status) = (tel.duration (route, status)).length

section

variable {observed : List Observation} {tel : Telemetry}

theorem conditionalKeys_distinct (route : Text) : (conditionalKeys route).Nodup := by
  have distinct : (statuses.product [notModified, revalidated]).Nodup := by decide +kernel
  refine distinct.map fun first second same => ?_
  obtain ⟨-, status, outcome⟩ := Attributes.mk.inj same
  exact Prod.ext status outcome

theorem outcomeKeys_distinct (route : Text) (status : Nat) : (outcomeKeys route status).Nodup := by
  have distinct : [notModified, revalidated, unconditional].Nodup := by decide +kernel
  exact distinct.map fun first second same => (Attributes.mk.inj same).2.2

theorem weigh_requests (accounts : Accounts observed tel) {keys : List Attributes} (distinct : keys.Nodup) :
    weigh tel.requests keys = observed.countP fun seen => seen.attributes ∈ keys := by
  rw [← weigh_countP Observation.attributes distinct, funext accounts.requests]

theorem mem_conditionalKeys {route : Text} {seen : Observation} (known : seen.status ∈ statuses)
    (asked : seen.status = 304 → seen.ifNoneMatchPresent = true) :
    seen.attributes ∈ conditionalKeys route ↔ seen.route = route ∧ seen.ifNoneMatchPresent = true := by
  rw [conditionalKeys, List.mem_map, Observation.attributes]
  constructor
  · rintro ⟨⟨status, outcome⟩, listed, same⟩
    obtain ⟨rfl, rfl, rfl⟩ := Attributes.mk.inj same
    refine ⟨rfl, ?_⟩
    have conditional := (List.pair_mem_product.mp listed).2
    rw [conditionalGet] at conditional
    split at conditional
    · rename_i unchanged
      exact asked unchanged
    · split at conditional
      · assumption
      · exact absurd conditional (by decide)
  · rintro ⟨rfl, present⟩
    refine ⟨(seen.status, conditionalGet seen.status seen.ifNoneMatchPresent),
      List.pair_mem_product.mpr ⟨known, ?_⟩, rfl⟩
    rw [conditionalGet, if_pos present]
    split
    · exact List.mem_cons_self
    · exact List.mem_cons_of_mem _ List.mem_cons_self

theorem mem_outcomeKeys {route : Text} {status : Nat} {seen : Observation} :
    seen.attributes ∈ outcomeKeys route status ↔ (seen.route, seen.status) = (route, status) := by
  have outcome : conditionalGet seen.status seen.ifNoneMatchPresent ∈
      [notModified, revalidated, unconditional] := by
    rw [conditionalGet]
    split
    · exact List.mem_cons_self
    · split
      · exact List.mem_cons_of_mem _ List.mem_cons_self
      · exact List.mem_cons_of_mem _ (List.mem_cons_of_mem _ List.mem_cons_self)
  rw [outcomeKeys, List.mem_map, Observation.attributes]
  constructor
  · rintro ⟨_, -, same⟩
    obtain ⟨rfl, rfl, -⟩ := Attributes.mk.inj same
    rfl
  · intro same
    obtain ⟨rfl, rfl⟩ := Prod.mk.inj same
    exact ⟨_, outcome, rfl⟩

theorem shares (accounts : Accounts observed tel) (route : Text)
    (fitting : ∀ seen ∈ observed, seen.status ∈ statuses ∧
      (seen.status = 304 → seen.ifNoneMatchPresent = true)) : Shares route observed tel where
  unchanged := by
    rw [accounts.requests]
    refine List.countP_congr fun seen _ => ?_
    rw [decide_eq_true_iff, decide_eq_true_iff, Observation.attributes, Attributes.mk.injEq]
    refine and_congr_right fun _ => ⟨And.left, fun status => ⟨status, ?_⟩⟩
    rw [conditionalGet, if_pos status]
  conditional := by
    rw [weigh_requests accounts (conditionalKeys_distinct route)]
    refine List.countP_congr fun seen member => ?_
    rw [decide_eq_true_iff, decide_eq_true_iff]
    exact mem_conditionalKeys (fitting seen member).1 (fitting seen member).2
  timed status := by
    rw [weigh_requests accounts (outcomeKeys_distinct route status), accounts.duration, List.length_map,
      ← List.countP_eq_length_filter]
    refine List.countP_congr fun seen member => ?_
    rw [decide_eq_true_iff, decide_eq_true_iff]
    exact mem_outcomeKeys

end

end Anwesen.Http

namespace Anwesen.Daemon

open Foundation Http

namespace Server

/-- The middleware has observed the answer it has given. -/
structure Delivery.Observed (around : Surroundings) (delivery : Delivery) : Prop where
  route : delivery.observed.route = classifyRoute delivery.request.path
  status : delivery.observed.status = delivery.response.status
  bodyBytes : delivery.observed.bodyBytes = around.bodyBytes delivery.response.body
  conditional : delivery.observed.ifNoneMatchPresent = !delivery.request.headers.ifNoneMatch.isEmpty

/-- The instruments have been given one observation for each answer, and nothing else. -/
structure Observing (around : Surroundings) (slowRequest : Nat) (server : Server) : Prop where
  telemetry : ∃ tel, server.telemetry = some tel ∧ tel.slowRequest = slowRequest ∧
    Accounts (server.delivered.map Delivery.observed) tel
  observed : ∀ delivery ∈ server.delivered, Delivery.Observed around delivery

/-- The server with no export configured. -/
def without (server : Server) : Server := { server with telemetry := none }

section

variable {around : Surroundings} {slowRequest : Nat} {server next : Server} {label : Label}

theorem observing_step (observing : Observing around slowRequest server)
    (taken : step around server label = some next) : Observing around slowRequest next := by
  cases moves_of_step taken with
  | delivers elapsed found outcome =>
    obtain ⟨tel, installed, slow, accounts⟩ := observing.telemetry
    refine ⟨⟨tel.finish _, by rw [installed, Option.map_some], ?_, ?_⟩, ?_⟩
    · rw [slowRequest_finish, slow]
    · rw [List.map_append, List.map_singleton]
      exact accounts_finish accounts _
    · exact List.forall_mem_append.mpr ⟨observing.observed,
        List.forall_mem_singleton.mpr ⟨rfl, rfl, rfl, rfl⟩⟩
  | takes | arrives | asks | advances | returns | replies | responds | panics | disconnects =>
    exact ⟨observing.telemetry, observing.observed⟩

theorem observing_run {labels : List Label} {final : Server}
    (reached : run (step around) (start (some (.init slowRequest))) labels = some final) :
    Observing around slowRequest final := by
  have always : Meets (step around) (fun _ _ => True) (start (some (.init slowRequest))) labels :=
    Meets.of_forall (fun _ _ _ => trivial) _
  refine run_invariant (Observing around slowRequest) ?_ ?_ always reached
  · exact fun _ _ _ observing _ taken => observing_step observing taken
  · exact ⟨⟨_, rfl, rfl, accounts_init slowRequest⟩, List.forall_mem_nil _⟩

theorem replace_without {id : Nat} {change : Flight → Option Flight} (taken : server.replace id change = some next) :
    server.without.replace id change = some next.without := by
  obtain ⟨flight, later, found, changed, rfl⟩ := replace_eq_some.mp taken
  exact replace_eq_some.mpr ⟨flight, later, found, changed, rfl⟩

/-- Nothing but the instruments depends on them. -/
theorem step_without (taken : step around server label = some next) :
    step around server.without label = some next.without := by
  cases label with
  | message message =>
    obtain ⟨locked, moved, rfl⟩ := Option.map_eq_some_iff.mp taken
    exact Option.map_eq_some_iff.mpr ⟨locked, moved, rfl⟩
  | arrive request start traceparent tracestate =>
    obtain rfl := Option.some.inj taken
    rfl
  | ask id =>
    obtain ⟨flight, found, taken⟩ := Option.bind_eq_some_iff.mp taken
    refine Option.bind_eq_some_iff.mpr ⟨flight, found, ?_⟩
    cases phase : flight.phase with
    | spawned =>
      rw [phase] at taken
      cases handler : flight.request.handler around with
      | answers response => simp [handler] at taken
      | asks method respond =>
        rw [handler] at taken
        obtain ⟨locked, moved, rfl⟩ := Option.map_eq_some_iff.mp taken
        exact Option.map_eq_some_iff.mpr ⟨locked, moved, rfl⟩
    | asking | replied | exited | answered => simp [phase] at taken
  | advance thread =>
    obtain ⟨locked, moved, rfl⟩ := Option.map_eq_some_iff.mp taken
    exact Option.map_eq_some_iff.mpr ⟨locked, moved, rfl⟩
  | release thread =>
    cases thread with
    | none =>
      obtain ⟨locked, moved, rfl⟩ := Option.map_eq_some_iff.mp taken
      exact Option.map_eq_some_iff.mpr ⟨locked, moved, rfl⟩
    | some id =>
      obtain ⟨locked, moved, taken⟩ := Option.bind_eq_some_iff.mp taken
      obtain ⟨entry, last, taken⟩ := Option.bind_eq_some_iff.mp taken
      exact Option.bind_eq_some_iff.mpr ⟨locked, moved,
        Option.bind_eq_some_iff.mpr ⟨entry, last, replace_without taken⟩⟩
  | respond id | panic id | disconnect id => exact replace_without taken
  | deliver id elapsed =>
    obtain ⟨flight, found, taken⟩ := Option.bind_eq_some_iff.mp taken
    obtain ⟨response, outcome, rfl⟩ := Option.map_eq_some_iff.mp taken
    exact Option.bind_eq_some_iff.mpr ⟨flight, found, Option.map_eq_some_iff.mpr ⟨response, outcome, rfl⟩⟩

/-- Whatever answers there are, the instruments hold each once; the counters tell how
many requests were conditional and how many of them unchanged; and the same steps give
the same answers without any instruments. -/
theorem instruments_account (turnsDown : TurnsDown around.extract) {labels : List Label} {final : Server}
    (reached : run (step around) (start (some (.init slowRequest))) labels = some final) :
    (∃ tel, final.telemetry = some tel ∧ tel.slowRequest = slowRequest ∧
      Accounts (final.delivered.map Delivery.observed) tel ∧
      ∀ route, Shares route (final.delivered.map Delivery.observed) tel) ∧
    (∀ delivery ∈ final.delivered, Delivery.Observed around delivery) ∧
    run (step around) (start none) labels = some final.without := by
  obtain ⟨⟨tel, installed, slow, accounts⟩, observed⟩ := observing_run reached
  have consistent := consistent_run reached
  refine ⟨⟨tel, installed, slow, accounts, fun route => shares accounts route ?_⟩, observed, ?_⟩
  · refine List.forall_mem_map.mpr fun delivery member => ?_
    have same := observed delivery member
    have fitting : Fitting delivery.request.headers delivery.response := by
      rcases (consistent.delivered delivery member).2 with ⟨failed, -⟩ | ⟨count, -, -, answer⟩
      · exact failed ▸ fitting_internalServerError
      · exact answer ▸ fitting_answer turnsDown delivery.request
    rw [same.status, same.conditional]
    exact ⟨fitting.known, fun unchanged => by simpa using fitting.asked unchanged⟩
  · have simulates : ∀ server label next, step around server label = some next →
        step around server.without label = some next.without := fun _ _ _ => step_without
    exact run_of_simulates simulates reached

end

theorem captureOnce_turnsDown : TurnsDown captureOnce := by
  intro raw rejection rejected
  rw [captureOnce] at rejected
  split at rejected
  · cases rejected
  · cases rejected
    rfl

def watched : Server := (run (step around) (start (some (.init 5))) crossed).get (by decide +kernel)

theorem instruments_account_crossed :
    (∃ tel, watched.telemetry = some tel ∧ tel.slowRequest = 5 ∧
      Accounts (watched.delivered.map Delivery.observed) tel ∧
      ∀ route, Shares route (watched.delivered.map Delivery.observed) tel) ∧
    (∀ delivery ∈ watched.delivered, Delivery.Observed around delivery) ∧
    run (step around) (start none) crossed = some watched.without :=
  instruments_account captureOnce_turnsDown
    (show run (step around) (start (some (.init 5))) crossed = some watched from (Option.some_get _).symm)

end Server

end Anwesen.Daemon

import Anwesen.Foundation.Weighing
import Anwesen.Http.Telemetry

/-! The metrics and spans of completed requests. -/

set_option autoImplicit false

namespace Anwesen.Http

open Foundation Vault

/-- The trace context of a request, as text. -/
structure TraceHeaders where
  traceparent : Option Text
  tracestate : Option Text
  deriving DecidableEq

/-- From the first values of the two headers. -/
def TraceHeaders.fromHeaders (traceparent tracestate : Option Bytes) : TraceHeaders :=
  ⟨traceparent.bind headerStr, tracestate.bind headerStr⟩

/-- Durations are in nanoseconds. -/
def shouldSpan (duration slowRequest status : Nat) : Bool :=
  slowRequest ≤ duration || 500 ≤ status

def notModified : Text := "not_modified".toList

def revalidated : Text := "revalidated".toList

def unconditional : Text := "unconditional".toList

def conditionalGet (status : Nat) (ifNoneMatchPresent : Bool) : Text :=
  if status = 304 then notModified
  else if ifNoneMatchPresent then revalidated
  else unconditional

/-- A completed request, as the middleware hands it on. -/
structure Observation where
  route : Text
  method : Text
  status : Nat
  ifNoneMatchPresent : Bool
  bodyBytes : Nat
  duration : Nat
  start : Nat
  trace : TraceHeaders
  deriving DecidableEq

/-- The attributes of the counters. -/
structure Attributes where
  route : Text
  status : Nat
  conditionalGet : Text
  deriving DecidableEq

def Observation.attributes (seen : Observation) : Attributes :=
  ⟨seen.route, seen.status, conditionalGet seen.status seen.ifNoneMatchPresent⟩

structure Span where
  name : Text
  method : Text
  route : Text
  status : Nat
  startTime : Nat
  endTime : Nat
  /-- What the parent of the span is taken from. -/
  parent : TraceHeaders
  deriving DecidableEq

def Observation.span (seen : Observation) : Span where
  name := seen.method ++ " ".toList ++ seen.route
  method := seen.method
  route := seen.route
  status := seen.status
  startTime := seen.start
  endTime := seen.start + seen.duration
  parent := seen.trace

/-- What the instruments hold: sums by attributes, durations by route and status. -/
structure Telemetry where
  slowRequest : Nat
  requests : Attributes → Nat
  responseBytes : Attributes → Nat
  duration : Text × Nat → List Nat
  spans : List Span

namespace Telemetry

def init (slowRequest : Nat) : Telemetry := ⟨slowRequest, fun _ => 0, fun _ => 0, fun _ => [], []⟩

def recordMetrics (tel : Telemetry) (seen : Observation) : Telemetry :=
  { tel with
    requests := fun attrs => if attrs = seen.attributes then tel.requests attrs + 1 else tel.requests attrs
    responseBytes := fun attrs =>
      if attrs = seen.attributes then tel.responseBytes attrs + seen.bodyBytes else tel.responseBytes attrs
    duration := fun attrs =>
      if attrs = (seen.route, seen.status) then tel.duration attrs ++ [seen.duration] else tel.duration attrs }

def recordSpan (tel : Telemetry) (seen : Observation) : Telemetry :=
  { tel with spans := tel.spans ++ [seen.span] }

def finish (tel : Telemetry) (seen : Observation) : Telemetry :=
  let tel := tel.recordMetrics seen
  if shouldSpan seen.duration tel.slowRequest seen.status then tel.recordSpan seen else tel

end Telemetry

/-- The instruments hold the observed requests, each once, and spans of the slow and
the failed ones. -/
structure Accounts (observed : List Observation) (tel : Telemetry) : Prop where
  requests : ∀ attrs, tel.requests attrs = observed.countP fun seen => seen.attributes = attrs
  responseBytes : ∀ attrs, tel.responseBytes attrs =
    weigh Observation.bodyBytes (observed.filter fun seen => seen.attributes = attrs)
  duration : ∀ attrs, tel.duration attrs =
    (observed.filter fun seen => (seen.route, seen.status) = attrs).map Observation.duration
  spans : tel.spans = (observed.filter fun seen =>
    shouldSpan seen.duration tel.slowRequest seen.status).map Observation.span

section

variable {observed : List Observation} {tel : Telemetry}

theorem accounts_init (slowRequest : Nat) : Accounts [] (.init slowRequest) :=
  ⟨fun _ => rfl, fun _ => rfl, fun _ => rfl, rfl⟩

section

variable (tel) (seen : Observation)

theorem slowRequest_finish : (tel.finish seen).slowRequest = tel.slowRequest := by
  rw [Telemetry.finish]
  split <;> rfl

theorem requests_finish : (tel.finish seen).requests = (tel.recordMetrics seen).requests := by
  rw [Telemetry.finish]
  split <;> rfl

theorem responseBytes_finish : (tel.finish seen).responseBytes = (tel.recordMetrics seen).responseBytes := by
  rw [Telemetry.finish]
  split <;> rfl

theorem duration_finish : (tel.finish seen).duration = (tel.recordMetrics seen).duration := by
  rw [Telemetry.finish]
  split <;> rfl

end

theorem accounts_finish (accounts : Accounts observed tel) (seen : Observation) :
    Accounts (observed ++ [seen]) (tel.finish seen) := by
  constructor
  case requests =>
    intro attrs
    rw [List.countP_append, List.countP_singleton, ← accounts.requests, requests_finish]
    by_cases same : attrs = seen.attributes
    · simp [Telemetry.recordMetrics, same]
    · simp [Telemetry.recordMetrics, same, Ne.symm same]
  case responseBytes =>
    intro attrs
    rw [List.filter_append, weigh_append, ← accounts.responseBytes, responseBytes_finish]
    by_cases same : attrs = seen.attributes
    · simp [Telemetry.recordMetrics, same, weigh]
    · simp [Telemetry.recordMetrics, same, Ne.symm same, weigh]
  case duration =>
    intro attrs
    rw [List.filter_append, List.map_append, ← accounts.duration, duration_finish]
    by_cases same : attrs = (seen.route, seen.status)
    · simp [Telemetry.recordMetrics, same]
    · rw [List.filter_singleton, decide_eq_false (Ne.symm same)]
      simp [Telemetry.recordMetrics, same]
  case spans =>
    rw [List.filter_append, List.map_append, slowRequest_finish, ← accounts.spans, Telemetry.finish]
    by_cases slow : shouldSpan seen.duration tel.slowRequest seen.status <;>
      simp [Telemetry.recordSpan, Telemetry.recordMetrics, slow]

end

end Anwesen.Http

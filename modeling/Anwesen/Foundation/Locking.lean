import Mathlib.Data.List.Nodup
import Anwesen.Foundation.Transition
import Anwesen.Foundation.Weighing

/-! A shared value behind a lock for one writer or many readers.

What a caller does while it holds the lock takes steps of its own, and the steps of
all callers interleave. Each call then looks as if it were made at once, in the
order in which the lock was released.
-/

set_option autoImplicit false

namespace Anwesen.Foundation

/-- What a caller does, step by step, with the value it has locked. -/
inductive Routine (Shared Result : Type) where
  | done (result : Result)
  | step (change : Shared → Shared) (next : Shared → Routine Shared Result)

variable {Shared Result Thread : Type}

namespace Routine

/-- The whole of it, with nothing in between. -/
def exec : Routine Shared Result → Shared → Shared × Result
  | .done result, shared => (shared, result)
  | .step change next, shared => (next shared).exec (change shared)

/-- No step changes the value. -/
def Reads : Routine Shared Result → Prop
  | .done _ => True
  | .step change next => (∀ shared, change shared = shared) ∧ ∀ shared, (next shared).Reads

/-- Look at the value once. -/
def look (result : Shared → Result) : Routine Shared Result := .step id fun shared => .done (result shared)

def map {Other : Type} (convert : Result → Other) : Routine Shared Result → Routine Shared Other
  | .done result => .done (convert result)
  | .step change next => .step change fun shared => (next shared).map convert

/-- One change after the other. -/
def each (changes : List (Shared → Shared)) (next : Routine Shared Result) : Routine Shared Result :=
  changes.foldr (fun change rest => .step change fun _ => rest) next

theorem exec_done (result : Result) (shared : Shared) :
    (done result : Routine Shared Result).exec shared = (shared, result) := rfl

theorem exec_step (change : Shared → Shared) (next : Shared → Routine Shared Result) (shared : Shared) :
    (step change next).exec shared = (next shared).exec (change shared) := rfl

theorem exec_each (changes : List (Shared → Shared)) (next : Routine Shared Result) (shared : Shared) :
    (each changes next).exec shared = next.exec (changes.foldl (fun shared change => change shared) shared) := by
  induction changes generalizing shared with
  | nil => rfl
  | cons change rest ih => exact ih (change shared)

theorem exec_map {Other : Type} (convert : Result → Other) (routine : Routine Shared Result)
    (shared : Shared) :
    (routine.map convert).exec shared = ((routine.exec shared).1, convert (routine.exec shared).2) := by
  induction routine generalizing shared with
  | done result => rfl
  | step change next ih => exact ih shared (change shared)

theorem Reads.map {Other : Type} (convert : Result → Other) {routine : Routine Shared Result}
    (reads : routine.Reads) : (routine.map convert).Reads := by
  induction routine with
  | done result => trivial
  | step change next ih => exact ⟨reads.1, fun shared => ih shared (reads.2 shared)⟩

theorem reads_look (result : Shared → Result) : (look result).Reads := ⟨fun _ => rfl, fun _ => trivial⟩

theorem Reads.exec_fst {routine : Routine Shared Result} (reads : routine.Reads) (shared : Shared) :
    (routine.exec shared).1 = shared := by
  induction routine generalizing shared with
  | done result => rfl
  | step change next ih =>
    rw [exec_step, ih shared (reads.2 shared), reads.1]

/-- How many steps it takes with nothing in between. -/
def length : Routine Shared Result → Shared → Nat
  | .done _, _ => 0
  | .step change next, shared => (next shared).length (change shared) + 1

end Routine

inductive Mode where
  | reading | writing
  deriving DecidableEq

/-- A call takes the lock in its mode; what only reads may share it. -/
structure Call (Shared Result : Type) where
  mode : Mode
  routine : Routine Shared Result
  reads : mode = .reading → routine.Reads

/-- A caller that has the lock, with what it has still to do. -/
structure Holder (Thread Shared Result : Type) where
  thread : Thread
  call : Call Shared Result
  rest : Routine Shared Result

/-- The holder, if it is this thread's, with the rest after its step. -/
def Holder.advanced [DecidableEq Thread] (thread : Thread) (rest : Routine Shared Result)
    (holder : Holder Thread Shared Result) : Holder Thread Shared Result :=
  if holder.thread = thread then { holder with rest } else holder

section

variable [DecidableEq Thread] (thread : Thread) (rest : Routine Shared Result)
  (holder : Holder Thread Shared Result)

@[simp] theorem Holder.advanced_thread : (holder.advanced thread rest).thread = holder.thread := by
  unfold advanced
  split <;> rfl

@[simp] theorem Holder.advanced_call : (holder.advanced thread rest).call = holder.call := by
  unfold advanced
  split <;> rfl

end

structure Returned (Thread Shared Result : Type) where
  thread : Thread
  call : Call Shared Result
  result : Result

structure Locked (Thread Shared Result : Type) where
  shared : Shared
  holders : List (Holder Thread Shared Result)
  log : List (Returned Thread Shared Result)

namespace Locked

inductive Label (Thread Shared Result : Type) where
  | acquire (thread : Thread) (call : Call Shared Result)
  | advance (thread : Thread)
  | release (thread : Thread)

/-- The calls that take the lock for themselves. -/
def Label.write : Label Thread Shared Result → Option (Call Shared Result)
  | .acquire _ call => if call.mode = .writing then some call else none
  | .advance _ | .release _ => none

def start (shared : Shared) : Locked Thread Shared Result := ⟨shared, [], []⟩

/-- Whether the lock can be had in the mode. -/
def Free (locked : Locked Thread Shared Result) : Mode → Prop
  | .reading => ∀ holder ∈ locked.holders, holder.call.mode = .reading
  | .writing => locked.holders = []

instance (locked : Locked Thread Shared Result) (mode : Mode) : Decidable (locked.Free mode) :=
  match mode with
  | .reading => inferInstanceAs (Decidable (∀ holder ∈ locked.holders, holder.call.mode = .reading))
  | .writing => decidable_of_iff (locked.holders.isEmpty = true) List.isEmpty_iff

end Locked

/-- One call after the other, from one value to another, with these results. -/
def Replays : Shared → List (Returned Thread Shared Result) → Shared → Prop
  | first, [], last => first = last
  | first, entry :: rest, last =>
      (entry.call.routine.exec first).2 = entry.result ∧ Replays (entry.call.routine.exec first).1 rest last

theorem replays_append {first last : Shared} {before after : List (Returned Thread Shared Result)} :
    Replays first (before ++ after) last ↔ ∃ middle, Replays first before middle ∧ Replays middle after last := by
  induction before generalizing first with
  | nil => simp [Replays]
  | cons entry rest ih => simp [Replays, ih, and_assoc]

/-- What a sequence of calls leaves is what its writing calls leave. -/
theorem Replays.eq_foldl {first last : Shared} {entries : List (Returned Thread Shared Result)}
    (replays : Replays first entries last) :
    last = ((entries.map Returned.call).filter fun call => call.mode = .writing).foldl
      (fun shared call => (call.routine.exec shared).1) first := by
  induction entries generalizing first with
  | nil => exact replays.symm
  | cons entry rest ih =>
    rw [List.map_cons, List.filter_cons]
    cases mode : entry.call.mode with
    | writing => simpa [mode] using ih replays.2
    | reading =>
      have same := (entry.call.reads mode).exec_fst first
      simpa [mode, same] using ih replays.2

namespace Locked

section

variable {locked : Locked Thread Shared Result}

/-- Each holder is where its call, begun at the value the log leads to, is by now; who
writes is alone, and while nobody writes the value is the one the log leads to. -/
structure Linear (initial : Shared) (locked : Locked Thread Shared Result) (before : Shared) : Prop where
  replays : Replays initial locked.log before
  distinct : (locked.holders.map Holder.thread).Nodup
  alone : ∀ holder ∈ locked.holders, holder.call.mode = .writing → locked.holders = [holder]
  reads : ∀ holder ∈ locked.holders, holder.call.mode = .reading → holder.rest.Reads
  begun : ∀ holder ∈ locked.holders,
    holder.rest.exec locked.shared = holder.call.routine.exec before
  still : (∀ holder ∈ locked.holders, holder.call.mode = .reading) → locked.shared = before

variable {initial before : Shared}

/-- A holder that may share the lock has everybody else reading too. -/
theorem Linear.all_read (linear : Linear initial locked before) {holder : Holder Thread Shared Result}
    (member : holder ∈ locked.holders) (reading : holder.call.mode = .reading) :
    ∀ other ∈ locked.holders, other.call.mode = .reading := by
  intro other listed
  cases mode : other.call.mode with
  | reading => rfl
  | writing =>
    rw [linear.alone other listed mode] at member
    obtain rfl := List.mem_singleton.mp member
    exact mode.symm.trans reading

theorem Linear.eq_of_thread (linear : Linear initial locked before) {holder other : Holder Thread Shared Result}
    (member : holder ∈ locked.holders) (listed : other ∈ locked.holders)
    (same : other.thread = holder.thread) : other = holder :=
  List.inj_on_of_nodup_map linear.distinct listed member same

theorem linear_start (initial : Shared) :
    Linear initial (start initial : Locked Thread Shared Result) initial :=
  ⟨rfl, List.nodup_nil, List.forall_mem_nil _, List.forall_mem_nil _, List.forall_mem_nil _, fun _ => rfl⟩

theorem linear_acquires (linear : Linear initial locked before) {thread : Thread} {call : Call Shared Result}
    (free : locked.Free call.mode) (idle : ∀ holder ∈ locked.holders, holder.thread ≠ thread) :
    Linear initial { locked with holders := locked.holders ++ [⟨thread, call, call.routine⟩] } before := by
  have unheld : call.mode = .writing → locked.holders = [] := by
    intro writing
    rw [Free.eq_def, writing] at free
    exact free
  have others : ∀ holder ∈ locked.holders, holder.call.mode = .reading := by
    intro holder member
    cases mode : call.mode with
    | reading =>
      rw [Free.eq_def, mode] at free
      exact free holder member
    | writing =>
      rw [unheld mode] at member
      cases member
  have shared : locked.shared = before := linear.still others
  constructor
  case replays => exact linear.replays
  case distinct =>
    rw [List.map_append]
    refine List.nodup_append.mpr ⟨linear.distinct, by simp, ?_⟩
    intro other listed own member
    obtain ⟨holder, held, rfl⟩ := List.mem_map.mp listed
    obtain rfl := List.mem_singleton.mp member
    exact idle holder held
  case alone =>
    intro holder member writing
    rcases List.mem_append.mp member with held | fresh
    · rw [others holder held] at writing
      cases writing
    · obtain rfl := List.mem_singleton.mp fresh
      rw [unheld writing]
      rfl
  case reads =>
    exact List.forall_mem_append.mpr ⟨linear.reads, List.forall_mem_singleton.mpr call.reads⟩
  case begun =>
    refine List.forall_mem_append.mpr ⟨linear.begun, List.forall_mem_singleton.mpr ?_⟩
    rw [shared]
  case still => exact fun _ => shared

end

section

variable [DecidableEq Thread]

def step (locked : Locked Thread Shared Result) :
    Label Thread Shared Result → Option (Locked Thread Shared Result)
  | .acquire thread call =>
      -- a thread makes one call at a time
      if locked.Free call.mode ∧ ∀ holder ∈ locked.holders, holder.thread ≠ thread then
        some { locked with holders := locked.holders ++ [⟨thread, call, call.routine⟩] }
      else none
  | .advance thread =>
      match locked.holders.find? fun holder => holder.thread = thread with
      | some ⟨_, _, .step change next⟩ => some { locked with
          shared := change locked.shared
          holders := locked.holders.map (·.advanced thread (next locked.shared)) }
      | _ => none
  | .release thread =>
      match locked.holders.find? fun holder => holder.thread = thread with
      | some ⟨_, call, .done result⟩ => some { locked with
          holders := locked.holders.filter fun holder => holder.thread ≠ thread
          log := locked.log ++ [⟨thread, call, result⟩] }
      | _ => none

/-- The transitions one by one. -/
inductive Moves : Locked Thread Shared Result → Label Thread Shared Result → Locked Thread Shared Result → Prop where
  | acquires {locked : Locked Thread Shared Result} (thread : Thread) (call : Call Shared Result) :
      locked.Free call.mode → (∀ holder ∈ locked.holders, holder.thread ≠ thread) →
      Moves locked (.acquire thread call)
        { locked with holders := locked.holders ++ [⟨thread, call, call.routine⟩] }
  | advances {locked : Locked Thread Shared Result} {holder : Holder Thread Shared Result}
      {change : Shared → Shared} {next : Shared → Routine Shared Result} : holder ∈ locked.holders →
      holder.rest = .step change next → Moves locked (.advance holder.thread)
        { locked with
          shared := change locked.shared
          holders := locked.holders.map (·.advanced holder.thread (next locked.shared)) }
  | releases {locked : Locked Thread Shared Result} {holder : Holder Thread Shared Result} {result : Result} :
      holder ∈ locked.holders → holder.rest = .done result → Moves locked (.release holder.thread)
        { locked with
          holders := locked.holders.filter fun other => other.thread ≠ holder.thread
          log := locked.log ++ [⟨holder.thread, holder.call, result⟩] }

variable {locked next first final : Locked Thread Shared Result} {label : Label Thread Shared Result}
  {labels : List (Label Thread Shared Result)} {initial before : Shared}

theorem moves_of_step (taken : step locked label = some next) : Moves locked label next := by
  cases label with
  | acquire thread call =>
    simp only [step, Option.ite_none_right_eq_some, Option.some.injEq] at taken
    obtain ⟨⟨free, idle⟩, rfl⟩ := taken
    exact .acquires thread call free idle
  | advance thread =>
    simp only [step] at taken
    cases found : locked.holders.find? fun holder => holder.thread = thread with
    | none => simp [found] at taken
    | some holder =>
      obtain ⟨own, call, rest⟩ := holder
      have same : own = thread := by simpa using List.find?_some found
      have member := List.mem_of_find?_eq_some found
      subst same
      rw [found] at taken
      cases rest with
      | done result => cases taken
      | step change following =>
        cases taken
        exact .advances member rfl
  | release thread =>
    simp only [step] at taken
    cases found : locked.holders.find? fun holder => holder.thread = thread with
    | none => simp [found] at taken
    | some holder =>
      obtain ⟨own, call, rest⟩ := holder
      have same : own = thread := by simpa using List.find?_some found
      have member := List.mem_of_find?_eq_some found
      subst same
      rw [found] at taken
      cases rest with
      | done result =>
        cases taken
        exact .releases member rfl
      | step change following => cases taken

theorem release_eq_some {thread : Thread} (taken : step locked (.release thread) = some next) :
    ∃ holder result, holder ∈ locked.holders ∧ holder.thread = thread ∧ holder.rest = .done result ∧
      next = { locked with
        holders := locked.holders.filter fun other => other.thread ≠ thread
        log := locked.log ++ [⟨thread, holder.call, result⟩] } := by
  generalize asked : (Label.release thread : Label Thread Shared Result) = label at taken
  cases moves_of_step taken with
  | acquires | advances => cases asked
  | releases member rest =>
    cases asked
    exact ⟨_, _, member, rfl, rest, rfl⟩

theorem linear_advances (linear : Linear initial locked before) {holder : Holder Thread Shared Result}
    {change : Shared → Shared} {following : Shared → Routine Shared Result} (member : holder ∈ locked.holders)
    (rest : holder.rest = .step change following) :
    Linear initial
      { locked with
        shared := change locked.shared
        holders := locked.holders.map (·.advanced holder.thread (following locked.shared)) }
      before := by
  have begun := linear.begun holder member
  rw [rest, Routine.exec_step] at begun
  cases mode : holder.call.mode with
  | writing =>
    -- the writer is alone, and its call goes on from the changed value
    have alone := linear.alone holder member mode
    simp only [alone, List.map_cons, List.map_nil, Holder.advanced, if_true]
    exact {
      replays := linear.replays
      distinct := by simp
      alone := by simp
      reads := by simp [mode]
      begun := by simpa using begun
      still := by simp [mode] }
  | reading =>
    have reads := linear.reads holder member mode
    rw [rest] at reads
    have all := linear.all_read member mode
    -- the value stays, and with it what all the others have still to read
    rw [reads.1] at begun ⊢
    constructor
    case replays => exact linear.replays
    case distinct =>
      rw [List.map_map]
      simpa [Function.comp_def] using linear.distinct
    case alone =>
      refine List.forall_mem_map.mpr fun other listed writing => ?_
      rw [Holder.advanced_call, all other listed] at writing
      cases writing
    case reads =>
      refine List.forall_mem_map.mpr fun other listed reading => ?_
      by_cases same : other.thread = holder.thread
      · rw [Holder.advanced, if_pos same]
        exact reads.2 locked.shared
      · rw [Holder.advanced, if_neg same] at reading ⊢
        exact linear.reads other listed reading
    case begun =>
      refine List.forall_mem_map.mpr fun other listed => ?_
      by_cases same : other.thread = holder.thread
      · obtain rfl := linear.eq_of_thread member listed same
        rw [Holder.advanced, if_pos rfl]
        exact begun
      · rw [Holder.advanced, if_neg same]
        exact linear.begun other listed
    case still => exact fun _ => linear.still all

/-- What a call returned is what it makes of the value the log led to. -/
theorem linear_releases (linear : Linear initial locked before) {holder : Holder Thread Shared Result}
    {result : Result} (member : holder ∈ locked.holders) (rest : holder.rest = .done result) :
    Linear initial
      { locked with
        holders := locked.holders.filter fun other => other.thread ≠ holder.thread
        log := locked.log ++ [⟨holder.thread, holder.call, result⟩] }
      locked.shared := by
  have begun := linear.begun holder member
  rw [rest, Routine.exec_done] at begun
  have replays : Replays initial (locked.log ++ [⟨holder.thread, holder.call, result⟩]) locked.shared := by
    refine replays_append.mpr ⟨before, linear.replays, ?_, ?_⟩
    · rw [← begun]
    · rw [Replays, ← begun]
  cases mode : holder.call.mode with
  | writing =>
    have alone := linear.alone holder member mode
    have nobody : (locked.holders.filter fun other => other.thread ≠ holder.thread) = [] := by
      simp [alone]
    simp only [nobody]
    exact {
      replays
      distinct := List.nodup_nil
      alone := List.forall_mem_nil _
      reads := List.forall_mem_nil _
      begun := List.forall_mem_nil _
      still := fun _ => rfl }
  | reading =>
    have all := linear.all_read member mode
    have shared := linear.still all
    have part : ∀ other ∈ locked.holders.filter fun other => other.thread ≠ holder.thread,
        other ∈ locked.holders := fun other listed => (List.mem_filter.mp listed).1
    constructor
    case replays => exact replays
    case distinct => exact (List.filter_sublist.map _).nodup linear.distinct
    case alone =>
      intro other listed writing
      rw [all other (part other listed)] at writing
      cases writing
    case reads => exact fun other listed => linear.reads other (part other listed)
    case begun =>
      intro other listed
      rw [linear.begun other (part other listed), shared]
    case still => exact fun _ => rfl

theorem linear_step (linear : Linear initial locked before) (taken : step locked label = some next) :
    ∃ later, Linear initial next later := by
  cases moves_of_step taken with
  | acquires thread call free idle => exact ⟨before, linear_acquires linear free idle⟩
  | advances member rest => exact ⟨before, linear_advances linear member rest⟩
  | releases member rest => exact ⟨_, linear_releases linear member rest⟩

/-- However the callers interleave, their calls returned what they return one after the
other in the order of the log, and between them the value is the one so reached. -/
theorem linear_run (reached : run step (start initial) labels = some final) :
    ∃ before, Linear initial final before := by
  have always : Meets step (fun _ _ => True) (start initial : Locked Thread Shared Result) labels :=
    Meets.of_forall (fun _ _ _ => trivial) _
  refine run_invariant (fun later => ∃ before, Linear initial later before) ?_ ?_ always reached
  · rintro state label next ⟨before, linear⟩ _ taken
    exact linear_step linear taken
  · exact ⟨initial, linear_start initial⟩

/-- The writing calls so far, those that returned and the one under way. -/
def writes (locked : Locked Thread Shared Result) : List (Call Shared Result) :=
  ((locked.log.map Returned.call) ++ locked.holders.map Holder.call).filter fun call => call.mode = .writing

theorem writes_step (linear : Linear initial locked before) (taken : step locked label = some next) :
    next.writes = locked.writes ++ label.write.toList := by
  cases moves_of_step taken with
  | acquires thread call free idle =>
    simp only [writes, Label.write, List.map_append, List.filter_append, List.append_assoc]
    by_cases writing : call.mode = .writing <;> simp [writing]
  | advances member rest =>
    simp [writes, Label.write, List.map_map, Function.comp_def]
  | @releases holder result member rest =>
    simp only [writes, Label.write, Option.toList_none, List.append_nil, List.map_append, List.filter_append]
    cases mode : holder.call.mode with
    | writing => simp [linear.alone holder member mode, mode]
    | reading =>
      have all := linear.all_read member mode
      have unheld : ∀ holders : List (Holder Thread Shared Result), (∀ other ∈ holders, other ∈ locked.holders) →
          (holders.map Holder.call).filter (fun call => call.mode = .writing) = [] := by
        intro holders part
        refine List.filter_eq_nil_iff.mpr (List.forall_mem_map.mpr fun other listed => ?_)
        simp [all other (part other listed)]
      rw [unheld _ fun other listed => (List.mem_filter.mp listed).1, unheld _ fun _ listed => listed]
      simp [mode]

/-- Calls write in the order in which they took the lock. -/
theorem writes_run (linear : Linear initial locked before) (reached : run step locked labels = some final) :
    final.writes = locked.writes ++ labels.filterMap Label.write := by
  induction labels generalizing locked before with
  | nil =>
    cases reached
    simp
  | cons label rest ih =>
    obtain ⟨next, taken, reached⟩ := run_cons.mp reached
    obtain ⟨later, kept⟩ := linear_step linear taken
    rw [ih kept reached, writes_step linear taken, List.append_assoc, List.filterMap_cons]
    cases label.write <;> simp

/-- Who has the lock, for which call. -/
def pending (locked : Locked Thread Shared Result) : List (Thread × Call Shared Result) :=
  locked.holders.map fun holder => (holder.thread, holder.call)

theorem pending_acquire {thread : Thread} {call : Call Shared Result}
    (taken : step locked (.acquire thread call) = some next) :
    next.pending = locked.pending ++ [(thread, call)] ∧ ∀ entry ∈ locked.pending, entry.1 ≠ thread := by
  simp only [step, Option.ite_none_right_eq_some, Option.some.injEq] at taken
  obtain ⟨⟨-, idle⟩, rfl⟩ := taken
  exact ⟨by simp [pending], List.forall_mem_map.mpr idle⟩

theorem pending_advance {thread : Thread} (taken : step locked (.advance thread) = some next) :
    next.pending = locked.pending := by
  generalize asked : (Label.advance thread : Label Thread Shared Result) = label at taken
  cases moves_of_step taken with
  | acquires | releases => cases asked
  | advances => simp [pending, Function.comp_def]

theorem pending_release {thread : Thread} (taken : step locked (.release thread) = some next) :
    next.pending = locked.pending.filter fun entry => entry.1 ≠ thread := by
  obtain ⟨_, _, -, -, -, rfl⟩ := release_eq_some taken
  rw [pending, pending, List.filter_map]
  rfl

/-- The steps of the calls under way. -/
def left (locked : Locked Thread Shared Result) : Nat :=
  weigh (fun holder => holder.rest.length locked.shared + 1) locked.holders

theorem left_acquire {thread : Thread} {call : Call Shared Result}
    (taken : step locked (.acquire thread call) = some next) :
    next.left = locked.left + (call.routine.length locked.shared + 1) := by
  simp only [step, Option.ite_none_right_eq_some, Option.some.injEq] at taken
  obtain ⟨-, rfl⟩ := taken
  simp [left, weigh]

/-- A step of a call under way leaves it fewer steps and the others as many. -/
theorem left_step (linear : Linear initial locked before) {thread : Thread}
    (own : label = .advance thread ∨ label = .release thread) (taken : step locked label = some next) :
    next.left < locked.left := by
  cases moves_of_step taken with
  | acquires => rcases own with same | same <;> cases same
  | @releases holder result member rest =>
    simp only [left, weigh_filter]
    refine weigh_lt member (by simp) fun other listed => ?_
    split <;> omega
  | @advances holder change following member rest =>
    cases mode : holder.call.mode with
    | writing =>
      simp [left, linear.alone holder member mode, weigh, Holder.advanced, rest, Routine.length]
    | reading =>
      have reads := linear.reads holder member mode
      rw [rest] at reads
      simp only [left, weigh_map, reads.1]
      have fewer : (following locked.shared).length locked.shared < holder.rest.length locked.shared := by
        rw [rest, Routine.length, reads.1]
        exact Nat.lt_succ_self _
      refine weigh_lt member (by simpa [Holder.advanced] using fewer) fun other listed => ?_
      by_cases same : other.thread = holder.thread
      · obtain rfl := linear.eq_of_thread member listed same
        simpa [Holder.advanced] using Nat.le_of_lt fewer
      · simp [Holder.advanced, same]

/-- While somebody has the lock somebody can go on. -/
theorem exists_step (held : locked.holders ≠ []) : ∃ thread label next,
    (label = .advance thread ∨ label = .release thread) ∧ step locked label = some next := by
  obtain ⟨holder, others, same⟩ := List.exists_cons_of_ne_nil held
  obtain ⟨thread, call, rest⟩ := holder
  have first : locked.holders.find? (fun holder => holder.thread = thread) = some ⟨thread, call, rest⟩ := by
    simp [same]
  cases rest with
  | done result =>
    have taken : (step locked (.release thread)).isSome = true := by simp [step, first]
    obtain ⟨next, taken⟩ := Option.isSome_iff_exists.mp taken
    exact ⟨thread, .release thread, next, .inr rfl, taken⟩
  | step change following =>
    have taken : (step locked (.advance thread)).isSome = true := by simp [step, first]
    obtain ⟨next, taken⟩ := Option.isSome_iff_exists.mp taken
    exact ⟨thread, .advance thread, next, .inl rfl, taken⟩

end

end Locked

end Anwesen.Foundation

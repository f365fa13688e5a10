import Anwesen.Foundation.Settling

/-! A loop that collects what a channel delivers into rounds of a given width.

The first entry opens a round and sets its deadline; the clock is asked after every
entry, and before the deadline the loop waits for one more. A round over, the loop
hands it on and waits for the next. When the sender is gone it takes what is left.
-/

set_option autoImplicit false

namespace Anwesen.Foundation

variable {Entry Moment : Type}

/-- Where the loop stands. What it has collected carries the time of its receipt. -/
inductive Phase (Entry : Type) where
  | waiting
  | checking (deadline : Nat) (entries : List (Entry × Nat))
  | awaiting (deadline : Nat) (entries : List (Entry × Nat))
  | full (deadline : Nat) (entries : List (Entry × Nat))
  | stopped

/-- A round as it was handed on: when, and at what moment of the surroundings. -/
structure Round (Entry Moment : Type) where
  deadline : Nat
  entries : List (Entry × Nat)
  ended : Nat
  moment : Moment

structure Collector (Entry Moment : Type) where
  now : Nat
  connected : Bool
  channel : List Entry
  phase : Phase Entry
  rounds : List (Round Entry Moment)

namespace Phase

def held : Phase Entry → List (Entry × Nat)
  | .checking _ entries | .awaiting _ entries | .full _ entries => entries
  | .waiting | .stopped => []

/-- The steps to the end of the round, and the one that stops the loop. -/
def left : Phase Entry → Nat
  | .stopped => 0
  | .waiting => 1
  | .full _ _ => 2
  | .awaiting _ _ => 3
  | .checking _ _ => 4

@[simp] theorem held_waiting : held (.waiting : Phase Entry) = [] := rfl

@[simp] theorem held_stopped : held (.stopped : Phase Entry) = [] := rfl

@[simp] theorem held_checking (deadline : Nat) (entries : List (Entry × Nat)) :
    held (.checking deadline entries) = entries := rfl

@[simp] theorem held_awaiting (deadline : Nat) (entries : List (Entry × Nat)) :
    held (.awaiting deadline entries) = entries := rfl

@[simp] theorem held_full (deadline : Nat) (entries : List (Entry × Nat)) :
    held (.full deadline entries) = entries := rfl

end Phase

namespace Collector

inductive Label (Entry Moment : Type) where
  | arrive (entry : Entry)
  | close
  | pass (time : Nat)
  | receive
  | check
  | elapse
  | hangUp
  | handOn (moment : Moment)

namespace Label

/-- What the sender and the clock do, as against the loop itself. -/
def isOwn : Label Entry Moment → Bool
  | .arrive _ | .close | .pass _ => false
  | .receive | .check | .elapse | .hangUp | .handOn _ => true

def arrival : Label Entry Moment → Option Entry
  | .arrive entry => some entry
  | _ => none

theorem arrival_of_own {label : Label Entry Moment} (own : label.isOwn = true) :
    label.arrival = none := by
  cases label with
  | arrive | close | pass => cases own
  | receive | check | elapse | hangUp | handOn => rfl

end Label

variable (width : Nat)

def step (collector : Collector Entry Moment) : Label Entry Moment → Option (Collector Entry Moment)
  | .arrive entry =>
      if collector.connected then some { collector with channel := collector.channel ++ [entry] } else none
  | .close => some { collector with connected := false }
  | .pass time => some { collector with now := collector.now + time }
  | .receive =>
      match collector.phase, collector.channel with
      | .waiting, entry :: rest => some { collector with
          channel := rest
          phase := .checking (collector.now + width) [(entry, collector.now)] }
      | .awaiting deadline entries, entry :: rest => some { collector with
          channel := rest
          phase := .checking deadline (entries ++ [(entry, collector.now)]) }
      | _, _ => none
  | .check =>
      match collector.phase with
      | .checking deadline entries => some { collector with
          phase := if collector.now < deadline then .awaiting deadline entries else .full deadline entries }
      | _ => none
  | .elapse =>
      match collector.phase with
      | .awaiting deadline entries =>
          if collector.now < deadline then none
          else some { collector with phase := .full deadline entries }
      | _ => none
  | .hangUp =>
      -- nothing is left to receive and nobody is left to send
      if collector.connected = false ∧ collector.channel = [] then
        match collector.phase with
        | .waiting => some { collector with phase := .stopped }
        | .awaiting deadline entries => some { collector with phase := .full deadline entries }
        | _ => none
      else none
  | .handOn moment =>
      match collector.phase with
      | .full deadline entries => some { collector with
          phase := .waiting
          rounds := collector.rounds ++ [⟨deadline, entries, collector.now, moment⟩] }
      | _ => none

/-- The transitions one by one. -/
inductive Moves : Collector Entry Moment → Label Entry Moment → Collector Entry Moment → Prop where
  | arrives {collector : Collector Entry Moment} (entry : Entry) : collector.connected = true →
      Moves collector (.arrive entry) { collector with channel := collector.channel ++ [entry] }
  | closes {collector : Collector Entry Moment} :
      Moves collector .close { collector with connected := false }
  | passes {collector : Collector Entry Moment} (time : Nat) :
      Moves collector (.pass time) { collector with now := collector.now + time }
  | opens {collector : Collector Entry Moment} {entry : Entry} {rest : List Entry} :
      collector.phase = .waiting → collector.channel = entry :: rest →
      Moves collector .receive { collector with
        channel := rest
        phase := .checking (collector.now + width) [(entry, collector.now)] }
  | joins {collector : Collector Entry Moment} {entry : Entry} {rest : List Entry} {deadline : Nat}
      {entries : List (Entry × Nat)} : collector.phase = .awaiting deadline entries →
      collector.channel = entry :: rest →
      Moves collector .receive { collector with
        channel := rest
        phase := .checking deadline (entries ++ [(entry, collector.now)]) }
  | goesOn {collector : Collector Entry Moment} {deadline : Nat} {entries : List (Entry × Nat)} :
      collector.phase = .checking deadline entries → collector.now < deadline →
      Moves collector .check { collector with phase := .awaiting deadline entries }
  | fills {collector : Collector Entry Moment} {deadline : Nat} {entries : List (Entry × Nat)} :
      collector.phase = .checking deadline entries → deadline ≤ collector.now →
      Moves collector .check { collector with phase := .full deadline entries }
  | elapses {collector : Collector Entry Moment} {deadline : Nat} {entries : List (Entry × Nat)} :
      collector.phase = .awaiting deadline entries → deadline ≤ collector.now →
      Moves collector .elapse { collector with phase := .full deadline entries }
  | breaksOff {collector : Collector Entry Moment} {deadline : Nat} {entries : List (Entry × Nat)} :
      collector.phase = .awaiting deadline entries → collector.connected = false →
      collector.channel = [] → Moves collector .hangUp { collector with phase := .full deadline entries }
  | stops {collector : Collector Entry Moment} : collector.phase = .waiting →
      collector.connected = false → collector.channel = [] →
      Moves collector .hangUp { collector with phase := .stopped }
  | handsOn {collector : Collector Entry Moment} {deadline : Nat} {entries : List (Entry × Nat)}
      (moment : Moment) : collector.phase = .full deadline entries →
      Moves collector (.handOn moment) { collector with
        phase := .waiting
        rounds := collector.rounds ++ [⟨deadline, entries, collector.now, moment⟩] }

variable {width} {collector next first final : Collector Entry Moment} {label : Label Entry Moment}
  {labels : List (Label Entry Moment)}

theorem moves_of_step (taken : step width collector label = some next) :
    Moves width collector label next := by
  obtain ⟨now, connected, channel, phase, rounds⟩ := collector
  cases label with
  | arrive entry =>
    simp only [step, Option.ite_none_right_eq_some, Option.some.injEq] at taken
    obtain ⟨open_, rfl⟩ := taken
    exact .arrives entry open_
  | close =>
    cases taken
    exact .closes
  | pass time =>
    cases taken
    exact .passes time
  | receive =>
    cases phase with
    | waiting =>
      cases channel with
      | nil => cases taken
      | cons entry rest =>
        cases taken
        exact .opens rfl rfl
    | awaiting deadline entries =>
      cases channel with
      | nil => cases taken
      | cons entry rest =>
        cases taken
        exact .joins rfl rfl
    | checking | full | stopped => cases taken
  | check =>
    cases phase with
    | checking deadline entries =>
      cases taken
      by_cases early : now < deadline
      · rw [if_pos early]
        exact .goesOn rfl early
      · rw [if_neg early]
        exact .fills rfl (Nat.le_of_not_lt early)
    | waiting | awaiting | full | stopped => cases taken
  | elapse =>
    cases phase with
    | awaiting deadline entries =>
      simp only [step, Option.ite_none_left_eq_some, Option.some.injEq] at taken
      obtain ⟨late, rfl⟩ := taken
      exact .elapses rfl (Nat.le_of_not_lt late)
    | waiting | checking | full | stopped => cases taken
  | hangUp =>
    simp only [step, Option.ite_none_right_eq_some] at taken
    obtain ⟨⟨gone, empty⟩, taken⟩ := taken
    cases phase with
    | waiting =>
      cases taken
      exact .stops rfl gone empty
    | awaiting deadline entries =>
      cases taken
      exact .breaksOff rfl gone empty
    | checking | full | stopped => cases taken
  | handOn moment =>
    cases phase with
    | full deadline entries =>
      cases taken
      exact .handsOn moment rfl
    | waiting | checking | awaiting | stopped => cases taken

/-! Nothing is lost, doubled or overtaken. -/

/-- All that was received, in order. -/
def received (collector : Collector Entry Moment) : List (Entry × Nat) :=
  collector.rounds.flatMap Round.entries ++ collector.phase.held

theorem received_step (moves : Moves width collector label next) :
    next.received.map Prod.fst ++ next.channel =
      collector.received.map Prod.fst ++ collector.channel ++ label.arrival.toList := by
  cases moves with
  | arrives entry _ => simp [received, Label.arrival]
  | closes | passes => simp [received, Label.arrival]
  | opens phase channel | joins phase channel => simp [received, Label.arrival, phase, channel]
  | goesOn phase | fills phase | elapses phase | breaksOff phase | stops phase | handsOn _ phase =>
    simp [received, Label.arrival, phase]

theorem received_run (reached : run (step width) first labels = some final) :
    final.received.map Prod.fst ++ final.channel =
      first.received.map Prod.fst ++ first.channel ++ labels.filterMap Label.arrival := by
  induction labels generalizing first with
  | nil =>
    cases reached
    simp
  | cons label rest ih =>
    obtain ⟨next, taken, reached⟩ := run_cons.mp reached
    rw [ih reached, received_step (moves_of_step taken), List.append_assoc, List.filterMap_cons]
    cases label.arrival <;> simp

/-! The rounds in time. -/

/-- The first entry sets the deadline, and only the last one may come after it. -/
structure Fits (width deadline : Nat) (entries : List (Entry × Nat)) : Prop where
  opened : ∃ entry time rest, entries = (entry, time) :: rest ∧ deadline = time + width
  inTime : ∀ entry ∈ entries.dropLast, entry.2 < deadline

theorem Fits.single (entry : Entry) (time : Nat) : Fits width (time + width) [(entry, time)] :=
  ⟨⟨entry, time, [], rfl, rfl⟩, by simp⟩

theorem Fits.joined {deadline : Nat} {entries : List (Entry × Nat)} (fits : Fits width deadline entries)
    (inTime : ∀ entry ∈ entries, entry.2 < deadline) (last : Entry × Nat) :
    Fits width deadline (entries ++ [last]) := by
  obtain ⟨entry, time, rest, rfl, opened⟩ := fits.opened
  refine ⟨⟨entry, time, rest ++ [last], rfl, opened⟩, ?_⟩
  rwa [List.dropLast_concat]

variable (width) in
/-- What the phase says about the round under way. -/
def Standing (collector : Collector Entry Moment) : Phase Entry → Prop
  | .waiting | .stopped => True
  | .checking deadline entries => Fits width deadline entries
  | .awaiting deadline entries => Fits width deadline entries ∧ ∀ entry ∈ entries, entry.2 < deadline
  | .full deadline entries =>
      Fits width deadline entries ∧ (deadline ≤ collector.now ∨ collector.connected = false)

variable (width) in
/-- The rounds so far fit, and each began when the one before it was handed on. -/
structure Timed (collector : Collector Entry Moment) : Prop where
  standing : collector.Standing width collector.phase
  fits : ∀ round ∈ collector.rounds, Fits width round.deadline round.entries
  past : ∀ entry ∈ collector.received, entry.2 ≤ collector.now
  sorted : (collector.received.map Prod.snd).Pairwise (· ≤ ·)
  ended : ∀ round ∈ collector.rounds, round.ended ≤ collector.now ∧
    (round.deadline ≤ round.ended ∨ collector.connected = false)
  after : ∀ round ∈ collector.rounds, ∀ entry ∈ collector.phase.held, round.ended ≤ entry.2
  apart : collector.rounds.Pairwise fun earlier later => ∀ entry ∈ later.entries, earlier.ended ≤ entry.2

theorem Standing.later {later : Collector Entry Moment} {phase : Phase Entry}
    (standing : collector.Standing width phase) (now : collector.now ≤ later.now)
    (connected : collector.connected = false → later.connected = false) :
    later.Standing width phase := by
  cases phase with
  | waiting | stopped => trivial
  | checking | awaiting => exact standing
  | full deadline entries =>
    exact ⟨standing.1, standing.2.imp (fun late => Nat.le_trans late now) connected⟩

/-- Another phase with what was held. -/
theorem Timed.rephased (timed : Timed width collector) {phase : Phase Entry}
    (same : phase.held = collector.phase.held) (standing : collector.Standing width phase) :
    Timed width { collector with phase } := by
  have received : ({ collector with phase } : Collector Entry Moment).received = collector.received := by
    rw [Collector.received, same, Collector.received]
  exact { timed with
    standing := standing.later (Nat.le_refl _) id
    past := received ▸ timed.past
    sorted := received ▸ timed.sorted
    after := same ▸ timed.after }

/-- One more entry, received now. -/
theorem Timed.collected (timed : Timed width collector) {phase : Phase Entry} {entry : Entry}
    (more : phase.held = collector.phase.held ++ [(entry, collector.now)])
    (standing : collector.Standing width phase) (channel : List Entry) :
    Timed width { collector with channel, phase } := by
  have received : ({ collector with channel, phase } : Collector Entry Moment).received =
      collector.received ++ [(entry, collector.now)] := by
    rw [Collector.received, more, Collector.received, List.append_assoc]
  refine { timed with
    standing := standing.later (Nat.le_refl _) id
    past := ?past
    sorted := ?sorted
    after := ?after }
  case past =>
    rw [received]
    refine List.forall_mem_append.mpr ⟨timed.past, ?_⟩
    simp
  case sorted =>
    rw [received, List.map_append]
    refine List.pairwise_append.mpr ⟨timed.sorted, by simp, fun time earlier now member => ?_⟩
    obtain ⟨held, listed, rfl⟩ := List.mem_map.mp earlier
    obtain rfl := List.mem_singleton.mp member
    exact timed.past held listed
  case after =>
    intro round member
    rw [more]
    refine List.forall_mem_append.mpr ⟨timed.after round member, ?_⟩
    simpa using (timed.ended round member).1

/-- The round is over, and the next one has not begun. -/
theorem Timed.handedOn (timed : Timed width collector) {deadline : Nat} {entries : List (Entry × Nat)}
    (phase : collector.phase = .full deadline entries) (moment : Moment) :
    Timed width { collector with
      phase := .waiting
      rounds := collector.rounds ++ [⟨deadline, entries, collector.now, moment⟩] } := by
  have received : ({ collector with
      phase := .waiting
      rounds := collector.rounds ++ [⟨deadline, entries, collector.now, moment⟩] } :
        Collector Entry Moment).received = collector.received := by simp [Collector.received, phase]
  obtain ⟨standing, fits, past, sorted, ended, after, apart⟩ := timed
  rw [phase] at standing after
  exact {
    standing := trivial
    fits := List.forall_mem_append.mpr ⟨fits, List.forall_mem_singleton.mpr standing.1⟩
    past := received ▸ past
    sorted := received ▸ sorted
    ended := List.forall_mem_append.mpr
      ⟨ended, List.forall_mem_singleton.mpr ⟨Nat.le_refl _, standing.2⟩⟩
    after := fun _ _ entry member => by cases member
    apart := List.pairwise_append.mpr ⟨apart, List.pairwise_singleton _ _, fun earlier listed =>
      List.forall_mem_singleton.mpr (after earlier listed)⟩ }

theorem timed_step (timed : Timed width collector) (moves : Moves width collector label next) :
    Timed width next := by
  have held : ∀ entry ∈ collector.phase.held, entry.2 ≤ collector.now := fun entry member =>
    timed.past entry (List.mem_append_right _ member)
  have standing := timed.standing
  cases moves with
  | arrives entry _ => exact { timed with standing := standing.later (Nat.le_refl _) id }
  | closes =>
    exact { timed with
      standing := standing.later (Nat.le_refl _) fun _ => rfl
      ended := fun round member => ⟨(timed.ended round member).1, .inr rfl⟩ }
  | passes time =>
    exact { timed with
      standing := standing.later (Nat.le_add_right _ _) id
      past := fun entry member => Nat.le_trans (timed.past entry member) (Nat.le_add_right _ _)
      ended := fun round member => (timed.ended round member).imp_left fun past =>
        Nat.le_trans past (Nat.le_add_right _ _) }
  | opens phase channel =>
    refine timed.collected (by rw [phase]; rfl) ?_ _
    exact Fits.single _ _
  | joins phase channel =>
    rw [phase] at standing
    refine timed.collected (by rw [phase]; rfl) ?_ _
    exact standing.1.joined standing.2 _
  | goesOn phase early =>
    rw [phase] at standing held
    refine timed.rephased (by rw [phase]; rfl) ?_
    exact ⟨standing, fun entry member => Nat.lt_of_le_of_lt (held entry member) early⟩
  | fills phase late =>
    rw [phase] at standing
    refine timed.rephased (by rw [phase]; rfl) ?_
    exact ⟨standing, .inl late⟩
  | elapses phase late =>
    rw [phase] at standing
    refine timed.rephased (by rw [phase]; rfl) ?_
    exact ⟨standing.1, .inl late⟩
  | breaksOff phase gone empty =>
    rw [phase] at standing
    refine timed.rephased (by rw [phase]; rfl) ?_
    exact ⟨standing.1, .inr gone⟩
  | stops phase gone empty => exact timed.rephased (by rw [phase]; rfl) trivial
  | handsOn moment phase => exact timed.handedOn phase moment

theorem timed_idle {now : Nat} {connected : Bool} {channel : List Entry} :
    Timed width (⟨now, connected, channel, .waiting, []⟩ : Collector Entry Moment) where
  standing := trivial
  fits := List.forall_mem_nil _
  past := List.forall_mem_nil _
  sorted := .nil
  ended := List.forall_mem_nil _
  after := List.forall_mem_nil _
  apart := .nil

/-! The sender gone, the loop takes what is left and stops. -/

/-- A loop that has stopped has left nothing behind. -/
def Emptied (collector : Collector Entry Moment) : Prop :=
  collector.phase = .stopped → collector.connected = false ∧ collector.channel = []

theorem emptied_step (emptied : collector.Emptied) (moves : Moves width collector label next) :
    next.Emptied := by
  intro stopped
  cases moves with
  | arrives entry open_ =>
    obtain ⟨gone, _⟩ := emptied stopped
    rw [open_] at gone
    cases gone
  | closes => exact ⟨rfl, (emptied stopped).2⟩
  | passes => exact emptied stopped
  | stops _ gone empty => exact ⟨gone, empty⟩
  | opens | joins | goesOn | fills | elapses | breaksOff | handsOn => cases stopped

theorem emptied_run (emptied : first.Emptied) (reached : run (step width) first labels = some final) :
    final.Emptied := by
  induction labels generalizing first with
  | nil =>
    cases reached
    exact emptied
  | cons label rest ih =>
    obtain ⟨next, taken, reached⟩ := run_cons.mp reached
    exact ih (emptied_step emptied (moves_of_step taken)) reached

theorem step_of_stopped (stopped : collector.phase = .stopped) (own : label.isOwn = true) :
    step width collector label = none := by
  cases label with
  | arrive | close | pass => cases own
  | receive | check | elapse | hangUp | handOn => simp [step, stopped]

def left (collector : Collector Entry Moment) : Nat :=
  4 * collector.channel.length + collector.phase.left

/-- The loop has a step to take unless it has stopped. -/
theorem lively [Nonempty Moment] (gone : collector.connected = false) (going : collector.phase ≠ .stopped) :
    ∃ label next, Label.isOwn label = true ∧ step width collector label = some next := by
  obtain ⟨now, connected, channel, phase, rounds⟩ := collector
  obtain rfl : connected = false := gone
  cases phase with
  | waiting =>
    cases channel with
    | nil => exact ⟨.hangUp, _, rfl, rfl⟩
    | cons entry rest => exact ⟨.receive, _, rfl, rfl⟩
  | checking deadline entries => exact ⟨.check, _, rfl, rfl⟩
  | awaiting deadline entries =>
    cases channel with
    | nil => exact ⟨.hangUp, _, rfl, rfl⟩
    | cons entry rest => exact ⟨.receive, _, rfl, rfl⟩
  | full deadline entries =>
    obtain ⟨moment⟩ := (inferInstance : Nonempty Moment)
    exact ⟨.handOn moment, _, rfl, rfl⟩
  | stopped => exact absurd rfl going

theorem left_step (own : label.isOwn = true) (moves : Moves width collector label next) :
    next.left < collector.left := by
  cases moves with
  | arrives | closes | passes => cases own
  | opens phase channel | joins phase channel =>
    simp only [left, phase, channel, Phase.left, List.length_cons]
    omega
  | goesOn phase | fills phase | elapses phase | breaksOff phase | stops phase | handsOn _ phase =>
    simp only [left, phase, Phase.left]
    omega

theorem settles [Nonempty Moment] : Settles (step width : Collector Entry Moment → Label Entry Moment → _)
    (fun label => label.isOwn = true) (fun collector => collector.connected = false)
    (fun collector => collector.phase = .stopped) left where
  kept collector label next gone own taken := by
    cases moves_of_step taken with
    | arrives | closes | passes => cases own
    | opens | joins | goesOn | fills | elapses | breaksOff | stops | handsOn => exact gone
  shrinks collector label next gone own taken := left_step own (moves_of_step taken)
  lively collector gone going := lively gone going

end Collector

end Anwesen.Foundation

import Anwesen.Daemon.LeftAlone

/-! The daemon's processes under their supervisor, which starts again what dies.

A process that dies takes its mailbox with it and what it was doing. The store
outlives the writer, which reads nothing when it starts; the scanner walks the whole
vault when it does. A process has its name before its start is over, so what is cast
to it meanwhile waits.
-/

set_option autoImplicit false

namespace Anwesen.Daemon

open Foundation Vault Watcher

/-- The daemon as long as the scanner, and the writer, may be gone: without a scanner a
whole walk is still to begin, without a writer nothing waits for it. -/
def Mailed.attended (mailed : Mailed) (scanning writing : Bool) : Mailed where
  processes :=
    if scanning then mailed.processes else { mailed.processes with walk := none, rescans := 1 }
  mail := if writing then mailed.mail else []
  sent := by split <;> exact mailed.sent

/-- Which of the scanner and the writer are there. The watcher's restarts are steps of
the processes; the server has no part in the store. -/
structure Supervised where
  mailed : Mailed
  scanning : Bool
  writing : Bool
  still : scanning = false → mailed.processes.walk = none ∧ mailed.processes.rescans = 0
  unread : writing = false → mailed.mail = []

namespace Supervised

inductive Label where
  | process (label : Daemon.Label)
  | scannerDies
  | scannerRestarts
  | writerDies
  | writerRestarts

/-- What is cast to a name that no process has is lost. -/
def of (mailed : Mailed) (scanning writing : Bool) : Supervised where
  mailed :=
    { processes :=
        if scanning then mailed.processes else { mailed.processes with walk := none, rescans := 0 }
      mail := if writing then mailed.mail else []
      sent := by split <;> exact mailed.sent }
  scanning
  writing
  still gone := by simp [gone]
  unread gone := by simp [gone]

def starting (fs : Fs) : Supervised := of (.starting fs) true true

def step (ext : External) (root : Location) (tree : Supervised) : Label → Option Supervised
  | .process label =>
      (Mailed.step ext root tree.mailed label).map fun next => of next tree.scanning tree.writing
  -- a death within the first walk ends the start of the daemon itself
  | .scannerDies =>
      if tree.scanning = true ∧ tree.mailed.processes.up = true then
        some (of tree.mailed false tree.writing)
      else none
  -- the walk of the start reads the whole vault
  | .scannerRestarts =>
      if tree.scanning then none
      else
        let processes := { tree.mailed.processes with walk := some .start }
        some (of { tree.mailed with processes, sent := tree.mailed.sent } true tree.writing)
  | .writerDies => if tree.writing then some (of tree.mailed tree.scanning false) else none
  -- nothing is read again for a new writer
  | .writerRestarts => if tree.writing then none else some (of tree.mailed tree.scanning true)

/-- The daemon as it looks to who knows that the scanner comes back. -/
def view (tree : Supervised) : Mailed := tree.mailed.attended tree.scanning tree.writing

/-- What the processes and their supervisor do by themselves. -/
def Own : Label → Prop
  | .process label => Daemon.Own label
  | .scannerRestarts | .writerRestarts => True
  | .scannerDies | .writerDies => False

/-- The most steps that are still to come. -/
def work (root : Location) (tree : Supervised) : Nat :=
  tree.view.bySender.work root + if tree.writing then 0 else 1

/-- Everybody is there, and nothing is outstanding. -/
structure AtRest (tree : Supervised) : Prop where
  scanning : tree.scanning = true
  writing : tree.writing = true
  idle : Idle tree.view.bySender

/-- The steps, as far as the view shows them. -/
inductive Moves (ext : External) (root : Location) (tree later : Supervised) : Label → Prop where
  | processes {label : Daemon.Label} {next : Mailed} :
      Mailed.step ext root tree.view label = some next →
      (tree.scanning = false → next.processes.walk = none ∧ 0 < next.processes.rescans) →
      later.view = next.attended tree.scanning tree.writing →
      later.scanning = tree.scanning → later.writing = tree.writing →
      Moves ext root tree later (.process label)
  | scannerDies : tree.view.processes.up = true →
      later.view = tree.view.attended false tree.writing →
      later.scanning = false → later.writing = tree.writing → Moves ext root tree later .scannerDies
  | scannerRestarts : tree.scanning = false →
      (tree.view.processes.up = true → Mailed.step ext root tree.view .rescanNow = some later.view) →
      later.scanning = true → later.writing = tree.writing →
      Moves ext root tree later .scannerRestarts
  | writerDies : later.view = tree.view.attended tree.scanning false →
      later.scanning = tree.scanning → later.writing = false → Moves ext root tree later .writerDies
  | writerRestarts : tree.writing = false → later.view = tree.view →
      later.scanning = tree.scanning → later.writing = true →
      Moves ext root tree later .writerRestarts

end Supervised

/-- The same daemon with one more rescan due. -/
def Mailed.spare (mailed : Mailed) : Mailed :=
  { mailed with processes := mailed.processes.spare, sent := mailed.sent }

section

variable {ext : External} {root : Location} {mailed next : Mailed} {tree later : Supervised}

/-! The supervised daemon as its view takes it. -/

@[simp] theorem view_of (mailed : Mailed) (scanning writing : Bool) :
    (Supervised.of mailed scanning writing).view = mailed.attended scanning writing := by
  cases scanning <;> cases writing <;> rfl

theorem Supervised.kept_mail (tree : Supervised) :
    (if tree.writing then tree.mailed.mail else []) = tree.mailed.mail := by
  cases there : tree.writing with
  | true => rfl
  | false => exact (tree.unread there).symm

theorem Supervised.view_of_scanning (there : tree.scanning = true) : tree.view = tree.mailed := by
  simp [view, Mailed.attended, there, kept_mail]

theorem Supervised.view_of_gone (gone : tree.scanning = false) : tree.view = tree.mailed.spare := by
  obtain ⟨walk, rescans⟩ := tree.still gone
  simp [view, Mailed.attended, gone, kept_mail, Mailed.spare, State.spare, walk, rescans]

theorem mailed_step_of_moves {label : Label} {state : State} (rebuild : label ≠ .rebuild)
    (batch : label ≠ .batch) (moves : Moves ext root mailed.processes label state) :
    Mailed.step ext root mailed label = some (.ofState state mailed.mail) := by
  have taken := step_of_moves moves
  cases label with
  | rebuild => exact absurd rfl rebuild
  | batch => exact absurd rfl batch
  | change | overflow | window | rescanNow | visit | finish | unwatch | watch =>
    exact Option.map_eq_some_iff.mpr ⟨state, taken, rfl⟩

/-- A rescan more changes nothing about what the processes do. -/
theorem step_mailed_spare {label : Label} (taken : Mailed.step ext root mailed label = some next) :
    Mailed.step ext root mailed.spare label = some next.spare := by
  rcases mailed_cases taken with ⟨cast, rest, waiting, rfl, mail, processes⟩ |
      ⟨rebuild, batch, state, moves, rfl⟩
  · obtain ⟨_, _, _⟩ := next
    obtain rfl : _ = rest := mail
    obtain rfl := processes
    cases cast <;> simp only [Cast.label, Mailed.step, Mailed.spare, waiting] <;> rfl
  · have spared : Moves ext root mailed.spare.processes label state.spare :=
      moves_of_step (step_spare (step_of_moves moves))
    exact mailed_step_of_moves rebuild batch spared

/-- Without a scanner nothing walks, and what is asked of it is lost. -/
theorem step_still {label : Label} (walk : mailed.processes.walk = none)
    (rescans : mailed.processes.rescans = 0) (taken : Mailed.step ext root mailed label = some next) :
    next.processes.walk = none := by
  rcases mailed_cases taken with ⟨_, _, _, _, _, processes⟩ | ⟨_, _, state, moves, rfl⟩
  · rw [processes]
    exact walk
  · cases moves with
    | rescans _ _ due => omega
    | visits walking | finishes walking =>
      rw [walk] at walking
      cases walking
    | changes | loses | takes | rebuilds | batches | unwatches | watches => exact walk

theorem Supervised.moves_of_step {label : Supervised.Label}
    (taken : tree.step ext root label = some later) : Supervised.Moves ext root tree later label := by
  cases label with
  | process label =>
    obtain ⟨next, moved, rfl⟩ := Option.map_eq_some_iff.mp taken
    cases there : tree.scanning with
    | true =>
      have shown : Mailed.step ext root tree.view label = some next := by rwa [view_of_scanning there]
      rw [← there]
      exact .processes shown (by simp [there]) (view_of _ _ _) rfl rfl
    | false =>
      obtain ⟨walk, rescans⟩ := tree.still there
      have still : next.processes.walk = none := step_still walk rescans moved
      have shown : Mailed.step ext root tree.view label = some next.spare := by
        rw [view_of_gone there]
        exact step_mailed_spare moved
      refine .processes shown (fun _ => ⟨still, Nat.succ_pos _⟩) ?_ (by simp [of, there]) rfl
      rw [view_of, there]
      rfl
  | scannerDies =>
    simp only [step, Option.ite_none_right_eq_some, Option.some.injEq] at taken
    obtain ⟨⟨there, up⟩, rfl⟩ := taken
    refine .scannerDies ?_ ?_ rfl rfl
    · rwa [view_of_scanning there]
    · rw [view_of, view_of_scanning there]
  | scannerRestarts =>
    simp only [step, Option.ite_none_left_eq_some, Option.some.injEq, Bool.not_eq_true] at taken
    obtain ⟨gone, rfl⟩ := taken
    refine .scannerRestarts gone (fun up => ?_) rfl rfl
    have walk : tree.mailed.processes.walk = none := (tree.still gone).1
    rw [view_of_gone gone] at up
    have began : Mailed.step ext root tree.mailed.spare .rescanNow = some _ :=
      mailed_step_of_moves (by simp) (by simp) (.rescans up walk (Nat.succ_pos _))
    rw [view_of_gone gone, view_of, began]
    obtain ⟨rebuilds, batches⟩ := tree.mailed.sent
    simp [Mailed.ofState, Mailed.attended, Mailed.spare, State.spare, kept_mail, rebuilds, batches]
  | writerDies =>
    simp only [step, Option.ite_none_right_eq_some, Option.some.injEq] at taken
    obtain ⟨there, rfl⟩ := taken
    refine .writerDies ?_ rfl rfl
    rw [view_of]
    cases scanning : tree.scanning with
    | true => rw [view_of_scanning scanning]
    | false =>
      rw [view_of_gone scanning]
      rfl
  | writerRestarts =>
    simp only [step, Option.ite_none_left_eq_some, Option.some.injEq, Bool.not_eq_true] at taken
    obtain ⟨gone, rfl⟩ := taken
    refine .writerRestarts gone ?_ rfl rfl
    rw [view_of, view]
    simp [Mailed.attended, tree.unread gone]

/-! What any death leaves in order. -/

theorem up_step {label : Label} (up : mailed.processes.up = true)
    (taken : Mailed.step ext root mailed label = some next) : next.processes.up = true := by
  rcases mailed_cases taken with ⟨_, _, _, _, _, processes⟩ | ⟨_, _, state, moves, rfl⟩
  · rw [processes]
    exact up
  · cases moves with
    | finishes => rfl
    | changes | loses | takes | rescans | visits | rebuilds | batches | unwatches | watches => exact up

theorem tidy_attended (tidy : Tidy ext root mailed) (scanning writing : Bool) :
    Tidy ext root (mailed.attended scanning writing) := by
  -- fewer messages and no walk are as well formed, and nothing is ever late
  have unmailed : Tidy ext root (mailed.attended true writing) := by
    cases writing with
    | true => exact tidy
    | false =>
      refine ⟨tidy.tame, tidy.deaf, tidy.placed, tidy.last, tidy.walks, ?_, ?_, tidy.keys, ?_⟩
      · intro notes member
        have waiting : notes ∈ mailed.processes.rebuilds := member
        exact tidy.rebuilds notes (List.mem_append_right _ waiting)
      · intro batch member
        have waiting : batch ∈ mailed.processes.batches := member
        exact tidy.batches batch (List.mem_append_right _ waiting)
      · exact fun place => .inr (.inl (.inr (.inr (.inl (Nat.succ_pos _)))))
  cases scanning with
  | true => exact unmailed
  | false =>
    refine ⟨unmailed.tame, unmailed.deaf, unmailed.placed, unmailed.last, ?_, unmailed.rebuilds,
      unmailed.batches, unmailed.keys, ?_⟩
    · intro walk member
      cases member
    · exact fun place => .inr (.inl (.inr (.inr (.inl (Nat.succ_pos _)))))

theorem alive_attended {scanning writing : Bool} (alive : Alive mailed.bySender)
    (up : scanning = false → mailed.processes.up = true) :
    Alive (mailed.attended scanning writing).bySender := by
  cases scanning with
  | true => exact alive
  | false => exact .inl (up rfl)

namespace Supervised

theorem risen (alive : Alive tree.view.bySender) (gone : tree.scanning = false) :
    tree.view.processes.up = true := by
  refine alive.resolve_right fun walking => ?_
  have still : tree.view.bySender.walk = none := by
    rw [view_of_gone gone]
    exact (tree.still gone).1
  rw [still] at walking
  cases walking

variable (ext root) in
/-- The vault stays a tree of directories and readable notes. -/
def Admissible (tree : Supervised) : Label → Prop
  | .process label => Daemon.Admissible ext root tree.mailed.processes label
  | .scannerDies | .scannerRestarts | .writerDies | .writerRestarts => True

theorem fs_view (tree : Supervised) : tree.view.processes.fs = tree.mailed.processes.fs := by
  cases there : tree.scanning with
  | true => rw [view_of_scanning there]
  | false =>
    rw [view_of_gone there]
    rfl

theorem admissible_view {label : Daemon.Label}
    (admissible : Daemon.Admissible ext root tree.mailed.processes label) :
    Daemon.Admissible ext root tree.view.processes label := by
  cases label with
  | change change =>
    intro fs done
    rw [fs_view] at done
    exact admissible fs done
  | overflow | window | rescanNow | visit | finish | rebuild | batch | unwatch | watch => trivial

variable (ext root) in
/-- What holds in every run, whoever dies. -/
structure Kept (tree : Supervised) : Prop where
  tidy : Tidy ext root tree.view
  alive : Alive tree.view.bySender

theorem Kept.step {label : Label} (kept : Kept ext root tree) (admissible : Admissible ext root tree label)
    (taken : tree.step ext root label = some later) : Kept ext root later := by
  cases moves_of_step taken with
  | processes moved _ shown scanning =>
    have tidy := tidy_step kept.tidy (admissible_view admissible) moved
    have alive := alive_step kept.alive (step_bySender moved)
    exact ⟨shown ▸ tidy_attended tidy _ _,
      shown ▸ alive_attended alive fun gone => up_step (risen kept.alive gone) moved⟩
  | scannerDies up shown =>
    exact ⟨shown ▸ tidy_attended kept.tidy _ _, shown ▸ alive_attended kept.alive fun _ => up⟩
  | scannerRestarts gone began =>
    have moved := began (risen kept.alive gone)
    have free : Daemon.Admissible ext root tree.view.processes .rescanNow := trivial
    exact ⟨tidy_step kept.tidy free moved, alive_step kept.alive (step_bySender moved)⟩
  | writerDies shown =>
    exact ⟨shown ▸ tidy_attended kept.tidy _ _, shown ▸ alive_attended kept.alive (risen kept.alive)⟩
  | writerRestarts _ shown => exact ⟨shown ▸ kept.tidy, shown ▸ kept.alive⟩

/-! What a death can cost. -/

/-- A whole walk is still to begin, or begins. -/
def Fresh (tree : Supervised) : Prop :=
  Pending tree.view.processes ∨ tree.view.processes.walk = some .start

end Supervised

/-- Nothing waits for the writer that a walk would not outdo. -/
def Mailed.Expendable (mailed : Mailed) : Prop :=
  mailed.mail = [] ∨ Pending mailed.processes ∨ mailed.processes.walk.isSome = true

theorem assured_attended {place : Place} {scanning writing : Bool} (assured : Assured ext root mailed place)
    (expendable : scanning = true → writing = false → mailed.Expendable) :
    Assured ext root (mailed.attended scanning writing) place := by
  cases scanning with
  | false => exact .inl (.inr Nat.one_pos)
  | true =>
    cases writing with
    | true => exact assured
    | false =>
      rcases expendable rfl rfl with empty | pending | walking
      · have same : (mailed.attended true false).landed = mailed.landed := by
          rw [Mailed.landed, Mailed.landed, empty]
          rfl
        exact assured.imp_right fun known => ⟨known.1, known.2.imp_left fun right_ => same ▸ right_⟩
      · exact .inl pending
      · exact assured.imp_right fun known => ⟨known.1, .inr (.inl walking)⟩

theorem work_one_rescan {state : State} (walk : state.walk = none) (due : 0 < state.rescans) :
    State.work root { state with walk := none, rescans := 1 } ≤ state.work root := by
  have one : 1 * ((state.fs.under root).length + 1 + 3) ≤
      state.rescans * ((state.fs.under root).length + 1 + 3) := Nat.mul_le_mul_right _ due
  simp only [State.work, walk]
  omega

theorem work_attended (scanning writing : Bool)
    (owing : scanning = false → mailed.processes.walk = none ∧ 0 < mailed.processes.rescans) :
    (mailed.attended scanning writing).bySender.work root ≤ mailed.bySender.work root := by
  have unmailed : (mailed.attended true writing).bySender.work root ≤ mailed.bySender.work root := by
    cases writing with
    | true => exact Nat.le_refl _
    | false =>
      have same : (mailed.attended true false).bySender.work root = mailed.processes.work root := rfl
      rw [same]
      dsimp only [Mailed.bySender, State.behind, State.work]
      rw [List.length_append, List.length_append]
      omega
  cases scanning with
  | true => exact unmailed
  | false =>
    obtain ⟨walk, due⟩ := owing rfl
    have alone : (mailed.attended true writing).bySender.walk = none := walk
    exact Nat.le_trans (work_one_rescan alone due) unmailed

namespace Supervised

variable (ext root) in
/-- Nothing is lost or changes behind the back of what reads it: a walk that is still to
begin, as that of a scanner which comes back, or one under way, makes good for lost casts. -/
def Undisturbed (tree : Supervised) : Label → Prop
  | .process label => Daemon.Undisturbed ext root tree.view label ∧
      (tree.writing = false → ∀ next, Mailed.step ext root tree.view label = some next → next.Expendable)
  | .writerDies => tree.view.Expendable
  | .scannerDies | .scannerRestarts | .writerRestarts => True

theorem undisturbed_of_own {label : Label} (own : Own label) (there : tree.writing = true) :
    Undisturbed ext root tree label := by
  cases label with
  | process label => exact ⟨Daemon.undisturbed_of_own own, fun gone => by simp [there] at gone⟩
  | scannerDies | writerDies => cases own
  | scannerRestarts | writerRestarts => trivial

theorem writing_of_own {label : Label} (own : Own label) (there : tree.writing = true)
    (taken : tree.step ext root label = some later) : later.writing = true := by
  cases moves_of_step taken with
  | processes _ _ _ _ writing | scannerRestarts _ _ _ writing => rw [writing, there]
  | scannerDies | writerDies => cases own
  | writerRestarts _ _ _ writing => exact writing

theorem settling_of_fresh (kept : Kept ext root tree) (fresh : Fresh tree) :
    Settling ext root tree.view where
  tidy := kept.tidy
  alive := kept.alive
  assured place := by
    rcases fresh with pending | begins
    · exact .inl pending
    · refine .inr ⟨fun walk walking => ?_, .inr (.inl (by rw [begins]; rfl))⟩
      obtain rfl : Walk.start = walk := Option.some.inj (begins.symm.trans walking)
      exact Walk.knows_start _

theorem settling_step {label : Label} (settling : Settling ext root tree.view)
    (admissible : Admissible ext root tree label) (undisturbed : Undisturbed ext root tree label)
    (taken : tree.step ext root label = some later) : Settling ext root later.view := by
  obtain ⟨tidy, alive⟩ := Kept.step ⟨settling.tidy, settling.alive⟩ admissible taken
  refine ⟨tidy, alive, fun place => ?_⟩
  cases moves_of_step taken with
  | processes moved _ shown =>
    have next := settling.step (admissible_view admissible) undisturbed.1 moved
    rw [shown]
    exact assured_attended (next.assured place) fun _ gone => undisturbed.2 gone _ moved
  | scannerDies _ shown =>
    rw [shown]
    exact assured_attended (settling.assured place) fun there => by cases there
  | scannerRestarts gone began =>
    have moved := began (risen settling.alive gone)
    have free : Daemon.Undisturbed ext root tree.view .rescanNow := trivial
    exact assured_step settling.tidy settling.assured free moved place
  | writerDies shown =>
    rw [shown]
    exact assured_attended (settling.assured place) fun _ _ => undisturbed
  | writerRestarts _ shown =>
    rw [shown]
    exact settling.assured place

variable (ext root) in
theorem own_step_of_restless (alive : Alive tree.view.bySender) (restless : ¬ AtRest tree) :
    ∃ label later, Own label ∧ tree.step ext root label = some later := by
  cases scanning : tree.scanning with
  | false => exact ⟨.scannerRestarts, _, trivial, if_neg (by simp [scanning])⟩
  | true =>
    cases writing : tree.writing with
    | false => exact ⟨.writerRestarts, _, trivial, if_neg (by simp [writing])⟩
    | true =>
      obtain ⟨label, next, own, moved⟩ := own_step_of_mail ext root alive fun idle =>
        restless ⟨scanning, writing, idle⟩
      rw [view_of_scanning scanning] at moved
      exact ⟨.process label, _, own, Option.map_eq_some_iff.mpr ⟨next, moved, rfl⟩⟩

theorem work_shrinks {label : Label} (alive : Alive tree.view.bySender) (own : Own label)
    (taken : tree.step ext root label = some later) : later.work root < tree.work root := by
  cases moves_of_step taken with
  | processes moved owing shown _ writing =>
    have shrunk := work_step own (step_bySender moved)
    rw [work, work, shown, writing]
    exact Nat.add_lt_add_right (Nat.lt_of_le_of_lt (work_attended _ _ owing) shrunk) _
  | scannerDies | writerDies => cases own
  | scannerRestarts gone began _ writing =>
    have moved := began (risen alive gone)
    have shrunk := work_step (show Daemon.Own .rescanNow from trivial) (step_bySender moved)
    rw [work, work, writing]
    omega
  | writerRestarts gone shown _ writing =>
    simp [work, shown, gone, writing]

variable (ext root) in
instance (tree : Supervised) (label : Label) : Decidable (Admissible ext root tree label) :=
  match label with
  | .process label => inferInstanceAs (Decidable (Daemon.Admissible ext root tree.mailed.processes label))
  | .scannerDies | .scannerRestarts | .writerDies | .writerRestarts => .isTrue trivial

theorem admissible_of_own {label : Label} (own : Own label) : Admissible ext root tree label := by
  cases label with
  | process label => exact Daemon.admissible_of_own own
  | scannerDies | scannerRestarts | writerDies | writerRestarts => trivial

theorem fs_of_own {label : Label} (own : Own label) (taken : tree.step ext root label = some later) :
    later.mailed.processes.fs = tree.mailed.processes.fs := by
  cases label with
  | process label =>
    obtain ⟨next, moved, rfl⟩ := Option.map_eq_some_iff.mp taken
    have kept : next.bySender.fs = tree.mailed.bySender.fs := fs_step own.ne_change (step_bySender moved)
    refine Eq.trans ?_ kept
    simp only [of]
    split <;> rfl
  | scannerDies | writerDies => cases own
  | scannerRestarts | writerRestarts =>
    simp only [step, Option.ite_none_left_eq_some, Option.some.injEq] at taken
    obtain ⟨_, rfl⟩ := taken
    simp only [of]
    split <;> rfl

theorem store_view (tree : Supervised) : tree.view.processes.store = tree.mailed.processes.store := by
  cases there : tree.scanning with
  | true => rw [view_of_scanning there]
  | false =>
    rw [view_of_gone there]
    rfl

theorem kept_starting {fs : Fs} (tame : Tame ext fs root) : Kept ext root (.starting fs) := by
  have settling : Settling ext root (.starting fs) := settling_starting tame
  exact ⟨settling.tidy, settling.alive⟩

end Supervised

end

section

open Supervised

variable (ext : External) (root : Location) {fs : Fs} {before after alone : List Supervised.Label}
  {tree later final : Supervised}

theorem supervised_settles :
    Settles (Supervised.step ext root) Supervised.Own (Kept ext root) AtRest (Supervised.work root) where
  kept _ _ _ kept own taken := kept.step (Supervised.admissible_of_own own) taken
  shrinks _ _ _ kept own taken := work_shrinks kept.alive own taken
  lively _ kept restless := own_step_of_restless ext root kept.alive restless

variable {ext root} in
/-- With the writer there, what the processes and their supervisor do disturbs nothing. -/
theorem settled_of_own (settling : Settling ext root later.view) (there : later.writing = true)
    (mine : ∀ label ∈ alone, Supervised.Own label)
    (ran : run (Supervised.step ext root) later alone = some final) :
    Settling ext root final.view ∧ final.mailed.processes.fs = later.mailed.processes.fs := by
  have meets : Meets (Supervised.step ext root) (fun _ label => Supervised.Own label) later alone :=
    Meets.of_forall (fun _ => mine) _
  have kept : Settling ext root final.view ∧ final.writing = true ∧
      final.mailed.processes.fs = later.mailed.processes.fs := by
    refine run_invariant (fun tree => Settling ext root tree.view ∧ tree.writing = true ∧
      tree.mailed.processes.fs = later.mailed.processes.fs) ?_ ⟨settling, there, rfl⟩ meets ran
    rintro tree label next ⟨settling, there, same⟩ own taken
    exact ⟨settling_step settling (Supervised.admissible_of_own own)
      (Supervised.undisturbed_of_own own there) taken, writing_of_own own there taken,
      (fs_of_own own taken).trans same⟩
  exact ⟨kept.1, kept.2.2⟩

end

/-! Runs over the vault with one note. -/

/-- Its batch waits for the writer when the writer dies. -/
def lostBatch : List Supervised.Label :=
  [.process .visit, .process .visit, .process .visit, .process .finish, .process .rebuild,
    .process .watch, .process (.change (.edit notePlace (plainFile "new"))), .process (.window 1),
    .writerDies, .writerRestarts]

def lostBatchEnd : Supervised :=
  (run (Supervised.step .bare [vaultName]) (.starting oneNote) lostBatch).get (by decide +kernel)

/-- The note changes once more while no scanner is there. -/
def rewritten : List Supervised.Label :=
  [.process (.change (.edit notePlace (plainFile "newer")))]

def scannerGone : Supervised :=
  (run (Supervised.step .bare [vaultName]) lostBatchEnd [.scannerDies]).get (by decide +kernel)

def rewrittenEnd : Supervised :=
  (run (Supervised.step .bare [vaultName]) scannerGone rewritten).get (by decide +kernel)

def rewrittenAlone : List Supervised.Label :=
  [.scannerRestarts, .process .visit, .process (.window 1), .process .visit, .process .visit,
    .process .finish, .process .batch, .process .rebuild]

def rewrittenRest : Supervised :=
  (run (Supervised.step .bare [vaultName]) rewrittenEnd rewrittenAlone).get (by decide +kernel)

theorem no_step_of_rest {ext : External} {root : Location} {tree : Supervised} {label : Supervised.Label}
    (rest : tree.AtRest) (own : Supervised.Own label) : tree.step ext root label = none := by
  cases label with
  | process label =>
    have stuck : Mailed.step ext root tree.mailed label = none := by
      rw [← Supervised.view_of_scanning rest.scanning]
      exact no_mail_step_of_idle rest.idle own
    exact Option.map_eq_none_iff.mpr stuck
  | scannerRestarts => exact if_pos rest.scanning
  | writerRestarts => exact if_pos rest.writing
  | scannerDies | writerDies => cases own

/-- The scanner that comes back reads whatever changed. -/
theorem rewritten_spared : Meets (Supervised.step .bare [vaultName]) (fun tree label =>
    Supervised.Admissible .bare [vaultName] tree label ∧
      Supervised.Undisturbed .bare [vaultName] tree label) scannerGone rewritten :=
  ⟨⟨by decide +kernel, fun _ _ _ => .inl (.inr (by decide +kernel)),
    fun gone => absurd gone (by decide +kernel)⟩, fun _ _ => trivial⟩

/-- Without a walk to come, what the writer had not read when it died stays lost. -/
theorem lost_batch_stays_lost :
    Meets (Supervised.step .bare [vaultName]) (Supervised.Admissible .bare [vaultName])
        (.starting oneNote) lostBatch ∧
      run (Supervised.step .bare [vaultName]) (.starting oneNote) lostBatch = some lostBatchEnd ∧
      lostBatchEnd.AtRest ∧
      (lostBatchEnd.mailed.processes.store.get "D/x.md".toList).map Note.body = some "old".toList ∧
      ((scanned .bare lostBatchEnd.mailed.processes.fs [vaultName]).get "D/x.md".toList).map Note.body =
        some "new".toList :=
  ⟨by decide +kernel, (Option.some_get _).symm,
    ⟨by decide +kernel, by decide +kernel, idle_of_empty (by decide +kernel) (by decide +kernel)⟩,
    by decide +kernel, by decide +kernel⟩

end Anwesen.Daemon

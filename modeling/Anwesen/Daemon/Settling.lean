import Anwesen.Foundation.Settling
import Anwesen.Daemon.Walks

/-! The daemon left alone comes to rest, whichever process moves first.

A queued event may lead to a rescan and a batch, a rescan to a walk over the whole
vault, a walk to a rebuild; nothing the processes do leads to another event.
-/

set_option autoImplicit false

namespace Anwesen.Daemon

open Foundation Vault Watcher

/-- The processes' own steps: nothing happens to the vault, its events or the watcher. -/
def Own : Label → Prop
  | .change _ | .overflow _ | .unwatch => False
  | .window _ | .rescanNow | .visit | .finish | .rebuild | .batch | .watch => True

/-- A process is there to move: the scanner walks, or its first walk is done. -/
def Alive (state : State) : Prop := state.up = true ∨ state.walk.isSome = true

/-- The most visits a walk can still make. -/
def Walk.work (fs : Fs) (root : Location) (walk : Walk) : Nat :=
  (walk.pending.flatMap fun item => fs.whole (root ++ item.1)).length

theorem Walk.work_start (fs : Fs) (root : Location) :
    Walk.work fs root .start = (fs.under root).length + 1 := by
  simp [work, start, FileTree.length_whole]

/-- The most steps the processes can still take. -/
def State.work (root : Location) (state : State) : Nat :=
  let whole := (state.fs.under root).length + 1
  state.queue.length * (whole + 5) + state.rescans * (whole + 3) +
    (state.walk.elim 0 fun walk => walk.work state.fs root + 2) +
    state.rebuilds.length + state.batches.length + if state.watching then 0 else 1

/-- The steps one by one. -/
inductive Moves (ext : External) (root : Location) (state : State) : Label → State → Prop where
  | changes {change : FileChange} {fs : Fs} : change.apply state.fs = some fs →
      Moves ext root state (.change change) { state with
        fs
        queue := if state.watching then state.queue ++ (change.notices root).map some else state.queue }
  | loses {kept : List (Option (Notice FileName))} : state.watching = true →
      kept.Sublist state.queue →
      Moves ext root state (.overflow kept) { state with queue := kept ++ [none] }
  | takes {size : Nat} {result : Bool × Option IndexBatch} : 0 < size → size ≤ state.queue.length →
      result = debounce ext state.fs root.raw (((state.queue.take size).map (eventOf root)).map .ok) →
      Moves ext root state (.window size) { state with
        queue := state.queue.drop size
        rescans := if result.1 then state.rescans + 1 else state.rescans
        batches := state.batches ++ result.2.toList }
  | rescans : state.up = true → state.walk = none → 0 < state.rescans →
      Moves ext root state .rescanNow { state with rescans := state.rescans - 1, walk := some .start }
  | visits {walk further : Walk} : state.walk = some walk → walk.visit ext state.fs root = some further →
      Moves ext root state .visit { state with walk := some further }
  | finishes {notes : List Note} : state.walk = some ⟨[], notes⟩ →
      Moves ext root state .finish { state with
        walk := none, up := true, rebuilds := state.rebuilds ++ [notes] }
  | rebuilds {notes : List Note} {rest : List (List Note)} : state.rebuilds = notes :: rest →
      Moves ext root state .rebuild { state with rebuilds := rest, store := .replace notes }
  | batches {batch : IndexBatch} {rest : List IndexBatch} : state.batches = batch :: rest →
      Moves ext root state .batch { state with
        batches := rest, store := applyIndexBatch state.store batch }
  | unwatches : state.watching = true →
      Moves ext root state .unwatch { state with watching := false, queue := [] }
  | watches : state.up = true → state.watching = false →
      Moves ext root state .watch { state with watching := true }

section

variable {ext : External} {root : Location} {state next : State} {label : Label}

theorem moves_of_step (taken : step ext root state label = some next) : Moves ext root state label next := by
  cases label with
  | change change =>
    obtain ⟨fs, done, rfl⟩ := Option.map_eq_some_iff.mp taken
    exact .changes done
  | overflow kept =>
    simp only [step, Option.ite_none_right_eq_some, Option.some.injEq] at taken
    obtain ⟨⟨watching, part⟩, rfl⟩ := taken
    exact .loses watching part
  | window size =>
    simp only [step, Option.ite_none_right_eq_some, Option.some.injEq] at taken
    obtain ⟨⟨positive, fits⟩, rfl⟩ := taken
    exact .takes positive fits rfl
  | rescanNow =>
    simp only [step, Option.ite_none_right_eq_some, Option.some.injEq] at taken
    obtain ⟨⟨up, alone, due⟩, rfl⟩ := taken
    exact .rescans up (Option.isNone_iff_eq_none.mp alone) due
  | visit =>
    obtain ⟨further, visited, rfl⟩ := Option.map_eq_some_iff.mp taken
    obtain ⟨walk, walking, visited⟩ := Option.bind_eq_some_iff.mp visited
    exact .visits walking visited
  | finish =>
    simp only [step] at taken
    split at taken <;> cases taken
    exact .finishes ‹_›
  | rebuild =>
    simp only [step] at taken
    split at taken <;> cases taken
    exact .rebuilds ‹_›
  | batch =>
    simp only [step] at taken
    split at taken <;> cases taken
    exact .batches ‹_›
  | unwatch =>
    simp only [step, Option.ite_none_right_eq_some, Option.some.injEq] at taken
    obtain ⟨watching, rfl⟩ := taken
    exact .unwatches watching
  | watch =>
    simp only [step, Option.ite_none_right_eq_some, Option.some.injEq] at taken
    obtain ⟨off, rfl⟩ := taken
    simp only [Bool.and_eq_true, Bool.not_eq_true'] at off
    exact .watches off.1 off.2

theorem step_of_moves (moves : Moves ext root state label next) : step ext root state label = some next := by
  cases moves with
  | changes done => exact Option.map_eq_some_iff.mpr ⟨_, done, rfl⟩
  | loses watching part => exact if_pos ⟨watching, part⟩
  | takes positive fits read => exact read ▸ if_pos ⟨positive, fits⟩
  | rescans up alone due => exact if_pos ⟨up, Option.isNone_iff_eq_none.mpr alone, due⟩
  | visits walking visited => simp only [step, walking, Option.bind_some, visited, Option.map_some]
  | finishes walking => simp only [step, walking]
  | rebuilds waiting => simp only [step, waiting]
  | batches waiting => simp only [step, waiting]
  | unwatches watching => exact if_pos watching
  | watches up off => exact if_pos (by simp [up, off])

/-- Listing a directory, or reading a file, leaves less to visit. -/
theorem Walk.work_visit {fs : Fs} {walk next : Walk} (taken : walk.visit ext fs root = some next) :
    next.work fs root < walk.work fs root := by
  obtain ⟨pending, notes⟩ := walk
  cases pending with
  | nil => cases taken
  | cons item rest =>
    obtain ⟨location, directory⟩ := item
    cases directory with
    | false =>
      cases taken
      simp only [work, List.flatMap_cons, List.length_append, FileTree.length_whole]
      omega
    | true =>
      cases taken
      have apart : ((listed fs root location).map fun item => root ++ item.1).Pairwise
          fun first second => ¬ first <+: second ∧ ¬ second <+: first := by
        refine List.pairwise_map.mpr ((listed_apart fs root location).imp fun away => ?_)
        exact ⟨fun above => away.1 ((List.prefix_append_right_inj root).mp above),
          fun above => away.2 ((List.prefix_append_right_inj root).mp above)⟩
      have inside : ∀ path ∈ (listed fs root location).map fun item => root ++ item.1,
          root ++ location <+: path ∧ root ++ location ≠ path ∧ (fs.lookup path).isSome = true := by
        intro path member
        obtain ⟨item, shown_, rfl⟩ := List.mem_map.mp member
        obtain ⟨name, same, _, kind⟩ := mem_listed.mp shown_
        refine ⟨same ▸ (List.prefix_append_right_inj root).mpr (List.prefix_append _ _), ?_, ?_⟩
        · simp [same]
        · rcases kind with ⟨_, found⟩ | ⟨_, _, found⟩ <;> rw [found] <;> rfl
      have children := fs.length_wholes_le apart inside
      rw [List.flatMap_map] at children
      simp only [work, List.flatMap_append, List.flatMap_cons, List.length_append, FileTree.length_whole]
      exact Nat.add_lt_add_right (Nat.lt_succ_of_le children) _

theorem alive_step (alive : Alive state) (taken : step ext root state label = some next) :
    Alive next := by
  cases moves_of_step taken with
  | changes | loses | takes | rebuilds | batches | unwatches | watches => exact alive
  | rescans | visits => exact .inr rfl
  | finishes => exact .inl rfl

/-- Only a change touches the vault. -/
theorem fs_step (change : ∀ one, label ≠ .change one) (taken : step ext root state label = some next) :
    next.fs = state.fs := by
  cases moves_of_step taken with
  | changes => exact absurd rfl (change _)
  | loses | takes | rescans | visits | finishes | rebuilds | batches | unwatches | watches => rfl

theorem Own.ne_change (own : Own label) (change : FileChange) : label ≠ .change change := by
  rintro rfl
  cases own

/-- Every own step leaves less to do. -/
theorem work_step (own : Own label) (taken : step ext root state label = some next) :
    next.work root < state.work root := by
  cases moves_of_step taken with
  | changes | loses | unwatches => cases own
  | @takes size result positive fits =>
    have casts := Option.length_toList_le (o := result.2)
    -- the events that are read pay for a rescan and a batch
    have queue : (state.queue.length - size) * ((state.fs.under root).length + 1 + 5) +
        ((state.fs.under root).length + 1 + 5) ≤
        state.queue.length * ((state.fs.under root).length + 1 + 5) := by
      rw [← Nat.succ_mul]
      exact Nat.mul_le_mul_right _ (by omega)
    simp only [State.work, List.length_drop, List.length_append]
    split
    · rw [Nat.add_mul, Nat.one_mul]
      omega
    · omega
  | rescans _ alone due =>
    have rescans : (state.rescans - 1) * ((state.fs.under root).length + 1 + 3) +
        ((state.fs.under root).length + 1 + 3) =
        state.rescans * ((state.fs.under root).length + 1 + 3) := by
      rw [← Nat.succ_mul]
      congr 1
      omega
    simp only [State.work, alone, Option.elim, Walk.work_start]
    omega
  | visits walking visited =>
    have shrunk := Walk.work_visit visited
    simp only [State.work, walking, Option.elim]
    omega
  | finishes walking =>
    simp only [State.work, walking, Option.elim, List.length_append, List.length_singleton]
    omega
  | rebuilds waiting | batches waiting =>
    simp only [State.work, waiting, List.length_cons]
    omega
  | watches _ off =>
    simp only [State.work, off, if_true, Bool.false_eq_true, if_false]
    omega

variable (ext root) in
/-- While something is outstanding, some process can move. -/
theorem own_step_of_not_idle (alive : Alive state) (restless : ¬ Idle state) :
    ∃ label next, Own label ∧ step ext root state label = some next := by
  cases walking : state.walk with
  | some walk =>
    obtain ⟨pending, notes⟩ := walk
    cases pending with
    | nil => exact ⟨.finish, _, trivial, by simp only [step, walking]; rfl⟩
    | cons item rest =>
      obtain ⟨location, directory⟩ := item
      cases directory <;> exact ⟨.visit, _, trivial, by simp only [step, walking]; rfl⟩
  | none =>
    have up : state.up = true := alive.resolve_right (by simp [walking])
    by_cases watching : state.watching = true
    case neg => exact ⟨.watch, _, trivial, if_pos (by simp [up, watching])⟩
    by_cases queue : state.queue = []
    case neg => exact ⟨.window 1, _, trivial, if_pos ⟨Nat.one_pos, List.length_pos_iff.mpr queue⟩⟩
    by_cases rescans : state.rescans = 0
    case neg => exact ⟨.rescanNow, _, trivial, if_pos ⟨up, by simp [walking], Nat.pos_of_ne_zero rescans⟩⟩
    cases rebuilds : state.rebuilds with
    | cons notes rest => exact ⟨.rebuild, _, trivial, by simp only [step, rebuilds]; rfl⟩
    | nil =>
      cases batches : state.batches with
      | cons batch rest => exact ⟨.batch, _, trivial, by simp only [step, batches]; rfl⟩
      | nil => exact absurd ⟨watching, queue, rescans, walking, rebuilds, batches⟩ restless

theorem no_step_of_idle (idle : Idle state) (own : Own label) : step ext root state label = none := by
  cases label with
  | change | overflow | unwatch => cases own
  | window size =>
    simp only [step, idle.queue, List.length_nil, ite_eq_right_iff]
    omega
  | rescanNow => simp [step, idle.rescans]
  | visit | finish => simp [step, idle.walk]
  | rebuild => simp [step, idle.rebuilds]
  | batch => simp [step, idle.batches]
  | watch => simp [step, idle.watching]

variable (ext root) in
theorem settles : Settles (step ext root) Own Alive Idle (State.work root) where
  kept _ _ _ alive _ taken := alive_step alive taken
  shrinks _ _ _ _ own taken := work_step own taken
  lively _ alive restless := own_step_of_not_idle ext root alive restless

end

/-- Whatever happened since the start: left alone, the daemon rests after a bounded
number of steps in every schedule, and stops nowhere else. -/
theorem comes_to_rest (ext : External) (root : Location) {fs : Fs} {state final : State}
    {labels alone : List Label} (reached : run (step ext root) (starting fs) labels = some state)
    (mine : ∀ label ∈ alone, Own label) (ran : run (step ext root) state alone = some final) :
    alone.length + final.work root ≤ state.work root ∧
      ((∀ label, Own label → step ext root final label = none) ↔ Idle final) ∧
      ∃ rest idle, (∀ label ∈ rest, Own label) ∧ run (step ext root) final rest = some idle ∧
        Idle idle := by
  have always : Meets (step ext root) (fun _ _ => True) (starting fs) labels :=
    Meets.of_forall (fun _ _ _ => trivial) _
  have alive : Alive state := by
    refine run_invariant Alive ?_ (.inr rfl) always reached
    exact fun _ _ _ alive _ taken => alive_step alive taken
  obtain ⟨bound, aliveFinal⟩ := (settles ext root).bounded alive mine ran
  refine ⟨bound, ⟨fun stuck => ?_, fun idle _ own => no_step_of_idle idle own⟩,
    (settles ext root).completes aliveFinal⟩
  exact (settles ext root).rests alive mine ran stuck

/-- The first walk of a vault with one note has listed two directories. -/
def listedTwo : State :=
  (run (step .bare [vaultName]) (starting oneNote) [.visit, .visit]).get (by decide +kernel)

/-- It reads the note and ends, and the watcher starts. -/
def listedTwoEnd : State :=
  (run (step .bare [vaultName]) listedTwo [.visit, .finish, .watch]).get (by decide +kernel)

theorem comes_to_rest_listedTwo :
    [Label.visit, .finish, .watch].length + listedTwoEnd.work [vaultName] ≤
        listedTwo.work [vaultName] ∧
      ((∀ label, Own label → step .bare [vaultName] listedTwoEnd label = none) ↔ Idle listedTwoEnd) ∧
      ∃ rest idle, (∀ label ∈ rest, Own label) ∧
        run (step .bare [vaultName]) listedTwoEnd rest = some idle ∧ Idle idle :=
  comes_to_rest .bare [vaultName]
    (show run (step .bare [vaultName]) (starting oneNote) [.visit, .visit] = some listedTwo from
      (Option.some_get _).symm)
    (by simp [Own]) (Option.some_get _).symm

end Anwesen.Daemon

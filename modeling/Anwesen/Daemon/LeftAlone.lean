import Anwesen.Daemon.Mailbox
import Anwesen.Daemon.Recovery

/-! Where the daemon ends up once nothing happens to the vault any more.

With one mailbox the last message that speaks of a place decides its entry. It is
right in every schedule as long as no file changes behind the back of a walk.
-/

set_option autoImplicit false

namespace Anwesen.Daemon

open Foundation Vault Watcher

/-! What holds however late the casts are handled. -/

/-- The state with one more rescan due, in which nothing is ever late. -/
def State.spare (state : State) : State := { state with rescans := state.rescans + 1 }

/-- The notices, walks and casts are in order, whatever the store holds. -/
def Tidy (ext : External) (root : Location) (mailed : Mailed) : Prop :=
  Consistent ext root mailed.bySender.spare

section

variable {ext : External} {root : Location} {state next : State} {mailed later : Mailed} {label : Label}

theorem step_spare (taken : step ext root state label = some next) :
    step ext root state.spare label = some next.spare := by
  refine step_of_moves ?_
  cases moves_of_step taken with
  | changes done => exact .changes done
  | loses watching part => exact .loses watching part
  | @takes _ result positive fits read =>
    have asked : (if result.1 = true then state.rescans + 1 else state.rescans) + 1 =
        if result.1 = true then state.rescans + 1 + 1 else state.rescans + 1 := by
      split <;> rfl
    simp only [State.spare, asked]
    exact .takes positive fits read
  | rescans up alone due =>
    have one : state.rescans - 1 + 1 = state.rescans + 1 - 1 := by omega
    simp only [State.spare, one]
    exact .rescans up alone (Nat.succ_pos _)
  | visits walking visited => exact .visits walking visited
  | finishes walking => exact .finishes walking
  | rebuilds waiting => exact .rebuilds waiting
  | batches waiting => exact .batches waiting
  | unwatches watching => exact .unwatches watching
  | watches up off => exact .watches up off

theorem timely_spare (label : Label) : Timely ext root state.spare label := by
  cases label with
  | rebuild => exact fun _ _ _ _ => .inr (.inr (.inl (.inr (.inr (.inl (Nat.succ_pos _))))))
  | batch => exact fun _ _ _ _ => .inr (.inr (.inl (.inr (.inr (.inl (Nat.succ_pos _))))))
  | change | overflow | window | rescanNow | visit | finish | unwatch | watch => trivial

theorem heard_spare (label : Label) : Heard ext root state.spare label := by
  cases label with
  | change change => exact .inr fun _ _ _ => .inl (Nat.succ_pos _)
  | unwatch => exact fun _ _ => .inr (.inl (.inr (.inr (.inl (Nat.succ_pos _)))))
  | overflow | window | rescanNow | visit | finish | rebuild | batch | watch => trivial

/-- Whoever sees the step, sender by sender. -/
theorem tidy_of_step (tidy : Tidy ext root mailed) (admissible : Admissible ext root mailed.processes label)
    (taken : step ext root mailed.bySender label = some later.bySender) : Tidy ext root later := by
  refine consistent_step tidy ?_ (timely_spare label) (heard_spare label) (step_spare taken)
  cases label with
  | change change => exact admissible
  | overflow | window | rescanNow | visit | finish | rebuild | batch | unwatch | watch => trivial

theorem tidy_step (tidy : Tidy ext root mailed) (admissible : Admissible ext root mailed.processes label)
    (taken : Mailed.step ext root mailed label = some later) : Tidy ext root later :=
  tidy_of_step tidy admissible (step_bySender taken)

end

/-! The entry a place ends up with. -/

/-- A walk over the whole vault is still to begin. -/
def Pending (state : State) : Prop := none ∈ state.queue ∨ 0 < state.rescans

section

variable (ext : External) (root : Location) (mailed : Mailed)

/-- The walk under way reads what is at the place, and the last message about it is
right, or a message is to come. -/
def Assured (place : Place) : Prop :=
  Pending mailed.processes ∨
    (∀ walk ∈ mailed.processes.walk, walk.Knows ext mailed.processes.fs root place.1) ∧
      (entryAt mailed.landed place = current (load ext) (view mailed.processes.fs root) place.1 ∨
        mailed.processes.walk.isSome = true ∨
        ∃ notice, some notice ∈ mailed.processes.queue ∧ notice.path = place.1)

/-- The queued events are gone with the watcher. -/
def Mailed.deafened : Mailed :=
  { mailed with processes := { mailed.processes with queue := [] }, sent := mailed.sent }

/-- No file changes that a walk has passed or that nothing watches, unless a walk is
still to begin; no event is lost that alone accounts for an entry. -/
def Undisturbed : Label → Prop
  | .change change => ∀ location ∈ below root change.path, Eligible location →
      Pending mailed.processes ∨ (∀ walk ∈ mailed.processes.walk, walk.Ahead location) ∧
        (mailed.processes.watching = true ∨ mailed.processes.walk.isSome = true)
  | .unwatch => ∀ place, Assured ext root mailed.deafened place
  | _ => True

end

section

variable {ext : External} {root : Location}

/-- A window says nothing of a place that no notice of it names, except the truth. -/
theorem window_spares {fs : Fs} (tame : Tame ext fs root) {notices : List (Notice FileName)}
    {location : Location} (placed : ∀ other ∈ notices, Placed fs root other.path)
    (eligible : Eligible location) (unnamed : ∀ notice ∈ notices, notice.path ≠ location)
    (store : NoteStore) :
    held (applyIndexBatch store (batchOf ext fs root notices)) location = held store location ∨
      held (applyIndexBatch store (batchOf ext fs root notices)) location =
        current (load ext) (view fs root) location := by
  have named : Named notices := fun other member => ⟨(placed other member).below, (placed other member).plain⟩
  have laws := window_laws tame named store
  by_cases touched : ∃ notice ∈ notices, notice.Touches location
  · -- a notice names no directory, so nothing stands below its path
    obtain ⟨notice, member, above⟩ := touched
    have empty : current (load ext) (view fs root) location = none := by
      cases now : current (load ext) (view fs root) location with
      | none => rfl
      | some note =>
        obtain ⟨content, leaf⟩ := leaf_of_current now
        rcases FileTree.lookup_above above leaf with same | directory
        · exact absurd same (unnamed notice member)
        · exact absurd directory (placed notice member).other
    cases after : held (applyIndexBatch store (batchOf ext fs root notices)) location with
    | none => exact .inr empty.symm
    | some note =>
      rcases laws.kept location note eligible after with fresh | old
      · rw [empty] at fresh
        cases fresh
      · exact .inl old.symm
  · exact .inl (laws.untouched location eligible fun notice member above =>
      touched ⟨notice, member, above⟩)

variable {mailed later : Mailed} {place : Place}

theorem landed_windowed (rest : List (Option (Notice FileName))) (result : Bool × Option IndexBatch) :
    (Mailed.ofState (mailed.processes.windowed rest result) mailed.mail).landed =
      result.2.elim mailed.landed (applyIndexBatch mailed.landed) := by
  obtain ⟨rebuilds, batches⟩ := mailed.sent
  cases cast : result.2 <;>
    simp [Mailed.landed, Mailed.ofState, rebuilds, batches, cast, Cast.handle, Cast.message, handleCast]

/-- Where nothing was lost and no later notice is queued, a window has the truth about a
place that it names, and spares any other. -/
theorem window_tells (tidy : Tidy ext root mailed) {window rest : List (Option (Notice FileName))}
    (parts : mailed.processes.queue = window ++ rest) (whole : none ∉ window ++ rest) (place : Place)
    (last : ∀ notice, some notice ∈ rest → notice.path ≠ place.1) (store : NoteStore) :
    entryAt (applyIndexBatch store (batchOf ext mailed.processes.fs root (window.filterMap id))) place =
        current (load ext) (view mailed.processes.fs root) place.1 ∨
      (∀ notice, some notice ∈ window → notice.path ≠ place.1) ∧
        entryAt (applyIndexBatch store (batchOf ext mailed.processes.fs root (window.filterMap id))) place =
          entryAt store place := by
  have tame : Tame ext mailed.processes.fs root := tidy.tame
  have placed := placed_of_window tidy parts
  by_cases here : ∃ entry ∈ window, ∃ notice, entry = some notice ∧ notice.path = place.1
  · left
    obtain ⟨before, _, after, around, ⟨notice, rfl, path⟩, final⟩ := last_with _ here
    have alone : ∀ other, some other ∈ after ++ rest → other.path ≠ notice.path := by
      intro other listed same
      rcases List.mem_append.mp listed with inside | outside
      · exact final _ inside ⟨other, rfl, same.trans path⟩
      · exact last other outside (same.trans path)
    have truthful := (tidy.last before notice (after ++ rest) (parts.trans (by simp [around]))
      alone).resolve_right fun lost => whole (by
        rw [around, List.append_assoc, List.cons_append]
        exact List.mem_append_right _ (List.mem_cons_of_mem _ lost))
    rw [entryAt, ← path]
    exact window_carries tame placed
      (show window.filterMap id = before.filterMap id ++ notice :: after.filterMap id by simp [around])
      (path ▸ place.2)
      (fun other listed => alone other (List.mem_append_left _ (by simpa using listed))) truthful _
  · have unnamed : ∀ notice ∈ window.filterMap id, notice.path ≠ place.1 :=
      fun notice member same => here ⟨some notice, by simpa using member, notice, rfl, same⟩
    rcases window_spares tame placed place.2 unnamed store with kept | fresh
    · exact .inr ⟨fun notice member same => here ⟨some notice, member, notice, rfl, same⟩, kept⟩
    · exact .inl fresh

/-- A window over the front of the queue, as the processes and the mailbox see it. -/
theorem assured_window (tidy : Tidy ext root mailed) (assured : Assured ext root mailed place)
    {window rest : List (Option (Notice FileName))} (parts : mailed.processes.queue = window ++ rest)
    {result : Bool × Option IndexBatch}
    (read : result = debounce ext mailed.processes.fs root.raw ((window.map (eventOf root)).map .ok)) :
    Assured ext root (.ofState (mailed.processes.windowed rest result) mailed.mail) place := by
  have tame : Tame ext mailed.processes.fs root := tidy.tame
  obtain ⟨overflow, sent⟩ := debounce_entries ext tame (named_of_window tidy parts)
  rw [← read] at overflow sent
  by_cases soon : Pending (mailed.processes.windowed rest result)
  · exact .inl soon
  -- nothing was lost, so the notices of the place are all there
  have whole : none ∉ window ++ rest ∧ mailed.processes.rescans = 0 := by
    refine ⟨fun lost => soon ((rescans_of_lost overflow lost).imp_left id), ?_⟩
    by_contra due
    refine soon (.inr ?_)
    simp only
    split <;> omega
  obtain ⟨knows, accounted⟩ := assured.resolve_left fun pending => by
    rcases pending with lost | due
    · exact whole.1 (parts ▸ lost)
    · omega
  refine .inr ⟨knows, ?_⟩
  -- the store that comes out is that of the batch, which may be too empty to be cast
  have landed : (Mailed.ofState (mailed.processes.windowed rest result) mailed.mail).landed =
      applyIndexBatch mailed.landed (batchOf ext mailed.processes.fs root (window.filterMap id)) := by
    rw [landed_windowed]
    rcases sent with sent | ⟨sent, same⟩ <;> rw [sent]
    · rfl
    · exact (same _).symm
  by_cases later : ∃ notice, some notice ∈ rest ∧ notice.path = place.1
  · exact .inr (.inr later)
  have last : ∀ notice, some notice ∈ rest → notice.path ≠ place.1 :=
    fun notice listed same => later ⟨notice, listed, same⟩
  rw [landed]
  rcases window_tells tidy parts whole.1 place last mailed.landed with told | ⟨unnamed, kept⟩
  · exact .inl told
  · rcases accounted with right_ | walking | ⟨notice, queued, path⟩
    · exact .inl (kept.trans right_)
    · exact .inr (.inl walking)
    · rcases List.mem_append.mp (parts ▸ queued) with inside | outside
      · exact absurd path (unnamed notice inside)
      · exact absurd path (last notice outside)

theorem assured_change (assured : Assured ext root mailed place) {change : FileChange} {fs : Fs}
    (done : change.apply mailed.processes.fs = some fs)
    (undisturbed : Undisturbed ext root mailed (.change change)) :
    Assured ext root (.ofState (mailed.processes.changed root change fs) mailed.mail) place := by
  have landed : (Mailed.ofState (mailed.processes.changed root change fs) mailed.mail).landed =
      mailed.landed := by
    obtain ⟨rebuilds, batches⟩ := mailed.sent
    simp [Mailed.landed, Mailed.ofState, rebuilds, batches]
  have soon : Pending mailed.processes → Pending (mailed.processes.changed root change fs) :=
    Or.imp_left mem_queue_changed
  by_cases here : root ++ place.1 = change.path
  · have nonempty := nonempty_of_isNote place.2.1
    rcases undisturbed place.1 ((below_iff nonempty).mpr here) place.2 with pending | ⟨ahead, heard⟩
    · exact .inl (soon pending)
    · refine .inr ⟨fun walk walking => .inl (ahead walk walking), .inr ?_⟩
      rcases heard with watching | walking
      · obtain ⟨notice, listed, path⟩ := exists_notice change nonempty here
        exact .inr ⟨notice, by simp [Mailed.ofState, watching, listed], path⟩
      · exact .inl walking
  · have kept : current (load ext) (view fs root) place.1 =
        current (load ext) (view mailed.processes.fs root) place.1 :=
      current_of_lookup (FileChange.lookup_apply done here :
        (view fs root).lookup place.1 = (view mailed.processes.fs root).lookup place.1)
    refine assured.imp soon fun known => ⟨fun walk walking => ?_, ?_⟩
    · exact (known.1 walk walking).imp_right fun read => read.trans kept.symm
    · rcases known.2 with right_ | walking | ⟨notice, queued, path⟩
      · left
        rw [landed]
        exact right_.trans kept.symm
      · exact .inr (.inl walking)
      · have still : some notice ∈ (mailed.processes.changed root change fs).queue :=
          mem_queue_changed queued
        exact .inr (.inr ⟨notice, still, path⟩)

theorem landed_finish (mailed : Mailed) (notes : List Note) :
    (Mailed.ofState { mailed.processes with
      walk := none, up := true, rebuilds := mailed.processes.rebuilds ++ [notes] } mailed.mail).landed =
      .replace notes := by
  obtain ⟨rebuilds, batches⟩ := mailed.sent
  simp only [Mailed.landed, Mailed.ofState, rebuilds, batches, List.nil_append, List.map_cons,
    List.map_nil, List.append_nil, List.foldl_append, List.foldl_cons, List.foldl_nil]
  rfl

/-- A finished walk has read every place, and its rebuild is the last message. -/
theorem assured_finish (assured : Assured ext root mailed place) {notes : List Note}
    (walking : mailed.processes.walk = some ⟨[], notes⟩) :
    Assured ext root (.ofState { mailed.processes with
      walk := none, up := true, rebuilds := mailed.processes.rebuilds ++ [notes] } mailed.mail) place := by
  refine assured.imp_right fun known => ⟨fun _ member => (by cases member), .inl ?_⟩
  have behind : ¬ Walk.Ahead ⟨[], notes⟩ place.1 := by
    rintro ⟨_, pending, _⟩
    cases pending
  have read := (known.1 _ walking).resolve_left behind
  rw [landed_finish]
  exact (NoteStore.get_replace notes _).trans read

theorem assured_step {label : Label} (tidy : Tidy ext root mailed)
    (assured : ∀ place, Assured ext root mailed place)
    (undisturbed : Undisturbed ext root mailed label)
    (taken : Mailed.step ext root mailed label = some later) (place : Place) :
    Assured ext root later place := by
  obtain ⟨rebuilds, batches⟩ := mailed.sent
  have holds := assured place
  rcases mailed_cases taken with ⟨cast, rest, waiting, rfl, mail, processes⟩ | ⟨_, _, next, moves, rfl⟩
  · -- the mailbox had the message and the store has it now
    simpa only [Assured, Pending, Mailed.landed, waiting, mail, processes, List.foldl_cons] using holds
  cases moves with
  | rebuilds waiting => simp [rebuilds] at waiting
  | batches waiting => simp [batches] at waiting
  | changes done => exact assured_change holds done undisturbed
  | loses => exact .inl (.inl (List.mem_append_right _ (List.mem_singleton_self _)))
  | takes _ _ read =>
    exact assured_window tidy holds (List.take_append_drop _ mailed.processes.queue).symm read
  | rescans =>
    refine .inr ⟨fun walk walking => ?_, .inr (.inl rfl)⟩
    obtain rfl := Option.some.inj walking
    exact Walk.knows_start _
  | @visits old _ walking visited =>
    refine holds.imp_right fun known => ⟨fun other member => ?_, .inr (.inl rfl)⟩
    obtain rfl := Option.some.inj member
    exact (tidy.walks old walking).knows_visited tidy.tame visited place.2 (known.1 old walking)
  | finishes walking => exact assured_finish holds walking
  | unwatches =>
    simpa [Assured, Mailed.deafened, Mailed.ofState, Mailed.landed, rebuilds, batches, Pending]
      using undisturbed place
  | watches => simpa [Assured, Mailed.ofState, Mailed.landed, rebuilds, batches, Pending] using holds

/-- What the runs of the daemon keep as long as nothing disturbs its walks. -/
structure Settling (ext : External) (root : Location) (mailed : Mailed) : Prop where
  tidy : Tidy ext root mailed
  alive : Alive mailed.bySender
  assured : ∀ place, Assured ext root mailed place

theorem settling_starting {fs : Fs} (tame : Tame ext fs root) :
    Settling ext root (.starting fs) where
  tidy := by
    have start := consistent_starting ext root tame
    exact { start with sound := fun _ => .inr (.inl (.inr (.inr (.inl (Nat.succ_pos _))))) }
  alive := .inr rfl
  assured place := by
    refine .inr ⟨fun walk walking => ?_, .inr (.inl rfl)⟩
    obtain rfl := Option.some.inj walking
    exact Walk.knows_start _

theorem Settling.step {label : Label} (settling : Settling ext root mailed)
    (admissible : Admissible ext root mailed.processes label)
    (undisturbed : Undisturbed ext root mailed label)
    (taken : Mailed.step ext root mailed label = some later) : Settling ext root later where
  tidy := tidy_step settling.tidy admissible taken
  alive := alive_step settling.alive (step_bySender taken)
  assured := assured_step settling.tidy settling.assured undisturbed taken

theorem mail_of_idle (idle : Idle mailed.bySender) : mailed.mail = [] := by
  refine List.eq_nil_iff_forall_not_mem.mpr fun cast member => ?_
  have rebuilds := List.append_eq_nil_iff.mp idle.rebuilds
  have batches := List.append_eq_nil_iff.mp idle.batches
  cases cast with
  | rebuild notes => cases List.filterMap_eq_nil_iff.mp rebuilds.1 _ member
  | batch window => cases List.filterMap_eq_nil_iff.mp batches.1 _ member

/-- At rest every place has its current note. -/
theorem Settling.eq_scanned (settling : Settling ext root mailed) (idle : Idle mailed.bySender) :
    mailed.processes.store = scanned ext mailed.processes.fs root := by
  refine scanned_of_agree settling.tidy.tame settling.tidy.keys fun location eligible => ?_
  have empty := mail_of_idle idle
  have quiet : ¬ Pending mailed.processes := by
    rintro (lost | due)
    · rw [show mailed.processes.queue = [] from idle.queue] at lost
      cases lost
    · exact absurd idle.rescans (Nat.ne_of_gt due)
  obtain ⟨_, right_ | walking | ⟨notice, queued, _⟩⟩ :=
    (settling.assured ⟨location, eligible⟩).resolve_left quiet
  · rw [Mailed.landed, empty, List.foldl_nil] at right_
    exact right_
  · rw [show mailed.processes.walk = none from idle.walk] at walking
    cases walking
  · rw [show mailed.processes.queue = [] from idle.queue] at queued
    cases queued

theorem undisturbed_of_own {label : Label} (own : Own label) : Undisturbed ext root mailed label := by
  cases label with
  | change | overflow | unwatch => cases own
  | window | rescanNow | visit | finish | rebuild | batch | watch => trivial

theorem admissible_of_own {state : State} {label : Label} (own : Own label) :
    Admissible ext root state label := by
  cases label with
  | change | overflow | unwatch => cases own
  | window | rescanNow | visit | finish | rebuild | batch | watch => trivial

end

section

variable (ext : External) (root : Location) {fs : Fs} {labels alone : List Label} {mailed final : Mailed}

/-- What holds when the vault is left alone. -/
theorem settling_run (tame : Tame ext fs root)
    (allowed : Meets (Mailed.step ext root) (fun mailed label =>
      Admissible ext root mailed.processes label ∧ Undisturbed ext root mailed label)
      (.starting fs) labels)
    (reached : run (Mailed.step ext root) (.starting fs) labels = some mailed) :
    Settling ext root mailed :=
  run_invariant (Settling ext root)
    (fun _ _ _ settling conditions taken => settling.step conditions.1 conditions.2 taken)
    (settling_starting tame) allowed reached

variable {ext root} in
/-- From then on the processes can only settle. -/
theorem Settling.settled (settling : Settling ext root mailed) (mine : ∀ label ∈ alone, Own label)
    (ran : run (Mailed.step ext root) mailed alone = some final)
    (stuck : ∀ label, Own label → Mailed.step ext root final label = none) :
    Settling ext root final ∧ final.processes.fs = mailed.processes.fs ∧ Idle final.bySender := by
  have kept : Settling ext root final ∧ final.processes.fs = mailed.processes.fs := by
    have meets : Meets (Mailed.step ext root) (fun _ label => Own label) mailed alone :=
      Meets.of_forall (fun _ => mine) _
    refine run_invariant (fun later => Settling ext root later ∧
      later.processes.fs = mailed.processes.fs) ?_ ⟨settling, rfl⟩ meets ran
    rintro state label next ⟨settling, same⟩ own taken
    have kept : next.bySender.fs = state.bySender.fs := fs_step own.ne_change (step_bySender taken)
    exact ⟨settling.step (admissible_of_own own) (undisturbed_of_own own) taken, kept.trans same⟩
  exact ⟨kept.1, kept.2, (mailed_settles ext root).rests settling.alive mine ran stuck⟩

end

/-- A change meets a watcher and no walk, and the watcher stays. -/
def Calm (mailed : Mailed) : Label → Prop
  | .change _ => mailed.processes.watching = true ∧ mailed.processes.walk.isNone = true
  | .unwatch => False
  | _ => True

instance (mailed : Mailed) (label : Label) : Decidable (Calm mailed label) :=
  match label with
  | .change _ => inferInstanceAs (Decidable (_ ∧ _))
  | .unwatch => .isFalse id
  | .overflow _ | .window _ | .rescanNow | .visit | .finish | .rebuild | .batch | .watch => .isTrue trivial

theorem Calm.undisturbed {ext : External} {root : Location} {mailed : Mailed} {label : Label}
    (calm : Calm mailed label) : Undisturbed ext root mailed label := by
  cases label with
  | change change =>
    refine fun location _ _ => .inr ⟨fun walk walking => ?_, .inl calm.1⟩
    rw [Option.isNone_iff_eq_none.mp calm.2] at walking
    cases walking
  | unwatch => cases calm
  | overflow | window | rescanNow | visit | finish | rebuild | batch | watch => trivial

/-- The note changes once the daemon is up, and its event is lost. -/
def lostEdit : List Label :=
  [.visit, .visit, .visit, .finish, .rebuild, .watch, .change (.edit notePlace (plainFile "new")),
    .overflow []]

def lostEditEnd : Mailed :=
  (run (Mailed.step .bare [vaultName]) (.starting oneNote) lostEdit).get (by decide +kernel)

/-- The rescan reads it. -/
def lostEditAlone : List Label := [.window 1, .rescanNow, .visit, .visit, .visit, .finish, .rebuild]

def lostEditRest : Mailed :=
  (run (Mailed.step .bare [vaultName]) lostEditEnd lostEditAlone).get (by decide +kernel)

end Anwesen.Daemon

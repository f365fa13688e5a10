import Anwesen.Daemon.Consistency

/-! Whole runs of the daemon: after lost events, and from its start.

A rebuild carries what a walk read over some time, a batch what one window read at
once, and the writer takes both as they come. The store ends up right when no
message outdates an entry behind the back of everything outstanding.
-/

set_option autoImplicit false

namespace Anwesen.Daemon

open Foundation Vault Watcher

section Runs

variable (ext : External) (root : Location)

theorem consistent_synced {fs : Fs} (tame : Tame ext fs root) :
    Consistent ext root (synced ext fs root) where
  tame := tame
  deaf off := by cases off
  placed _ member := by cases member
  last before _ after around := by simp [synced] at around
  walks _ member := by cases member
  rebuilds _ member := by cases member
  batches _ member := by cases member
  keys _ _ found := key_of_scanned tame found
  sound place := .inl (get_scanned tame place.2)

theorem consistent_starting {fs : Fs} (tame : Tame ext fs root) :
    Consistent ext root (starting fs) where
  tame := tame
  deaf _ := rfl
  placed _ member := by cases member
  last before _ after around := by simp [starting] at around
  walks walk member := by
    cases member
    exact Walk.orderly_start tame
  rebuilds _ member := by cases member
  batches _ member := by cases member
  keys path note found := by simp [starting] at found
  -- the first walk has the whole vault ahead of it
  sound place := .inr (.inl (.inr (.inr (.inr ⟨.start, rfl, Walk.knows_start _⟩))))

/-- The watcher is not restarted. -/
def Steady : Label → Prop
  | .unwatch => False
  | _ => True

theorem watching_step {state next : State} {label : Label} (steady : Steady label)
    (watching : state.watching = true) (taken : step ext root state label = some next) :
    next.watching = true := by
  cases label with
  | change change =>
    obtain ⟨fs, _, rfl⟩ := Option.map_eq_some_iff.mp taken
    exact watching
  | overflow kept | window size | rescanNow =>
    simp only [step, Option.ite_none_right_eq_some, Option.some.injEq] at taken
    obtain ⟨_, rfl⟩ := taken
    exact watching
  | visit =>
    obtain ⟨walk, _, rfl⟩ := Option.map_eq_some_iff.mp taken
    exact watching
  | finish | rebuild | batch =>
    simp only [step] at taken
    split at taken <;> cases taken
    exact watching
  | unwatch => cases steady
  | watch =>
    simp only [step, Option.ite_none_right_eq_some, Option.some.injEq] at taken
    obtain ⟨_, rfl⟩ := taken
    rfl

/-- Every interleaving of changes, overflows, windows, walks and handled messages ends,
once nothing is outstanding, with the store of a full scan, if its messages are timely. -/
theorem recovered_eq_rescan {fs : Fs} (tame : Tame ext fs root) {labels : List Label} {final : State}
    (allowed : Meets (step ext root) (fun state label =>
      Admissible ext root state label ∧ Steady label ∧ Timely ext root state label)
      (synced ext fs root) labels)
    (reached : run (step ext root) (synced ext fs root) labels = some final) (idle : Idle final) :
    final.store = scanned ext final.fs root := by
  have invariant : Consistent ext root final ∧ final.watching = true := by
    refine run_invariant (fun state => Consistent ext root state ∧ state.watching = true)
      ?_ ⟨consistent_synced ext root tame, rfl⟩ allowed reached
    rintro state label next ⟨consistent, watching⟩ ⟨admissible, steady, timely⟩ taken
    -- a watch that never ends hears every change
    have heard : Heard ext root state label := by
      cases label with
      | change change => exact .inl watching
      | unwatch => cases steady
      | overflow | window | rescanNow | visit | finish | rebuild | batch | watch => trivial
    exact ⟨consistent_step consistent admissible timely heard taken,
      watching_step ext root steady watching taken⟩
  exact invariant.1.eq_scanned idle

/-- From the start of the processes, and through restarts of the watcher, the same holds
if no change goes unheard. -/
theorem started_eq_rescan {fs : Fs} (tame : Tame ext fs root) {labels : List Label} {final : State}
    (allowed : Meets (step ext root) (fun state label =>
      Admissible ext root state label ∧ Heard ext root state label ∧ Timely ext root state label)
      (starting fs) labels)
    (reached : run (step ext root) (starting fs) labels = some final) (idle : Idle final) :
    final.store = scanned ext final.fs root := by
  have consistent : Consistent ext root final :=
    run_invariant (Consistent ext root) (fun _ _ _ consistent conditions taken =>
      consistent_step consistent conditions.1 conditions.2.2 conditions.2.1 taken)
      (consistent_starting ext root tame) allowed reached
  exact consistent.eq_scanned idle

/-! Conditions that a look at one state decides. -/

/-- What there is in a note besides its frontmatter. -/
def bareParts (note : Note) : (Text × Text × Bytes) × (Instant × Text × Nat) :=
  ((note.path, note.body, note.rawBytes), note.lastModified, note.etag, note.size)

/-- The same notes, all without frontmatter. -/
def AlikeBare (first second : List Note) : Prop :=
  first.map bareParts = second.map bareParts ∧ ∀ note ∈ first ++ second, note.frontmatter.isEmpty = true

instance (first second : List Note) : Decidable (AlikeBare first second) :=
  inferInstanceAs (Decidable (first.map bareParts = second.map bareParts ∧
    ∀ note ∈ first ++ second, note.frontmatter.isEmpty = true))

theorem eq_of_bareParts {note other : Note} (same : bareParts note = bareParts other)
    (bare : note.frontmatter.isEmpty = true) (bare' : other.frontmatter.isEmpty = true) : note = other := by
  have frontmatter : note.frontmatter = other.frontmatter :=
    (Std.ExtTreeMap.isEmpty_iff.mp bare).trans (Std.ExtTreeMap.isEmpty_iff.mp bare').symm
  cases note
  cases other
  simp only [bareParts, Prod.mk.injEq] at same
  obtain ⟨⟨rfl, rfl, rfl⟩, rfl, rfl, rfl⟩ := same
  obtain rfl := frontmatter
  rfl

theorem AlikeBare.eq {first second : List Note} (alike : AlikeBare first second) : first = second := by
  obtain ⟨same, bare⟩ := alike
  induction first generalizing second with
  | nil => exact (List.map_eq_nil_iff.mp same.symm).symm
  | cons note rest ih =>
    cases second with
    | nil => cases same
    | cons other others =>
      obtain ⟨here, there⟩ := List.cons.inj same
      have tail : rest = others := ih there fun listed member =>
        bare listed (by rcases List.mem_append.mp member with inside | inside <;> simp [inside])
      rw [tail, eq_of_bareParts here (bare note (by simp)) (bare other (by simp))]

/-- A rescan is still to come, or the rebuild is what a scan finds now. -/
def Foreseen (state : State) : Label → Prop
  | .rebuild => none ∈ state.queue ∨ 0 < state.rescans ∨
      (Tame ext state.fs root ∧
        AlikeBare (state.rebuilds.headD []) (scan ext state.fs root.raw).notes)
  | .batch => none ∈ state.queue ∨ 0 < state.rescans
  | _ => True

/-- Like `Heard`, with nothing queued when the watch ends. -/
def Foreheard : State → Label → Prop
  | state, .change change => state.watching = true ∨ ∀ location ∈ below root change.path,
      0 < state.rescans ∨ ∃ walk ∈ state.walk, walk.Ahead location
  | state, .unwatch => state.queue = []
  | _, _ => True

instance (state : State) (label : Label) : Decidable (Foreseen ext root state label) :=
  match label with
  | .rebuild => inferInstanceAs (Decidable (_ ∨ _ ∨ (_ ∧ _)))
  | .batch => inferInstanceAs (Decidable (_ ∨ _))
  | .change _ | .overflow _ | .window _ | .rescanNow | .visit | .finish | .unwatch
  | .watch => .isTrue trivial

instance (state : State) (label : Label) : Decidable (Foreheard root state label) :=
  match label with
  | .change change => inferInstanceAs (Decidable (_ ∨ ∀ location ∈ below root change.path, _))
  | .unwatch => inferInstanceAs (Decidable (_ = _))
  | .overflow _ | .window _ | .rescanNow | .visit | .finish | .rebuild | .batch
  | .watch => .isTrue trivial

instance (label : Label) : Decidable (Steady label) :=
  match label with
  | .unwatch => .isFalse id
  | .change _ | .overflow _ | .window _ | .rescanNow | .visit | .finish | .rebuild | .batch
  | .watch => .isTrue trivial

instance (state : State) (label : Label) : Decidable (Admissible ext root state label) :=
  match label with
  | .change change =>
      match done : change.apply state.fs with
      | none => .isTrue (by simp [Admissible, done])
      | some fs => decidable_of_iff (Tame ext fs root) (by simp [Admissible, done])
  | .overflow _ | .window _ | .rescanNow | .visit | .finish | .rebuild | .batch | .unwatch
  | .watch => .isTrue trivial

variable {ext root}

theorem Foreseen.timely {state : State} {label : Label} (foreseen : Foreseen ext root state label) :
    Timely ext root state label := by
  cases label with
  | rebuild =>
    intro notes rest waiting place
    rcases foreseen with lost | rescan | ⟨tame, alike⟩
    · exact .inr (.inr (.inl (.inr (.inl lost))))
    · exact .inr (.inr (.inl (.inr (.inr (.inl rescan)))))
    · left
      have same := alike.eq
      rw [waiting, List.headD_cons] at same
      subst same
      exact get_scanned tame place.2
  | batch =>
    intro batch rest _ place
    exact .inr (.inr (.inl (.inr (foreseen.imp_right .inl))))
  | change | overflow | window | rescanNow | visit | finish | unwatch | watch => trivial

variable (ext) in
theorem Foreheard.heard {state : State} {label : Label} (foreheard : Foreheard root state label) :
    Heard ext root state label := by
  cases label with
  | change change => exact foreheard.imp_right fun soon location member _ => soon location member
  | unwatch =>
    rintro place (⟨notice, member, _⟩ | lost)
    · rw [show state.queue = [] from foreheard] at member
      cases member
    · rw [show state.queue = [] from foreheard] at lost
      cases lost
  | overflow | window | rescanNow | visit | finish | rebuild | batch | watch => trivial

/-! Runs over the vault with one note. -/

def notePlace : Location := [vaultName, folderName, noteName]

theorem idle_of_empty {state : State} (watching : state.watching = true)
    (empty : state.queue.isEmpty && state.rescans == 0 && state.walk.isNone &&
      state.rebuilds.isEmpty && state.batches.isEmpty) : Idle state := by
  simp only [Bool.and_eq_true, List.isEmpty_iff, beq_iff_eq, Option.isNone_iff_eq_none] at empty
  obtain ⟨⟨⟨⟨queue, rescans⟩, walk⟩, rebuilds⟩, batches⟩ := empty
  exact ⟨watching, queue, rescans, walk, rebuilds, batches⟩

/-- The event of a change is lost, and the rescan reads the note anew. -/
def lostRewrite : List Label :=
  [.change (.edit notePlace (plainFile "new")), .overflow [], .window 1, .rescanNow, .visit, .visit,
    .visit, .finish, .rebuild]

def lostRewriteEnd : State :=
  (run (step .bare [vaultName]) (synced .bare oneNote [vaultName]) lostRewrite).get (by decide +kernel)

theorem recovered_eq_rescan_lostRewrite :
    lostRewriteEnd.store = scanned .bare lostRewriteEnd.fs [vaultName] :=
  recovered_eq_rescan .bare [vaultName] oneNote_tame
    (Meets.mono (fun _ _ holds => ⟨holds.1, holds.2.1, holds.2.2.timely⟩)
      (show Meets (step .bare [vaultName]) (fun state label =>
        Admissible .bare [vaultName] state label ∧ Steady label ∧ Foreseen .bare [vaultName] state label)
        (synced .bare oneNote [vaultName]) lostRewrite by decide +kernel))
    (Option.some_get _).symm (idle_of_empty (by decide +kernel) (by decide +kernel))

/-- After a lost event the walk reads the note, the note changes, and the batch with
the new content is handled before the rebuild with the old one. -/
def overtaken : List Label :=
  [.change (.edit notePlace (plainFile "read")), .overflow [], .window 1, .rescanNow, .visit, .visit,
    .visit, .change (.edit notePlace (plainFile "new")), .window 1, .batch, .finish, .rebuild]

def overtakenEnd : State :=
  (run (step .bare [vaultName]) (synced .bare oneNote [vaultName]) overtaken).get (by decide +kernel)

theorem rebuild_overtaken :
    Tame .bare oneNote [vaultName] ∧
      Meets (step .bare [vaultName]) (fun state label =>
        Admissible .bare [vaultName] state label ∧ Steady label)
        (synced .bare oneNote [vaultName]) overtaken ∧
      run (step .bare [vaultName]) (synced .bare oneNote [vaultName]) overtaken = some overtakenEnd ∧
      Idle overtakenEnd ∧
      (overtakenEnd.store.get "D/x.md".toList).map Note.body = some "read".toList ∧
      ((scanned .bare overtakenEnd.fs [vaultName]).get "D/x.md".toList).map Note.body =
        some "new".toList :=
  ⟨oneNote_tame, by decide +kernel, (Option.some_get _).symm,
    idle_of_empty (by decide +kernel) (by decide +kernel), by decide +kernel, by decide +kernel⟩

/-- A note changes before the first walk reads it; the watcher restarts later. -/
def earlyEdit : List Label :=
  [.visit, .change (.edit notePlace (plainFile "new")), .visit, .visit, .finish, .watch, .rebuild,
    .unwatch, .watch]

def earlyEditEnd : State :=
  (run (step .bare [vaultName]) (starting oneNote) earlyEdit).get (by decide +kernel)

theorem started_eq_rescan_earlyEdit :
    earlyEditEnd.store = scanned .bare earlyEditEnd.fs [vaultName] :=
  started_eq_rescan .bare [vaultName] oneNote_tame
    (Meets.mono (fun _ _ holds => ⟨holds.1, holds.2.1.heard .bare, holds.2.2.timely⟩)
      (show Meets (step .bare [vaultName]) (fun state label =>
        Admissible .bare [vaultName] state label ∧ Foreheard [vaultName] state label ∧
          Foreseen .bare [vaultName] state label) (starting oneNote) earlyEdit by decide +kernel))
    (Option.some_get _).symm (idle_of_empty (by decide +kernel) (by decide +kernel))

/-- A note changes after the first walk read it and before the watch is there. -/
def unheard : List Label :=
  [.visit, .visit, .visit, .change (.edit notePlace (plainFile "new")), .finish, .watch, .rebuild]

def unheardEnd : State :=
  (run (step .bare [vaultName]) (starting oneNote) unheard).get (by decide +kernel)

theorem startup_change_missed :
    Tame .bare oneNote [vaultName] ∧
      Meets (step .bare [vaultName]) (Admissible .bare [vaultName]) (starting oneNote) unheard ∧
      run (step .bare [vaultName]) (starting oneNote) unheard = some unheardEnd ∧ Idle unheardEnd ∧
      (unheardEnd.store.get "D/x.md".toList).map Note.body = some "old".toList ∧
      ((scanned .bare unheardEnd.fs [vaultName]).get "D/x.md".toList).map Note.body =
        some "new".toList :=
  ⟨oneNote_tame, by decide +kernel, (Option.some_get _).symm,
    idle_of_empty (by decide +kernel) (by decide +kernel), by decide +kernel, by decide +kernel⟩

end Runs

end Anwesen.Daemon

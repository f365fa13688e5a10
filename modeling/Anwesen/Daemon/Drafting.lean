import Anwesen.Daemon.Debouncing
import Anwesen.Watcher.Drafting

/-! The daemon whose debouncer maps the events of a window and reads its notes one by
one, while files go on changing.

A window may report lost events and have a batch as well. The rescan is asked for
first, and its walk may end before the batch is cast, which then overrules it.
-/

set_option autoImplicit false

namespace Anwesen.Daemon

open Foundation Vault Watcher

/-- The debouncer at work on a window: at a position of its events, or on its batch. -/
inductive Draft where
  | mapping (events : List (Option (Notice FileName))) (position : Nat) (overflow : Bool)
      (actions : List WatchAction)
  | building (overflow : Bool) (upserts upsertTrees : List Text) (batch : IndexBatch)

namespace Draft

/-- The batch to build, if there is anything in it. -/
def coalesced (overflow : Bool) (actions : List WatchAction) : Option Draft :=
  let batch := coalesce actions
  if batch.upserts = [] ∧ batch.deletes = [] ∧ batch.upsertTrees = [] ∧ batch.deleteTrees = [] then none
  else some (.building overflow batch.upserts batch.upsertTrees (unreadBatch batch))

/-- What the debouncer can still do for the window. -/
def left : Draft → Nat
  | .mapping events position _ actions => (events.length - position) * 4 + actions.length
  | .building _ upserts upsertTrees _ => upserts.length + upsertTrees.length + 1

/-- The events that are still to be coalesced. -/
def events : Draft → List (Option (Notice FileName))
  | .mapping events _ _ _ => events
  | .building _ _ _ _ => []

/-- The batch of a window that also reported lost events. -/
def Late : Draft → Prop
  | .mapping _ _ _ _ => False
  | .building overflow _ _ _ => overflow = true

instance (draft : Draft) : Decidable draft.Late :=
  match draft with
  | .mapping _ _ _ _ => .isFalse id
  | .building overflow _ _ _ => inferInstanceAs (Decidable (overflow = true))

end Draft

namespace Mailed

/-- The debouncer takes the events of a window out of its channel. -/
def taking (mailed : Mailed) (size : Nat) : Mailed :=
  { mailed with
    processes := { mailed.processes with queue := mailed.processes.queue.drop size }
    sent := mailed.sent }

def asking (mailed : Mailed) (overflow : Bool) : Mailed :=
  { mailed with
    processes := { mailed.processes with
      rescans := if overflow then mailed.processes.rescans + 1 else mailed.processes.rescans }
    sent := mailed.sent }

def posting (mailed : Mailed) (batch : IndexBatch) : Mailed :=
  { mailed with mail := mailed.mail ++ [.batch batch] }

end Mailed

/-- The processes and the debouncer of the watcher that is there. -/
structure Drafted where
  mailed : Mailed
  draft : Option Draft

namespace Drafted

/-- What the debouncer does for a window it has taken. -/
inductive Act where
  | map
  | coalesce
  | read
  | send

inductive Label where
  | process (label : Daemon.Label)
  | collect (size : Nat)
  | draft (act : Act)

def starting (fs : Fs) : Drafted := ⟨.starting fs, none⟩

section

variable (ext : External) (root : Location)

def step (drafted : Drafted) : Label → Option Drafted
  | .process label =>
      match label with
      | .window _ => none
      -- a task that is at work on a window is no longer the watcher's
      | .unwatch => (Mailed.step ext root drafted.mailed .unwatch).map fun mailed => ⟨mailed, none⟩
      | label => (Mailed.step ext root drafted.mailed label).map fun mailed => { drafted with mailed }
  | .collect size =>
      match drafted.draft with
      | none =>
          if 0 < size ∧ size ≤ drafted.mailed.processes.queue.length then
            some ⟨drafted.mailed.taking size,
              some (.mapping (drafted.mailed.processes.queue.take size) 0 false [])⟩
          else none
      | some _ => none
  | .draft .map =>
      match drafted.draft with
      | some (.mapping events position overflow actions) => events[position]?.map fun entry =>
          -- the event is mapped at the tree of this moment
          { drafted with draft := some (.mapping events (position + 1)
              (overflow || isOverflow (eventOf root entry))
              (actions ++ mapEvent drafted.mailed.processes.fs root.raw (eventOf root entry))) }
      | _ => none
  | .draft .coalesce =>
      match drafted.draft with
      | some (.mapping events position overflow actions) =>
          if position = events.length then
            some ⟨drafted.mailed.asking overflow, Draft.coalesced overflow actions⟩
          else none
      | _ => none
  | .draft .read =>
      match drafted.draft with
      | some (.building overflow (rel :: rest) upsertTrees batch) => some { drafted with
          draft := some (.building overflow rest upsertTrees
            (readUpsert ext drafted.mailed.processes.fs root batch rel)) }
      | some (.building overflow [] (dir :: rest) batch) => some { drafted with
          draft := some (.building overflow [] rest
            (readTree ext drafted.mailed.processes.fs root batch dir)) }
      | _ => none
  | .draft .send =>
      match drafted.draft with
      | some (.building _ [] [] batch) => some ⟨drafted.mailed.posting batch, none⟩
      | _ => none

/-- The daemon whose windows are single steps: a window that is being mapped is still
queued, one that is being read is cast as if the rest was read now. -/
def view (drafted : Drafted) : Mailed :=
  match drafted.draft with
  | none => drafted.mailed
  | some (.mapping events _ _ _) => drafted.mailed.onto events
  | some (.building _ upserts upsertTrees batch) => drafted.mailed.posting
      (complete ext drafted.mailed.processes.fs root upserts upsertTrees batch)

/-- The events of a window that is being mapped. -/
def held (drafted : Drafted) : List (Option (Notice FileName)) := drafted.draft.elim [] Draft.events

end

/-- The steps one by one. -/
inductive Moves (ext : External) (root : Location) : Drafted → Label → Drafted → Prop where
  | proceeds {mailed later : Mailed} {label : Daemon.Label} (draft : Option Draft) :
      (∀ size, label ≠ .window size) → label ≠ .unwatch →
      Mailed.step ext root mailed label = some later →
      Moves ext root ⟨mailed, draft⟩ (.process label) ⟨later, draft⟩
  | unwatches {mailed later : Mailed} (draft : Option Draft) :
      Mailed.step ext root mailed .unwatch = some later →
      Moves ext root ⟨mailed, draft⟩ (.process .unwatch) ⟨later, none⟩
  | collects {mailed : Mailed} {size : Nat} : 0 < size → size ≤ mailed.processes.queue.length →
      Moves ext root ⟨mailed, none⟩ (.collect size) ⟨mailed.taking size,
        some (.mapping (mailed.processes.queue.take size) 0 false [])⟩
  | maps {events : List (Option (Notice FileName))} {position : Nat} (mailed : Mailed) (overflow : Bool)
      (actions : List WatchAction) (inside : position < events.length) :
      Moves ext root ⟨mailed, some (.mapping events position overflow actions)⟩ (.draft .map)
        ⟨mailed, some (.mapping events (position + 1)
          (overflow || isOverflow (eventOf root events[position]))
          (actions ++ mapEvent mailed.processes.fs root.raw (eventOf root events[position])))⟩
  | coalesces (mailed : Mailed) (events : List (Option (Notice FileName))) (overflow : Bool)
      (actions : List WatchAction) :
      Moves ext root ⟨mailed, some (.mapping events events.length overflow actions)⟩ (.draft .coalesce)
        ⟨mailed.asking overflow, Draft.coalesced overflow actions⟩
  | readsNote (mailed : Mailed) (overflow : Bool) (rel : Text) (rest upsertTrees : List Text)
      (batch : IndexBatch) :
      Moves ext root ⟨mailed, some (.building overflow (rel :: rest) upsertTrees batch)⟩ (.draft .read)
        ⟨mailed, some (.building overflow rest upsertTrees
          (readUpsert ext mailed.processes.fs root batch rel))⟩
  | readsTree (mailed : Mailed) (overflow : Bool) (dir : Text) (rest : List Text) (batch : IndexBatch) :
      Moves ext root ⟨mailed, some (.building overflow [] (dir :: rest) batch)⟩ (.draft .read)
        ⟨mailed, some (.building overflow [] rest (readTree ext mailed.processes.fs root batch dir))⟩
  | sends (mailed : Mailed) (overflow : Bool) (batch : IndexBatch) :
      Moves ext root ⟨mailed, some (.building overflow [] [] batch)⟩ (.draft .send)
        ⟨mailed.posting batch, none⟩

theorem moves_of_step {ext : External} {root : Location} {drafted after : Drafted} {label : Label}
    (taken : drafted.step ext root label = some after) : Drafted.Moves ext root drafted label after := by
  obtain ⟨mailed, draft⟩ := drafted
  cases label with
  | process label =>
    cases label with
    | window size => cases taken
    | unwatch =>
      obtain ⟨later, moved, rfl⟩ := Option.map_eq_some_iff.mp taken
      exact Moves.unwatches draft moved
    | change | overflow | rescanNow | visit | finish | rebuild | batch | watch =>
      obtain ⟨later, moved, rfl⟩ := Option.map_eq_some_iff.mp taken
      exact Moves.proceeds draft (by simp) (by simp) moved
  | collect size =>
    cases draft with
    | some draft => cases taken
    | none =>
      simp only [step, Option.ite_none_right_eq_some, Option.some.injEq] at taken
      obtain ⟨⟨positive, fitting⟩, rfl⟩ := taken
      exact Moves.collects positive fitting
  | draft act =>
    cases act with
    | map =>
      simp only [step] at taken
      split at taken
      · obtain ⟨entry, next, rfl⟩ := Option.map_eq_some_iff.mp taken
        obtain ⟨inside, rfl⟩ := List.getElem?_eq_some_iff.mp next
        exact Moves.maps mailed _ _ inside
      · cases taken
    | coalesce =>
      simp only [step] at taken
      split at taken
      · simp only [Option.ite_none_right_eq_some, Option.some.injEq] at taken
        obtain ⟨rfl, rfl⟩ := taken
        exact Moves.coalesces mailed _ _ _
      · cases taken
    | read =>
      simp only [step] at taken
      split at taken <;> cases taken
      · exact Moves.readsNote mailed _ _ _ _ _
      · exact Moves.readsTree mailed _ _ _ _
    | send =>
      simp only [step] at taken
      split at taken <;> cases taken
      exact Moves.sends mailed _ _

end Drafted

/-- The draft is what the events and the files say so far. -/
def Draft.Fits (fs : Fs) (root : Location) : Draft → Prop
  | .mapping events position overflow actions =>
      events ≠ [] ∧ position ≤ events.length ∧
        overflow = ((events.take position).map (eventOf root)).any isOverflow ∧
        actions = ((events.take position).map (eventOf root)).flatMap (mapEvent fs root.raw)
  | .building _ upserts upsertTrees batch =>
      upsertTrees = [] ∧ Keyed batch.upserts ∧ ∀ rel ∈ upserts, Filed fs root rel

/-- What holds whatever happens when. -/
structure Drafting (ext : External) (root : Location) (drafted : Drafted) : Prop where
  tidy : Tidy ext root (drafted.view ext root)
  alive : Alive drafted.mailed.processes
  paired : ∀ path, some (.renamed path) ∉ (drafted.view ext root).processes.queue
  heard : drafted.draft.isSome = true → drafted.mailed.processes.watching = true
  fits : ∀ draft ∈ drafted.draft, draft.Fits drafted.mailed.processes.fs root

section

variable {ext : External} {root : Location} {state next : State} {mailed later : Mailed}
  {drafted after : Drafted} {label : Daemon.Label} {batch : IndexBatch}

@[simp] theorem view_processes (drafted : Drafted) :
    (drafted.view ext root).processes = drafted.mailed.processes.onto drafted.held := by
  obtain ⟨mailed, draft⟩ := drafted
  cases draft with
  | none => rfl
  | some draft => cases draft <;> rfl

@[simp] theorem Label.onto_nil (label : Daemon.Label) : label.onto [] = label := by
  cases label <;> rfl

/-- A batch at the end of the mailbox stays there. -/
theorem posting_step (window : ∀ size, label ≠ .window size) (finish : label ≠ .finish)
    (taken : Mailed.step ext root mailed label = some later) (batch : IndexBatch) :
    Mailed.step ext root (mailed.posting batch) label = some (later.posting batch) := by
  have casts : ∀ next, Moves ext root mailed.processes label next →
      Mailed.ofState next (mailed.posting batch).mail = (Mailed.ofState next mailed.mail).posting batch := by
    intro next moves
    obtain ⟨rebuilds, batches⟩ := mailed.sent
    cases moves with
    | takes => exact absurd rfl (window _)
    | finishes => exact absurd rfl finish
    | rebuilds waiting | batches waiting => simp_all
    | changes | loses | rescans | visits | unwatches | watches =>
      simp [Mailed.ofState, Mailed.posting, rebuilds, batches]
  cases label with
  | rebuild | batch =>
    simp only [Mailed.step] at taken
    split at taken <;> cases taken
    rename_i waiting
    simp only [Mailed.step, Mailed.posting, waiting, List.cons_append]
  | change | overflow | window | rescanNow | visit | finish | unwatch | watch =>
    obtain ⟨next, moved, rfl⟩ := Option.map_eq_some_iff.mp taken
    exact Option.map_eq_some_iff.mpr ⟨next, moved, casts next (moves_of_step moved)⟩

/-- A finished walk is cast behind what is in the mailbox, and yet before what is not. -/
theorem finish_posting (taken : Mailed.step ext root mailed .finish = some later) (batch : IndexBatch) :
    step ext root (mailed.posting batch).bySender .finish = some (later.posting batch).bySender := by
  obtain ⟨rebuilds, batches⟩ := mailed.sent
  obtain ⟨next, moved, rfl⟩ := Option.map_eq_some_iff.mp taken
  refine (step_behind (by simp) (by simp) moved).trans (congrArg some ?_)
  cases moves_of_step moved with
  | finishes =>
    simp only [Mailed.bySender, Mailed.posting, Mailed.ofState, State.behind, rebuilds, batches,
      List.filterMap_append, List.append_assoc, List.append_nil]
    rfl

/-- The cast carries notes under their keys. -/
def Cast.Keyed : Cast → Prop
  | .rebuild notes => Daemon.Keyed notes
  | .batch batch => Daemon.Keyed batch.upserts

theorem Tidy.keyed (tidy : Tidy ext root mailed) : ∀ cast ∈ mailed.mail, cast.Keyed := by
  intro cast member
  cases cast with
  | rebuild notes =>
    refine tidy.rebuilds notes (List.mem_append_left _ ?_)
    exact List.mem_filterMap.mpr ⟨.rebuild notes, member, rfl⟩
  | batch batch =>
    refine tidy.batches batch (List.mem_append_left _ ?_)
    exact List.mem_filterMap.mpr ⟨.batch batch, member, rfl⟩

/-- The order of the mailbox does not matter here, nor what else its casts carry. -/
theorem Tidy.mail (tidy : Tidy ext root mailed) {mail : List Cast} (keyed : ∀ cast ∈ mail, cast.Keyed) :
    Tidy ext root { mailed with mail } := by
  refine ⟨tidy.tame, tidy.deaf, tidy.placed, tidy.last, tidy.walks, ?_, ?_, tidy.keys, ?_⟩
  · intro notes member
    rcases List.mem_append.mp member with listed | listed
    · obtain ⟨cast, known, walked⟩ := List.mem_filterMap.mp listed
      cases cast with
      | rebuild other => exact Option.some.inj walked ▸ keyed _ known
      | batch batch => cases walked
    · rw [mailed.sent.1] at listed
      cases listed
  · intro batch member
    rcases List.mem_append.mp member with listed | listed
    · obtain ⟨cast, known, changed⟩ := List.mem_filterMap.mp listed
      cases cast with
      | rebuild notes => cases changed
      | batch other => exact Option.some.inj changed ▸ keyed _ known
    · rw [mailed.sent.2] at listed
      cases listed
  · exact fun _ => .inr (.inl (.inr (.inr (.inl (Nat.succ_pos _)))))

namespace Drafted

/-- The tree a walk is cast for is that of the batch being built. -/
theorem view_process (window : ∀ size, label ≠ .window size) (unwatch : label ≠ .unwatch)
    (taken : Mailed.step ext root drafted.mailed label = some later)
    (quiet : ∀ overflow upserts upsertTrees batch,
      drafted.draft = some (.building overflow upserts upsertTrees batch) →
      label ≠ .finish ∧ later.processes.fs = drafted.mailed.processes.fs) :
    Mailed.step ext root (drafted.view ext root) (label.onto drafted.held) =
      some (view ext root { drafted with mailed := later }) := by
  obtain ⟨mailed, draft⟩ := drafted
  cases draft with
  | none =>
    exact (mailed_onto window unwatch taken : Mailed.step ext root (mailed.onto []) (label.onto []) = _)
  | some draft =>
    cases draft with
    | mapping events position overflow actions => exact mailed_onto window unwatch taken
    | building overflow upserts upsertTrees batch =>
      obtain ⟨finish, same⟩ := quiet overflow upserts upsertTrees batch rfl
      rw [show held ⟨mailed, some (.building overflow upserts upsertTrees batch)⟩ = [] from rfl,
        Label.onto_nil]
      simp only [view, same]
      exact posting_step window finish taken _

variable (ext) in
/-- Where the events were mapped to what they say now, coalescing is the window. -/
theorem view_coalesce {events : List (Option (Notice FileName))} {overflow : Bool}
    {actions : List WatchAction}
    (fits : Draft.Fits mailed.processes.fs root (.mapping events events.length overflow actions)) :
    Mailed.step ext root (mailed.onto events) (.window events.length) =
      some (view ext root ⟨mailed.asking overflow, Draft.coalesced overflow actions⟩) := by
  obtain ⟨nonempty, _, lost, acts⟩ := fits
  rw [List.take_length] at lost acts
  refine (window_onto nonempty).trans (congrArg some ?_)
  simp only [State.flushed, debounce_ok, ← lost, ← acts]
  obtain ⟨rebuilds, batches⟩ := mailed.sent
  by_cases empty : (Watcher.coalesce actions).upserts = [] ∧ (Watcher.coalesce actions).deletes = [] ∧
      (Watcher.coalesce actions).upsertTrees = [] ∧ (Watcher.coalesce actions).deleteTrees = []
  · simp [empty, view, Draft.coalesced, Mailed.asking, Mailed.ofState, rebuilds, batches]
  · simp [empty, view, Draft.coalesced, Mailed.asking, Mailed.posting, Mailed.ofState, rebuilds, batches,
      complete_unread]

theorem view_collect (size : Nat) (overflow : Bool) (position : Nat) (actions : List WatchAction) :
    view ext root ⟨mailed.taking size,
      some (.mapping (mailed.processes.queue.take size) position overflow actions)⟩ = mailed := by
  simp [view, Mailed.taking, Mailed.onto, State.onto]

end Drafted

/-! The draft goes on fitting the events and the files. -/

/-- Notices of single files are mapped alike as long as no directory comes or goes. -/
theorem mapEvent_same {fs fs' : Fs} (tame : Tame ext fs root) (tame' : Tame ext fs' root)
    {entry : Option (Notice FileName)} (placed : ∀ notice ∈ entry, Placed fs root notice.path)
    (placed' : ∀ notice ∈ entry, Placed fs' root notice.path) (paired : ∀ path, entry ≠ some (.renamed path)) :
    mapEvent fs' root.raw (eventOf root entry) = mapEvent fs root.raw (eventOf root entry) := by
  have named := fun notice member => And.intro (placed notice member).below (placed notice member).plain
  rw [mapEvent_eventOf tame named, mapEvent_eventOf tame' named]
  cases entry with
  | none => rfl
  | some notice =>
    cases notice with
    | changed path | vanished path => rfl
    | renamed path => exact absurd rfl (paired path)
    | appeared path =>
      have other : fs.hasDir (root ++ path) = false :=
        Bool.eq_false_iff.mpr fun dir => (placed _ rfl).other (FileTree.hasDir_iff.mp dir)
      have other' : fs'.hasDir (root ++ path) = false :=
        Bool.eq_false_iff.mpr fun dir => (placed' _ rfl).other (FileTree.hasDir_iff.mp dir)
      simp only [Option.toList_some, List.flatMap_cons, List.flatMap_nil, noticeActions, appearActions, other,
        other']

theorem keyed_reread {fs : Fs} (tame : Tame ext fs root) {rels : List Text}
    (filed : ∀ rel ∈ rels, Filed fs root rel) :
    Keyed (rels.filterMap fun rel => (reread ext fs root.raw rel).toOption) := by
  intro note member
  obtain ⟨rel, listed, read⟩ := List.mem_filterMap.mp member
  have path := path_of_reread tame (filed rel listed) read
  obtain ⟨location, eligible, key, _⟩ := filed rel listed
  exact ⟨location, eligible, path.trans key⟩

theorem keyed_complete {fs : Fs} (tame : Tame ext fs root) {upserts : List Text}
    (filed : ∀ rel ∈ upserts, Filed fs root rel) (keyed : Keyed batch.upserts) :
    Keyed (complete ext fs root upserts [] batch).upserts := by
  intro note member
  rw [complete, List.foldl_nil, foldl_readUpsert] at member
  exact (List.mem_append.mp member).elim (keyed note) (keyed_reread tame filed note)

theorem filed_changed {fs fs' : Fs} {change : FileChange} (done : change.apply fs = some fs') {rel : Text}
    (filed : Filed fs root rel) : Filed fs' root rel := by
  obtain ⟨location, eligible, key, parent⟩ := filed
  exact ⟨location, eligible, key, (FileChange.lookup_dir done _).mpr parent⟩

/-- What a window was mapped to stays what it would be mapped to. -/
theorem Draft.Fits.changed {fs fs' : Fs} {change : FileChange} {draft : Draft}
    (fits : draft.Fits fs root) (tame : Tame ext fs root) (tame' : Tame ext fs' root)
    (done : change.apply fs = some fs')
    (placed : ∀ notice, some notice ∈ draft.events → Placed fs root notice.path)
    (paired : ∀ path, some (.renamed path) ∉ draft.events) : draft.Fits fs' root := by
  cases draft with
  | building overflow upserts upsertTrees batch =>
    exact ⟨fits.1, fits.2.1, fun rel listed => filed_changed done (fits.2.2 rel listed)⟩
  | mapping events position overflow actions =>
    obtain ⟨nonempty, within, lost, acts⟩ := fits
    refine ⟨nonempty, within, lost, acts.trans ?_⟩
    rw [List.flatMap_map, List.flatMap_map]
    refine List.flatMap_congr fun entry listed => ?_
    have queued : entry ∈ events := List.mem_of_mem_take listed
    refine (mapEvent_same tame tame' ?_ ?_ ?_).symm
    · rintro notice rfl
      exact placed notice queued
    · rintro notice rfl
      exact (placed notice queued).changed done
    · rintro path rfl
      exact paired path queued

theorem mapEvent_entry {fs : Fs} (tame : Tame ext fs root) {entry : Option (Notice FileName)}
    (placed : ∀ notice ∈ entry, Placed fs root notice.path) :
    mapEvent fs root.raw (eventOf root entry) = entry.toList.flatMap (noticeActions fs root) :=
  mapEvent_eventOf tame fun notice member => ⟨(placed notice member).below, (placed notice member).plain⟩

theorem source_of_action {fs : Fs} (tame : Tame ext fs root) {events : List (Option (Notice FileName))}
    (placed : ∀ notice, some notice ∈ events → Placed fs root notice.path) {action : WatchAction}
    (member : action ∈ (events.map (eventOf root)).flatMap (mapEvent fs root.raw)) :
    ∃ notice, Placed fs root notice.path ∧ action ∈ noticeActions fs root notice := by
  rw [List.flatMap_map] at member
  obtain ⟨entry, listed, acts⟩ := List.mem_flatMap.mp member
  rw [mapEvent_entry tame (fun notice same => placed notice (same ▸ listed))] at acts
  obtain ⟨notice, same, acted⟩ := List.mem_flatMap.mp acts
  obtain rfl := Option.mem_toList.mp same
  exact ⟨notice, placed notice listed, acted⟩

/-- A batch, before anything is read, has only notes to read whose directory is there. -/
theorem filed_coalesced {fs : Fs} {actions : List WatchAction}
    (sources : ∀ action ∈ actions, ∃ notice : Notice FileName,
      Placed fs root notice.path ∧ action ∈ noticeActions fs root notice) :
    (coalesce actions).upsertTrees = [] ∧ ∀ rel ∈ (coalesce actions).upserts, Filed fs root rel := by
  constructor
  · refine List.eq_nil_iff_forall_not_mem.mpr fun dir member => ?_
    obtain ⟨action, listed, acts⟩ := mem_of_lastOf (mem_upsertTrees.mp member)
    obtain ⟨notice, placed, listed⟩ := sources action listed
    rcases mem_noticeActions listed with
      ⟨rfl, _, _⟩ | ⟨rfl, _⟩ | ⟨rfl, _, directory⟩ | ⟨rfl, _⟩ <;> simp [treeAction] at acts
    exact placed.other directory
  · intro rel member
    obtain ⟨action, listed, acts⟩ := mem_of_lastOf (mem_upserts.mp member)
    obtain ⟨notice, placed, listed⟩ := sources action listed
    rcases mem_noticeActions listed with
      ⟨rfl, note, _⟩ | ⟨rfl, _⟩ | ⟨rfl, _, _⟩ | ⟨rfl, _⟩ <;> simp [noteAction] at acts
    exact ⟨notice.path, ⟨note, placed.plain⟩, acts.symm, placed.parent⟩

/-! One step. -/

/-- No change of a file is queued as an unpaired rename. -/
theorem renamed_step (taken : Mailed.step ext root mailed label = some later) {path : Location}
    (member : some (.renamed path) ∈ later.processes.queue) :
    some (.renamed path) ∈ mailed.processes.queue := by
  rcases mailed_cases taken with ⟨cast, rest, _, _, _, processes⟩ | ⟨_, _, next, moves, rfl⟩
  · rwa [processes] at member
  cases moves with
  | @changes change fs _ =>
    simp only [Mailed.ofState] at member
    split at member
    · rcases List.mem_append.mp member with old | new
      · exact old
      · obtain ⟨notice, listed, same⟩ := List.mem_map.mp new
        obtain ⟨location, _, rfl⟩ := Option.map_eq_some_iff.mp (Option.mem_toList.mp listed)
        cases change <;> cases same
    · exact member
  | loses _ part =>
    rcases List.mem_append.mp member with old | new
    · exact part.subset old
    · cases List.mem_singleton.mp new
  | takes => exact List.mem_of_mem_drop member
  | unwatches => cases member
  | rescans | visits | finishes | rebuilds | batches | watches => exact member

theorem heard_step (unwatch : label ≠ .unwatch) (watching : mailed.processes.watching = true)
    (taken : Mailed.step ext root mailed label = some later) : later.processes.watching = true := by
  rcases mailed_cases taken with ⟨cast, rest, _, _, _, processes⟩ | ⟨_, _, next, moves, rfl⟩
  · rwa [processes]
  cases moves with
  | unwatches => exact absurd rfl unwatch
  | watches => rfl
  | changes | loses | takes | rescans | visits | finishes | rebuilds | batches => exact watching

theorem fs_unchanged (change : ∀ one, label ≠ .change one)
    (taken : Mailed.step ext root mailed label = some later) : later.processes.fs = mailed.processes.fs := by
  have kept : later.bySender.fs = mailed.bySender.fs := fs_step change (step_bySender taken)
  exact kept

theorem alive_mailed (alive : Alive mailed.processes)
    (taken : Mailed.step ext root mailed label = some later) : Alive later.processes := by
  have kept : Alive later.bySender := alive_step (show Alive mailed.bySender from alive) (step_bySender taken)
  exact kept

theorem Drafting.tame (drafting : Drafting ext root drafted) :
    Tame ext drafted.mailed.processes.fs root := by
  have tame : Tame ext (drafted.view ext root).processes.fs root := drafting.tidy.tame
  rwa [view_processes] at tame

/-- What is still to be coalesced names files of the vault, -/
theorem Drafting.placed (drafting : Drafting ext root drafted) {notice : Notice FileName}
    (listed : some notice ∈ drafted.held ++ drafted.mailed.processes.queue) :
    Placed drafted.mailed.processes.fs root notice.path := by
  have placed : some notice ∈ (drafted.view ext root).processes.queue →
      Placed (drafted.view ext root).processes.fs root notice.path := drafting.tidy.placed notice
  rw [view_processes] at placed
  exact placed listed

/-- and no rename. -/
theorem Drafting.unrenamed (drafting : Drafting ext root drafted) (path : Location) :
    some (.renamed path) ∉ drafted.held ++ drafted.mailed.processes.queue := by
  have paired := drafting.paired path
  rw [view_processes] at paired
  exact paired

namespace Drafted

variable (ext root) in
/-- The vault stays a tree of directories and readable notes. -/
def Admissible (drafted : Drafted) : Label → Prop
  | .process label => Daemon.Admissible ext root drafted.mailed.processes label
  | .collect _ | .draft _ => True

theorem admissible_onto {held : List (Option (Notice FileName))}
    (admissible : Daemon.Admissible ext root state label) :
    Daemon.Admissible ext root (state.onto held) (label.onto held) := by
  cases label with
  | change change => exact admissible
  | overflow | window | rescanNow | visit | finish | rebuild | batch | unwatch | watch => trivial

/-- Sender by sender it is the process's step also where a walk ends during a batch. -/
theorem bySender_process (drafted : Drafted) (window : ∀ size, label ≠ .window size) (unwatch : label ≠ .unwatch)
    (taken : Mailed.step ext root drafted.mailed label = some later)
    (same : later.processes.fs = drafted.mailed.processes.fs) :
    Daemon.step ext root (drafted.view ext root).bySender (label.onto drafted.held) =
      some (view ext root { drafted with mailed := later }).bySender := by
  by_cases finish : label = .finish
  · subst finish
    obtain ⟨mailed, draft⟩ := drafted
    cases draft with
    | none => exact step_bySender taken
    | some draft =>
      cases draft with
      | mapping events position overflow actions => exact step_bySender (mailed_onto window unwatch taken)
      | building overflow upserts upsertTrees batch =>
        simp only [view, same]
        exact finish_posting taken _
  · exact step_bySender (view_process window unwatch taken fun _ _ _ _ _ => ⟨finish, same⟩)

theorem tidy_process (drafting : Drafting ext root drafted)
    (admissible : Daemon.Admissible ext root drafted.mailed.processes label)
    (window : ∀ size, label ≠ .window size) (unwatch : label ≠ .unwatch)
    (taken : Mailed.step ext root drafted.mailed label = some later) :
    Tidy ext root (view ext root { drafted with mailed := later }) := by
  have tidy := drafting.tidy
  by_cases still : ∀ one, label ≠ .change one
  · refine tidy_of_step tidy ?_ (bySender_process drafted window unwatch taken (fs_unchanged still taken))
    rw [view_processes]
    exact admissible_onto admissible
  obtain ⟨change, rfl⟩ : ∃ one, label = .change one := by simpa using still
  obtain ⟨mailed, draft⟩ := drafted
  cases draft with
  | none => exact tidy_step tidy admissible taken
  | some draft =>
    cases draft with
    | mapping events position overflow actions =>
      exact tidy_step tidy (show Daemon.Admissible ext root _ (.change change) from admissible)
        (mailed_onto window unwatch taken)
    | building overflow upserts upsertTrees batch =>
      obtain ⟨rfl, keyed, filed⟩ := drafting.fits _ rfl
      obtain ⟨next, moved, rfl⟩ := Option.map_eq_some_iff.mp taken
      obtain ⟨fs, done, rfl⟩ := Option.map_eq_some_iff.mp moved
      have posted := tidy_step tidy admissible (posting_step (by simp) (by simp) taken _)
      refine posted.mail fun cast member => ?_
      rcases List.mem_append.mp member with old | new
      · exact posted.keyed cast (List.mem_append_left _ old)
      · obtain rfl := List.mem_singleton.mp new
        exact keyed_complete (admissible fs done) (fun rel listed => filed_changed done (filed rel listed)) keyed

theorem fits_process (drafting : Drafting ext root drafted)
    (admissible : Daemon.Admissible ext root drafted.mailed.processes label)
    (taken : Mailed.step ext root drafted.mailed label = some later) :
    ∀ draft ∈ drafted.draft, draft.Fits later.processes.fs root := by
  intro draft member
  have fits := drafting.fits draft member
  by_cases change : ∀ one, label ≠ .change one
  · rwa [fs_unchanged change taken]
  obtain ⟨change, rfl⟩ : ∃ one, label = .change one := by simpa using change
  obtain ⟨next, moved, rfl⟩ := Option.map_eq_some_iff.mp taken
  obtain ⟨fs, done, rfl⟩ := Option.map_eq_some_iff.mp moved
  have held : drafted.held = draft.events := by rw [held, Option.mem_def.mp member, Option.elim]
  exact fits.changed drafting.tame (admissible fs done) done
    (fun notice listed => drafting.placed (List.mem_append_left _ (held ▸ listed)))
    (fun path listed => drafting.unrenamed path (List.mem_append_left _ (held ▸ listed)))

/-- A step of a process, but not a window, nor the end of the watch. -/
theorem drafting_process (drafting : Drafting ext root drafted)
    (admissible : Daemon.Admissible ext root drafted.mailed.processes label)
    (window : ∀ size, label ≠ .window size) (unwatch : label ≠ .unwatch)
    (taken : Mailed.step ext root drafted.mailed label = some later) :
    Drafting ext root { drafted with mailed := later } := by
  have tidy := tidy_process drafting admissible window unwatch taken
  have fits := fits_process drafting admissible taken
  refine ⟨tidy, alive_mailed drafting.alive taken, fun path member => ?_, fun live => ?_, fits⟩
  · have paired := drafting.paired path
    rw [view_processes] at member paired
    rcases List.mem_append.mp member with old | queued
    · exact paired (List.mem_append_left _ old)
    · exact paired (List.mem_append_right _ (renamed_step taken queued))
  · exact heard_step unwatch (drafting.heard live) taken

/-- Nothing is left of the watcher's own, whatever becomes of its window. -/
theorem drafting_unwatch (drafting : Drafting ext root drafted)
    (taken : Mailed.step ext root drafted.mailed .unwatch = some later) :
    Drafting ext root ⟨later, none⟩ := by
  have tidy : Tidy ext root later := by
    have allowed : ∀ state, Daemon.Admissible ext root state .unwatch := fun _ => trivial
    obtain ⟨mailed, draft⟩ := drafted
    cases draft with
    | none => exact tidy_step drafting.tidy (allowed _) taken
    | some draft =>
      cases draft with
      | mapping events position overflow actions =>
        exact tidy_step drafting.tidy (allowed _) (unwatch_onto taken)
      | building overflow upserts upsertTrees batch =>
        have posted := tidy_step drafting.tidy (allowed _) (posting_step (by simp) (by simp) taken _)
        exact posted.mail fun cast member => posted.keyed cast (List.mem_append_left _ member)
  refine ⟨tidy, alive_mailed drafting.alive taken, fun path member => ?_, fun live => (by cases live),
    fun _ member => (by cases member)⟩
  rw [view_processes] at member
  have empty : later.processes.queue = [] := queue_of_unwatch taken
  rw [show State.onto later.processes _ = later.processes from rfl, empty] at member
  cases member

/-- Each act leaves a window that fits. -/
theorem fits_act {draft : Draft} {act : Act} (tame : Tame ext mailed.processes.fs root)
    (fits : draft.Fits mailed.processes.fs root)
    (placed : ∀ notice, some notice ∈ draft.events → Placed mailed.processes.fs root notice.path)
    (taken : step ext root ⟨mailed, some draft⟩ (.draft act) = some after) :
    ∀ next ∈ after.draft, next.Fits mailed.processes.fs root := by
  cases moves_of_step taken with
  | maps mailed overflow actions inside =>
    obtain ⟨nonempty, _, lost, acts⟩ := fits
    rintro draft ⟨⟩
    refine ⟨nonempty, inside, ?_, ?_⟩ <;> rw [List.take_succ_eq_append_getElem inside, List.map_append]
    · rw [List.any_append, lost]
      simp
    · rw [List.flatMap_append, acts]
      simp
  | coalesces mailed events overflow actions =>
    obtain ⟨_, _, _, acts⟩ := fits
    rw [List.take_length] at acts
    obtain ⟨trees, filed⟩ := filed_coalesced fun action listed =>
      source_of_action tame placed (acts ▸ listed)
    intro draft member
    rw [Draft.coalesced] at member
    split at member
    · cases member
    · obtain rfl := Option.some.inj member
      exact ⟨trees, fun _ listed => (by cases listed), filed⟩
  | readsNote mailed overflow rel rest upsertTrees batch =>
    obtain ⟨rfl, keyed, filed⟩ := fits
    rintro draft ⟨⟩
    have first : ∀ one ∈ [rel], Filed mailed.processes.fs root one := by
      simpa using filed rel List.mem_cons_self
    exact ⟨rfl, keyed_complete tame first keyed, fun other listed => filed other (List.mem_cons_of_mem _ listed)⟩
  | readsTree mailed overflow dir rest batch =>
    obtain ⟨none_, _⟩ := fits
    cases none_
  | sends mailed overflow batch =>
    intro draft member
    cases member

theorem drafting_step {label : Label} (drafting : Drafting ext root drafted)
    (admissible : Admissible ext root drafted label) (taken : drafted.step ext root label = some after) :
    Drafting ext root after := by
  cases moves_of_step taken with
  | proceeds draft window unwatch moved => exact drafting_process drafting admissible window unwatch moved
  | unwatches draft moved => exact drafting_unwatch drafting moved
  | @collects mailed size positive fitting =>
    have tidy : Tidy ext root mailed := drafting.tidy
    refine ⟨?_, drafting.alive, ?_, fun _ => ?_, ?_⟩
    · rwa [view_collect]
    · rw [view_collect]
      exact drafting.paired
    · by_contra off
      have deaf : mailed.processes.watching = false := by simpa [Mailed.taking] using off
      have empty : mailed.processes.queue = [] := tidy.deaf deaf
      rw [empty, List.length_nil] at fitting
      omega
    · rintro draft ⟨⟩
      refine ⟨List.ne_nil_of_length_pos ?_, Nat.zero_le _, by simp, by simp⟩
      rw [List.length_take]
      omega
  | maps mailed overflow actions inside =>
    have fits := fits_act drafting.tame (drafting.fits _ rfl)
      (fun notice listed => drafting.placed (List.mem_append_left _ listed)) taken
    exact ⟨drafting.tidy, drafting.alive, drafting.paired, fun _ => drafting.heard rfl, fits⟩
  | coalesces mailed events overflow actions =>
    have fits := fits_act drafting.tame (drafting.fits _ rfl)
      (fun notice listed => drafting.placed (List.mem_append_left _ listed)) taken
    have seen := view_coalesce ext (drafting.fits _ rfl)
    have tidy := tidy_step drafting.tidy
      (show Daemon.Admissible ext root _ (.window events.length) from trivial) seen
    refine ⟨tidy, drafting.alive, ?_, fun _ => drafting.heard rfl, fits⟩
    exact fun path member => drafting.paired path (renamed_step seen member)
  | readsNote mailed overflow rel rest upsertTrees batch =>
    have fits := fits_act drafting.tame (drafting.fits _ rfl)
      (fun notice listed => drafting.placed (List.mem_append_left _ listed)) taken
    obtain ⟨rfl, _⟩ := drafting.fits _ rfl
    exact ⟨drafting.tidy, drafting.alive, drafting.paired, fun _ => drafting.heard rfl, fits⟩
  | readsTree mailed overflow dir rest batch =>
    obtain ⟨none_, _⟩ := drafting.fits _ rfl
    cases none_
  | sends mailed overflow batch =>
    exact ⟨drafting.tidy, drafting.alive, drafting.paired, fun live => (by cases live),
      fun _ member => (by cases member)⟩

end Drafted

/-! What the store comes to. -/

variable (ext root) in
/-- What the batch leaves at the place is right, or what was there, whatever it is, unless
the place is still to be read again. -/
def UpToDate (state : State) (batch : IndexBatch) (place : Place) : Prop :=
  none ∈ state.queue ∨ (∃ notice, some notice ∈ state.queue ∧ notice.path = place.1) ∨
    ∀ store, entryAt (applyIndexBatch store batch) place = current (load ext) (view state.fs root) place.1 ∨
      entryAt (applyIndexBatch store batch) place = entryAt store place

theorem flatMap_mapEvent {fs : Fs} (tame : Tame ext fs root) {events : List (Option (Notice FileName))}
    (placed : ∀ notice, some notice ∈ events → Placed fs root notice.path) :
    (events.map (eventOf root)).flatMap (mapEvent fs root.raw) = actionsOf fs root (events.filterMap id) := by
  have each : ∀ entry ∈ events, mapEvent fs root.raw (eventOf root entry) =
      entry.toList.flatMap (noticeActions fs root) :=
    fun entry member => mapEvent_entry tame fun notice same => placed notice (same ▸ member)
  rw [List.flatMap_map, List.flatMap_congr each, actionsOf, List.filterMap_eq_flatMap_toList,
    List.flatMap_assoc]
  rfl

theorem any_isOverflow (events : List (Option (Notice FileName))) :
    (events.map (eventOf root)).any isOverflow = false ↔ none ∉ events := by
  rw [List.any_map, List.any_eq_false]
  constructor
  · exact fun quiet member => quiet none member rfl
  · intro whole entry member
    cases entry with
    | none => exact absurd member whole
    | some notice => cases notice <;> exact Bool.false_ne_true

/-- The batch of a window that lost nothing is up to date before anything is read. -/
theorem upToDate_coalesced {events : List (Option (Notice FileName))} {actions : List WatchAction}
    (drafting : Drafting ext root ⟨mailed, some (.mapping events events.length false actions)⟩)
    (place : Place) : UpToDate ext root mailed.processes
      (buildIndexBatch ext mailed.processes.fs root.raw (coalesce actions)) place := by
  obtain ⟨_, _, lost, acts⟩ := drafting.fits _ rfl
  rw [List.take_length] at lost acts
  have inside : none ∉ events := (any_isOverflow events).mp lost.symm
  rw [flatMap_mapEvent drafting.tame fun notice queued => drafting.tidy.placed notice
    (List.mem_append_left _ queued)] at acts
  by_cases lost : none ∈ mailed.processes.queue
  · exact .inl lost
  by_cases later : ∃ notice, some notice ∈ mailed.processes.queue ∧ notice.path = place.1
  · exact .inr (.inl later)
  have whole : none ∉ events ++ mailed.processes.queue := by
    simpa using ⟨inside, lost⟩
  refine .inr (.inr fun store => ?_)
  rw [acts]
  exact (window_tells drafting.tidy rfl whole place
    (fun notice queued same => later ⟨notice, queued, same⟩) store).imp_right And.right

/-- A change of a file leaves a batch up to date that is being built: its notice is queued. -/
theorem upToDate_change {change : FileChange} {fs : Fs} {upserts : List Text} {place : Place}
    (watching : mailed.processes.watching = true) (tame : Tame ext mailed.processes.fs root)
    (tame' : Tame ext fs root) (done : change.apply mailed.processes.fs = some fs)
    (filed : ∀ rel ∈ upserts, Filed mailed.processes.fs root rel)
    (upToDate : UpToDate ext root mailed.processes
      (complete ext mailed.processes.fs root upserts [] batch) place) :
    UpToDate ext root (mailed.processes.changed root change fs) (complete ext fs root upserts [] batch)
      place := by
  have nonempty := nonempty_of_isNote place.2.1
  by_cases here : root ++ place.1 = change.path
  · obtain ⟨notice, listed, path⟩ := exists_notice change nonempty here
    exact .inr (.inl ⟨notice, by simp [watching, listed], path⟩)
  have same : fs.lookup (root ++ place.1) = mailed.processes.fs.lookup (root ++ place.1) :=
    FileChange.lookup_apply done here
  have filed' := fun rel listed => filed_changed done (filed rel listed)
  rcases upToDate with lost | ⟨notice, queued, path⟩ | told
  · exact .inl (mem_queue_changed lost)
  · exact .inr (.inl ⟨notice, mem_queue_changed queued, path⟩)
  · refine .inr (.inr fun store => ?_)
    have kept : current (load ext) (view fs root) place.1 =
        current (load ext) (view mailed.processes.fs root) place.1 :=
      current_of_lookup (same : (view fs root).lookup place.1 = (view mailed.processes.fs root).lookup place.1)
    have left_ := held_complete tame tame' filed filed' place.2 same batch store
    rw [entryAt, left_, kept]
    exact told store

theorem landed_posting (mailed : Mailed) (batch : IndexBatch) :
    (mailed.posting batch).landed = applyIndexBatch mailed.landed batch := by
  rw [Mailed.landed, Mailed.posting, List.foldl_append]
  rfl

/-- Another batch that leaves the same at the place does as well. -/
theorem assured_repost {other : IndexBatch} {place : Place}
    (assured : Assured ext root (mailed.posting batch) place)
    (same : (∃ notice, some notice ∈ mailed.processes.queue ∧ notice.path = place.1) ∨
      entryAt (applyIndexBatch mailed.landed other) place = entryAt (applyIndexBatch mailed.landed batch) place) :
    Assured ext root (mailed.posting other) place := by
  refine assured.imp_right fun known => ⟨known.1, ?_⟩
  rcases same with queued | same
  · exact .inr (.inr queued)
  · rw [landed_posting] at known ⊢
    rw [same]
    exact known.2

/-- A walk that ends while a batch is being built is overruled by it, but not wrongly. -/
theorem assured_finish_posting {notes : List Note} {place : Place}
    (assured : Assured ext root (mailed.posting batch) place)
    (walking : mailed.processes.walk = some ⟨[], notes⟩)
    (upToDate : Pending mailed.processes ∨ UpToDate ext root mailed.processes batch place) :
    Assured ext root (Mailed.posting (.ofState { mailed.processes with
      walk := none, up := true, rebuilds := mailed.processes.rebuilds ++ [notes] } mailed.mail) batch) place := by
  rcases assured with pending | ⟨knows, _⟩
  · exact .inl pending
  rcases upToDate with pending | lost | queued | told
  · exact .inl pending
  · exact .inl (.inl lost)
  · exact .inr ⟨fun _ member => (by cases member), .inr (.inr queued)⟩
  refine .inr ⟨fun _ member => (by cases member), .inl ?_⟩
  have behind : ¬ Walk.Ahead ⟨[], notes⟩ place.1 := by
    rintro ⟨_, pending, _⟩
    cases pending
  have read := (knows _ walking).resolve_left behind
  rw [landed_posting, landed_finish]
  rcases told (.replace notes) with fresh | kept
  · exact fresh
  · exact kept.trans ((NoteStore.get_replace notes _).trans read)

namespace Drafted

variable (ext root) in
/-- Besides what disturbs the daemon whose windows are single steps: no walk ends while a
batch is being built whose window reported lost events, unless another walk is to begin. -/
def Undisturbed (drafted : Drafted) : Label → Prop
  | .process .finish => Pending drafted.mailed.processes ∨ ∀ draft ∈ drafted.draft, ¬ draft.Late
  | .process .unwatch => ∀ place, Assured ext root drafted.mailed.deafened place
  | .process label => Daemon.Undisturbed ext root (drafted.view ext root) label
  | .collect _ | .draft _ => True

variable (ext root) in
/-- What the runs keep as long as nothing disturbs them. -/
structure Prepared (drafted : Drafted) : Prop where
  drafting : Drafting ext root drafted
  assured : ∀ place, Assured ext root (drafted.view ext root) place
  upToDate : ∀ upserts upsertTrees batch,
    drafted.draft = some (.building false upserts upsertTrees batch) → ∀ place,
      UpToDate ext root drafted.mailed.processes
        (complete ext drafted.mailed.processes.fs root upserts upsertTrees batch) place

theorem undisturbed_onto {held : List (Option (Notice FileName))}
    (unwatch : label ≠ .unwatch)
    (undisturbed : Undisturbed ext root drafted (.process label)) :
    Daemon.Undisturbed ext root (drafted.view ext root) (label.onto held) := by
  cases label with
  | unwatch => exact absurd rfl unwatch
  | change change => exact undisturbed
  | overflow | window | rescanNow | visit | finish | rebuild | batch | watch => trivial

/-- The draft of a window that lost nothing stays up to date. -/
theorem upToDate_process (prepared : Prepared ext root drafted)
    (admissible : Daemon.Admissible ext root drafted.mailed.processes label)
    (window : ∀ size, label ≠ .window size) (unwatch : label ≠ .unwatch)
    (taken : Mailed.step ext root drafted.mailed label = some later) (upserts upsertTrees : List Text)
    (batch : IndexBatch) (building : drafted.draft = some (.building false upserts upsertTrees batch))
    (place : Place) : UpToDate ext root later.processes
      (complete ext later.processes.fs root upserts upsertTrees batch) place := by
  have upToDate := prepared.upToDate upserts upsertTrees batch building place
  obtain ⟨rfl, _, filed⟩ := prepared.drafting.fits _ building
  have watching := prepared.drafting.heard (building ▸ rfl)
  rcases mailed_cases taken with ⟨cast, rest, _, _, _, processes⟩ | ⟨_, _, next, moves, rfl⟩
  · rw [processes]
    exact upToDate
  cases moves with
  | takes => exact absurd rfl (window _)
  | unwatches => exact absurd rfl unwatch
  | changes done =>
    exact upToDate_change watching prepared.drafting.tame (admissible _ done) done filed upToDate
  | loses => exact .inl (List.mem_append_right _ (List.mem_singleton_self _))
  | rescans | visits | finishes | rebuilds | batches | watches => exact upToDate

theorem assured_process (prepared : Prepared ext root drafted)
    (admissible : Daemon.Admissible ext root drafted.mailed.processes label)
    (undisturbed : Undisturbed ext root drafted (.process label))
    (window : ∀ size, label ≠ .window size) (unwatch : label ≠ .unwatch)
    (taken : Mailed.step ext root drafted.mailed label = some later) (place : Place) :
    Assured ext root (view ext root { drafted with mailed := later }) place := by
  have tidy := prepared.drafting.tidy
  by_cases quiet : ∀ overflow upserts upsertTrees batch,
      drafted.draft = some (.building overflow upserts upsertTrees batch) →
      label ≠ .finish ∧ later.processes.fs = drafted.mailed.processes.fs
  · exact assured_step tidy prepared.assured (undisturbed_onto unwatch undisturbed)
      (view_process window unwatch taken quiet) place
  obtain ⟨mailed, draft⟩ := drafted
  simp only [not_forall] at quiet
  obtain ⟨overflow, upserts, upsertTrees, batch, rfl, moving⟩ := quiet
  obtain ⟨rfl, keyed, filed⟩ := prepared.drafting.fits _ rfl
  have watching : mailed.processes.watching = true := prepared.drafting.heard rfl
  cases label with
  | window size => exact absurd rfl (window size)
  | unwatch => exact absurd rfl unwatch
  | finish =>
    obtain ⟨next, moved, rfl⟩ := Option.map_eq_some_iff.mp taken
    cases Daemon.moves_of_step moved with
    | finishes walking =>
      refine assured_finish_posting (prepared.assured place) walking ?_
      refine undisturbed.imp_right fun timely => ?_
      obtain rfl : overflow = false := by simpa [Draft.Late] using timely _ rfl
      exact prepared.upToDate upserts [] batch rfl place
  | change change =>
    have posted := assured_step tidy prepared.assured
      (show Daemon.Undisturbed ext root _ (.change change) from undisturbed)
      (posting_step (by simp) (by simp) taken _) place
    obtain ⟨next, moved, rfl⟩ := Option.map_eq_some_iff.mp taken
    obtain ⟨fs, done, rfl⟩ := Option.map_eq_some_iff.mp moved
    refine assured_repost posted ?_
    have nonempty := nonempty_of_isNote place.2.1
    by_cases here : root ++ place.1 = change.path
    · obtain ⟨notice, listed, path⟩ := exists_notice change nonempty here
      exact .inl ⟨notice, by simp [Mailed.ofState, watching, listed], path⟩
    · exact .inr (held_complete prepared.drafting.tame (admissible fs done) filed
        (fun rel listed => filed_changed done (filed rel listed)) place.2
        (FileChange.lookup_apply done here) batch _)
  | overflow | rescanNow | visit | rebuild | batch | watch =>
    exact absurd ⟨by simp, fs_unchanged (by simp) taken⟩ moving

theorem prepared_unwatch (prepared : Prepared ext root drafted)
    (undisturbed : ∀ place, Assured ext root drafted.mailed.deafened place)
    (taken : Mailed.step ext root drafted.mailed .unwatch = some later) : Prepared ext root ⟨later, none⟩ := by
  refine ⟨drafting_unwatch prepared.drafting taken, fun place => ?_, fun _ _ _ building => by cases building⟩
  have deafened := undisturbed place
  obtain ⟨next, moved, rfl⟩ := Option.map_eq_some_iff.mp taken
  obtain ⟨rebuilds, batches⟩ := drafted.mailed.sent
  cases Daemon.moves_of_step moved with
  | unwatches =>
    simpa [view, Assured, Mailed.deafened, Mailed.ofState, Mailed.landed, rebuilds, batches, Pending]
      using deafened

theorem prepared_step {label : Label} (prepared : Prepared ext root drafted)
    (admissible : Admissible ext root drafted label) (undisturbed : Undisturbed ext root drafted label)
    (taken : drafted.step ext root label = some after) : Prepared ext root after := by
  have drafting := drafting_step prepared.drafting admissible taken
  cases moves_of_step taken with
  | proceeds draft window unwatch moved =>
    have upToDate := upToDate_process prepared admissible window unwatch moved
    exact ⟨drafting, assured_process prepared admissible undisturbed window unwatch moved, upToDate⟩
  | unwatches draft moved => exact prepared_unwatch prepared undisturbed moved
  | collects positive fitting =>
    refine ⟨drafting, fun place => ?_, fun _ _ _ building => by cases building⟩
    rw [view_collect]
    exact prepared.assured place
  | maps mailed overflow actions inside =>
    exact ⟨drafting, prepared.assured, fun _ _ _ building => by cases building⟩
  | coalesces mailed events overflow actions =>
    refine ⟨drafting, fun place => ?_, fun upserts upsertTrees batch building place => ?_⟩
    · exact assured_step prepared.drafting.tidy prepared.assured
        (show Daemon.Undisturbed ext root _ (.window events.length) from trivial)
        (view_coalesce ext (prepared.drafting.fits _ rfl)) place
    · simp only [Draft.coalesced] at building
      split at building
      · cases building
      · cases building
        have upToDate := upToDate_coalesced prepared.drafting place
        rw [← complete_unread] at upToDate
        exact upToDate
  | readsNote mailed overflow rel rest upsertTrees batch =>
    refine ⟨drafting, prepared.assured, fun _ _ _ building => ?_⟩
    cases building
    exact prepared.upToDate (rel :: rest) upsertTrees batch rfl
  | readsTree mailed overflow dir rest batch =>
    refine ⟨drafting, prepared.assured, fun _ _ _ building => ?_⟩
    cases building
    exact prepared.upToDate [] (dir :: rest) batch rfl
  | sends mailed overflow batch =>
    exact ⟨drafting, prepared.assured, fun _ _ _ building => by cases building⟩

/-! Left alone, the debouncer and the processes come to rest. -/

/-- Everything but a change, a loss of events and the end of the watch. -/
def Own : Label → Prop
  | .process label => Daemon.Own label
  | .collect _ | .draft _ => True

/-- Nothing is outstanding, and the debouncer is at no window. -/
structure AtRest (drafted : Drafted) : Prop where
  draft : drafted.draft = none
  idle : Idle drafted.mailed.bySender

/-- What the debouncer can still do: an event in its channel costs more than one in its
window, that more than the actions it is mapped to. -/
def left (drafted : Drafted) : Nat :=
  drafted.mailed.processes.queue.length * 5 + drafted.draft.elim 0 Draft.left

variable (ext root) in
def work (drafted : Drafted) : Nat :=
  (drafted.view ext root).bySender.work root * 2 + drafted.left

/-- A process leaves the debouncer what it has to do. -/
theorem work_process (draft : Option Draft) (own : Daemon.Own label) (window : ∀ size, label ≠ .window size)
    (taken : Mailed.step ext root mailed label = some later) :
    work ext root ⟨later, draft⟩ < work ext root ⟨mailed, draft⟩ := by
  have unwatch : label ≠ .unwatch := by
    rintro rfl
    cases own
  have mine : Daemon.Own (label.onto (held ⟨mailed, draft⟩)) := by cases label <;> exact own
  have shrunk : (view ext root ⟨later, draft⟩).bySender.work root <
      (view ext root ⟨mailed, draft⟩).bySender.work root :=
    work_step mine (bySender_process ⟨mailed, draft⟩ window unwatch taken (fs_unchanged own.ne_change taken))
  have kept : left ⟨later, draft⟩ = left ⟨mailed, draft⟩ := by
    simp only [left, Debounced.queue_of_own own window taken]
  rw [work, work, kept]
  omega

theorem length_mapEvent {fs : Fs} (tame : Tame ext fs root) {entry : Option (Notice FileName)}
    (placed : ∀ notice ∈ entry, Placed fs root notice.path) :
    (mapEvent fs root.raw (eventOf root entry)).length ≤ 2 := by
  rw [mapEvent_entry tame placed]
  cases entry with
  | none => exact Nat.zero_le 2
  | some notice => simpa using length_noticeActions notice

theorem left_coalesced (overflow : Bool) (actions : List WatchAction) :
    (Draft.coalesced overflow actions).elim 0 Draft.left ≤ actions.length + 1 := by
  have most := length_coalesce actions
  rw [Draft.coalesced]
  split
  · exact Nat.zero_le _
  · simp only [Option.elim, Draft.left]
    omega

theorem work_of_view (same : after.view ext root = drafted.view ext root) (less : after.left < drafted.left) :
    after.work ext root < drafted.work ext root := by
  rw [work, work, same]
  omega

theorem work_decreases {label : Label} (drafting : Drafting ext root drafted) (own : Own label)
    (taken : drafted.step ext root label = some after) : after.work ext root < drafted.work ext root := by
  cases moves_of_step taken with
  | proceeds draft window unwatch moved => exact work_process draft own window moved
  | unwatches => cases own
  | @collects mailed size positive fitting =>
    refine work_of_view (view_collect size false 0 []) ?_
    simp only [left, Mailed.taking, Option.elim, Draft.left, List.length_drop, List.length_take,
      List.length_nil]
    omega
  | @maps events position mailed overflow actions inside =>
    have placed : ∀ notice, some notice ∈ events → Placed mailed.processes.fs root notice.path :=
      fun notice queued => drafting.tidy.placed notice (List.mem_append_left _ queued)
    have few : (mapEvent mailed.processes.fs root.raw (eventOf root events[position])).length ≤ 2 := by
      refine length_mapEvent drafting.tame fun notice same => placed notice ?_
      rw [← Option.mem_def.mp same]
      exact List.getElem_mem inside
    refine work_of_view rfl ?_
    simp only [left, Option.elim, Draft.left, List.length_append]
    omega
  | coalesces mailed events overflow actions =>
    have shrunk : (view ext root ⟨mailed.asking overflow, Draft.coalesced overflow actions⟩).bySender.work
        root < (view ext root ⟨mailed, some (.mapping events events.length overflow actions)⟩).bySender.work
          root :=
      work_step (show Daemon.Own (.window events.length) from trivial)
        (step_bySender (view_coalesce ext (drafting.fits _ rfl)))
    have most := left_coalesced overflow actions
    have before : left ⟨mailed, some (.mapping events events.length overflow actions)⟩ =
        mailed.processes.queue.length * 5 + actions.length := by simp [left, Draft.left]
    have after_ : left ⟨mailed.asking overflow, Draft.coalesced overflow actions⟩ =
        mailed.processes.queue.length * 5 + (Draft.coalesced overflow actions).elim 0 Draft.left := rfl
    rw [work, work, before, after_]
    omega
  | readsNote | readsTree =>
    refine work_of_view rfl ?_
    simp only [left, Option.elim, Draft.left, List.length_cons]
    omega
  | sends =>
    refine work_of_view rfl ?_
    simp only [left, Mailed.posting, Option.elim, Draft.left]
    omega

variable (ext) in
/-- A debouncer at work on a window can go on with it. -/
theorem act_step (draft : Draft) (fits : draft.Fits mailed.processes.fs root) :
    ∃ act next, step ext root ⟨mailed, some draft⟩ (.draft act) = some next := by
  cases draft with
  | mapping events position overflow actions =>
    rcases Nat.lt_or_eq_of_le fits.2.1 with inside | rfl
    · exact ⟨.map, _, Option.map_eq_some_iff.mpr ⟨_, List.getElem?_eq_getElem inside, rfl⟩⟩
    · exact ⟨.coalesce, _, if_pos rfl⟩
  | building overflow upserts upsertTrees batch =>
    cases upserts with
    | cons rel rest => exact ⟨.read, _, rfl⟩
    | nil =>
      cases upsertTrees with
      | cons dir rest => exact ⟨.read, _, rfl⟩
      | nil => exact ⟨.send, _, rfl⟩

theorem own_step_of_drafting (drafting : Drafting ext root drafted) (restless : ¬ AtRest drafted) :
    ∃ label next, Own label ∧ drafted.step ext root label = some next := by
  obtain ⟨mailed, draft⟩ := drafted
  cases draft with
  | some draft =>
    obtain ⟨act, next, taken⟩ := act_step ext draft (drafting.fits _ rfl)
    exact ⟨.draft act, next, trivial, taken⟩
  | none =>
    cases queue : mailed.processes.queue with
    | cons event rest =>
      have allowed : 0 < 1 ∧ 1 ≤ mailed.processes.queue.length := by simp [queue]
      exact ⟨.collect 1, _, trivial, if_pos allowed⟩
    | nil =>
      have alive : Alive mailed.bySender := drafting.alive
      obtain ⟨label, later, own, moved⟩ := own_step_of_mail ext root alive fun idle => restless ⟨rfl, idle⟩
      have mine : Own (.process label) := own
      cases label with
      | change | overflow | unwatch => cases own
      | window size =>
        obtain ⟨next, taken, _⟩ := Option.map_eq_some_iff.mp moved
        simp only [Daemon.step, queue, List.length_nil, Option.ite_none_right_eq_some] at taken
        omega
      | rescanNow | visit | finish | rebuild | batch | watch =>
        exact ⟨_, _, mine, Option.map_eq_some_iff.mpr ⟨later, moved, rfl⟩⟩

theorem no_step_of_rest {label : Label} (rest : AtRest drafted) (own : Own label) :
    drafted.step ext root label = none := by
  obtain ⟨mailed, draft⟩ := drafted
  obtain ⟨rfl, idle⟩ := rest
  have empty : mailed.processes.queue = [] := idle.queue
  cases label with
  | draft act => cases act <;> rfl
  | collect size =>
    refine if_neg ?_
    rw [empty, List.length_nil]
    omega
  | process label =>
    have own : Daemon.Own label := own
    cases label with
    | change | overflow | unwatch => cases own
    | window size => rfl
    | rescanNow | visit | finish | rebuild | batch | watch =>
      exact Option.map_eq_none_iff.mpr (no_mail_step_of_idle idle own)

theorem admissible_of_own {label : Label} (own : Own label) : Admissible ext root drafted label := by
  cases label with
  | process label => exact Daemon.admissible_of_own own
  | collect | draft => trivial

theorem fs_of_own {label : Label} (own : Own label) (taken : drafted.step ext root label = some after) :
    after.mailed.processes.fs = drafted.mailed.processes.fs := by
  cases moves_of_step taken with
  | proceeds draft window unwatch moved =>
    have mine : Daemon.Own _ := own
    exact fs_unchanged mine.ne_change moved
  | unwatches => cases own
  | collects | maps | coalesces | readsNote | readsTree | sends => rfl

theorem prepared_starting {fs : Fs} (tame : Tame ext fs root) : Prepared ext root (starting fs) := by
  have settling := settling_starting tame
  refine ⟨⟨settling.tidy, settling.alive, fun _ member => (by cases member), fun live => (by cases live),
    fun _ member => (by cases member)⟩, settling.assured, fun _ _ _ building => by cases building⟩

end Drafted

end

namespace Drafted

variable (ext : External) (root : Location)

/-- As for whole windows; and no walk ends while a late batch is being built. -/
def Calm (drafted : Drafted) : Label → Prop
  | .process .finish => ∀ draft ∈ drafted.draft, ¬ draft.Late
  | .process label => Daemon.Calm drafted.mailed label
  | .collect _ | .draft _ => True

instance (drafted : Drafted) (label : Label) : Decidable (Calm drafted label) :=
  match label with
  | .process .finish => inferInstanceAs (Decidable (∀ draft ∈ drafted.draft, ¬ draft.Late))
  | .process (.change change) => inferInstanceAs (Decidable (Daemon.Calm drafted.mailed (.change change)))
  | .process .unwatch => .isFalse id
  | .process (.overflow _) | .process (.window _) | .process .rescanNow | .process .visit
  | .process .rebuild | .process .batch | .process .watch => .isTrue trivial
  | .collect _ | .draft _ => .isTrue trivial

instance (drafted : Drafted) (label : Label) : Decidable (Admissible ext root drafted label) :=
  match label with
  | .process label => inferInstanceAs (Decidable (Daemon.Admissible ext root drafted.mailed.processes label))
  | .collect _ | .draft _ => .isTrue trivial

theorem Calm.undisturbed {ext : External} {root : Location} {drafted : Drafted} {label : Label}
    (calm : Calm drafted label) : Undisturbed ext root drafted label := by
  cases label with
  | collect | draft => trivial
  | process label =>
    cases label with
    | finish => exact .inr calm
    | unwatch => cases calm
    | overflow | window | rescanNow | visit | rebuild | batch | watch => trivial
    | change change =>
      have quiet : Daemon.Calm drafted.mailed (.change change) := calm
      have seen : Daemon.Calm (drafted.view ext root) (.change change) := by
        rw [Daemon.Calm, view_processes]
        exact quiet
      exact (seen.undisturbed : Daemon.Undisturbed ext root _ (.change change))

def upAndWatching : List Label :=
  [.process .visit, .process .visit, .process .visit, .process .finish, .process .rebuild, .process .watch]

/-- The note is removed and created anew, and only the first event of it is kept. -/
def removal : List Label :=
  upAndWatching ++ [.process (.change (.remove notePlace)),
    .process (.change (.create notePlace (plainFile "new"))),
    .process (.overflow [some (.vanished [folderName, noteName])])]

def removalEnd : Drafted :=
  (run (step .bare [vaultName]) (starting oneNote) removal).get (by decide +kernel)

/-- The walk that finds it again ends before the batch of the removal is cast. -/
def removalAlone : List Label :=
  [.collect 2, .draft .map, .draft .map, .draft .coalesce, .process .rescanNow, .process .visit,
    .process .visit, .process .visit, .process .finish, .process .rebuild, .draft .send, .process .batch]

def removalRest : Drafted :=
  (run (step .bare [vaultName]) removalEnd removalAlone).get (by decide +kernel)

theorem late_batch_overrules :
    Meets (step .bare [vaultName]) (fun drafted label =>
        Admissible .bare [vaultName] drafted label ∧ Calm drafted label) (starting oneNote) removal ∧
      run (step .bare [vaultName]) (starting oneNote) removal = some removalEnd ∧
      (∀ label ∈ removalAlone, Own label) ∧
      run (step .bare [vaultName]) removalEnd removalAlone = some removalRest ∧ AtRest removalRest ∧
      removalRest.mailed.processes.store.get "D/x.md".toList = none ∧
      ((scanned .bare removalEnd.mailed.processes.fs [vaultName]).get "D/x.md".toList).map Note.body =
        some "new".toList :=
  ⟨by decide +kernel, (Option.some_get _).symm, by simp [removalAlone, Own, Daemon.Own],
    (Option.some_get _).symm,
    ⟨Option.isNone_iff_eq_none.mp (by decide +kernel), idle_of_empty (by decide +kernel) (by decide +kernel)⟩,
    Option.isNone_iff_eq_none.mp (by decide +kernel), by decide +kernel⟩

end Drafted

end Anwesen.Daemon

import Anwesen.Foundation.FileTree

/-! Mirroring the leaves of a tree from notices that name a path.

A notice names the path of one operation and nothing below it, and it is read
later than the operation. The mirror converges because whatever it holds wrongly
lies at or below a path that an unread notice names. Everything the consumer of
the notices does is taken as the four laws of `Window`, everything an operation
does as the laws of `Shift`.
-/

set_option autoImplicit false

namespace Anwesen.Foundation

variable {Name Leaf Value : Type}

/-- The nodes of a tree seen from some directory. -/
structure View (Name Leaf : Type) where
  lookup : List Name → Option (Node Leaf)
  ancestor : ∀ {outer inner : List Name} {node : Node Leaf}, lookup inner = some node →
    outer <+: inner → outer ≠ inner → lookup outer = some .dir

/-- One side of a rename is `renamed` where its direction is not known. -/
inductive Notice (Name : Type) where
  | changed (path : List Name)
  | appeared (path : List Name)
  | vanished (path : List Name)
  | renamed (path : List Name)
  deriving DecidableEq

namespace Notice

def path : Notice Name → List Name
  | .changed path | .appeared path | .vanished path | .renamed path => path

def Touches (notice : Notice Name) (target : List Name) : Prop := notice.path <+: target

/-- What stood at the path may have left it. -/
def Leaves : Notice Name → Prop
  | .vanished _ | .renamed _ => True
  | _ => False

variable (view : View Name Leaf)

/-- A reader of the notice takes in what now stands at the target. -/
def Announces (target : List Name) : Notice Name → Prop
  | .changed path => path = target
  | .appeared path | .renamed path => path <+: target
  | .vanished _ => False

/-- A reader of the notice forgets what it held at the target. -/
def Drops (target : List Name) : Notice Name → Prop
  | .changed _ => False
  | .appeared path => view.lookup path = some .dir ∧ path <+: target ∧ path ≠ target
  | .vanished path => path <+: target
  | .renamed path => path <+: target ∧
      (view.lookup path = none ∨ view.lookup path = some .dir ∧ path ≠ target)

/-- A reader of the notice looks for a leaf at the target itself. -/
def Reads (target : List Name) : Notice Name → Prop
  | .changed path => path = target
  | .appeared path => path = target ∧ view.lookup path ≠ some .dir
  | .renamed path => path = target ∧ (view.lookup path).isSome = true ∧ view.lookup path ≠ some .dir
  | .vanished _ => False

end Notice

section Mirror

variable (eligible : List Name → Prop) (load : List Name → Leaf → Option Value)

/-- What a mirror of the tree should hold at a path. -/
def current (view : View Name Leaf) (path : List Name) : Option Value :=
  match view.lookup path with
  | some (.leaf content) => load path content
  | _ => none

/-- Every eligible leaf has a value. -/
def Loads (view : View Name Leaf) : Prop :=
  ∀ path content, eligible path → view.lookup path = some (.leaf content) →
    (load path content).isSome = true

/-- What reading a list of notices at once does to the mirror. -/
structure Window (view : View Name Leaf) (notices : List (Notice Name))
    (held held' : List Name → Option Value) : Prop where
  untouched : ∀ path, eligible path → (∀ notice ∈ notices, ¬ notice.Touches path) →
    held' path = held path
  announced : ∀ path value before notice after, eligible path →
    notices = before ++ notice :: after → notice.Announces path →
    (∀ later ∈ after, ¬ later.Touches path) → current load view path = some value →
    held' path = some value
  dropped : ∀ path before notice after, eligible path → notices = before ++ notice :: after →
    notice.Drops view path → (∀ later ∈ after, ¬ later.Reads view path) →
    current load view path = none → held' path = none
  kept : ∀ path value, eligible path → held' path = some value →
    current load view path = some value ∨ held path = some value

def SameKind (first second : Option (Node Leaf)) : Prop :=
  (first = some .dir ∧ second = some .dir) ∨
    ∃ old new, first = some (.leaf old) ∧ second = some (.leaf new)

/-- What one operation on the tree does, and what its notices name. -/
structure Shift (view view' : View Name Leaf) (notices : List (Notice Name)) : Prop where
  quiet : ∀ path, (∀ notice ∈ notices, ¬ notice.Touches path) →
    view'.lookup path = view.lookup path
  gone : ∀ target before path after, notices = before ++ .vanished path :: after →
    path <+: target → (∀ later ∈ after, ¬ later.Touches target) → view'.lookup target = none
  arrived : ∀ path, (∃ notice ∈ notices, notice.Touches path) →
    (∀ notice ∈ notices, notice.Touches path → ¬ notice.Leaves) →
    view.lookup path = none ∨ SameKind (view.lookup path) (view'.lookup path)
  appeared : ∀ path, Notice.appeared path ∈ notices → (view'.lookup path).isSome = true
  changed : ∀ path, Notice.changed path ∈ notices → ∃ content, view'.lookup path = some (.leaf content)

/-- Everything the mirror holds wrongly is accounted for by an unread notice. -/
structure Covered (view : View Name Leaf) (queue : List (Notice Name))
    (held : List Name → Option Value) : Prop where
  stale : ∀ path, eligible path → (∀ notice ∈ queue, ¬ notice.Touches path) →
    held path = current load view path
  gone : ∀ target before path after, queue = before ++ .vanished path :: after →
    path <+: target → (∀ later ∈ after, ¬ later.Touches target) → view.lookup target = none
  left : ∀ path value, eligible path → current load view path = none → held path = some value →
    ∃ notice ∈ queue, notice.Touches path ∧ notice.Leaves
  appeared : ∀ before path after, queue = before ++ .appeared path :: after →
    (view.lookup path).isSome = true ∨ ∃ later ∈ after, later.Touches path ∧ later.Leaves
  changed : ∀ before path after, queue = before ++ .changed path :: after →
    (∃ content, view.lookup path = some (.leaf content)) ∨
      ∃ later ∈ after, later.Touches path ∧ later.Leaves

/-- A stale path that the window clears, or that stays accounted for after it. -/
def Cleared (view : View Name Leaf) (window rest : List (Notice Name)) (path : List Name) : Prop :=
  (∃ before notice after, window = before ++ notice :: after ∧ notice.Drops view path ∧
    ∀ later ∈ after, ¬ later.Reads view path) ∨
  ∃ notice ∈ rest, notice.Touches path ∧ notice.Leaves

/-- No window reads an undirected rename notice whose name is taken again by a node
of the other kind while the mirror still holds a value of the old kind. -/
def Resolved (view : View Name Leaf) (window rest : List (Notice Name))
    (held : List Name → Option Value) : Prop :=
  ∀ path target, Notice.renamed path ∈ window → eligible target → (held target).isSome = true →
    ((view.lookup path = some .dir ∧ path = target) ∨
      ((∃ content, view.lookup path = some (.leaf content)) ∧ path <+: target ∧ path ≠ target)) →
    Cleared view window rest target

variable {eligible load}

theorem not_leaf_of_current {view : View Name Leaf} (loads : Loads eligible load view)
    {path : List Name} (wanted : eligible path) (empty : current load view path = none)
    (content : Leaf) : view.lookup path ≠ some (.leaf content) := by
  intro leaf
  have some_ := loads path content wanted leaf
  simp only [current, leaf] at empty
  rw [empty] at some_
  cases some_

theorem leaf_of_current {view : View Name Leaf} {path : List Name} {value : Value}
    (present : current load view path = some value) :
    ∃ content, view.lookup path = some (.leaf content) := by
  unfold current at present
  split at present
  · rename_i content leaf
    exact ⟨content, leaf⟩
  · cases present

variable {view view' : View Name Leaf} {held held' : List Name → Option Value}

theorem covered_nil (agree : ∀ path, eligible path → held path = current load view path) :
    Covered eligible load view [] held where
  stale path wanted _ := agree path wanted
  gone _ before _ after split := by simp at split
  left path value wanted empty found := by
    rw [agree path wanted, empty] at found
    cases found
  appeared before _ after split := by simp at split
  changed before _ after split := by simp at split

theorem Covered.agree (covered : Covered eligible load view [] held) {path : List Name}
    (wanted : eligible path) : held path = current load view path :=
  covered.stale path wanted (by simp)

/-- An element of two joined lists lies in the first or in the second one. -/
theorem append_eq_around {α : Type} {first second before after : List α} {item : α}
    (split : first ++ second = before ++ item :: after) :
    (∃ middle, first = before ++ item :: middle ∧ after = middle ++ second) ∨
      ∃ middle, second = middle ++ item :: after := by
  rcases List.append_eq_append_iff.mp split with ⟨middle, _, tail⟩ | ⟨middle, same, tail⟩
  · exact .inr ⟨middle, tail⟩
  · cases middle with
    | nil => exact .inr ⟨[], tail.symm⟩
    | cons head middle =>
      obtain ⟨rfl, rfl⟩ := List.cons.inj tail
      exact .inl ⟨middle, same, rfl⟩

/-! One operation on the tree. -/

theorem current_of_lookup {path : List Name} (same : view'.lookup path = view.lookup path) :
    current load view' path = current load view path := by
  simp only [current, same]

theorem SameKind.isSome {first second : Option (Node Leaf)} (same : SameKind first second) :
    second.isSome = true := by
  rcases same with ⟨_, rfl⟩ | ⟨_, _, _, rfl⟩ <;> rfl

/-- A path that an operation touches was empty, kept its kind, or a notice says it may be gone. -/
theorem Shift.cases {notices : List (Notice Name)} (shift : Shift view view' notices)
    (path : List Name) :
    view'.lookup path = view.lookup path ∨
      (∃ notice ∈ notices, notice.Touches path ∧ notice.Leaves) ∨
      view.lookup path = none ∨ SameKind (view.lookup path) (view'.lookup path) := by
  by_cases touched : ∃ notice ∈ notices, notice.Touches path
  · by_cases leaves : ∃ notice ∈ notices, notice.Touches path ∧ notice.Leaves
    · exact .inr (.inl leaves)
    · exact .inr (.inr (shift.arrived path touched fun notice member touches left =>
        leaves ⟨notice, member, touches, left⟩))
  · exact .inl (shift.quiet path fun notice member touches => touched ⟨notice, member, touches⟩)

theorem covered_shift {queue notices : List (Notice Name)}
    (loads : Loads eligible load view') (shift : Shift view view' notices)
    (covered : Covered eligible load view queue held) :
    Covered eligible load view' (queue ++ notices) held where
  stale path wanted untouched := by
    have quiet := shift.quiet path fun notice member =>
      untouched notice (List.mem_append_right _ member)
    rw [current_of_lookup quiet]
    exact covered.stale path wanted fun notice member =>
      untouched notice (List.mem_append_left _ member)
  gone target before path after split above untouched := by
    rcases append_eq_around split with ⟨middle, same, rfl⟩ | ⟨middle, same⟩
    · rw [shift.quiet target fun notice member => untouched notice (List.mem_append_right _ member)]
      exact covered.gone target before path middle same above fun notice member =>
        untouched notice (List.mem_append_left _ member)
    · exact shift.gone target middle path after same above untouched
  left path value wanted empty found := by
    -- a value held for an empty path was wrong before the operation, unless the node left now
    have before : current load view path = none → ∃ notice ∈ queue ++ notices,
        notice.Touches path ∧ notice.Leaves := fun emptyBefore => by
      obtain ⟨notice, member, touches⟩ := covered.left path value wanted emptyBefore found
      exact ⟨notice, List.mem_append_left _ member, touches⟩
    rcases shift.cases path with same | ⟨notice, member, touches⟩ | missing | kind
    · exact before (by rwa [current_of_lookup same] at empty)
    · exact ⟨notice, List.mem_append_right _ member, touches⟩
    · exact before (by simp [current, missing])
    · rcases kind with ⟨directory, _⟩ | ⟨_, content, _, leaf⟩
      · exact before (by simp [current, directory])
      · exact absurd leaf (not_leaf_of_current loads wanted empty content)
  appeared before path after split := by
    rcases append_eq_around split with ⟨middle, same, rfl⟩ | ⟨middle, same⟩
    · rcases covered.appeared before path middle same with present | ⟨later, member, touches⟩
      · rcases shift.cases path with quiet | ⟨notice, member, touches⟩ | missing | kind
        · exact .inl (quiet ▸ present)
        · exact .inr ⟨notice, List.mem_append_right _ member, touches⟩
        · rw [missing] at present
          cases present
        · exact .inl kind.isSome
      · exact .inr ⟨later, List.mem_append_left _ member, touches⟩
    · exact .inl (shift.appeared path (by simp [same]))
  changed before path after split := by
    rcases append_eq_around split with ⟨middle, same, rfl⟩ | ⟨middle, same⟩
    · rcases covered.changed before path middle same with ⟨content, leaf⟩ | ⟨later, member, touches⟩
      · rcases shift.cases path with quiet | ⟨notice, member, touches⟩ | missing | kind
        · exact .inl ⟨content, quiet.trans leaf⟩
        · exact .inr ⟨notice, List.mem_append_right _ member, touches⟩
        · rw [missing] at leaf
          cases leaf
        · rcases kind with ⟨directory, _⟩ | ⟨_, new, _, after⟩
          · rw [directory] at leaf
            cases leaf
          · exact .inl ⟨new, after⟩
      · exact .inr ⟨later, List.mem_append_left _ member, touches⟩
    · exact .inl (shift.changed path (by simp [same]))

/-! One window. -/

/-- A read of a path that holds no leaf is followed by a notice that it may be gone. -/
theorem Covered.read_followed {queue : List (Notice Name)} (loads : Loads eligible load view)
    (covered : Covered eligible load view queue held) {path : List Name} (wanted : eligible path)
    (empty : current load view path = none) {before after : List (Notice Name)}
    {notice : Notice Name} (split : queue = before ++ notice :: after)
    (reads : notice.Reads view path) : ∃ later ∈ after, later.Touches path ∧ later.Leaves := by
  have noLeaf := not_leaf_of_current loads wanted empty
  cases notice with
  | changed other =>
    obtain rfl : other = path := reads
    exact (covered.changed before other after split).resolve_left fun ⟨content, leaf⟩ =>
      noLeaf content leaf
  | appeared other =>
    obtain ⟨rfl, notDir⟩ := reads
    refine (covered.appeared before other after split).resolve_left fun present => ?_
    obtain ⟨node, found⟩ := Option.isSome_iff_exists.mp present
    cases node with
    | dir => exact notDir found
    | leaf content => exact noLeaf content found
  | renamed other =>
    obtain ⟨rfl, present, notDir⟩ := reads
    obtain ⟨node, found⟩ := Option.isSome_iff_exists.mp present
    cases node with
    | dir => exact absurd found notDir
    | leaf content => exact absurd found (noLeaf content)
  | vanished other => cases reads

/-- A path that a read notice says may be gone is dropped, or accounted for afterwards. -/
theorem swept {window rest : List (Notice Name)} (loads : Loads eligible load view)
    (covered : Covered eligible load view (window ++ rest) held)
    (effect : Window eligible load view window held held')
    (resolved : Resolved eligible view window rest held) {path : List Name} (wanted : eligible path)
    (empty : current load view path = none) (present : (held path).isSome = true)
    {before after : List (Notice Name)} {notice : Notice Name}
    (split : window = before ++ notice :: after) (touches : notice.Touches path)
    (leaves : notice.Leaves) :
    held' path = none ∨ ∃ later ∈ rest, later.Touches path ∧ later.Leaves := by
  -- the induction is on the notices that are read after the one found
  induction size : after.length using Nat.strong_induction_on generalizing before notice after with
  | _ size ih =>
    subst size
    have dropping : notice.Drops view path →
        held' path = none ∨ ∃ later ∈ rest, later.Touches path ∧ later.Leaves := by
      intro drops
      -- a later read could undo the drop, but then a still later notice says the path may be gone
      by_cases reads : ∃ later ∈ after, later.Reads view path
      · obtain ⟨reader, member, reads⟩ := reads
        obtain ⟨first, second, rfl⟩ := List.append_of_mem member
        have whole : window ++ rest = (before ++ notice :: first) ++ reader :: (second ++ rest) := by
          simp [split]
        obtain ⟨later, member, touches, leaves⟩ :=
          covered.read_followed loads wanted empty whole reads
        rcases List.mem_append.mp member with inside | outside
        · obtain ⟨inner, tail, rfl⟩ := List.append_of_mem inside
          have further : window =
              (before ++ notice :: (first ++ reader :: inner)) ++ later :: tail := by simp [split]
          have fewer : tail.length < (first ++ reader :: (inner ++ later :: tail)).length := by
            simp only [List.length_append, List.length_cons]
            omega
          exact ih tail.length fewer further touches leaves rfl
        · exact .inr ⟨later, outside, touches, leaves⟩
      · exact .inl (effect.dropped path before notice after wanted split drops
          (fun later member reading => reads ⟨later, member, reading⟩) empty)
    -- where the name is taken again by the other kind the condition on the run has to help
    have clearing : Cleared view window rest path →
        held' path = none ∨ ∃ later ∈ rest, later.Touches path ∧ later.Leaves := by
      rintro (⟨before, notice, after, split, drops, quiet⟩ | remains)
      · exact .inl (effect.dropped path before notice after wanted split drops quiet empty)
      · exact .inr remains
    cases notice with
    | changed other => cases leaves
    | appeared other => cases leaves
    | vanished other => exact dropping touches
    | renamed other =>
      have member : Notice.renamed other ∈ window := by simp [split]
      cases found : view.lookup other with
      | none => exact dropping ⟨touches, .inl found⟩
      | some node =>
        by_cases same : other = path
        · cases node with
          | dir => exact clearing (resolved other path member wanted present (.inl ⟨found, same⟩))
          | leaf content =>
            exact absurd (same ▸ found) (not_leaf_of_current loads wanted empty content)
        · cases node with
          | dir => exact dropping ⟨touches, .inr ⟨found, same⟩⟩
          | leaf content =>
            exact clearing (resolved other path member wanted present
              (.inr ⟨⟨content, found⟩, touches, same⟩))

/-- The last element of a list with a property, and the elements after it. -/
theorem last_with {α : Type} (property : α → Prop) {items : List α}
    (some_ : ∃ item ∈ items, property item) :
    ∃ before item after, items = before ++ item :: after ∧ property item ∧
      ∀ later ∈ after, ¬ property later := by
  induction items with
  | nil => simp at some_
  | cons head rest ih =>
    by_cases later : ∃ item ∈ rest, property item
    · obtain ⟨before, item, after, rfl, holds, last⟩ := ih later
      exact ⟨head :: before, item, after, rfl, holds, last⟩
    · obtain ⟨item, member, holds⟩ := some_
      rcases List.mem_cons.mp member with rfl | member
      · exact ⟨[], item, rest, rfl, holds, fun other member holds => later ⟨other, member, holds⟩⟩
      · exact absurd ⟨item, member, holds⟩ later

/-- A value that outlives its path and the window has a notice outside the window. -/
theorem left_window {window rest : List (Notice Name)} (loads : Loads eligible load view)
    (effect : Window eligible load view window held held')
    (resolved : Resolved eligible view window rest held)
    (covered : Covered eligible load view (window ++ rest) held) {path : List Name} {value : Value}
    (wanted : eligible path) (empty : current load view path = none) (found : held' path = some value) :
    ∃ leaver ∈ rest, leaver.Touches path ∧ leaver.Leaves := by
  -- nothing loads there, so the value is an old one and a notice says the path may be gone
  have old := (effect.kept path value wanted found).resolve_left (by simp [empty])
  obtain ⟨leaver, member, names, leaves⟩ := covered.left path value wanted empty old
  rcases List.mem_append.mp member with inside | outside
  · obtain ⟨first, second, split⟩ := List.append_of_mem inside
    exact (swept loads covered effect resolved wanted empty (by simp [old]) split names
      leaves).resolve_left (by simp [found])
  · exact ⟨leaver, outside, names, leaves⟩

theorem covered_window {window rest : List (Notice Name)} (loads : Loads eligible load view)
    (effect : Window eligible load view window held held')
    (resolved : Resolved eligible view window rest held)
    (covered : Covered eligible load view (window ++ rest) held) :
    Covered eligible load view rest held' where
  stale path wanted untouched := by
    by_cases read : ∃ notice ∈ window, notice.Touches path
    · -- the last notice that touches the path decides what the window leaves there
      obtain ⟨before, notice, after, split, touches, last⟩ := last_with _ read
      have whole : window ++ rest = before ++ notice :: (after ++ rest) := by simp [split]
      have quiet : ∀ later ∈ after ++ rest, ¬ later.Touches path := by
        intro later member
        exact (List.mem_append.mp member).elim (last later) (untouched later)
      cases present : current load view path with
      | some value =>
        refine effect.announced path value before notice after wanted split ?_ last present
        obtain ⟨content, leaf⟩ := leaf_of_current present
        cases notice with
        | vanished other =>
          rw [covered.gone path before other _ whole touches quiet] at leaf
          cases leaf
        | appeared other => exact touches
        | renamed other => exact touches
        | changed other =>
          rcases covered.changed before other _ whole with ⟨old, there⟩ | ⟨later, member, names, _⟩
          · by_contra different
            have directory : view.lookup other = some .dir := view.ancestor leaf touches different
            rw [directory] at there
            cases there
          · exact absurd (names.trans touches) (quiet later member)
      | none =>
        by_contra holds
        obtain ⟨value, found⟩ := Option.ne_none_iff_exists'.mp holds
        obtain ⟨leaver, member, names, -⟩ := left_window loads effect resolved covered wanted present found
        exact untouched leaver member names
    · rw [effect.untouched path wanted fun notice member touches => read ⟨notice, member, touches⟩]
      refine covered.stale path wanted fun notice member touches => ?_
      rcases List.mem_append.mp member with inside | outside
      · exact read ⟨notice, inside, touches⟩
      · exact untouched notice outside touches
  gone target before path after split :=
    covered.gone target (window ++ before) path after (by simp [split])
  left _ _ wanted empty found := left_window loads effect resolved covered wanted empty found
  appeared before path after split :=
    covered.appeared (window ++ before) path after (by simp [split])
  changed before path after split :=
    covered.changed (window ++ before) path after (by simp [split])

end Mirror

/-! The operations that move nodes: one side may lie outside what is mirrored. -/

structure Move (view view' : View Name Leaf) (source target : Option (List Name)) : Prop where
  quiet : ∀ path, (∀ from_ ∈ source, ¬ from_ <+: path) → (∀ to_ ∈ target, ¬ to_ <+: path) →
    view'.lookup path = view.lookup path
  gone : ∀ from_ ∈ source, ∀ path, from_ <+: path → (∀ to_ ∈ target, ¬ to_ <+: path) →
    view'.lookup path = none
  arrived : ∀ to_ ∈ target, ∀ path, to_ <+: path → (∀ from_ ∈ source, ¬ from_ <+: path) →
    view.lookup path = none ∨ SameKind (view.lookup path) (view'.lookup path)
  here : ∀ to_ ∈ target, (view'.lookup to_).isSome = true

variable {view view' : View Name Leaf} {source target : Option (List Name)}

/-- The notices of a move whose direction is known. -/
def directed (source target : Option (List Name)) : List (Notice Name) :=
  (source.map .vanished).toList ++ (target.map .appeared).toList

def undirected (source target : Option (List Name)) : List (Notice Name) :=
  (source.map .renamed).toList ++ (target.map .renamed).toList

theorem mem_directed {notice : Notice Name} : notice ∈ directed source target ↔
    (∃ from_ ∈ source, notice = .vanished from_) ∨ ∃ to_ ∈ target, notice = .appeared to_ := by
  cases source <;> cases target <;> simp [directed]

theorem mem_undirected {notice : Notice Name} : notice ∈ undirected source target ↔
    (∃ from_ ∈ source, notice = .renamed from_) ∨ ∃ to_ ∈ target, notice = .renamed to_ := by
  cases source <;> cases target <;> simp [undirected]

theorem Move.shift_directed (move : Move view view' source target) :
    Shift view view' (directed source target) where
  quiet path untouched := move.quiet path
    (fun from_ known => untouched (.vanished from_) (mem_directed.mpr (.inl ⟨from_, known, rfl⟩)))
    fun to_ known => untouched (.appeared to_) (mem_directed.mpr (.inr ⟨to_, known, rfl⟩))
  gone path before from_ after split above untouched := by
    have known : from_ ∈ source := by
      have member : Notice.vanished from_ ∈ directed source target := by simp [split]
      simpa [mem_directed] using member
    refine move.gone from_ known path above fun to_ arriving => ?_
    obtain rfl : source = some from_ := known
    obtain rfl : target = some to_ := arriving
    refine untouched (.appeared to_) ?_
    -- the vanished side is listed first
    cases before with
    | nil =>
      have rest := (List.cons.inj split).2
      simp [← rest]
    | cons head before => cases before <;> simp [directed] at split
  arrived path touched stays := by
    have away : ∀ from_ ∈ source, ¬ from_ <+: path := fun from_ known above =>
      stays (.vanished from_) (mem_directed.mpr (.inl ⟨from_, known, rfl⟩)) above trivial
    obtain ⟨notice, member, touches⟩ := touched
    rcases mem_directed.mp member with ⟨from_, known, rfl⟩ | ⟨to_, known, rfl⟩
    · exact absurd touches (away from_ known)
    · exact move.arrived to_ known path touches away
  appeared path member := move.here path (by simpa [mem_directed] using member)
  changed path member := by simp [mem_directed] at member

/-- Notices that come twice say nothing new. -/
theorem Shift.doubled {notices : List (Notice Name)} (shift : Shift view view' notices) :
    Shift view view' (notices ++ notices) where
  quiet path untouched := shift.quiet path fun notice member =>
    untouched notice (List.mem_append_left _ member)
  gone target before path after split above untouched := by
    rcases append_eq_around split with ⟨middle, first, rfl⟩ | ⟨middle, second⟩
    · -- the first copy is followed by the second, which holds the same notice
      have again : Notice.vanished path ∈ notices := by simp [first]
      exact absurd above (untouched (.vanished path) (List.mem_append_right _ again))
    · exact shift.gone target middle path after second above untouched
  arrived path touched stays := by
    obtain ⟨notice, member, touches⟩ := touched
    exact shift.arrived path ⟨notice, (List.mem_append.mp member).elim id id, touches⟩
      fun other listed => stays other (List.mem_append_left _ listed)
  appeared path member := shift.appeared path ((List.mem_append.mp member).elim id id)
  changed path member := shift.changed path ((List.mem_append.mp member).elim id id)

theorem Move.shift_undirected (move : Move view view' source target) :
    Shift view view' (undirected source target) where
  quiet path untouched := move.quiet path
    (fun from_ known => untouched (.renamed from_) (mem_undirected.mpr (.inl ⟨from_, known, rfl⟩)))
    fun to_ known => untouched (.renamed to_) (mem_undirected.mpr (.inr ⟨to_, known, rfl⟩))
  gone path before from_ after split := by
    have member : Notice.vanished from_ ∈ undirected source target := by simp [split]
    simp [mem_undirected] at member
  arrived path touched stays := by
    obtain ⟨notice, member, touches⟩ := touched
    -- each side of an undirected rename may be the one that left
    have leaves : notice.Leaves := by
      rcases mem_undirected.mp member with ⟨from_, _, rfl⟩ | ⟨to_, _, rfl⟩ <;> trivial
    exact absurd leaves (stays notice member touches)
  appeared path member := by simp [mem_undirected] at member
  changed path member := by simp [mem_undirected] at member

/-- New content in a leaf. -/
theorem shift_changed {path : List Name} {old new : Leaf}
    (before : view.lookup path = some (.leaf old)) (after : view'.lookup path = some (.leaf new))
    (quiet : ∀ other, other ≠ path → view'.lookup other = view.lookup other) :
    Shift view view' [.changed path] where
  quiet other untouched := quiet other fun same =>
    untouched (.changed path) List.mem_cons_self (same ▸ List.prefix_refl _)
  gone _ before other after split := by
    have member : Notice.vanished other ∈ [Notice.changed path] := by simp [split]
    simp at member
  arrived other touched _ := by
    obtain ⟨notice, member, touches⟩ := touched
    rw [List.mem_singleton] at member
    subst member
    by_cases same : path = other
    · exact .inr (.inr ⟨old, new, same ▸ before, same ▸ after⟩)
    · cases found : view.lookup other with
      | none => exact .inl rfl
      | some node =>
        -- below a leaf nothing stands
        have directory : view.lookup path = some .dir := view.ancestor found touches same
        rw [before] at directory
        cases directory
  appeared _ member := by simp at member
  changed other member := by
    simp only [List.mem_singleton, Notice.changed.injEq] at member
    exact ⟨new, member ▸ after⟩

end Anwesen.Foundation

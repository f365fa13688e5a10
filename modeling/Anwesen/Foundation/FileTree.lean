import Mathlib.Data.List.Infix
import Mathlib.Data.List.Nodup

/-! Finite trees of named nodes, held as a prefix-closed list of paths.

The listing order of the entries stands for whatever order a directory walk
reports. Every lookup law is stated for all paths, so that a client never
unfolds an operation.
-/

set_option autoImplicit false

namespace Anwesen.Foundation

inductive Node (Leaf : Type) where
  | dir
  | leaf (content : Leaf)
  deriving DecidableEq, Repr

/-- The root directory is implicit; every other entry hangs below a directory. -/
structure FileTree (Name Leaf : Type) where
  entries : List (List Name × Node Leaf)
  unique : (entries.map Prod.fst).Nodup
  rooted : ∀ entry ∈ entries,
    entry.1 ≠ [] ∧ (entry.1.dropLast = [] ∨ (entry.1.dropLast, Node.dir) ∈ entries)

/-- A node with everything below it, the paths relative to the node. -/
structure Subtree (Name Leaf : Type) where
  node : Node Leaf
  below : FileTree Name Leaf
  leafless : ∀ content, node = .leaf content → below.entries = []

variable {Name Leaf : Type} [DecidableEq Name]

namespace FileTree

def empty : FileTree Name Leaf := ⟨[], by simp, by simp⟩

def lookup (tree : FileTree Name Leaf) (path : List Name) : Option (Node Leaf) :=
  if path = [] then some .dir
  else (tree.entries.find? fun entry => decide (entry.1 = path)).map Prod.snd

@[simp] theorem lookup_root (tree : FileTree Name Leaf) : tree.lookup [] = some .dir := rfl

theorem find_unique {entries : List (List Name × Node Leaf)}
    (unique : (entries.map Prod.fst).Nodup) {path : List Name} {node : Node Leaf} :
    (entries.find? fun entry => decide (entry.1 = path)).map Prod.snd = some node ↔
      (path, node) ∈ entries := by
  induction entries with
  | nil => simp
  | cons head rest ih =>
    obtain ⟨headPath, headNode⟩ := head
    simp only [List.map_cons, List.nodup_cons] at unique
    by_cases same : headPath = path
    · subst same
      have fresh : (headPath, node) ∉ rest := fun member =>
        unique.1 (List.mem_map.mpr ⟨_, member, rfl⟩)
      simp [fresh, eq_comm]
    · rw [List.find?_cons_of_neg (by simpa using same), ih unique.2]
      simp [Ne.symm same]

theorem lookup_eq_some {tree : FileTree Name Leaf} {path : List Name} (below : path ≠ [])
    {node : Node Leaf} : tree.lookup path = some node ↔ (path, node) ∈ tree.entries := by
  rw [lookup, if_neg below]
  exact find_unique tree.unique

theorem lookup_of_mem {tree : FileTree Name Leaf} {path : List Name} {node : Node Leaf}
    (member : (path, node) ∈ tree.entries) : tree.lookup path = some node :=
  (lookup_eq_some (tree.rooted _ member).1).mpr member

theorem lookup_dropLast {tree : FileTree Name Leaf} {path : List Name} {node : Node Leaf}
    (below : path ≠ []) (found : tree.lookup path = some node) :
    tree.lookup path.dropLast = some .dir := by
  rcases (tree.rooted _ ((lookup_eq_some below).mp found)).2 with top | parent
  · simp only at top
    rw [top]
    rfl
  · exact lookup_of_mem parent

/-- Every proper ancestor of an entry is a directory. -/
theorem lookup_ancestor {tree : FileTree Name Leaf} {ancestor path : List Name} {node : Node Leaf}
    (found : tree.lookup path = some node) (above : ancestor <+: path) (proper : ancestor ≠ path) :
    tree.lookup ancestor = some .dir := by
  obtain ⟨tail, rfl⟩ := above
  -- the induction takes names off the far end: the parent is known to be a directory there
  induction tail using List.reverseRecOn generalizing node with
  | nil => exact absurd (List.append_nil ancestor).symm proper
  | append_singleton tail last ih =>
    have parent := lookup_dropLast (by simp) found
    rw [← List.append_assoc, List.dropLast_concat] at parent
    by_cases deeper : tail = []
    · subst deeper
      simpa using parent
    · exact ih parent (fun same => deeper (by simpa using same))

/-- What stands on the way to something is a directory. -/
theorem lookup_above {tree : FileTree Name Leaf} {base outer inner : List Name} {node : Node Leaf}
    (above : outer <+: inner) (found : tree.lookup (base ++ inner) = some node) :
    outer = inner ∨ tree.lookup (base ++ outer) = some .dir := by
  by_cases here : outer = inner
  · exact .inl here
  · exact .inr (lookup_ancestor found ((List.prefix_append_right_inj base).mpr above)
      fun same => here (List.append_cancel_left same))

/-- Below a leaf there is nothing. -/
theorem lookup_under_leaf {tree : FileTree Name Leaf} {path inner : List Name} {content : Leaf}
    (found : tree.lookup path = some (.leaf content)) (above : path <+: inner)
    (proper : path ≠ inner) : tree.lookup inner = none := by
  cases present : tree.lookup inner with
  | none => rfl
  | some node =>
    have directory := lookup_ancestor present above proper
    rw [found] at directory
    cases directory

/-! Dropping a node with everything below it. -/

def remove (tree : FileTree Name Leaf) (path : List Name) : FileTree Name Leaf where
  entries := tree.entries.filter fun entry => decide (¬ path <+: entry.1)
  unique := (List.filter_sublist.map Prod.fst).nodup tree.unique
  rooted := by
    intro entry member
    simp only [List.mem_filter, decide_eq_true_eq] at member ⊢
    obtain ⟨nonempty, parent⟩ := tree.rooted entry member.1
    refine ⟨nonempty, parent.imp_right fun listed => ⟨listed, fun above => member.2 ?_⟩⟩
    exact above.trans (List.dropLast_prefix _)

theorem lookup_remove (tree : FileTree Name Leaf) {path : List Name} (below : path ≠ [])
    (inner : List Name) :
    (tree.remove path).lookup inner = if path <+: inner then none else tree.lookup inner := by
  by_cases root : inner = []
  · subst root
    rw [if_neg (fun above => below (List.prefix_nil.mp above))]
    rfl
  · apply Option.ext
    intro node
    rw [lookup_eq_some root]
    by_cases above : path <+: inner
    · simp [remove, above]
    · rw [if_neg above, lookup_eq_some root]
      simp [remove, above]

/-! Taking a node out with everything below it, and hanging one in. -/

omit [DecidableEq Name] in
theorem relative_injective {path first second : List Name} (left : path <+: first)
    (right : path <+: second) (same : first.drop path.length = second.drop path.length) :
    first = second := by
  obtain ⟨tail, rfl⟩ := left
  obtain ⟨other, rfl⟩ := right
  simpa using same

def under (tree : FileTree Name Leaf) (path : List Name) : List (List Name × Node Leaf) :=
  (tree.entries.filter fun entry => decide (path <+: entry.1 ∧ path ≠ entry.1)).map
    fun entry => (entry.1.drop path.length, entry.2)

theorem mem_under {tree : FileTree Name Leaf} {path tail : List Name} {node : Node Leaf} :
    (tail, node) ∈ tree.under path ↔ tail ≠ [] ∧ (path ++ tail, node) ∈ tree.entries := by
  simp only [under, List.mem_map, List.mem_filter, decide_eq_true_eq, Prod.mk.injEq, Prod.exists]
  constructor
  · rintro ⟨whole, same, ⟨member, ⟨rest, rfl⟩, proper⟩, dropped, rfl⟩
    rw [List.drop_left] at dropped
    subst dropped
    exact ⟨fun empty => proper (by simp [empty]), member⟩
  · rintro ⟨nonempty, member⟩
    refine ⟨path ++ tail, node, ⟨member, List.prefix_append _ _, ?_⟩, List.drop_left, rfl⟩
    exact fun same => nonempty (by simpa using same)

theorem under_unique (tree : FileTree Name Leaf) (path : List Name) :
    ((tree.under path).map Prod.fst).Nodup := by
  have kept := (List.filter_sublist (p := fun entry : List Name × Node Leaf =>
    decide (path <+: entry.1 ∧ path ≠ entry.1))).map Prod.fst |>.nodup tree.unique
  rw [under, List.map_map]
  rw [List.nodup_map_iff_inj_on (List.Nodup.of_map _ kept)]
  intro first left second right same
  simp only [List.mem_filter, decide_eq_true_eq] at left right
  have path_same := relative_injective left.2.1 right.2.1 same
  exact List.inj_on_of_nodup_map tree.unique left.1 right.1 path_same

theorem under_rooted (tree : FileTree Name Leaf) (path : List Name) :
    ∀ entry ∈ tree.under path,
      entry.1 ≠ [] ∧ (entry.1.dropLast = [] ∨ (entry.1.dropLast, Node.dir) ∈ tree.under path) := by
  rintro ⟨tail, node⟩ member
  obtain ⟨nonempty, listed⟩ := mem_under.mp member
  refine ⟨nonempty, ?_⟩
  by_cases top : tail.dropLast = []
  · exact .inl top
  · refine .inr (mem_under.mpr ⟨top, ?_⟩)
    rcases (tree.rooted _ listed).2 with empty | parent
    · rw [List.dropLast_append_of_ne_nil nonempty] at empty
      exact absurd (List.append_eq_nil_iff.mp empty).2 top
    · rwa [List.dropLast_append_of_ne_nil nonempty] at parent

/-- The paths of what a node holds, its own first. -/
def whole (tree : FileTree Name Leaf) (path : List Name) : List (List Name) :=
  path :: ((tree.under path).map fun entry => path ++ entry.1)

theorem length_whole (tree : FileTree Name Leaf) (path : List Name) :
    (tree.whole path).length = (tree.under path).length + 1 := by simp [whole]

/-- What stands at nodes below a directory, apart from each other, is no more than
what stands below the directory. -/
theorem length_wholes_le (tree : FileTree Name Leaf) {base : List Name} {paths : List (List Name)}
    (apart : paths.Pairwise fun first second => ¬ first <+: second ∧ ¬ second <+: first)
    (inside : ∀ path ∈ paths, base <+: path ∧ base ≠ path ∧ (tree.lookup path).isSome = true) :
    (paths.flatMap tree.whole).length ≤ (tree.under base).length := by
  have above : ∀ path, ∀ inner ∈ tree.whole path, path <+: inner := by
    intro path inner member
    rcases List.mem_cons.mp member with rfl | member
    · exact List.prefix_refl _
    · obtain ⟨_, _, rfl⟩ := List.mem_map.mp member
      exact List.prefix_append _ _
  have distinct : (paths.flatMap tree.whole).Nodup := by
    refine List.nodup_flatMap.mpr ⟨fun path _ => List.nodup_cons.mpr ⟨?_, ?_⟩, ?_⟩
    · intro member
      obtain ⟨entry, listed, same⟩ := List.mem_map.mp member
      exact (mem_under.mp listed).1 (by simpa using same)
    · have moved := (tree.under_unique path).map (f := fun tail => path ++ tail)
        (fun _ _ same => List.append_cancel_left same)
      rwa [List.map_map] at moved
    · -- a path below two of the nodes would order them
      refine apart.imp fun {first second} away inner left right => ?_
      rcases List.prefix_or_prefix_of_prefix (above first inner left) (above second inner right) with
        order | order
      · exact away.1 order
      · exact away.2 order
  have covered : paths.flatMap tree.whole ⊆ (tree.under base).map fun entry => base ++ entry.1 := by
    intro inner member
    obtain ⟨path, listed, member⟩ := List.mem_flatMap.mp member
    obtain ⟨⟨tail, rfl⟩, proper, present⟩ := inside path listed
    have nonempty : tail ≠ [] := fun empty => proper (by simp [empty])
    rcases List.mem_cons.mp member with rfl | member
    · obtain ⟨node, found⟩ := Option.isSome_iff_exists.mp present
      exact List.mem_map.mpr ⟨(tail, node),
        mem_under.mpr ⟨nonempty, (lookup_eq_some (by simp [nonempty])).mp found⟩, rfl⟩
    · obtain ⟨⟨rest, node⟩, below, rfl⟩ := List.mem_map.mp member
      refine List.mem_map.mpr ⟨(tail ++ rest, node), mem_under.mpr ⟨by simp [nonempty], ?_⟩, ?_⟩
      · rw [← List.append_assoc]
        exact (mem_under.mp below).2
      · simp
  have fits := distinct.length_le_of_subset covered
  rwa [List.length_map] at fits

def hasDir (tree : FileTree Name Leaf) (path : List Name) : Bool :=
  match tree.lookup path with
  | some .dir => true
  | _ => false

theorem hasDir_iff {tree : FileTree Name Leaf} {path : List Name} :
    tree.hasDir path = true ↔ tree.lookup path = some .dir := by
  unfold hasDir
  split <;> simp_all

end FileTree

open FileTree

namespace Subtree

def lookup (sub : Subtree Name Leaf) (tail : List Name) : Option (Node Leaf) :=
  if tail = [] then some sub.node else sub.below.lookup tail

theorem lookup_eq_some_of_below {sub : Subtree Name Leaf} {tail : List Name} (below : tail ≠ [])
    {node : Node Leaf} : sub.lookup tail = some node ↔ (tail, node) ∈ sub.below.entries := by
  rw [lookup, if_neg below, FileTree.lookup_eq_some below]

omit [DecidableEq Name] in
theorem dir_of_below {sub : Subtree Name Leaf} {entry : List Name × Node Leaf}
    (member : entry ∈ sub.below.entries) : sub.node = .dir := by
  cases same : sub.node with
  | dir => rfl
  | leaf content =>
    rw [sub.leafless content same] at member
    cases member

end Subtree

namespace FileTree

/-- The node at a path with everything below it. -/
def subtree (tree : FileTree Name Leaf) (path : List Name) : Option (Subtree Name Leaf) :=
  match found : tree.lookup path with
  | none => none
  | some node => some
      { node
        below := ⟨tree.under path, tree.under_unique path, tree.under_rooted path⟩
        leafless := by
          rintro content rfl
          refine List.eq_nil_iff_forall_not_mem.mpr fun ⟨tail, inner⟩ member => ?_
          obtain ⟨nonempty, listed⟩ := mem_under.mp member
          have missing := lookup_under_leaf found (List.prefix_append path tail)
            (fun same => nonempty (by simpa using same))
          rw [lookup_of_mem listed] at missing
          cases missing }

theorem lookup_subtree {tree : FileTree Name Leaf} {path : List Name} {sub : Subtree Name Leaf}
    (taken : tree.subtree path = some sub) (tail : List Name) :
    sub.lookup tail = tree.lookup (path ++ tail) := by
  unfold subtree at taken
  split at taken
  · cases taken
  · rename_i node found
    cases taken
    by_cases top : tail = []
    · subst top
      rw [List.append_nil]
      exact found.symm
    · apply Option.ext
      intro inner
      rw [Subtree.lookup_eq_some_of_below top, lookup_eq_some (by simp [top])]
      simp [mem_under, top]

/-- Room for a new node: the name is free and its parent is a directory. -/
def Attachable (tree : FileTree Name Leaf) (path : List Name) : Prop :=
  path ≠ [] ∧ (tree.lookup path).isNone = true ∧ tree.hasDir path.dropLast = true

instance (tree : FileTree Name Leaf) (path : List Name) : Decidable (tree.Attachable path) :=
  inferInstanceAs (Decidable (_ ∧ _ ∧ _))

theorem Attachable.nothing_under {tree : FileTree Name Leaf} {path : List Name}
    (fits : tree.Attachable path) {inner : List Name} (above : path <+: inner) :
    tree.lookup inner = none := by
  have missing := Option.isNone_iff_eq_none.mp fits.2.1
  by_cases same : path = inner
  · rwa [← same]
  · cases present : tree.lookup inner with
    | none => rfl
    | some node =>
      rw [lookup_ancestor present above same] at missing
      cases missing

def attach (tree : FileTree Name Leaf) (path : List Name) (sub : Subtree Name Leaf)
    (fits : tree.Attachable path) : FileTree Name Leaf where
  entries := tree.entries ++ (path, sub.node) ::
    sub.below.entries.map fun entry => (path ++ entry.1, entry.2)
  unique := by
    -- nothing stands at or below the free name, so old and new entries cannot meet
    have free : ∀ inner, path <+: inner → inner ∉ tree.entries.map Prod.fst := by
      intro inner above listed
      obtain ⟨⟨_, node⟩, member, rfl⟩ := List.mem_map.mp listed
      have missing := fits.nothing_under above
      rw [lookup_of_mem member] at missing
      cases missing
    rw [List.map_append, List.map_cons, List.map_map]
    refine List.nodup_append.mpr ⟨tree.unique, List.nodup_cons.mpr ⟨?_, ?_⟩, ?_⟩
    · intro member
      obtain ⟨entry, listed, same⟩ := List.mem_map.mp member
      exact (sub.below.rooted entry listed).1 (by simpa using same)
    · have moved := sub.below.unique.map (f := fun tail => path ++ tail)
        (fun _ _ same => List.append_cancel_left same)
      rwa [List.map_map] at moved
    · rintro inner listed other member rfl
      rcases List.mem_cons.mp member with rfl | member
      · exact free inner (List.prefix_refl _) listed
      · obtain ⟨entry, _, rfl⟩ := List.mem_map.mp member
        exact free _ (List.prefix_append _ _) listed
  rooted := by
    intro entry member
    rcases List.mem_append.mp member with old | new
    · obtain ⟨nonempty, parent⟩ := tree.rooted entry old
      exact ⟨nonempty, parent.imp_right fun listed => List.mem_append_left _ listed⟩
    rcases List.mem_cons.mp new with rfl | moved
    · refine ⟨fits.1, ?_⟩
      by_cases top : path.dropLast = []
      · exact .inl top
      · have parent := hasDir_iff.mp fits.2.2
        exact .inr (List.mem_append_left _ ((lookup_eq_some top).mp parent))
    · obtain ⟨⟨tail, node⟩, listed, rfl⟩ := List.mem_map.mp moved
      obtain ⟨nonempty, parent⟩ := sub.below.rooted _ listed
      refine ⟨by simp [nonempty], .inr (List.mem_append_right _ ?_)⟩
      simp only [List.dropLast_append_of_ne_nil nonempty]
      rcases parent with top | inner
      · have dir := Subtree.dir_of_below listed
        simp_all
      · exact List.mem_cons_of_mem _ (List.mem_map.mpr ⟨_, inner, rfl⟩)

theorem lookup_attach {tree : FileTree Name Leaf} {path : List Name} {sub : Subtree Name Leaf}
    (fits : tree.Attachable path) (inner : List Name) :
    (tree.attach path sub fits).lookup inner =
      if path <+: inner then sub.lookup (inner.drop path.length) else tree.lookup inner := by
  by_cases root : inner = []
  · subst root
    rw [if_neg (fun above => fits.1 (List.prefix_nil.mp above))]
    rfl
  apply Option.ext
  intro node
  rw [lookup_eq_some root]
  by_cases above : path <+: inner
  -- below the new node only its own entries count
  · have absent : (inner, node) ∉ tree.entries := fun member => by
      have missing := fits.nothing_under above
      rw [lookup_of_mem member] at missing
      cases missing
    obtain ⟨tail, rfl⟩ := above
    rw [if_pos (List.prefix_append _ _), List.drop_left]
    by_cases top : tail = []
    · subst top
      have shifted : ∀ entry ∈ sub.below.entries, path ++ entry.1 ≠ path := fun entry listed same =>
        (sub.below.rooted entry listed).1 (by simpa using same)
      simp only [List.append_nil] at absent ⊢
      simp only [attach, List.mem_append, absent, false_or, List.mem_cons, List.mem_map,
        Prod.mk.injEq, true_and, Subtree.lookup, if_pos, Option.some.injEq]
      constructor
      · rintro (same | ⟨entry, listed, same, _⟩)
        · exact same.symm
        · exact absurd same (shifted entry listed)
      · exact fun same => .inl same.symm
    · rw [Subtree.lookup_eq_some_of_below top]
      simp only [attach, List.mem_append, absent, false_or, List.mem_cons, List.mem_map,
        Prod.mk.injEq, List.append_cancel_left_eq]
      constructor
      · rintro (⟨same, _⟩ | ⟨entry, listed, rfl, rfl⟩)
        · exact absurd (by simpa using same) top
        · exact listed
      · exact fun listed => .inr ⟨_, listed, rfl, rfl⟩
  · rw [if_neg above, lookup_eq_some root]
    simp only [attach, List.mem_append, List.mem_cons, List.mem_map, Prod.mk.injEq]
    constructor
    · rintro (old | ⟨same, _⟩ | ⟨entry, _, same, _⟩)
      · exact old
      · exact absurd (same ▸ List.prefix_refl _) above
      · exact absurd ⟨entry.1, same⟩ above
    · exact .inl

/-! Moving a node with everything below it; what stood at the target is replaced. -/

def rename (tree : FileTree Name Leaf) (source target : List Name) :
    Option (FileTree Name Leaf) :=
  match tree.subtree source with
  | none => none
  | some moved =>
      -- the moved node leaves first: a target below its own source has no parent then
      let cleared := (tree.remove source).remove target
      if fits : cleared.Attachable target then some (cleared.attach target moved fits) else none

theorem isSome_of_rename {tree renamed : FileTree Name Leaf} {source target : List Name}
    (done : tree.rename source target = some renamed) : (tree.lookup source).isSome = true := by
  cases found : tree.lookup source with
  | some node => rfl
  | none =>
    have absent : tree.subtree source = none := by
      unfold subtree
      split <;> simp_all
    simp [rename, absent] at done

theorem lookup_rename {tree renamed : FileTree Name Leaf} {source target : List Name}
    (below : source ≠ []) (done : tree.rename source target = some renamed) (inner : List Name) :
    renamed.lookup inner =
      if target <+: inner then tree.lookup (source ++ inner.drop target.length)
      else if source <+: inner then none else tree.lookup inner := by
  unfold rename at done
  split at done
  · cases done
  · rename_i moved taken
    simp only [Option.dite_none_right_eq_some, Option.some.injEq] at done
    obtain ⟨fits, rfl⟩ := done
    rw [lookup_attach fits, lookup_subtree taken]
    split
    · rfl
    · rename_i outside
      rw [lookup_remove _ fits.1, if_neg outside, lookup_remove _ below]

/-! Giving a leaf new content. -/

def write (tree : FileTree Name Leaf) (path : List Name) (content : Leaf)
    (target : (tree.lookup path).isSome = true ∧ tree.hasDir path = false) :
    FileTree Name Leaf where
  entries := tree.entries.map fun entry =>
    if entry.1 = path then (entry.1, .leaf content) else entry
  unique := by
    rw [List.map_map]
    have kept : (Prod.fst ∘ fun entry : List Name × Node Leaf =>
        if entry.1 = path then (entry.1, .leaf content) else entry) = Prod.fst := by
      funext entry
      simp only [Function.comp_apply]
      split <;> rfl
    rw [kept]
    exact tree.unique
  rooted := by
    intro entry member
    obtain ⟨old, listed, rfl⟩ := List.mem_map.mp member
    have same : (if old.1 = path then (old.1, .leaf content) else old).1 = old.1 := by
      split <;> rfl
    rw [same]
    obtain ⟨nonempty, parent⟩ := tree.rooted old listed
    refine ⟨nonempty, parent.imp_right fun inner => List.mem_map.mpr ⟨_, inner, ?_⟩⟩
    -- an entry's parent is a directory, so it is not the rewritten leaf
    refine if_neg fun parentSame => ?_
    have directory := hasDir_iff.mpr (lookup_of_mem inner)
    simp only at parentSame
    rw [parentSame, target.2] at directory
    cases directory

theorem lookup_write {tree : FileTree Name Leaf} {path : List Name} {content : Leaf}
    (target : (tree.lookup path).isSome = true ∧ tree.hasDir path = false) (inner : List Name) :
    (tree.write path content target).lookup inner =
      if inner = path then some (.leaf content) else tree.lookup inner := by
  have below : path ≠ [] := by
    rintro rfl
    have root := hasDir_iff.mpr tree.lookup_root
    rw [target.2] at root
    cases root
  by_cases root : inner = []
  · subst root
    rw [if_neg (Ne.symm below)]
    rfl
  obtain ⟨old, found⟩ := Option.isSome_iff_exists.mp target.1
  apply Option.ext
  intro node
  rw [lookup_eq_some root]
  simp only [write, List.mem_map]
  by_cases same : inner = path
  · subst same
    rw [if_pos rfl]
    constructor
    · rintro ⟨entry, _, shape⟩
      by_cases here : entry.1 = inner
      · rw [if_pos here] at shape
        exact congrArg some (Prod.mk.inj shape).2
      · rw [if_neg here] at shape
        exact absurd (congrArg Prod.fst shape) here
    · intro shape
      refine ⟨(inner, old), (lookup_eq_some root).mp found, ?_⟩
      rw [if_pos rfl, Option.some.inj shape]
  · rw [if_neg same, lookup_eq_some root]
    constructor
    · rintro ⟨entry, listed, shape⟩
      by_cases here : entry.1 = path
      · rw [if_pos here] at shape
        exact absurd ((congrArg Prod.fst shape).symm.trans here) same
      · rw [if_neg here] at shape
        exact shape ▸ listed
    · exact fun listed => ⟨_, listed, if_neg same⟩

end FileTree

end Anwesen.Foundation

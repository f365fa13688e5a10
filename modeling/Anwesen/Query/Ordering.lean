import Anwesen.Foundation.Rungs
import Anwesen.Query.Matching
import Mathlib.Data.List.Nodup

/-! The order of merged fragments.

Two order values are compared on the first rung of a ladder that takes both, so
which comparison is made depends on the pair. Dates, datetimes and integers are
compared among themselves by what they denote, every other pair by its canonical
texts; a value of another kind whose text falls between two of one kind against
their order closes a cycle.
-/

set_option autoImplicit false

namespace Anwesen.Query

open Foundation Vault

/-- A matched note as the merge projects it. -/
structure Fragment where
  path : Text
  body : Text
  orderValue : Option Value
  kindValue : Option Value

section

variable (ext : External)

def canonicalString (v : Value) : Text :=
  match v with
  | .null => "null".toList
  | .bool b => boolText b
  | .int i => intText i.toInt
  | .float f => ext.printFloat f
  | .string s => s
  | .date d => ext.printDate d
  | .dateTime dt => ext.printInstant dt.utc
  | .sequence _ | .mapping _ => ext.debugValue v

def compareValues (a b : Value) : Ordering :=
  match tryAsDate a, tryAsDate b with
  | some x, some y => compare x.day y.day
  | _, _ =>
  match tryAsDatetime a, tryAsDatetime b with
  | some x, some y => x.compare y
  | _, _ =>
  match tryAsInt a, tryAsInt b with
  | some x, some y => compare x.toInt y.toInt
  | _, _ =>
  match tryAsFloat a, tryAsFloat b with
  | some x, some y => (x.partialCmp y).getD .eq
  | _, _ => compare (canonicalString ext a) (canonicalString ext b)

/-- Present values stand before missing ones in both directions. -/
def orderCmp (a b : Option Value) (desc : Bool) : Ordering :=
  match a, b with
  | some x, some y => if desc then (compareValues ext x y).swap else compareValues ext x y
  | some _, none => .lt
  | none, some _ => .gt
  | none, none => .eq

/-- The comparator of the merge: the order value, then the path. -/
def fragmentCmp (desc : Bool) (a b : Fragment) : Ordering :=
  (orderCmp ext a.orderValue b.orderValue desc).then (compare a.path b.path)

/-- Nothing where `sort_by` panics. -/
def sortFragments (order : Option OrderSpec) (frags : List Fragment) : Option (List Fragment) :=
  match order with
  | some spec => ext.sortBy.sort (fragmentCmp ext spec.desc) frags
  | none => ext.sortBy.sort (fun a b => compare a.path b.path) frags

/-- What sorting asks of the comparator, and what the merge promises of it. -/
structure MergeOrder (desc : Bool) (items : List Fragment) : Prop where
  antisymm : ∀ a ∈ items, ∀ b ∈ items, fragmentCmp ext desc a b = (fragmentCmp ext desc b a).swap
  trans : TransOn (fragmentCmp ext desc) items
  strict : ∀ a ∈ items, ∀ b ∈ items, fragmentCmp ext desc a b = .eq → a.path = b.path
  presentFirst : ∀ a ∈ items, ∀ b ∈ items, a.orderValue.isSome = true → b.orderValue = none →
    fragmentCmp ext desc a b = .lt
  sorted : ∀ key, ∃ sorted, sortFragments ext (some ⟨key, desc⟩) items = some sorted ∧
    sorted.Pairwise fun a b => fragmentCmp ext desc b a ≠ .lt

end

/-- The kinds of values that are compared by what they denote. -/
inductive Kind where
  | date
  | dateTime
  | int
  deriving DecidableEq, Repr

/-- The kind of a value and its place within it. -/
def typed : Value → Option (Kind × Int × Nat)
  | .date d => some (.date, d.day, 0)
  | .dateTime dt => some (.dateTime, dt.utc.seconds, dt.utc.nanos)
  | .int i => some (.int, i.toInt, 0)
  | _ => none

def isFloat : Value → Bool
  | .float _ => true
  | _ => false

def directed {α : Type} (desc : Bool) (cmp : α → α → Ordering) (a b : α) : Ordering :=
  if desc then (cmp a b).swap else cmp a b

instance {α : Type} {desc : Bool} {cmp : α → α → Ordering} [Std.TransCmp cmp] :
    Std.TransCmp (directed desc cmp) := by
  cases desc with
  | false => exact inferInstanceAs (Std.TransCmp cmp)
  | true =>
    have flipped : directed true cmp = fun a b => cmp b a := by
      funext a b
      exact Std.OrientedCmp.eq_swap.symm
    rw [flipped]
    exact Std.TransCmp.opposite

namespace Fragment

def kind (f : Fragment) : Option Kind := (f.orderValue.bind typed).map (·.1)

def place (f : Fragment) : Int × Nat := ((f.orderValue.bind typed).map (·.2)).getD (0, 0)

def floatless (f : Fragment) : Bool := f.orderValue.all fun v => !isFloat v

def text (ext : External) (f : Fragment) : Text :=
  (f.orderValue.map (canonicalString ext)).getD []

end Fragment

/-- By what the values denote, in the direction of the query, then by path. -/
def typedOrder (desc : Bool) : Fragment → Fragment → Ordering :=
  compareLex (directed desc (compareLex (compareOn fun f => f.place.1) (compareOn fun f => f.place.2)))
    (compareOn Fragment.path)

/-- Present before missing, then by the texts in the direction of the query, then by path. -/
def textOrder (ext : External) (desc : Bool) : Fragment → Fragment → Ordering :=
  compareLex (compareOn fun f => f.orderValue.isNone)
    (compareLex (directed desc (compareOn (Fragment.text ext))) (compareOn Fragment.path))

instance (desc : Bool) : Std.TransCmp (typedOrder desc) :=
  inferInstanceAs (Std.TransCmp (compareLex _ _))

instance (ext : External) (desc : Bool) : Std.TransCmp (textOrder ext desc) :=
  inferInstanceAs (Std.TransCmp (compareLex _ _))

instance : Std.TransCmp Instant.compare :=
  inferInstanceAs (Std.TransCmp (compareLex (compareOn Instant.seconds) (compareOn Instant.nanos)))

section

variable {ext : External} {desc : Bool}

theorem compareValues_same {a b : Value} {kind : Kind} {x y : Int × Nat}
    (first : typed a = some (kind, x)) (second : typed b = some (kind, y)) :
    compareValues ext a b = compareLex (compareOn Prod.fst) (compareOn Prod.snd) x y := by
  cases a <;> simp only [typed, Option.some.injEq, Prod.mk.injEq, reduceCtorEq] at first <;>
    obtain ⟨rfl, rfl⟩ := first <;> cases b <;>
    simp only [typed, Option.some.injEq, Prod.mk.injEq, reduceCtorEq, false_and] at second <;>
    obtain ⟨-, rfl⟩ := second <;>
    simp [compareValues, tryAsDate, tryAsDatetime, tryAsInt, compareLex, compareOn, Instant.compare]

theorem compareValues_apart {a b : Value} (floatless : isFloat a = false ∧ isFloat b = false)
    (apart : ∀ kind x y, typed a = some (kind, x) → typed b ≠ some (kind, y)) :
    compareValues ext a b = compare (canonicalString ext a) (canonicalString ext b) := by
  cases a <;> cases b <;>
    simp_all [typed, isFloat, compareValues, tryAsDate, tryAsDatetime, tryAsInt, tryAsFloat]

theorem partialCmp_swap (x y : F64) :
    (x.partialCmp y).getD .eq = ((y.partialCmp x).getD .eq).swap := by
  have ranks : compare x.rank y.rank = (compare y.rank x.rank).swap := Std.OrientedCmp.eq_swap
  simp only [F64.partialCmp, Bool.or_comm y.isNan]
  split
  · rfl
  · exact ranks

theorem compareValues_swap (a b : Value) :
    compareValues ext a b = (compareValues ext b a).swap := by
  have texts : compare (canonicalString ext a) (canonicalString ext b) =
      (compare (canonicalString ext b) (canonicalString ext a)).swap := Std.OrientedCmp.eq_swap
  have instants : ∀ x y : Instant, x.compare y = (y.compare x).swap :=
    fun x y => Std.OrientedCmp.eq_swap
  have integers : ∀ x y : Int, compare x y = (compare y x).swap :=
    fun x y => Std.OrientedCmp.eq_swap
  cases a <;> cases b <;>
    first
    | exact texts
    | exact partialCmp_swap _ _
    | exact integers _ _
    | exact instants _ _

instance : Std.OrientedCmp (fragmentCmp ext desc) where
  eq_swap := by
    intro a b
    have paths : compare a.path b.path = (compare b.path a.path).swap := Std.OrientedCmp.eq_swap
    rw [fragmentCmp, fragmentCmp, Ordering.swap_then, ← paths]
    congr 1
    cases a.orderValue <;> cases b.orderValue <;> try rfl
    rename_i x y
    simp only [orderCmp, compareValues_swap x y]
    cases desc <;> rfl

theorem sameRung_some {a b : Fragment} {x y : Value} (first : a.orderValue = some x)
    (second : b.orderValue = some y) :
    SameRung Fragment.kind a b ↔ ∃ kind p q, typed x = some (kind, p) ∧ typed y = some (kind, q) := by
  simp only [SameRung, Fragment.kind, first, second, Option.bind_some]
  constructor
  · rintro ⟨present, same⟩
    cases typedX : typed x with
    | none => simp [typedX] at present
    | some p =>
      cases typedY : typed y with
      | none => simp [typedX, typedY] at same
      | some q =>
        simp only [typedX, typedY, Option.map_some, Option.some.injEq] at same
        exact ⟨p.1, p.2, q.2, rfl, by rw [same]⟩
  · rintro ⟨kind, p, q, typedX, typedY⟩
    simp [typedX, typedY]

theorem fragmentCmp_same {a b : Fragment} (same : SameRung Fragment.kind a b) :
    fragmentCmp ext desc a b = typedOrder desc a b := by
  cases first : a.orderValue with
  | none => simp [SameRung, Fragment.kind, first] at same
  | some x =>
    cases second : b.orderValue with
    | none =>
      have absent : a.kind = none := by rw [same.2, Fragment.kind, second]; rfl
      exact absurd same.1 (by simp [absent])
    | some y =>
      obtain ⟨kind, p, q, typedX, typedY⟩ := (sameRung_some first second).mp same
      simp only [fragmentCmp, first, second, orderCmp, compareValues_same typedX typedY, typedOrder,
        compareLex, compareOn, directed, Fragment.place, Option.bind_some, typedX, typedY,
        Option.map_some, Option.getD_some]

theorem fragmentCmp_apart {a b : Fragment} (finiteA : a.floatless = true) (finiteB : b.floatless = true)
    (apart : ¬ SameRung Fragment.kind a b) :
    fragmentCmp ext desc a b = textOrder ext desc a b := by
  cases first : a.orderValue with
  | none =>
    cases second : b.orderValue with
    | none =>
      cases desc <;>
        simp [fragmentCmp, textOrder, orderCmp, compareLex, compareOn, directed, Fragment.text, first, second]
    | some y =>
      simp only [fragmentCmp, textOrder, orderCmp, compareLex, compareOn, first, second]
      rfl
  | some x =>
    cases second : b.orderValue with
    | none =>
      simp only [fragmentCmp, textOrder, orderCmp, compareLex, compareOn, first, second]
      rfl
    | some y =>
      have texts : compareValues ext x y = compare (canonicalString ext x) (canonicalString ext y) :=
        compareValues_apart
          ⟨by simpa [Fragment.floatless, first] using finiteA,
            by simpa [Fragment.floatless, second] using finiteB⟩
          fun kind p q typedX typedY =>
            apart ((sameRung_some first second).mpr ⟨kind, p, q, typedX, typedY⟩)
      simp [fragmentCmp, textOrder, orderCmp, compareLex, compareOn, directed, Fragment.text, first,
        second, texts]

/-- The comparator is typed within a kind and textual across kinds. -/
theorem fragmentCmp_eq_rungs {a b : Fragment} (finiteA : a.floatless = true)
    (finiteB : b.floatless = true) :
    fragmentCmp ext desc a b =
      rungs Fragment.kind (typedOrder desc) (textOrder ext desc) a b := by
  rw [rungs]
  split
  · exact fragmentCmp_same ‹_›
  · exact fragmentCmp_apart finiteA finiteB ‹_›

theorem path_eq_of_typedOrder {a b : Fragment} (equal : typedOrder desc a b = .eq) : a.path = b.path := by
  rw [typedOrder, compareLex, Ordering.then_eq_eq] at equal
  exact Std.LawfulEqCmp.eq_of_compare equal.2

theorem path_eq_of_textOrder {a b : Fragment} (equal : textOrder ext desc a b = .eq) : a.path = b.path := by
  simp only [textOrder, compareLex, Ordering.then_eq_eq] at equal
  exact Std.LawfulEqCmp.eq_of_compare equal.2.2

theorem fragmentCmp_strict {a b : Fragment} (equal : fragmentCmp ext desc a b = .eq) : a.path = b.path := by
  rw [fragmentCmp, Ordering.then_eq_eq] at equal
  exact Std.LawfulEqCmp.eq_of_compare equal.2

theorem fragmentCmp_presentFirst {a b : Fragment} (present : a.orderValue.isSome = true)
    (missing : b.orderValue = none) : fragmentCmp ext desc a b = .lt := by
  obtain ⟨x, found⟩ := Option.isSome_iff_exists.mp present
  simp [fragmentCmp, orderCmp, found, missing]

/-- A third value of another kind stands by its text between two values of one kind,
against their order. -/
def Crossed (ext : External) (desc : Bool) (items : List Fragment) : Prop :=
  ∃ a ∈ items, ∃ b ∈ items, ∃ c ∈ items,
    Crosses Fragment.kind (typedOrder desc) (textOrder ext desc) a b c

instance (ext : External) (desc : Bool) (items : List Fragment) : Decidable (Crossed ext desc items) :=
  inferInstanceAs (Decidable (∃ a ∈ items, ∃ b ∈ items, ∃ c ∈ items, Crosses _ _ _ a b c))

theorem eq_of_path {items : List Fragment} (distinct : (items.map Fragment.path).Nodup)
    {a b : Fragment} (inA : a ∈ items) (inB : b ∈ items) (same : a.path = b.path) : a = b :=
  List.inj_on_of_nodup_map distinct inA inB same

theorem transOn_fragmentCmp_iff {items : List Fragment} (distinct : (items.map Fragment.path).Nodup)
    (floatless : ∀ f ∈ items, f.floatless = true) :
    TransOn (fragmentCmp ext desc) items ↔ ¬ Crossed ext desc items := by
  rw [transOn_congr fun a inA b inB => fragmentCmp_eq_rungs (floatless a inA) (floatless b inB)]
  refine transOn_rungs_iff fun a inA b inB equal => eq_of_path distinct inA inB ?_
  rcases equal with equal | equal
  · exact path_eq_of_typedOrder equal
  · exact path_eq_of_textOrder equal

/-- On fragments of different paths the comparator is a total order where it is transitive. -/
theorem totalOn_fragmentCmp_iff {items : List Fragment} (distinct : (items.map Fragment.path).Nodup) :
    TotalOn (fragmentCmp ext desc) items ↔ TransOn (fragmentCmp ext desc) items :=
  totalOn_iff_transOn fun _ inA _ inB equal => eq_of_path distinct inA inB (fragmentCmp_strict equal)

theorem mergeOrder_of_transOn {items : List Fragment} (distinct : (items.map Fragment.path).Nodup)
    (trans : TransOn (fragmentCmp ext desc) items) : MergeOrder ext desc items where
  antisymm _ _ _ _ := Std.OrientedCmp.eq_swap
  trans := trans
  strict _ _ _ _ := fragmentCmp_strict
  presentFirst _ _ _ _ := fragmentCmp_presentFirst
  sorted _ :=
    have total := (totalOn_fragmentCmp_iff distinct).mpr trans
    ⟨_, ext.sortBy.stable total, total.pairwise_mergeSort⟩

/-- The comparator orders the fragments exactly where no value of another kind crosses a pair. -/
theorem mergeOrder_iff_not_crossed {items : List Fragment}
    (distinct : (items.map Fragment.path).Nodup) (floatless : ∀ f ∈ items, f.floatless = true) :
    MergeOrder ext desc items ↔ ¬ Crossed ext desc items := by
  rw [← transOn_fragmentCmp_iff distinct floatless]
  exact ⟨fun order => order.trans, mergeOrder_of_transOn distinct⟩

end

def ordered (path : String) (value : Value) : Fragment := ⟨path.toList, [], some value, none⟩

theorem mergeOrder_iff_not_crossed_intsAndWord :
    let items := [ordered "a.md" (.int 9), ordered "b.md" (.int 10), ordered "c.md" (.string "x".toList)]
    MergeOrder External.bare false items :=
  (mergeOrder_iff_not_crossed (by decide +kernel) (by decide +kernel)).mpr (by decide +kernel)

/-- The number 9 stands before the number 10, that before the text 5, and that before
the number 9. -/
theorem digits_cross_numbers :
    let items := [ordered "a.md" (.int 9), ordered "b.md" (.int 10), ordered "c.md" (.string "5".toList)]
    (items.map Fragment.path).Nodup ∧ (∀ f ∈ items, f.floatless = true) ∧
      ¬ MergeOrder External.bare false items := by
  refine ⟨by decide +kernel, by decide +kernel, fun order => ?_⟩
  have closes := order.trans (ordered "a.md" (.int 9)) (by simp) (ordered "b.md" (.int 10)) (by simp)
    (ordered "c.md" (.string "5".toList)) (by simp) (by decide +kernel) (by decide +kernel)
  exact absurd closes (by decide +kernel)

end Anwesen.Query

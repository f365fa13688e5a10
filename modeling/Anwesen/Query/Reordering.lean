import Anwesen.Query.Execution
import Anwesen.Query.Parsing

/-! Query strings whose pairs are put in another order.

What a pair does to the query does not depend on the pairs before it, and pairs
that set different parameters commute.
-/

set_option autoImplicit false

namespace Anwesen.Query

open Foundation Vault

/-- The control parameter a pair sets. -/
def controlOf (pair : Text) : Option Text :=
  (percentDecode ((Text.splitOnce '=' pair).getD (pair, [])).1).bind (Text.stripPrefix anw)

/-- The pairs of a string in another order, some that set no control repeated. -/
def Reordered (raw raw' : Text) : Prop :=
  ∃ repeated : List Text, (raw'.splitOn '&').Perm (raw.splitOn '&' ++ repeated) ∧
    ∀ pair ∈ repeated, pair ∈ raw.splitOn '&' ∧ controlOf pair = none

/-- What two strings answer alike: both are refused, or every store answers both the same. -/
structure AnsweredAlike (ext : External) (raw raw' : Text) : Prop where
  accepted : (∃ q, parse ext raw = .ok q) ↔ ∃ q', parse ext raw' = .ok q'
  executed : ∀ q q', parse ext raw = .ok q → parse ext raw' = .ok q' → ∀ (store : NoteStore)
    (formatTs : Instant → Text), execute ext store q formatTs = execute ext store q' formatTs
  merged : ∀ q q', parse ext raw = .ok q → parse ext raw' = .ok q' → ∀ store : NoteStore,
    executeMerge ext store q = executeMerge ext store q'

/-! What a pair does. -/

inductive Setting where
  | recursive (b : Bool)
  | path (pathPrefix : Text)
  | limit (n : Nat)
  | order (spec : OrderSpec)
  | kind (key : Text)

def Setting.name : Setting → Text
  | .recursive _ => "recursive".toList
  | .path _ => "path".toList
  | .limit _ => "limit".toList
  | .order _ => "order".toList
  | .kind _ => "kind".toList

def Setting.set (q : ParsedQuery) : Setting → ParsedQuery
  | .recursive b => { q with recursive := b }
  | .path pathPrefix => { q with pathPrefix := some pathPrefix }
  | .limit n => { q with limit := some n }
  | .order spec => { q with order := some spec }
  | .kind key => { q with kindKey := some key }

inductive Effect where
  | nothing
  | setting (s : Setting)
  | predicate (p : Predicate)

namespace Effect

def apply (q : ParsedQuery) : Effect → ParsedQuery
  | .nothing => q
  | .setting s => s.set q
  | .predicate p => { q with predicates := q.predicates ++ [p] }

def settingOf : Effect → Option Setting
  | .setting s => some s
  | _ => none

def predicateOf : Effect → Option Predicate
  | .predicate p => some p
  | _ => none

end Effect

/-- A pair does this to every query. -/
def Does (ext : External) (pair : Text) (effect : Effect) : Prop :=
  effect.settingOf.map Setting.name = controlOf pair ∧
    ∀ q, parsePair ext q pair = .ok (effect.apply q)

section

variable {ext : External}

theorem Setting.set_comm {s t : Setting} (differ : s.name ≠ t.name) (q : ParsedQuery) :
    t.set (s.set q) = s.set (t.set q) := by
  cases s <;> cases t <;> first | rfl | exact absurd rfl differ

theorem Setting.set_predicates (s : Setting) (q : ParsedQuery) (predicates : List Predicate) :
    s.set { q with predicates := predicates } = { s.set q with predicates := predicates } := by
  cases s <;> rfl

theorem Setting.predicates_set (s : Setting) (q : ParsedQuery) : (s.set q).predicates = q.predicates := by
  cases s <;> rfl

/-- A control is refused for every query or sets the same for every query. -/
theorem applyControl_does (name value : Text) :
    (∃ s : Setting, s.name = name ∧ ∀ q, applyControl q name value = .ok (s.set q)) ∨
      ∃ error, ∀ q, applyControl q name value = .error error := by
  by_cases isRecursive : name = "recursive".toList
  · subst isRecursive
    cases read : parseBool value with
    | none => exact .inr ⟨.badControl ("recursive=".toList ++ value), fun q => by simp [applyControl, read]⟩
    | some b => exact .inl ⟨.recursive b, rfl, fun q => by simp [applyControl, read, Setting.set]⟩
  by_cases isPath : name = "path".toList
  · subst isPath
    exact .inl ⟨.path (value.dropWhile (· = '/')), rfl, fun q => rfl⟩
  by_cases isLimit : name = "limit".toList
  · subst isLimit
    cases read : parseUsize value with
    | none => exact .inr ⟨.badControl ("limit=".toList ++ value), fun q => by simp [applyControl, read]⟩
    | some n => exact .inl ⟨.limit n, rfl, fun q => by simp [applyControl, read, Setting.set]⟩
  by_cases isOrder : name = "order".toList
  · subst isOrder
    cases read : parseOrder value with
    | error error => exact .inr ⟨error, fun q => by simp [applyControl, read, Except.map]⟩
    | ok spec => exact .inl ⟨.order spec, rfl, fun q => by simp [applyControl, read, Except.map, Setting.set]⟩
  by_cases isKind : name = "kind".toList
  · subst isKind
    by_cases empty : value = []
    · exact .inr ⟨.badControl "kind: empty key".toList, fun q => by simp [applyControl, empty]⟩
    · exact .inl ⟨.kind value, rfl, fun q => by simp [applyControl, empty, Setting.set]⟩
  · refine .inr ⟨.badControl name, fun q => ?_⟩
    simp only [applyControl, isRecursive, isPath, isLimit, isOrder, isKind, if_false]

/-- A pair is refused in every query or does the same to every query. -/
theorem parsePair_does (pair : Text) :
    (∃ effect, Does ext pair effect) ∨ ∃ error, ∀ q, parsePair ext q pair = .error error := by
  by_cases empty : pair = []
  · subst empty
    exact .inl ⟨.nothing, rfl, fun q => rfl⟩
  let parts := (Text.splitOnce '=' pair).getD (pair, [])
  cases key : percentDecode parts.1 with
  | none => exact .inr ⟨.badValue parts.1, fun q => by simp only [parsePair, empty, if_false, parts, key]⟩
  | some k =>
    cases value : percentDecode parts.2 with
    | none =>
      exact .inr ⟨.badValue parts.2, fun q => by simp only [parsePair, empty, if_false, parts, key, value]⟩
    | some v =>
      have control : controlOf pair = Text.stripPrefix anw k := by
        rw [controlOf, key]
        rfl
      cases stripped : Text.stripPrefix anw k with
      | some name =>
        have turn : ∀ q, parsePair ext q pair = applyControl q name v := fun q => by
          simp only [parsePair, empty, if_false, parts, key, value, stripped]
        rcases applyControl_does name v with ⟨s, named, set⟩ | ⟨error, refused⟩
        · refine .inl ⟨.setting s, ?_, fun q => (turn q).trans (set q)⟩
          rw [control, stripped, ← named]
          rfl
        · exact .inr ⟨error, fun q => (turn q).trans (refused q)⟩
      | none =>
        rw [stripped] at control
        cases split : splitOperator k with
        | error error =>
          exact .inr ⟨error, fun q => by
            simp only [parsePair, empty, if_false, parts, key, value, stripped, split]⟩
        | ok operation =>
          cases checked : checkValue ext k v operation.2 with
          | error error =>
            exact .inr ⟨error, fun q => by
              simp only [parsePair, empty, if_false, parts, key, value, stripped, split, checked, Except.map]⟩
          | ok _ =>
            refine .inl ⟨.predicate ⟨operation.1, operation.2, v⟩, control.symm, fun q => ?_⟩
            simp only [parsePair, empty, if_false, parts, key, value, stripped, split, checked, Except.map,
              Effect.apply]

theorem parse_eq_foldlM (raw : Text) :
    parse ext raw = (raw.splitOn '&').foldlM (parsePair ext) {} := by
  by_cases empty : raw = []
  · subst empty
    rfl
  · rw [parse, if_neg empty]

/-- The loop succeeds when each pair is accepted by itself. -/
theorem foldlM_does {pairs : List Text} {effect : Text → Effect}
    (does : ∀ pair ∈ pairs, Does ext pair (effect pair)) (q : ParsedQuery) :
    pairs.foldlM (parsePair ext) q = .ok ((pairs.map effect).foldl Effect.apply q) := by
  induction pairs generalizing q with
  | nil => rfl
  | cons pair pairs ih =>
    rw [List.foldlM_cons, (does pair List.mem_cons_self).2 q]
    exact ih (fun other member => does other (List.mem_cons_of_mem _ member)) _

theorem foldlM_refused {pairs : List Text} {pair : Text} (member : pair ∈ pairs)
    (refused : ∃ error, ∀ q, parsePair ext q pair = .error error) (q : ParsedQuery) :
    ∃ error, pairs.foldlM (parsePair ext) q = .error error := by
  obtain ⟨error, refused⟩ := refused
  induction pairs generalizing q with
  | nil => cases member
  | cons other pairs ih =>
    rw [List.foldlM_cons]
    cases turn : parsePair ext q other with
    | error failure => exact ⟨failure, rfl⟩
    | ok next =>
      rcases List.mem_cons.mp member with rfl | later
      · rw [refused q] at turn
        cases turn
      · exact ih later next

theorem exists_effects {pairs : List Text} (accepted : ∀ pair ∈ pairs, ∃ effect, Does ext pair effect) :
    ∃ effect : Text → Effect, ∀ pair ∈ pairs, Does ext pair (effect pair) := by
  have total : ∀ pair, ∃ effect, pair ∈ pairs → Does ext pair effect := by
    intro pair
    by_cases member : pair ∈ pairs
    · obtain ⟨effect, does⟩ := accepted pair member
      exact ⟨effect, fun _ => does⟩
    · exact ⟨.nothing, fun listed => absurd listed member⟩
  choose effect does using total
  exact ⟨effect, does⟩

/-- Which pairs a string has decides whether it is accepted. -/
theorem parse_ok_iff {raw : Text} : (∃ q, parse ext raw = .ok q) ↔
    ∀ pair ∈ raw.splitOn '&', ∃ effect, Does ext pair effect := by
  rw [parse_eq_foldlM]
  constructor
  · rintro ⟨q, parsed⟩ pair member
    refine (parsePair_does pair).resolve_right fun refused => ?_
    obtain ⟨error, failed⟩ := foldlM_refused member refused {}
    rw [failed] at parsed
    cases parsed
  · intro accepted
    obtain ⟨effect, does⟩ := exists_effects accepted
    exact ⟨_, foldlM_does does {}⟩

theorem foldl_set_predicates (settings : List Setting) (q : ParsedQuery) (predicates : List Predicate) :
    settings.foldl Setting.set { q with predicates := predicates } =
      { settings.foldl Setting.set q with predicates := predicates } := by
  induction settings generalizing q with
  | nil => rfl
  | cons s settings ih => rw [List.foldl_cons, s.set_predicates, ih, List.foldl_cons]

/-- The predicates are collected, and the settings made, each for themselves. -/
theorem foldl_apply (effects : List Effect) (q : ParsedQuery) :
    effects.foldl Effect.apply q =
      { (effects.filterMap Effect.settingOf).foldl Setting.set q with
        predicates := q.predicates ++ effects.filterMap Effect.predicateOf } := by
  induction effects generalizing q with
  | nil => simp
  | cons effect effects ih =>
    rw [List.foldl_cons, ih]
    cases effect with
    | nothing => rfl
    | setting s =>
      simp only [Effect.apply, s.predicates_set]
      rfl
    | predicate p =>
      simp only [Effect.apply, foldl_set_predicates, List.append_assoc]
      rfl

/-- Settings of different parameters can be made in any order. -/
theorem foldl_set_perm {settings settings' : List Setting} (perm : settings.Perm settings')
    (distinct : (settings.map Setting.name).Nodup) (q : ParsedQuery) :
    settings.foldl Setting.set q = settings'.foldl Setting.set q := by
  refine perm.foldl_eq' (fun s inS t inT q => ?_) q
  by_cases same : s.name = t.name
  · rw [List.inj_on_of_nodup_map distinct inS inT same]
  · exact Setting.set_comm same q

/-! What the executors read of a query. -/

theorem predicatesMatch_congr {predicates predicates' : List Predicate}
    (same : ∀ p, p ∈ predicates ↔ p ∈ predicates') (fm : Frontmatter) :
    predicatesMatch ext predicates fm = predicatesMatch ext predicates' fm := by
  rw [Bool.eq_iff_iff, predicatesMatch, predicatesMatch, List.all_eq_true, List.all_eq_true]
  exact forall_congr' fun p => by rw [same p]

/-- Two queries that differ at most in the order and the number of their predicates. -/
structure AskSame (q q' : ParsedQuery) : Prop where
  settings : q = { q' with predicates := q.predicates }
  predicates : ∀ p, p ∈ q.predicates ↔ p ∈ q'.predicates

/-- Neither executor tells such queries apart. -/
theorem executors_congr {q q' : ParsedQuery} (same : AskSame q q') (store : NoteStore) :
    (∀ formatTs, execute ext store q formatTs = execute ext store q' formatTs) ∧
      executeMerge ext store q = executeMerge ext store q' := by
  have matched : ∀ formatTs, rows ext store q formatTs = rows ext store q' formatTs := fun formatTs => by
    rw [same.settings]
    simp only [rows, predicatesMatch_congr same.predicates]
  have collected : fragments ext store q = fragments ext store q' := by
    rw [same.settings]
    simp only [fragments, predicatesMatch_congr same.predicates]
  have limit : q.limit = q'.limit := by rw [same.settings]
  have order : q.order = q'.order := by rw [same.settings]
  have kindKey : q.kindKey = q'.kindKey := by rw [same.settings]
  constructor
  · intro formatTs
    rw [execute, execute, matched formatTs, limit]
  · rw [executeMerge, executeMerge, collected, limit, order, kindKey]

/-- The settings of a string have the names of its controls. -/
theorem settings_names {pairs : List Text} {effect : Text → Effect}
    (does : ∀ pair ∈ pairs, Does ext pair (effect pair)) :
    ((pairs.map effect).filterMap Effect.settingOf).map Setting.name = pairs.filterMap controlOf := by
  rw [List.filterMap_map, List.map_filterMap]
  exact List.filterMap_congr fun pair member => (does pair member).1

/-- Repeating pairs that set no control leaves the settings as they are. -/
theorem settings_perm {pairs pairs' repeated : List Text} {effect : Text → Effect}
    (does : ∀ pair ∈ pairs, Does ext pair (effect pair)) (perm : pairs'.Perm (pairs ++ repeated))
    (inside : ∀ pair ∈ repeated, pair ∈ pairs ∧ controlOf pair = none) :
    ((pairs.map effect).filterMap Effect.settingOf).Perm ((pairs'.map effect).filterMap Effect.settingOf) := by
  have unset : (repeated.map effect).filterMap Effect.settingOf = [] := by
    rw [List.filterMap_map, List.filterMap_eq_nil_iff]
    intro pair extra
    obtain ⟨listed, plain⟩ := inside pair extra
    have named := (does pair listed).1
    rwa [plain, Option.map_eq_none_iff] at named
  have filtered := (perm.map effect).filterMap Effect.settingOf
  rw [List.map_append, List.filterMap_append, unset, List.append_nil] at filtered
  exact filtered.symm

/-- The queries of a string and its reorderings ask the same. -/
theorem reordered_askSame {raw raw' : Text} (once : ((raw.splitOn '&').filterMap controlOf).Nodup)
    {repeated : List Text} (perm : (raw'.splitOn '&').Perm (raw.splitOn '&' ++ repeated))
    (inside : ∀ pair ∈ repeated, pair ∈ raw.splitOn '&' ∧ controlOf pair = none) {q q' : ParsedQuery}
    (parsed : parse ext raw = .ok q) (parsed' : parse ext raw' = .ok q') : AskSame q q' := by
  obtain ⟨effect, does⟩ := exists_effects (parse_ok_iff.mp ⟨q, parsed⟩)
  have does' : ∀ pair ∈ raw'.splitOn '&', Does ext pair (effect pair) := by
    intro pair member
    rcases List.mem_append.mp (perm.mem_iff.mp member) with listed | extra
    · exact does pair listed
    · exact does pair (inside pair extra).1
  rw [parse_eq_foldlM, foldlM_does does, foldl_apply] at parsed
  rw [parse_eq_foldlM, foldlM_does does', foldl_apply] at parsed'
  obtain rfl := Except.ok.inj parsed
  obtain rfl := Except.ok.inj parsed'
  rw [← settings_names does] at once
  constructor
  · simp only [foldl_set_perm (settings_perm does perm inside) once]
  · intro p
    simp only [List.nil_append, List.mem_filterMap, List.mem_map]
    constructor
    · rintro ⟨_, ⟨pair, member, rfl⟩, said⟩
      exact ⟨_, ⟨pair, perm.mem_iff.mpr (List.mem_append_left _ member), rfl⟩, said⟩
    · rintro ⟨_, ⟨pair, member, rfl⟩, said⟩
      rcases List.mem_append.mp (perm.mem_iff.mp member) with listed | extra
      · exact ⟨_, ⟨pair, listed, rfl⟩, said⟩
      · exact ⟨_, ⟨pair, (inside pair extra).1, rfl⟩, said⟩

/-- The order of the pairs of a query string, and how often it repeats a predicate, do not
matter as long as it sets no control twice. -/
theorem parse_reordered {raw raw' : Text}
    (once : ((raw.splitOn '&').filterMap controlOf).Nodup) (reordered : Reordered raw raw') :
    AnsweredAlike ext raw raw' := by
  obtain ⟨repeated, perm, inside⟩ := reordered
  have members : ∀ pair, pair ∈ raw'.splitOn '&' ↔ pair ∈ raw.splitOn '&' := by
    intro pair
    rw [perm.mem_iff, List.mem_append, or_iff_left_of_imp fun extra => (inside pair extra).1]
  refine ⟨by simp only [parse_ok_iff, members], fun q q' parsed parsed' store formatTs => ?_,
    fun q q' parsed parsed' store => ?_⟩
  · exact (executors_congr (reordered_askSame once perm inside parsed parsed') store).1 formatTs
  · exact (executors_congr (reordered_askSame once perm inside parsed parsed') store).2

/-- A limit moves behind a predicate that is sent twice. -/
theorem parse_reordered_limit :
    AnsweredAlike External.bare "__anw-limit=2&kind=PDR".toList "kind=PDR&__anw-limit=2&kind=PDR".toList := by
  have pairs : "__anw-limit=2&kind=PDR".toList.splitOn '&' = ["__anw-limit=2".toList, "kind=PDR".toList] := by
    decide
  have pairs' : "kind=PDR&__anw-limit=2&kind=PDR".toList.splitOn '&' =
      ["kind=PDR".toList, "__anw-limit=2".toList, "kind=PDR".toList] := by decide
  have control : controlOf "__anw-limit=2".toList = some "limit".toList := by decide +kernel
  have plain : controlOf "kind=PDR".toList = none := by decide +kernel
  refine parse_reordered ?_ ⟨["kind=PDR".toList], ?_, ?_⟩
  · rw [pairs, List.filterMap_cons_some control, List.filterMap_cons_none plain]
    exact List.nodup_singleton _
  · rw [pairs, pairs']
    exact .swap _ _ _
  · intro pair member
    obtain rfl := List.mem_singleton.mp member
    exact ⟨pairs ▸ List.mem_cons_of_mem _ List.mem_cons_self, plain⟩

end

end Anwesen.Query

import Anwesen.Foundation.Percent
import Anwesen.Text

/-! From the captured part of a request path to a key of the store.

The router hands the handlers a path it has decoded; they decode it again.
-/

set_option autoImplicit false

namespace Anwesen.Http

open Foundation

/-- `percent_decode`: one pass, `+` standing for itself. -/
def percentDecode (input : Text) : Option Text :=
  (Percent.decode id input.utf8).bind Bytes.fromUtf8

def forbidden (seg : Text) : Bool := seg = [] || seg = ['.'] || seg = ['.', '.']

/-- Decode, strip leading slashes and reject forbidden segments. -/
def resolve (root : Bool) (raw : Text) : Except Text Text :=
  match percentDecode raw with
  | none => .error "invalid percent-encoding".toList
  | some decoded =>
      let stripped := decoded.dropWhile (· = '/')
      if stripped = [] then if root then .ok [] else .error "path is empty".toList
      else if (stripped.splitOn '/').any forbidden then
        .error "path contains forbidden segment".toList
      else .ok stripped

def resolvePath (raw : Text) : Except Text Text := resolve false raw

/-- The same, with the empty path for the root of the vault. -/
def resolveFolder (raw : Text) : Except Text Text := resolve true raw

/-- No segment of the path is one the handlers reject. -/
def PlainPath (path : Text) : Prop := ∀ seg ∈ path.splitOn '/', forbidden seg = false

instance (path : Text) : Decidable (PlainPath path) :=
  inferInstanceAs (Decidable (∀ seg ∈ path.splitOn '/', forbidden seg = false))

theorem mem_sign_utf8 {text : Text} : Percent.sign ∈ text.utf8 ↔ '%' ∈ text :=
  Text.mem_utf8_ascii (show ('%' : Char).toNat < 128 by decide)

theorem percentDecode_eq_self {text : Text} (clean : '%' ∉ text) : percentDecode text = some text := by
  rw [percentDecode, Percent.decode_eq_self fun member => clean (mem_sign_utf8.mp member)]
  exact Bytes.fromUtf8_utf8 text

theorem length_percentDecode {text decoded : Text} (done : percentDecode text = some decoded)
    (member : '%' ∈ text) : decoded.utf8.length < text.utf8.length := by
  obtain ⟨bytes, inner, valid⟩ := Option.bind_eq_some_iff.mp done
  rw [← Bytes.fromUtf8_eq_some.mp valid]
  exact Percent.length_decode_lt inner (mem_sign_utf8.mpr member)

namespace PlainPath

variable {path : Text}

theorem ne_nil (plain : PlainPath path) : path ≠ [] := by
  rintro rfl
  exact absurd (plain [] (by simp)) (by decide)

theorem head_ne_slash {char : Char} {rest : Text} (plain : PlainPath (char :: rest)) : char ≠ '/' := by
  rintro rfl
  have split : ('/' :: rest).splitOn '/' = [] :: rest.splitOn '/' := List.splitOn_append_cons_self [] rest
  exact absurd (plain [] (by simp [split])) (by decide)

theorem dropWhile_slash (plain : PlainPath path) : path.dropWhile (· = '/') = path := by
  cases path with
  | nil => rfl
  | cons char rest => simp [plain.head_ne_slash]

theorem getLast?_ne_slash (plain : PlainPath path) : path.getLast? ≠ some '/' := by
  intro last
  obtain ⟨front, rfl⟩ := List.getLast?_eq_some_iff.mp last
  have split : (front ++ ['/']).splitOn '/' = front.splitOn '/' ++ [[]] :=
    List.splitOn_append_cons_self front []
  exact absurd (plain [] (by simp [split])) (by decide)

end PlainPath

theorem resolve_eq_ok {root : Bool} {raw key : Text} (resolved : resolve root raw = .ok key) :
    ∃ decoded, percentDecode raw = some decoded ∧ key = decoded.dropWhile (· = '/') := by
  rw [resolve] at resolved
  cases done : percentDecode raw with
  | none => simp [done] at resolved
  | some decoded =>
    refine ⟨decoded, rfl, ?_⟩
    simp only [done] at resolved
    by_cases empty : decoded.dropWhile (· = '/') = []
    · rw [if_pos empty] at resolved
      cases root with
      | true => exact (Except.ok.inj resolved).symm.trans empty.symm
      | false => cases resolved
    · rw [if_neg empty] at resolved
      split at resolved
      · cases resolved
      · exact (Except.ok.inj resolved).symm

/-- A plain path is its own key exactly where a second decoding leaves it alone. -/
theorem resolve_eq_self_iff {root : Bool} {path : Text} (plain : PlainPath path) :
    resolve root path = .ok path ↔ '%' ∉ path := by
  constructor
  · intro resolved member
    obtain ⟨decoded, done, same⟩ := resolve_eq_ok resolved
    have shorter := length_percentDecode done member
    rw [← List.takeWhile_append_dropWhile (p := (· = '/')) (l := decoded), ← same, Text.utf8_append,
      List.length_append] at shorter
    omega
  · intro clean
    have accepted : (path.splitOn '/').any forbidden = false :=
      List.any_eq_false.mpr fun seg member => by simp [plain seg member]
    simp [resolve, percentDecode_eq_self clean, plain.dropWhile_slash, plain.ne_nil, accepted]

end Anwesen.Http

import Mathlib.Data.List.Basic

/-! Percent-encoding of byte strings.

An escape is a percent sign and two hexadecimal digits; any other byte of an
encoded string stands for itself, or for what a dialect reads it as.
-/

set_option autoImplicit false

namespace Anwesen.Foundation.Percent

def sign : UInt8 := 0x25

def hexValue (b : UInt8) : Option UInt8 :=
  if 0x30 ≤ b ∧ b ≤ 0x39 then some (b - 0x30)
  else if 0x61 ≤ b ∧ b ≤ 0x66 then some (b - 0x61 + 10)
  else if 0x41 ≤ b ∧ b ≤ 0x46 then some (b - 0x41 + 10)
  else none

/-- The byte of two digits. -/
def joinHex (hi lo : UInt8) : UInt8 := hi <<< 4 ||| lo

/-- One pass over the bytes, in a dialect that reads an unescaped byte as `literal` of it. -/
def decode (literal : UInt8 → UInt8) : List UInt8 → Option (List UInt8)
  | [] => some []
  | b :: rest =>
      if b = sign then
        match rest with
        | hi :: lo :: rest => do
            let hi ← hexValue hi
            let lo ← hexValue lo
            return joinHex hi lo :: (← decode literal rest)
        | _ => none
      else (decode literal rest).map (literal b :: ·)

/-- The encoded forms of a byte string in which the unescaped bytes are allowed ones. -/
inductive Encodes (literal : UInt8 → UInt8) (allowed : UInt8 → Prop) : List UInt8 → List UInt8 → Prop
  | nil : Encodes literal allowed [] []
  | plain {b : UInt8} {bytes raw : List UInt8} : allowed b → b ≠ sign →
      Encodes literal allowed bytes raw → Encodes literal allowed (literal b :: bytes) (b :: raw)
  | escaped {hi lo h l : UInt8} {bytes raw : List UInt8} : hexValue hi = some h → hexValue lo = some l →
      Encodes literal allowed bytes raw →
        Encodes literal allowed (joinHex h l :: bytes) (sign :: hi :: lo :: raw)

variable {literal : UInt8 → UInt8} {allowed : UInt8 → Prop}

theorem decode_plain {b : UInt8} (plain : b ≠ sign) (raw : List UInt8) :
    decode literal (b :: raw) = (decode literal raw).map (literal b :: ·) := by
  rcases raw with _ | ⟨_, _ | ⟨_, _⟩⟩ <;> simp [decode, plain]

theorem decode_escaped {hi lo h l : UInt8} (first : hexValue hi = some h) (second : hexValue lo = some l)
    (raw : List UInt8) :
    decode literal (sign :: hi :: lo :: raw) = (decode literal raw).map (joinHex h l :: ·) := by
  rw [decode, if_pos rfl]
  cases decode literal raw <;> simp [first, second]

/-- Decoding inverts every encoding. -/
theorem decode_of_encodes {bytes raw : List UInt8} (encodes : Encodes literal allowed bytes raw) :
    decode literal raw = some bytes := by
  induction encodes with
  | nil => rfl
  | plain _ plain _ ih => rw [decode_plain plain, ih]; rfl
  | escaped first second _ ih => rw [decode_escaped first second, ih]; rfl

theorem Encodes.append {first second firstRaw secondRaw : List UInt8}
    (front : Encodes literal allowed first firstRaw) (back : Encodes literal allowed second secondRaw) :
    Encodes literal allowed (first ++ second) (firstRaw ++ secondRaw) := by
  induction front with
  | nil => exact back
  | plain permitted plain _ ih => exact .plain permitted plain ih
  | escaped high low _ ih => exact .escaped high low ih

theorem encodes_self {raw : List UInt8} (plain : ∀ b ∈ raw, allowed b ∧ b ≠ sign ∧ literal b = b) :
    Encodes literal allowed raw raw := by
  induction raw with
  | nil => exact .nil
  | cons b raw ih =>
    rw [List.forall_mem_cons] at plain
    have step := Encodes.plain plain.1.1 plain.1.2.1 (ih plain.2)
    rwa [plain.1.2.2] at step

theorem Encodes.mono {wider : UInt8 → Prop} (weaken : ∀ b, allowed b → wider b)
    {bytes raw : List UInt8} (encodes : Encodes literal allowed bytes raw) :
    Encodes literal wider bytes raw := by
  induction encodes with
  | nil => exact .nil
  | plain permitted plain _ ih => exact .plain (weaken _ permitted) plain ih
  | escaped high low _ ih => exact .escaped high low ih

/-- An encoded string holds allowed bytes and escapes. -/
theorem Encodes.mem_raw {bytes raw : List UInt8} (encodes : Encodes literal allowed bytes raw)
    {b : UInt8} (member : b ∈ raw) : allowed b ∨ b = sign ∨ (hexValue b).isSome = true := by
  induction encodes with
  | nil => cases member
  | plain permitted _ _ ih =>
    rcases List.mem_cons.mp member with rfl | later
    · exact .inl permitted
    · exact ih later
  | escaped high low _ ih =>
    rcases List.mem_cons.mp member with rfl | member
    · exact .inr (.inl rfl)
    rcases List.mem_cons.mp member with rfl | member
    · exact .inr (.inr (Option.isSome_iff_exists.mpr ⟨_, high⟩))
    rcases List.mem_cons.mp member with rfl | later
    · exact .inr (.inr (Option.isSome_iff_exists.mpr ⟨_, low⟩))
    · exact ih later

theorem decode_eq_self {raw : List UInt8} (clean : sign ∉ raw) : decode id raw = some raw := by
  induction raw with
  | nil => rfl
  | cons b raw ih =>
    rw [List.mem_cons, not_or] at clean
    rw [decode_plain (Ne.symm clean.1), ih clean.2]
    rfl

/-- What decodes holds its escapes whole. -/
theorem decode_cons_sign {raw bytes : List UInt8} (decoded : decode literal (sign :: raw) = some bytes) :
    ∃ hi lo rest b tail, raw = hi :: lo :: rest ∧ decode literal rest = some tail ∧ bytes = b :: tail := by
  match raw with
  | [] | [_] => simp [decode] at decoded
  | hi :: lo :: rest =>
    rw [decode, if_pos rfl] at decoded
    simp only [Option.bind_eq_bind, Option.bind_eq_some_iff, Option.pure_def, Option.some.injEq] at decoded
    obtain ⟨h, _, l, _, tail, inner, rfl⟩ := decoded
    exact ⟨hi, lo, rest, joinHex h l, tail, rfl, inner, rfl⟩

theorem length_decode_le : ∀ {raw bytes : List UInt8}, decode literal raw = some bytes →
    bytes.length ≤ raw.length
  | [], bytes, decoded => by
    obtain rfl := Option.some.inj decoded
    exact Nat.le_refl _
  | b :: raw, bytes, decoded => by
    by_cases escape : b = sign
    · subst escape
      obtain ⟨hi, lo, rest, c, tail, rfl, inner, rfl⟩ := decode_cons_sign decoded
      have shorter := length_decode_le inner
      simp only [List.length_cons]
      omega
    · rw [decode_plain escape, Option.map_eq_some_iff] at decoded
      obtain ⟨tail, inner, rfl⟩ := decoded
      exact Nat.succ_le_succ (length_decode_le inner)

/-- An escape makes the decoded string shorter. -/
theorem length_decode_lt : ∀ {raw bytes : List UInt8}, decode literal raw = some bytes → sign ∈ raw →
    bytes.length < raw.length
  | b :: raw, bytes, decoded, member => by
    by_cases escape : b = sign
    · subst escape
      obtain ⟨hi, lo, rest, c, tail, rfl, inner, rfl⟩ := decode_cons_sign decoded
      have shorter := length_decode_le inner
      simp only [List.length_cons]
      omega
    · rw [decode_plain escape, Option.map_eq_some_iff] at decoded
      obtain ⟨tail, inner, rfl⟩ := decoded
      have later : sign ∈ raw := (List.mem_cons.mp member).resolve_left (Ne.symm escape)
      exact Nat.succ_lt_succ (length_decode_lt inner later)

/-! The encoding that escapes every byte. -/

def hexDigit (n : UInt8) : UInt8 := if n < 10 then 0x30 + n else 0x41 + (n - 10)

def escape (b : UInt8) : List UInt8 := [sign, hexDigit (b >>> 4), hexDigit (b &&& 0xF)]

/-- A digit is a decimal one or one of the six letters, small or capital. -/
theorem digit_of_hexValue {b v : UInt8} (digit : hexValue b = some v) :
    (v.toNat < 10 ∧ b.toNat = v.toNat + 0x30) ∨
      (10 ≤ v.toNat ∧ v.toNat < 16 ∧ (b.toNat = v.toNat + 0x57 ∨ b.toNat = v.toNat + 0x37)) := by
  simp only [hexValue, UInt8.le_iff_toNat_le] at digit
  split at digit
  · rename_i range
    obtain rfl := Option.some.inj digit
    rw [UInt8.toNat_sub_of_le _ _ range.1]
    simp at range ⊢
    omega
  · split at digit
    · rename_i range
      obtain rfl := Option.some.inj digit
      rw [UInt8.toNat_add, UInt8.toNat_sub_of_le _ _ range.1]
      simp at range ⊢
      omega
    · split at digit
      · rename_i range
        obtain rfl := Option.some.inj digit
        rw [UInt8.toNat_add, UInt8.toNat_sub_of_le _ _ range.1]
        simp at range ⊢
        omega
      · cases digit

theorem hexValue_lt {b v : UInt8} (digit : hexValue b = some v) : v.toNat < 16 := by
  rcases digit_of_hexValue digit with ⟨small, -⟩ | ⟨-, small, -⟩
  · omega
  · exact small

theorem toNat_joinHex {h l : UInt8} (high : h.toNat < 16) (low : l.toNat < 16) :
    (joinHex h l).toNat = h.toNat * 16 + l.toNat := by
  have fits : h.toNat <<< 4 < 256 := by
    rw [Nat.shiftLeft_eq]
    omega
  have apart := Nat.shiftLeft_add_eq_or_of_lt (i := 4) low h.toNat
  simp only [joinHex, UInt8.toNat_or, UInt8.toNat_shiftLeft]
  simp
  rw [Nat.mod_eq_of_lt fits, ← apart, Nat.shiftLeft_eq]

theorem toNat_highHalf (b : UInt8) : (b >>> 4).toNat = b.toNat / 16 := by
  simp [UInt8.toNat_shiftRight, Nat.shiftRight_eq_div_pow]

theorem toNat_lowHalf (b : UInt8) : (b &&& 0xF).toNat = b.toNat % 16 := by
  rw [UInt8.toNat_and]
  exact Nat.and_two_pow_sub_one_eq_mod b.toNat 4

theorem hexValue_hexDigit {n : UInt8} (half : n.toNat < 16) : hexValue (hexDigit n) = some n := by
  have all : ∀ n : Fin 16, hexValue (hexDigit (UInt8.ofNat n.1)) = some (UInt8.ofNat n.1) := by decide
  simpa using all ⟨n.toNat, half⟩

theorem digits_of_byte (b : UInt8) : hexValue (hexDigit (b >>> 4)) = some (b >>> 4) ∧
    hexValue (hexDigit (b &&& 0xF)) = some (b &&& 0xF) ∧ joinHex (b >>> 4) (b &&& 0xF) = b := by
  have high : (b >>> 4).toNat < 16 := by
    have byte := b.toNat_lt
    rw [toNat_highHalf]
    omega
  have low : (b &&& 0xF).toNat < 16 := by
    rw [toNat_lowHalf]
    exact Nat.mod_lt _ (by decide)
  refine ⟨hexValue_hexDigit high, hexValue_hexDigit low, UInt8.toNat_inj.mp ?_⟩
  rw [toNat_joinHex high low, toNat_highHalf, toNat_lowHalf]
  omega

theorem hexValue_ascii {b v : UInt8} (digit : hexValue b = some v) : b < 0x80 := by
  have range := digit_of_hexValue digit
  rw [UInt8.lt_iff_toNat_lt]
  simp only [UInt8.reduceToNat]
  omega

theorem escape_ascii {b digit : UInt8} (member : digit ∈ escape b) : digit < 0x80 := by
  obtain ⟨high, low, -⟩ := digits_of_byte b
  simp only [escape, List.mem_cons, List.not_mem_nil, or_false] at member
  rcases member with rfl | rfl | rfl
  · decide
  · exact hexValue_ascii high
  · exact hexValue_ascii low

theorem encodes_escape (bytes : List UInt8) : Encodes literal allowed bytes (bytes.flatMap escape) := by
  induction bytes with
  | nil => exact .nil
  | cons b bytes ih =>
    obtain ⟨high, low, joined⟩ := digits_of_byte b
    have step := Encodes.escaped high low ih
    rwa [joined] at step

/-! Decoding that leaves a percent sign alone where no two digits follow it. -/

/-- The byte that three bytes are an escape of. -/
def escapedByte (b hi lo : UInt8) : Option UInt8 :=
  if b = sign then do return joinHex (← hexValue hi) (← hexValue lo) else none

def unescape : List UInt8 → List UInt8
  | b :: hi :: lo :: rest =>
      match escapedByte b hi lo with
      | some c => c :: unescape rest
      | none => b :: unescape (hi :: lo :: rest)
  | short => short

theorem escapedByte_eq_some {first hi lo b : UInt8} : escapedByte first hi lo = some b ↔
    first = sign ∧ ∃ h l, hexValue hi = some h ∧ hexValue lo = some l ∧ joinHex h l = b := by
  rw [escapedByte]
  by_cases isSign : first = sign
  · simp [isSign, Option.bind_eq_some_iff]
  · simp [isSign]

theorem escapedByte_of_noDigit {hi lo : UInt8} (noDigit : hexValue hi = none ∨ hexValue lo = none) (b : UInt8) :
    escapedByte b hi lo = none := by
  refine Option.eq_none_iff_forall_ne_some.mpr fun c escape => ?_
  obtain ⟨-, h, l, high, low, -⟩ := escapedByte_eq_some.mp escape
  rcases noDigit with none_ | none_
  · cases none_.symm.trans high
  · cases none_.symm.trans low

/-- Where the rest begins with no digit, the byte in front of it stands for itself. -/
theorem unescape_cons {b : UInt8} (noDigit : hexValue b = none) (first : UInt8) (rest : List UInt8) :
    unescape (first :: b :: rest) = first :: unescape (b :: rest) := by
  cases rest with
  | nil => rfl
  | cons c rest => rw [unescape, escapedByte_of_noDigit (.inl noDigit)]

theorem unescape_append {b : UInt8} (noDigit : hexValue b = none) (front rest : List UInt8) :
    unescape (front ++ b :: rest) = unescape front ++ unescape (b :: rest) := by
  induction front using unescape.induct with
  | case1 first hi lo more c escape ih =>
    simp only [List.cons_append, unescape, escape, ih]
  | case2 first hi lo more plain ih =>
    simp only [List.cons_append, unescape, plain] at ih ⊢
    rw [ih]
  | case3 short notLong =>
    rcases short with _ | ⟨first, _ | ⟨second, _ | ⟨third, more⟩⟩⟩
    · rfl
    · exact unescape_cons noDigit first rest
    · simp only [List.cons_append, List.nil_append, unescape, escapedByte_of_noDigit (.inr noDigit)]
      rw [unescape_cons noDigit]
    · exact absurd rfl (notLong first second third more)

theorem unescape_ne_nil {raw : List UInt8} (nonempty : raw ≠ []) : unescape raw ≠ [] := by
  rcases raw with _ | ⟨b, _ | ⟨hi, _ | ⟨lo, rest⟩⟩⟩
  · exact nonempty
  · exact List.cons_ne_nil _ _
  · exact List.cons_ne_nil _ _
  · rw [unescape]
    split <;> exact List.cons_ne_nil _ _

/-- The last byte of a decoded string is the last one of the string, or that of an escape at its end. -/
theorem getLast?_of_unescape {raw : List UInt8} {b : UInt8} (last : (unescape raw).getLast? = some b) :
    raw.getLast? = some b ∨ ∃ first hi lo, escapedByte first hi lo = some b ∧ [first, hi, lo] <:+ raw := by
  induction raw using unescape.induct with
  | case1 first hi lo more c escape ih =>
    simp only [unescape, escape] at last
    by_cases ends : more = []
    · subst ends
      obtain rfl : c = b := by simpa [unescape] using last
      exact .inr ⟨first, hi, lo, escape, List.suffix_rfl⟩
    · rw [List.getLast?_cons_of_ne_nil (unescape_ne_nil ends)] at last
      rcases ih last with same | ⟨x, y, z, escaped, suffix⟩
      · left
        rw [← same]
        exact List.getLast?_append_of_ne_nil [first, hi, lo] ends
      · exact .inr ⟨x, y, z, escaped, suffix.trans (List.suffix_append [first, hi, lo] more)⟩
  | case2 first hi lo more plain ih =>
    simp only [unescape, plain] at last
    rw [List.getLast?_cons_of_ne_nil (unescape_ne_nil (List.cons_ne_nil _ _))] at last
    rcases ih last with same | ⟨x, y, z, escaped, suffix⟩
    · left
      rwa [List.getLast?_cons_of_ne_nil (List.cons_ne_nil _ _)]
    · exact .inr ⟨x, y, z, escaped, suffix.trans (List.suffix_cons first _)⟩
  | case3 short notLong =>
    left
    rcases short with _ | ⟨first, _ | ⟨second, _ | ⟨third, more⟩⟩⟩
    · exact last
    · exact last
    · exact last
    · exact absurd rfl (notLong first second third more)

/-- Where the byte is no digit, both ends are decoded to it. -/
theorem getLast?_unescape_iff {b : UInt8} (noDigit : hexValue b = none) {raw : List UInt8} :
    (unescape raw).getLast? = some b ↔
      raw.getLast? = some b ∨ ∃ first hi lo, escapedByte first hi lo = some b ∧ [first, hi, lo] <:+ raw := by
  refine ⟨getLast?_of_unescape, ?_⟩
  rintro (literal | ⟨first, hi, lo, escape, front, rfl⟩)
  · obtain ⟨front, rfl⟩ := List.getLast?_eq_some_iff.mp literal
    rw [unescape_append noDigit]
    exact List.getLast?_concat
  · obtain rfl : first = sign := (escapedByte_eq_some.mp escape).1
    rw [unescape_append (by decide), unescape, escape]
    exact List.getLast?_concat

end Anwesen.Foundation.Percent

import Anwesen.Http.Notes

/-! The route bucket of a request, and what the handlers make of it.

The bucket is taken from the path as it was sent, the handlers are chosen by
the path after its escapes are decoded.
-/

set_option autoImplicit false

namespace Anwesen.Http

open Foundation Vault

def folderBucket : Text := "folder".toList

def noteBucket : Text := "note".toList

def notesPrefix : Text := "/notes/".toList

/-- The label of a request path, not decoded. -/
def classifyRoute (path : Text) : Text :=
  if path = "/health".toList then "health".toList
  else if path = "/query".toList then "query".toList
  else if path = notesPrefix then folderBucket
  else if notesPrefix <+: path then
    if path.getLast? = some '/' then folderBucket else noteBucket
  else "other".toList

/-- What the router and `get_notes` treat a request below `/notes/` as. -/
inductive Treatment where
  | rejected (rejection : Response)
  | root
  | folder (path : Text)
  | note (path : Text)

def Treatment.ListsFolder : Treatment → Prop
  | .root | .folder _ => True
  | .rejected _ | .note _ => False

def Treatment.ReadsNote : Treatment → Prop
  | .note _ => True
  | .rejected _ | .root | .folder _ => False

def dispatch (extract : Bytes → Except Response Text) (raw : Bytes) : Treatment :=
  if raw = [] then .root
  else
    match extract raw with
    | .error rejection => .rejected rejection
    | .ok path => if path.getLast? = some '/' then .folder path else .note path

def Treatment.answer (ext : External) (store : NoteStore) (headers : Headers) : Treatment → Response
  | .rejected rejection => rejection
  | .root => listFolder ext store []
  | .folder path =>
      match resolveFolder path.dropLast with
      | .error reason => badRequest reason
      | .ok canonical => listFolder ext store canonical
  | .note path =>
      match resolvePath path with
      | .error reason => badRequest reason
      | .ok canonical =>
          match store.get canonical with
          | none => notFound
          | some held => respondNote ext held headers

/-- The extractor decodes every path once, leaves broken escapes alone and turns down what is no text. -/
def Unescapes (extract : Bytes → Except Response Text) : Prop :=
  ∀ raw path, extract raw = .ok path ↔ Bytes.fromUtf8 (Percent.unescape raw) = some path

/-- The bucket of a path below `/notes/` is what its request is treated as. -/
structure BucketAgrees (extract : Bytes → Except Response Text) (tail : Text) : Prop where
  folder : classifyRoute (notesPrefix ++ tail) = folderBucket ↔ (dispatch extract tail.utf8).ListsFolder
  note : classifyRoute (notesPrefix ++ tail) = noteBucket ↔ (dispatch extract tail.utf8).ReadsNote

def EscapedSlash (tail : Text) : Prop := "%2F".toList <:+ tail ∨ "%2f".toList <:+ tail

instance (tail : Text) : Decidable (EscapedSlash tail) := inferInstanceAs (Decidable (_ ∨ _))

section

variable {extract : Bytes → Except Response Text} {tail : Text}

/-- The treatment is what answers the request. -/
theorem route_eq_answer (ext : External) (store : NoteStore) (raw : Bytes) (headers : Headers) :
    route ext extract store raw headers = (dispatch extract raw).answer ext store headers := by
  rw [route, dispatch]
  by_cases empty : raw = []
  · rw [if_pos empty, if_pos empty]
    rfl
  · rw [if_neg empty, if_neg empty]
    cases extract raw with
    | error rejection => rfl
    | ok path =>
      dsimp only
      rw [getNotes, target]
      by_cases slash : path.getLast? = some '/'
      · rw [if_pos slash, if_pos slash, Treatment.answer]
        cases resolveFolder path.dropLast <;> rfl
      · rw [if_neg slash, if_neg slash, Treatment.answer]
        cases resolvePath path <;> rfl

theorem classifyRoute_notes (tail : Text) : classifyRoute (notesPrefix ++ tail) =
    if tail = [] ∨ tail.getLast? = some '/' then folderBucket else noteBucket := by
  have elsewhere : ∀ other, ¬ notesPrefix <+: other → notesPrefix ++ tail ≠ other := fun other no same =>
    no ⟨tail, same⟩
  rw [classifyRoute, if_neg (elsewhere _ (by decide)), if_neg (elsewhere _ (by decide))]
  by_cases empty : tail = []
  · subst empty
    rw [List.append_nil, if_pos rfl, if_pos (.inl rfl)]
  · have more : notesPrefix ++ tail ≠ notesPrefix := by simpa using empty
    rw [if_neg more, if_pos (List.prefix_append _ _), List.getLast?_append_of_ne_nil _ empty]
    simp only [empty, false_or]

theorem buckets_differ : folderBucket ≠ noteBucket := by decide

theorem classifyRoute_folder_iff : classifyRoute (notesPrefix ++ tail) = folderBucket ↔
    tail = [] ∨ tail.getLast? = some '/' := by
  rw [classifyRoute_notes, ite_eq_left_iff, not_imp_comm]
  simp [buckets_differ.symm]

theorem classifyRoute_note_iff : classifyRoute (notesPrefix ++ tail) = noteBucket ↔
    ¬ (tail = [] ∨ tail.getLast? = some '/') := by
  rw [classifyRoute_notes, ite_eq_right_iff]
  simp only [buckets_differ, imp_false]

theorem getLast?_slash_iff {text : Text} : text.getLast? = some '/' ↔ text.utf8.getLast? = some 0x2F := by
  rw [List.getLast?_eq_some_iff, List.getLast?_eq_some_iff]
  constructor
  · rintro ⟨front, rfl⟩
    exact ⟨Text.utf8 front, Text.utf8_append _ _⟩
  · rintro ⟨front, same⟩
    obtain ⟨initial, rfl, -⟩ := @Text.exists_concat_of_utf8 '/' (by decide) text front same
    exact ⟨initial, rfl⟩

/-- A slash has two escapes. -/
theorem escapedByte_slash {first hi lo : UInt8} (escape : Percent.escapedByte first hi lo = some 0x2F) :
    [first, hi, lo] = Text.utf8 "%2F".toList ∨ [first, hi, lo] = Text.utf8 "%2f".toList := by
  obtain ⟨rfl, h, l, high, low, joined⟩ := Percent.escapedByte_eq_some.mp escape
  have value := Percent.toNat_joinHex (Percent.hexValue_lt high) (Percent.hexValue_lt low)
  simp only [joined, UInt8.reduceToNat] at value
  have second := Percent.digit_of_hexValue high
  have third := Percent.digit_of_hexValue low
  -- 47 is 2 * 16 + 15, and 15 is the digit of two letters.
  obtain rfl : hi = 0x32 := UInt8.toNat_inj.mp (by simp only [UInt8.reduceToNat]; omega)
  have ends : lo.toNat = 0x46 ∨ lo.toNat = 0x66 := by omega
  rcases ends with upper | lower
  · obtain rfl : lo = 0x46 := UInt8.toNat_inj.mp upper
    left
    decide
  · obtain rfl : lo = 0x66 := UInt8.toNat_inj.mp lower
    right
    decide

theorem escapedSlash_iff : EscapedSlash tail ↔ ∃ first hi lo,
    Percent.escapedByte first hi lo = some 0x2F ∧ [first, hi, lo] <:+ tail.utf8 := by
  have ascii : ∀ pattern : Text, pattern.all (·.toNat < 128) = true → ∀ char ∈ pattern, char.toNat < 128 :=
    fun pattern small char member => by simpa using List.all_eq_true.mp small char member
  rw [EscapedSlash, ← Text.suffix_utf8_iff (ascii _ (by decide)), ← Text.suffix_utf8_iff (ascii _ (by decide))]
  constructor
  · rintro (upper | lower)
    · exact ⟨0x25, 0x32, 0x46, by decide, upper⟩
    · exact ⟨0x25, 0x32, 0x66, by decide, lower⟩
  · rintro ⟨first, hi, lo, escape, suffix⟩
    rcases escapedByte_slash escape with same | same
    · exact .inl (same ▸ suffix)
    · exact .inr (same ▸ suffix)

/-- The decoded path ends in a slash where the path as sent does, escaped or not. -/
theorem captured_slash_iff {path : Text} (captured : Bytes.fromUtf8 (Percent.unescape tail.utf8) = some path) :
    path.getLast? = some '/' ↔ tail.getLast? = some '/' ∨ EscapedSlash tail := by
  rw [getLast?_slash_iff, ← Bytes.fromUtf8_eq_some.mp captured, Percent.getLast?_unescape_iff (by decide),
    ← getLast?_slash_iff, ← escapedSlash_iff]

theorem not_slash_of_escaped (escaped : EscapedSlash tail) : tail ≠ [] ∧ tail.getLast? ≠ some '/' := by
  rcases escaped with ⟨front, rfl⟩ | ⟨front, rfl⟩
  · constructor
    · simp
    · rw [List.getLast?_append_of_ne_nil _ (by decide)]
      decide
  · constructor
    · simp
    · rw [List.getLast?_append_of_ne_nil _ (by decide)]
      decide

/-- A captured path is treated as its last character says. -/
theorem dispatch_captured {raw : Bytes} (nonempty : raw ≠ []) {path : Text} (captured : extract raw = .ok path) :
    ((dispatch extract raw).ListsFolder ↔ path.getLast? = some '/') ∧
      ((dispatch extract raw).ReadsNote ↔ path.getLast? ≠ some '/') := by
  rw [dispatch, if_neg nonempty, captured]
  by_cases slash : path.getLast? = some '/'
  · simp [slash, Treatment.ListsFolder, Treatment.ReadsNote]
  · simp [slash, Treatment.ListsFolder, Treatment.ReadsNote]

/-- A request whose path is turned down is neither. -/
theorem dispatch_rejected {raw : Bytes} (nonempty : raw ≠ []) (rejected : ∀ path, extract raw ≠ .ok path) :
    ¬ (dispatch extract raw).ListsFolder ∧ ¬ (dispatch extract raw).ReadsNote := by
  rw [dispatch, if_neg nonempty]
  cases extracted : extract raw with
  | error rejection => exact ⟨not_false, not_false⟩
  | ok path => exact absurd extracted (rejected path)

/-- Where the handler gets a path, the bucket is right when the two paths end alike. -/
theorem bucketAgrees_captured (nonempty : tail ≠ []) {path : Text} (captured : extract tail.utf8 = .ok path) :
    BucketAgrees extract tail ↔ (tail.getLast? = some '/' ↔ path.getLast? = some '/') := by
  obtain ⟨lists, reads⟩ := dispatch_captured (mt Text.utf8_eq_nil.mp nonempty) captured
  constructor
  · intro agrees
    have folder := agrees.folder
    rwa [classifyRoute_folder_iff, or_iff_right nonempty, lists] at folder
  · intro same
    constructor
    · rw [classifyRoute_folder_iff, or_iff_right nonempty, lists, same]
    · rw [classifyRoute_note_iff, or_iff_right nonempty, reads, same]

/-- The bucket is right for every path that is text and does not end in an escaped slash. -/
theorem bucketAgrees_iff (unescapes : Unescapes extract) (tail : Text) : BucketAgrees extract tail ↔
    (Bytes.fromUtf8 (Percent.unescape tail.utf8)).isSome = true ∧ ¬ EscapedSlash tail := by
  by_cases empty : tail = []
  · subst empty
    refine iff_of_true ⟨iff_of_true (classifyRoute_folder_iff.mpr (.inl rfl)) trivial, ?_⟩
      ⟨rfl, fun escaped => (not_slash_of_escaped escaped).1 rfl⟩
    exact iff_of_false (mt classifyRoute_note_iff.mp (not_not_intro (.inl rfl))) not_false
  cases decoded : Bytes.fromUtf8 (Percent.unescape tail.utf8) with
  | none =>
    refine iff_of_false (fun agrees => ?_) (by simp)
    have rejected : ∀ path, extract tail.utf8 ≠ .ok path := by
      intro path extracted
      rw [(unescapes _ path).mp extracted] at decoded
      cases decoded
    obtain ⟨notFolder, notNote⟩ := dispatch_rejected (mt Text.utf8_eq_nil.mp empty) rejected
    by_cases folder : tail = [] ∨ tail.getLast? = some '/'
    · exact notFolder (agrees.folder.mp (classifyRoute_folder_iff.mpr folder))
    · exact notNote (agrees.note.mp (classifyRoute_note_iff.mpr folder))
  | some path =>
    rw [bucketAgrees_captured empty ((unescapes _ path).mpr decoded), captured_slash_iff decoded,
      Option.isSome_some, eq_self_iff_true, true_and]
    constructor
    · intro same escaped
      exact (not_slash_of_escaped escaped).2 (same.mpr (.inr escaped))
    · intro unescaped
      rw [or_iff_left unescaped]

end

/-- An extractor that decodes once, and answers nothing in particular to what is no text. -/
def captureText (raw : Bytes) : Except Response Text :=
  match Bytes.fromUtf8 (Percent.unescape raw) with
  | some path => .ok path
  | none => .error (badRequest [])

theorem captureText_unescapes : Unescapes captureText := by
  intro raw path
  rw [captureText]
  cases Bytes.fromUtf8 (Percent.unescape raw) <;> simp

/-- An escape inside the path and a plain slash at its end. -/
theorem bucketAgrees_iff_folder : BucketAgrees captureText "My%2FNotes%20%zz/".toList :=
  (bucketAgrees_iff captureText_unescapes _).mpr ⟨by decide +kernel, by decide⟩

/-- The listing of a folder whose slash is escaped counts as a note. -/
theorem escaped_slash_counts_as_note :
    let tail := "Projects%2F".toList
    Unescapes captureText ∧ classifyRoute (notesPrefix ++ tail) = noteBucket ∧
      dispatch captureText (Text.utf8 tail) = .folder "Projects/".toList ∧
      (∀ ext store headers, route ext captureText store (Text.utf8 tail) headers =
        listFolder ext store "Projects".toList) ∧
      ¬ BucketAgrees captureText tail := by
  intro tail
  have captured : captureText (Text.utf8 tail) = .ok "Projects/".toList :=
    (captureText_unescapes _ _).mpr (by decide +kernel)
  have folder : dispatch captureText (Text.utf8 tail) = .folder "Projects/".toList := by
    rw [dispatch, if_neg (by decide), captured]
    rfl
  have resolved : resolveFolder "Projects".toList = .ok "Projects".toList := by decide +kernel
  have bucket : classifyRoute (notesPrefix ++ tail) = noteBucket := by decide +kernel
  refine ⟨captureText_unescapes, bucket, folder, fun ext store headers => ?_, fun agrees => ?_⟩
  · have dropped : "Projects/".toList.dropLast = "Projects".toList := by decide
    rw [route_eq_answer, folder, Treatment.answer, dropped, resolved]
  · have reads := agrees.note.mp bucket
    rw [folder] at reads
    exact reads

end Anwesen.Http

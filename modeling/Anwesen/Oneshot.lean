import Anwesen.Doctor.Report
import Anwesen.Http.Queries

/-! The `merge` and `query` subcommands: one walk of the vault, one evaluation. -/

set_option autoImplicit false

namespace Anwesen.Oneshot

open Foundation Vault Query Http Doctor

inductive OneshotError where
  | query (error : QueryError)
  | scan (issues : List ScanIssue)
  | kind (message : Text)

def OneshotError.render (display : Display) (subcommand : Text) : OneshotError → Text
  | .query error => showError error ++ ['\n']
  | .scan issues =>
      subcommand ++ ": cannot read vault\n".toList ++ unlines (issues.map (issueLine display))
  | .kind message => message

section

variable (ext : External) (disk : Disk) (vaultRoot : PathBuf) (rawQuery : Text)

/-- The way both subcommands parse a query and read a vault. -/
def load : Except OneshotError (ParsedQuery × NoteStore) :=
  match parse ext rawQuery with
  | .error error => .error (.query error)
  | .ok parsed =>
      let scan := scan ext disk vaultRoot
      if scan.issues ≠ [] then .error (.scan scan.issues) else .ok (parsed, .replace scan.notes)

/-- Nothing where `sort_by` panics. -/
def merge : Option (Except OneshotError Text) :=
  match load ext disk vaultRoot rawQuery with
  | .error error => some (.error error)
  | .ok (parsed, store) => (executeMerge ext store parsed).map fun
      | .ok document => .ok document
      | .error (.kindGuard message) => .error (.kind message)

def queryJson (serialize : QueryResponse → Text) : Except OneshotError Text :=
  match load ext disk vaultRoot rawQuery with
  | .error error => .error error
  | .ok (parsed, store) => .ok (serialize (execute ext store parsed ext.printInstant))

end

/-- What a run of the program leaves behind. -/
structure Outcome where
  stdout : Text
  stderr : Text
  exit : Nat
  deriving DecidableEq

/-- `main` on the result of a subcommand; `query` ends its line, `merge` does not. A panic
ends the program. -/
def finish (display : Display) (subcommand ending : Text) : Option (Except OneshotError Text) → Outcome
  | some (.ok document) => ⟨document ++ ending, [], 0⟩
  | some (.error error) => ⟨[], error.render display subcommand, 1⟩
  | none => ⟨[], display.panic, 101⟩

def mergeCommand (ext : External) (display : Display) (disk : Disk) (vaultRoot : PathBuf) (rawQuery : Text) :
    Outcome :=
  finish display "merge".toList [] (merge ext disk vaultRoot rawQuery)

def queryCommand (ext : External) (display : Display) (serialize : QueryResponse → Text) (disk : Disk)
    (vaultRoot : PathBuf) (rawQuery : Text) : Outcome :=
  finish display "query".toList "\n".toList (some (queryJson ext disk vaultRoot rawQuery serialize))

/-- The subcommand prints what the endpoint answers, fails with its reason, or panics where
the handler does. -/
structure Matches (ending : Text) (outcome : Outcome) (response : Response) : Prop where
  answered : response.status = 200 → ∃ document, response.body = .text document ∧
    outcome = ⟨document ++ ending, [], 0⟩
  failed : response.status ≠ 200 →
    (∃ reason, response = badRequest reason ∧ outcome.stdout = [] ∧ outcome.exit = 1 ∧
      (outcome.stderr = reason ∨ outcome.stderr = reason ++ ['\n'])) ∨
    response = internalServerError ∧ outcome.stdout = [] ∧ outcome.exit = 101

section

variable {ext : External} {display : Display} {serialize : QueryResponse → Text} {disk : Disk}
  {vaultRoot : PathBuf} {headers : Headers}

theorem merge_matches (clean : (scan ext disk vaultRoot).issues = [])
    (markdown : wantsMarkdown headers = true) (raw : Text) :
    Matches [] (mergeCommand ext display disk vaultRoot raw)
      (getQuery ext serialize (.replace (scan ext disk vaultRoot).notes) (some raw) headers) := by
  simp only [mergeCommand, merge, load, getQuery, Option.getD_some, clean, markdown, if_true, ne_eq,
    not_true_eq_false, if_false]
  cases parse ext raw with
  | error error =>
    refine ⟨fun ok => ?_, fun _ => .inl ⟨showError error, rfl, rfl, rfl, .inr rfl⟩⟩
    simp [badRequest] at ok
  | ok parsed =>
    dsimp only
    cases executeMerge ext (.replace (scan ext disk vaultRoot).notes) parsed with
    | none =>
      refine ⟨fun ok => ?_, fun _ => .inr ⟨rfl, rfl, rfl⟩⟩
      simp [internalServerError] at ok
    | some merged =>
      cases merged with
      | ok document => exact ⟨fun _ => ⟨document, rfl, by simp [finish]⟩, fun other => absurd rfl other⟩
      | error error =>
        obtain ⟨message⟩ := error
        refine ⟨fun ok => ?_, fun _ => .inl ⟨message, rfl, rfl, rfl, .inl rfl⟩⟩
        simp [badRequest] at ok

theorem query_matches (clean : (scan ext disk vaultRoot).issues = [])
    (markdown : wantsMarkdown headers = false) (raw : Text) :
    Matches "\n".toList (queryCommand ext display serialize disk vaultRoot raw)
      (getQuery ext serialize (.replace (scan ext disk vaultRoot).notes) (some raw) headers) := by
  simp only [queryCommand, queryJson, load, getQuery, Option.getD_some, clean, markdown, ne_eq,
    not_true_eq_false, if_false, Bool.false_eq_true]
  cases parse ext raw with
  | error error =>
    refine ⟨fun ok => ?_, fun _ => .inl ⟨showError error, rfl, rfl, rfl, .inr rfl⟩⟩
    simp [badRequest] at ok
  | ok parsed => exact ⟨fun _ => ⟨_, rfl, rfl⟩, fun other => absurd rfl other⟩

end

end Anwesen.Oneshot

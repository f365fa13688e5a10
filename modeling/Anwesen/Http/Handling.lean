import Anwesen.Http.Queries
import Anwesen.Http.Telemetry
import Anwesen.Store.Guard

/-! The handlers as what they do with the store: nothing, or one call that reads it.

What a handler makes of the request comes before the call, what it makes of the reply
comes after it, without the lock.
-/

set_option autoImplicit false

namespace Anwesen.Http

open Foundation Vault Query

/-- What the closures of the handlers return from under the lock. -/
inductive Seen where
  | listing (listing : Listing)
  | rows (rows : List ResultEntry)
  | fragments (frags : List Fragment)

inductive Handler where
  | answers (response : Response)
  | asks (method : Method Seen) (respond : Reply Seen → Response)

namespace Handler

/-- The response when nothing happens to the store meanwhile. -/
def exec (store : NoteStore) : Handler → Response
  | .answers response => response
  | .asks method respond => respond (method.result store).2

/-- The call is one that looks at the store, once. -/
def Looks : Handler → Prop
  | .answers _ => True
  | .asks method _ => ∃ look, method.routine = .look look ∧ method.mode = .reading

end Handler

/-- `with_read` with a closure that goes through the notes. -/
def withRead (look : NoteStore → Seen) : Method Seen := .withRead (.look look) (Routine.reads_look look)

section

variable (ext : External)

/-- What `list_folder` collects under the lock. -/
def collectListing (folder : Text) (store : NoteStore) : Listing :=
  let prefix_ := if folder = [] then [] else folder ++ ['/']
  store.inner.toList.foldl (fun listing (path, note) => Listing.visit prefix_ listing path note) {}

def respondListing (folder : Text) (listing : Listing) : Response :=
  if !listing.foundAny && folder ≠ [] then notFound
  else
    let files := listing.files.toList.map fun (name, lastModified, size) =>
      (⟨name, "file".toList, ext.printInstant lastModified, some size⟩ : FolderEntry)
    let dirs := listing.dirs.toList.map fun (name, lastModified) =>
      (⟨name, "dir".toList, ext.printInstant lastModified, none⟩ : FolderEntry)
    let entries := (files ++ dirs).mergeSort fun a b => (compare a.name b.name).isLE
    ⟨200, some "application/json".toList, none, .folder ⟨folder, entries⟩⟩

def listFolderHandler (folder : Text) : Handler :=
  .asks (withRead fun store => .listing (collectListing folder store)) fun
    | .answer (.listing listing) => respondListing ext folder listing
    | _ => internalServerError

def getNotesHandler (path : Text) (headers : Headers) : Handler :=
  match target path with
  | .error reason => .answers (badRequest reason)
  | .ok (.folder canonical) => listFolderHandler ext canonical
  | .ok (.note canonical) => .asks (.get canonical) fun
      | .note (some note) => respondNote ext note headers
      | .note none => notFound
      | _ => internalServerError

def routeHandler (extract : Bytes → Except Response Text) (raw : Bytes) (headers : Headers) : Handler :=
  if raw = [] then listFolderHandler ext []
  else
    match extract raw with
    | .error rejection => .answers rejection
    | .ok path => getNotesHandler ext path headers

/-- What `execute` makes of the rows it has collected. -/
def respondRows (serialize : QueryResponse → Text) (query : ParsedQuery) (matched : List ResultEntry) :
    Response :=
  let response : QueryResponse :=
    match query.limit with
    | some limit =>
        if limit < matched.length then ⟨matched.take limit, matched.length, true⟩
        else ⟨matched, matched.length, false⟩
    | none => ⟨matched, matched.length, false⟩
  ⟨200, some "application/json".toList, none, .text (serialize response)⟩

/-- What `execute_merge` makes of the fragments it has collected, or the middleware of a
panic of the sort. -/
def respondFragments (query : ParsedQuery) (frags : List Fragment) : Response :=
  match kindGuard ext query.kindKey frags with
  | .error (.kindGuard message) => badRequest message
  | .ok _ =>
      match sortFragments ext query.order frags with
      | some frags =>
          ⟨200, some "text/markdown; charset=utf-8".toList, none, .text (assemble (capped query.limit frags))⟩
      | none => internalServerError

def getQueryHandler (serialize : QueryResponse → Text) (raw : Option Text) (headers : Headers) : Handler :=
  match parse ext (raw.getD []) with
  | .error error => .answers (badRequest (showError error))
  | .ok parsed =>
      if wantsMarkdown headers then
        .asks (withRead fun store => .fragments (fragments ext store parsed)) fun
          | .answer (.fragments frags) => respondFragments ext parsed frags
          | _ => internalServerError
      else
        .asks (withRead fun store => .rows (rows ext store parsed ext.printInstant)) fun
          | .answer (.rows matched) => respondRows serialize parsed matched
          | _ => internalServerError

end

/-- A request for what is in the store, by what the router matches. -/
inductive Request where
  | notes (tail : Text) (headers : Headers)
  | query (raw : Option Text) (headers : Headers)

/-- What requests take from outside: the extractor, the printer of JSON, the bytes of a body. -/
structure Surroundings where
  ext : External
  extract : Bytes → Except Response Text
  serialize : QueryResponse → Text
  bodyBytes : Body → Nat

namespace Request

def path : Request → Text
  | .notes tail _ => notesPrefix ++ tail
  | .query _ _ => "/query".toList

def headers : Request → Headers
  | .notes _ headers | .query _ headers => headers

variable (around : Surroundings)

def handler : Request → Handler
  | .notes tail headers => routeHandler around.ext around.extract tail.utf8 headers
  | .query raw headers => getQueryHandler around.ext around.serialize raw headers

/-- The response for a store. -/
def answer (store : NoteStore) : Request → Response
  | .notes tail headers => route around.ext around.extract store tail.utf8 headers
  | .query raw headers => getQuery around.ext around.serialize store raw headers

end Request

section

variable {ext : External} {store : NoteStore}

theorem exec_listFolder (folder : Text) : (listFolderHandler ext folder).exec store = listFolder ext store folder :=
  rfl

theorem exec_getNotes (path : Text) (headers : Headers) :
    (getNotesHandler ext path headers).exec store = getNotes ext store path headers := by
  rw [getNotesHandler, getNotes]
  cases target path with
  | error reason => rfl
  | ok target =>
    cases target with
    | folder canonical => exact exec_listFolder canonical
    | note canonical =>
      simp only [Handler.exec, Method.result]
      cases store.get canonical <;> rfl

theorem exec_route (extract : Bytes → Except Response Text) (raw : Bytes) (headers : Headers) :
    (routeHandler ext extract raw headers).exec store = route ext extract store raw headers := by
  rw [routeHandler, route]
  split
  · exact exec_listFolder []
  · cases extract raw with
    | error rejection => rfl
    | ok path => exact exec_getNotes path headers

theorem respondRows_eq (serialize : QueryResponse → Text) (query : ParsedQuery) :
    respondRows serialize query (rows ext store query ext.printInstant) =
      ⟨200, some "application/json".toList, none, .text (serialize (execute ext store query ext.printInstant))⟩ := by
  unfold respondRows execute
  cases query.limit <;> rfl

theorem respondFragments_eq (query : ParsedQuery) : respondFragments ext query (fragments ext store query) =
    match executeMerge ext store query with
    | some (.ok body) => ⟨200, some "text/markdown; charset=utf-8".toList, none, .text body⟩
    | some (.error (.kindGuard message)) => badRequest message
    | none => internalServerError := by
  simp only [respondFragments, executeMerge]
  cases kindGuard ext query.kindKey (fragments ext store query) with
  | error error => cases error; rfl
  | ok passed => cases sortFragments ext query.order (fragments ext store query) <;> rfl

theorem exec_getQuery (serialize : QueryResponse → Text) (raw : Option Text) (headers : Headers) :
    (getQueryHandler ext serialize raw headers).exec store = getQuery ext serialize store raw headers := by
  rw [getQueryHandler, getQuery]
  cases parse ext (raw.getD []) with
  | error error => rfl
  | ok parsed =>
    dsimp only
    split
    · exact respondFragments_eq parsed
    · exact respondRows_eq serialize parsed

/-- The handler of a request, with the store to itself, gives its answer. -/
theorem exec_handler (around : Surroundings) (request : Request) (store : NoteStore) :
    (request.handler around).exec store = request.answer around store := by
  cases request with
  | notes tail headers => exact exec_route _ _ _
  | query raw headers => exact exec_getQuery _ _ _

theorem looks_withRead (look : NoteStore → Seen) (respond : Reply Seen → Response) :
    (Handler.asks (withRead look) respond).Looks :=
  ⟨fun store => .answer (look store), rfl, rfl⟩

theorem looks_getNotes (path : Text) (headers : Headers) : (getNotesHandler ext path headers).Looks := by
  rw [getNotesHandler]
  split
  · trivial
  · exact looks_withRead _ _
  · exact ⟨_, rfl, rfl⟩

/-- Every request is answered from at most one look. -/
theorem looks_handler (around : Surroundings) (request : Request) : (request.handler around).Looks := by
  cases request with
  | notes tail headers =>
    rw [Request.handler, routeHandler]
    split
    · exact looks_withRead _ _
    · split
      · trivial
      · exact looks_getNotes _ _
  | query raw headers =>
    rw [Request.handler, getQueryHandler]
    split
    · trivial
    · split <;> exact looks_withRead _ _

end

end Anwesen.Http

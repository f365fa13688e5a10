import Anwesen.Http.Notes
import Anwesen.Query.Execution
import Anwesen.Query.Parsing

/-! The query endpoint: the JSON rows, or the merged document for clients that accept Markdown. -/

set_option autoImplicit false

namespace Anwesen.Http

open Foundation Vault Query

def showError : QueryError → Text
  | .unknownOperator suffix => "unknown operator: ".toList ++ suffix
  | .badValue text => "bad value: ".toList ++ text
  | .badControl text => "bad control parameter: ".toList ++ text

def internalServerError : Response := ⟨500, some plainText, none, .text "internal server error".toList⟩

/-- `raw` is the query of the request's URI, `serialize` the JSON text of a response. -/
def getQuery (ext : External) (serialize : QueryResponse → Text) (store : NoteStore) (raw : Option Text)
    (headers : Headers) : Response :=
  match parse ext (raw.getD []) with
  | .error error => badRequest (showError error)
  | .ok parsed =>
      if wantsMarkdown headers then
        match executeMerge ext store parsed with
        | some (.ok body) => ⟨200, some "text/markdown; charset=utf-8".toList, none, .text body⟩
        | some (.error (.kindGuard message)) => badRequest message
        -- the panic ends the handler's process, for which the middleware answers
        | none => internalServerError
      else
        ⟨200, some "application/json".toList, none,
          .text (serialize (execute ext store parsed ext.printInstant))⟩

end Anwesen.Http

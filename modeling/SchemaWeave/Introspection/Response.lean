import SchemaWeave.Introspection.Decode

/-!
# Responses to the introspection query

`readResponse` takes the data out of a response. The status counts only for a body that is no JSON: servers report the errors
of a query with any status. Errors of any form fail the response, with or without data.
-/

namespace SchemaWeave.Introspection

/-- Why introspecting a server fails. -/
inductive FetchError
  | network (reason : String)
  | http (status : Nat) (body : String)
  | unreadable (reason : String)
  | queryErrors (messages : List String)
  | noData (body : String)
  deriving DecidableEq

def FetchError.message : FetchError → String
  | network reason => s!"Network error: {reason}"
  | http status body => s!"HTTP error {status}: {body}"
  | unreadable reason => s!"Failed to parse introspection response: {reason}"
  | queryErrors messages => "Errors in introspection query result: " ++ "; ".intercalate messages
  | noData body => s!"No introspection query result data from: {body}"

/-- Whether a status reports success. -/
def isSuccess (status : Nat) : Bool := 200 ≤ status && status < 300

/-- The text of an error: its message if it has one, and else all of it. -/
def errorText (error : Json) : String :=
  match error.get? "message" with
  | some (.string s) => s
  | _ => error.compact

/-- The errors that a response reports. -/
def reportedErrors (body : Json) : List Json :=
  match body.get? "errors" with
  | none | some .null => []
  | some (.array errors) => errors
  | some error => [error]

/-- The data of a response, with the members of its objects in the order of their names. -/
def readResponse (status : Nat) (body : String) : Except FetchError Json :=
  match Json.parse body with
  | .error reason => .error (if isSuccess status then .unreadable reason else .http status body)
  | .ok j =>
    let j := j.ordered
    match reportedErrors j with
    | [] =>
      match j.get? "data" with
      | none | some .null => .error (.noData body)
      | some data => .ok data
    | errors => .error (.queryErrors (errors.map errorText))

/-- The schema in a response. -/
def readSchema (status : Nat) (body : String) : Except FetchError SchemaInfo := do
  let data ← readResponse status body
  (SchemaInfo.ofResponse data).mapError .unreadable

end SchemaWeave.Introspection

import SchemaWeave.Host
import SchemaWeave.Http.Endpoint
import SchemaWeave.Introspection.Query
import SchemaWeave.Introspection.Response
import SchemaWeave.Introspection.Sdl

/-!
# Introspecting a server

A client has headers of its own and perhaps a time limit. It posts the introspection query to an endpoint once, goes where the
response sends it on (`follow`), and reads the schema in the last response. A header that may not be sent, or an address that
is none, fails the exchange before anything is sent.
-/

namespace SchemaWeave.Introspection

open Http

/-- The settings of a client. -/
structure Client where
  headers : Headers := []
  timeout : Option Nat := none

/-- A client with one more header. -/
def Client.withHeader (c : Client) (name value : String) : Client := { c with headers := Headers.set name value c.headers }

/-- A client with more headers. -/
def Client.withHeaders (c : Client) (pairs : List (String × String)) : Client :=
  { c with headers := pairs.foldl (fun headers (name, value) => Headers.set name value headers) c.headers }

/-- The headers that every request has. -/
def fixedHeaders : List (String × String) := [("accept", "application/json"), ("content-type", "application/json")]

/-- The body of the request. -/
def queryBody : String := (Json.object [("query", .string introspectionQuery.text)]).compact

/-- The headers of a request to an address: its own, the fixed ones and those of the client. -/
def Client.headersFor (c : Client) (a : Address) : List (String × String) :=
  a.headers ++ fixedHeaders ++ c.headers.map fun (name, value) => (name.map Char.toLower, value)

/-- The request of a client to an endpoint, if its address can be read and its headers may be sent. -/
def Client.request? (library : Library) (c : Client) (e : Endpoint) : Option Request := do
  let address ← library.readUrl e.url
  let headers := c.headersFor address
  if c.headers.areValid && library.hasRoom headers then
    some { url := address.url, headers, body := queryBody, acceptsInvalidCerts := e.acceptsInvalidCerts, timeout := c.timeout }
  else none

variable {m : Type → Type} [Monad m] [Host m]

/-- Sends a request, then those that the responses ask for, `hops` of them at most. -/
def follow (library : Library) (hops : Nat) (request : Request) : m (Except String Response) := do
  match ← Host.exchange request with
  | .error reason => return .error reason
  | .ok response =>
    match library.redirect request.toMessage response with
    | .stay => return .ok response
    | .refused reason => return .error reason
    | .go message =>
      match hops with
      | 0 => return .error "too many redirects"
      | hops + 1 => follow library hops (request.next message)

/-- Posts the query with a library, and waits for the response. -/
def Client.postWith (library : Library) (c : Client) (e : Endpoint) : m (Except FetchError Response) := do
  match c.request? library e with
  | none => return .error (.network "builder error")
  | some request =>
    match ← follow library maxRedirects request with
    | .error reason => return .error (.network reason)
    | .ok response => return .ok response

/-- Posts the query and waits for the response. -/
def Client.post (c : Client) (e : Endpoint) : m (Except FetchError Response) := do
  c.postWith (← Host.library) e

/-- The data that a server answers with. -/
def Client.fetchData (c : Client) (e : Endpoint) : m (Except FetchError Json) := do
  match ← c.post e with
  | .error error => return .error error
  | .ok response => return readResponse response.status response.body

/-- The schema that a server answers with. -/
def Client.fetch (c : Client) (e : Endpoint) : m (Except FetchError SchemaInfo) := do
  match ← c.post e with
  | .error error => return .error error
  | .ok response => return readSchema response.status response.body

/-- The text of the schema that a server answers with. -/
def Client.fetchSdl (c : Client) (e : Endpoint) : m (Except FetchError String) := do
  match ← c.fetch e with
  | .error error => return .error error
  | .ok info => return .ok info.sdl

end SchemaWeave.Introspection

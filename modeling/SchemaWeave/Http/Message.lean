/-!
# HTTP messages

A request and a response as far as introspection needs them, and the rules for header names and values. Configured headers
are kept by their name as it was given, so two names that differ in case are two headers.
-/

namespace SchemaWeave.Http

/-- What is asked of a server. -/
inductive Method
  | get
  | post
  deriving DecidableEq, Repr

/-- What a server is sent. -/
structure Message where
  method : Method := .post
  url : String
  /-- names in lower case, in the order of sending -/
  headers : List (String × String)
  body : String
  deriving DecidableEq, Repr

/-- A message, with how it is sent. -/
structure Request extends Message where
  /-- whether the certificate of the server is taken without a check -/
  acceptsInvalidCerts : Bool
  /-- how many seconds the exchange may take, if there is a limit -/
  timeout : Option Nat
  /-- the messages whose responses have led to this one, the last one first -/
  earlier : List Message := []
  deriving DecidableEq, Repr

/-- The request for a message that the response to a request asks for. -/
def Request.next (r : Request) (message : Message) : Request :=
  { r with toMessage := message, earlier := r.toMessage :: r.earlier }

/-- A response with its status code. -/
structure Response where
  status : Nat
  body : String
  /-- the address that the response sends the client on to -/
  location : Option String := none
  deriving DecidableEq, Repr

/-- A character of a header name. -/
def isTokenChar (c : Char) : Bool :=
  c.isAlphanum || ['!', '#', '$', '%', '&', '\x27', '*', '+', '-', '.', '^', '_', '\x60', '|', '~'].contains c

/-- The longest name of a header. -/
def longestHeaderName : Nat := 65535

/-- A name that a header may have. -/
def isHeaderName (name : String) : Bool :=
  !name.isEmpty && name.utf8ByteSize ≤ longestHeaderName && name.toList.all isTokenChar

/-- A character of a header value: no control character but the tab. -/
def isValueChar (c : Char) : Bool := c == '\t' || (0x20 ≤ c.val && c.val != 0x7F)

/-- A value that a header may have. -/
def isHeaderValue (value : String) : Bool := value.toList.all isValueChar

/-- Headers by name, in the order of the names. -/
abbrev Headers := List (String × String)

/-- Headers with the value of one name set. -/
def Headers.set (name value : String) : Headers → Headers
  | [] => [(name, value)]
  | (n, v) :: headers =>
    if name < n then (name, value) :: (n, v) :: headers
    else if name = n then (name, value) :: headers
    else (n, v) :: Headers.set name value headers

/-- The headers of a list of names and values; of several values for one name the last counts. -/
def Headers.ofList (pairs : List (String × String)) : Headers :=
  pairs.foldl (fun headers (name, value) => Headers.set name value headers) []

/-- Whether all headers may be sent. -/
def Headers.areValid (headers : Headers) : Bool :=
  headers.all fun (name, value) => isHeaderName name && isHeaderValue value

end SchemaWeave.Http

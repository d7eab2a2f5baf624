import SchemaWeave.Http.Endpoint
import SchemaWeave.Http.Message
import SchemaWeave.Text.Blank
import SchemaWeave.Text.Hex

/-!
# HTTP on the wire

The bytes of a request, and the response in the bytes that come back. One request is sent over a connection; a response ends
where its headers say, and one without a length ends where the bytes end. An address is one that the library has read.
-/

namespace SchemaWeave.Http

/-- What a plain address says about where to connect and what to ask for. -/
structure Target where
  /-- the host and the port as the address gives them -/
  authority : String
  host : String
  port : Nat
  /-- what is asked for on the server -/
  path : String
  deriving DecidableEq, Repr

/-- The port of plain connections. -/
def plainPort : Nat := 80

/-- The host and the port of an authority. -/
def hostAndPort? (authority : List Char) : Option (List Char × Nat) :=
  let host := authority.takeWhile (· != ':')
  match authority.dropWhile (· != ':') with
  | [] | [_] => if host.isEmpty then none else some (host, plainPort)
  | _ :: digits => if host.isEmpty then none else (String.ofList digits).toNat?.map fun port => (host, port)

/-- What a plain address says. -/
def Target.ofUrl? (url : String) : Option Target :=
  if !hasScheme plainScheme url then none
  else
    let rest := url.toList.drop plainScheme.length
    let authority := rest.takeWhile fun c => c != '/' && c != '?'
    let asked := rest.drop authority.length
    (hostAndPort? authority).map fun (host, port) =>
      { authority := String.ofList authority, host := String.ofList host, port,
        path := String.ofList (if asked.head? == some '/' then asked else '/' :: asked) }

/-- A line of a message's head. -/
def headerLine (header : String × String) : String := s!"{header.1}: {header.2}\r\n"

def Method.text : Method → String
  | get => "GET"
  | post => "POST"

/-- The headers that a message needs on the wire, where it does not have them itself. -/
def Message.framing (r : Message) (t : Target) : List (String × String) :=
  let length := match r.method with
    | .get => []
    | .post => [("content-length", toString r.body.utf8ByteSize)]
  (("host", t.authority) :: length).filter fun (name, _) => (r.headers.lookup name).isNone

/-- The bytes of a message. -/
def Message.wire (r : Message) (t : Target) : ByteArray :=
  (s!"{r.method.text} {t.path} HTTP/1.1\r\n" ++ String.join ((r.framing t ++ r.headers).map headerLine) ++ "\r\n" ++
    r.body).toUTF8

/-- The bytes up to the empty line that ends a head, and those behind it. -/
def splitHead : List UInt8 → Option (List UInt8 × List UInt8)
  | [] => none
  | 13 :: 10 :: 13 :: 10 :: body => some ([], body)
  | b :: bytes => (splitHead bytes).map fun (head, body) => (b :: head, body)

/-- The bytes of a line and those behind it. -/
def splitLine : List UInt8 → Option (List UInt8 × List UInt8)
  | [] => none
  | 13 :: 10 :: rest => some ([], rest)
  | b :: bytes => (splitLine bytes).map fun (line, rest) => (b :: line, rest)

/-- Bytes as characters, one each. -/
def charsOfBytes (bytes : List UInt8) : List Char := bytes.map fun b => Char.ofNat b.toNat

/-- A header of a head. -/
def headerOfLine (line : String) : String × String :=
  let chars := line.toList
  ((String.ofList (Text.trimBlank (chars.takeWhile (· != ':')))).map Char.toLower,
    String.ofList (Text.trimBlank ((chars.dropWhile (· != ':')).drop 1)))

/-- The size of a chunk, by the digits that its line starts with. -/
def chunkSize? (line : List UInt8) : Option Nat :=
  match (charsOfBytes line).takeWhile fun c => (Text.hexValue? c).isSome with
  | [] => none
  | digits => digits.foldlM (fun n c => (Text.hexValue? c).map (n * 16 + ·)) 0

/-- The bytes of chunks, at most `bound` of them, up to the empty one. -/
def joinChunks : (bound : Nat) → List UInt8 → Option (List UInt8)
  | 0, _ => none
  | bound + 1, bytes => do
    let (line, rest) ← splitLine bytes
    let size ← chunkSize? line
    if size = 0 then return []
    if rest.length < size + 2 then none
    else return rest.take size ++ (← joinChunks bound (rest.drop (size + 2)))

/-- How the end of a body is told. -/
inductive BodyEnd
  | chunks
  | size (size : Nat)
  /-- the body ends with the connection -/
  | closing

/-- The statuses of responses without a body. -/
def bodilessStatuses : List Nat := [204, 304]

/-- How a response with some status and headers delimits its body. -/
def BodyEnd.ofHead (status : Nat) (headers : List (String × String)) : BodyEnd :=
  if bodilessStatuses.contains status then size 0
  else if headers.lookup "transfer-encoding" = some "chunked" then chunks
  else match (headers.lookup "content-length").bind String.toNat? with
    | some n => size n
    | none => closing

/-- The bytes of a body, if they have all come. -/
def BodyEnd.body? (bytes : List UInt8) : BodyEnd → Option (List UInt8)
  | chunks => joinChunks (bytes.length + 1) bytes
  | size n => if bytes.length < n then none else some (bytes.take n)
  | closing => some bytes

/-- The status in the first line of a head. -/
def statusOf? (line : String) : Option Nat :=
  match line.splitOn " " with
  | version :: status :: _ => if version.startsWith "HTTP/1." then status.toNat? else none
  | _ => none

/-- What the head of a response tells. -/
structure ResponseHead where
  status : Nat
  location : Option String
  bodyEnd : BodyEnd

/-- What a head tells. -/
def ResponseHead.ofBytes? (head : List UInt8) : Option ResponseHead :=
  match (String.ofList (charsOfBytes head)).splitOn "\r\n" with
  | [] => none
  | first :: lines =>
    let headers := lines.map headerOfLine
    (statusOf? first).map fun status =>
      { status, location := headers.lookup "location", bodyEnd := BodyEnd.ofHead status headers }

/-- The response in some bytes. -/
def Response.ofBytes? (bytes : List UInt8) : Option Response := do
  let (head, rest) ← splitHead bytes
  let head ← ResponseHead.ofBytes? head
  let body ← head.bodyEnd.body? rest
  let text ← String.fromUTF8? body.toByteArray
  return { status := head.status, body := text, location := head.location }

/-- Whether no more bytes have to come for a response. One that ends with its connection waits for that. -/
def Response.isWhole (bytes : List UInt8) : Bool :=
  match splitHead bytes with
  | none => false
  | some (head, rest) =>
    match (ResponseHead.ofBytes? head).map ResponseHead.bodyEnd with
    | none => true
    | some .closing => false
    | some bodyEnd => (bodyEnd.body? rest).isSome

end SchemaWeave.Http

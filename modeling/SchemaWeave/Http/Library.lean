import SchemaWeave.Files.Path
import SchemaWeave.Floating.Spelling
import SchemaWeave.Http.Endpoint
import SchemaWeave.Http.Message

/-!
# The library that sends requests

Requests are sent by a library of HTTP, and what it makes of an address or of a redirect is not up to the program. `Library` is
what the program leaves to it. `Library.plain` reads addresses of printable characters that stand for themselves, as it is
written out below, and takes nothing else for an address.
-/

namespace SchemaWeave.Http

/-- An address as it is asked, without user and password, and the header that these make. -/
structure Address where
  url : String
  authorization : Option String := none
  deriving DecidableEq, Repr

/-- The headers that come with an address. -/
def Address.headers (a : Address) : List (String × String) := a.authorization.toList.map (Prod.mk "authorization")

/-- What a response means for the client. -/
inductive Redirection
  /-- nothing more: the response is the answer -/
  | stay
  /-- another message is to be sent -/
  | go (next : Message)
  /-- the client is sent somewhere where the library does not go -/
  | refused (reason : String)

/-- What a library of HTTP decides for the program. -/
structure Library where
  /-- what an address says, if it is one -/
  readUrl : String → Option Address
  /-- whether a message has room for some headers -/
  hasRoom : List (String × String) → Bool
  /-- what the response to a message means -/
  redirect : Message → Response → Redirection

/-- How many redirects of one request are followed. -/
def maxRedirects : Nat := 10

/-! ## Plain addresses -/

/-- The parts of an address. -/
structure AddressParts where
  secure : Bool
  /-- the user and the password, as they are written -/
  user : List Char
  host : List Char
  port : Option Nat
  /-- the path behind the first slash, then the query with its mark -/
  path : List (List Char)
  query : List Char

/-- The printable characters that an address has in another spelling, or for more than themselves. -/
def respelledChars : List Char := ['"', '\x27', '<', '>', '[', '\\', ']', '^', '\x60', '\x7b', '|', '\x7d']

/-- A character that stands for itself in a plain address. -/
def isPlainChar (c : Char) : Bool := 0x21 ≤ c.val && c.val ≤ 0x7E && !respelledChars.contains c

/-- The labels of a host, which stand between its points. -/
def hostLabels (host : List Char) : List (List Char) :=
  host.foldr (fun c labels => if c == '.' then [] :: labels else (c :: labels.headD []) :: labels.tail) [[]]

/-- The decimal digits of a byte, without zeros in front. -/
def isByte (digits : List Char) : Bool :=
  digits.all Char.isDigit && digits.length ≤ 3 && Floating.naturalOf digits < 256 && (digits.length == 1 || digits.head? != some '0')

/-- A label that is in no other script. -/
def isPlainLabel (label : List Char) : Bool :=
  !label.isEmpty && label.take 4 != "xn--".toList && label.all fun c => c.isAlphanum || c == '-' || c == '_'

/-- A host name whose last label starts with a letter, or an address of four bytes. -/
def isPlainHost (host : List Char) : Bool :=
  let labels := hostLabels host
  labels.all isPlainLabel &&
    ((labels.getLast?.any fun label => label.head?.any Char.isAlpha) || labels.length == 4 && labels.all isByte)

/-- How many dots a piece of a path stands for, if it has nothing else. A dot may be written by its code. -/
def dots? : List Char → Option Nat
  | [] => some 0
  | '.' :: cs => (dots? cs).map (· + 1)
  | '%' :: '2' :: 'e' :: cs | '%' :: '2' :: 'E' :: cs => (dots? cs).map (· + 1)
  | _ => none

/-- The pieces of a path without dots: a dot stays, two dots lead up. Behind dots that come last there is an empty piece. -/
def removeDots : (done pieces : List (List Char)) → List (List Char)
  | done, [] => done.reverse
  | done, piece :: pieces =>
    match dots? piece, pieces with
    | some 1, [] => ([] :: done).reverse
    | some 2, [] => ([] :: done.tail).reverse
    | some 1, _ :: _ => removeDots done pieces
    | some 2, _ :: _ => removeDots done.tail pieces
    | _, _ => removeDots (piece :: done) pieces

/-- The parts of a plain address. What stands behind a `#` is not sent. -/
def AddressParts.ofUrl? (url : String) : Option AddressParts := do
  let secure := hasScheme secureScheme url
  if !isHttpUrl url || !url.toList.all isPlainChar then failure
  let rest := (url.toList.drop (if secure then secureScheme else plainScheme).length).takeWhile (· != '#')
  let authority := rest.takeWhile fun c => c != '/' && c != '?'
  let asked := rest.drop authority.length
  let server := (authority.reverse.takeWhile (· != '@')).reverse
  let host := (server.takeWhile (· != ':')).map Char.toLower
  let digits := (server.drop host.length).drop 1
  let port := if digits.isEmpty then none else some (Floating.naturalOf digits)
  if !isPlainHost host || authority.contains '%' || !digits.all Char.isDigit || port.any (65535 < ·) then failure
  return { secure, host, user := authority.take (authority.length - server.length - 1),
           port := port.filter (· != if secure then 443 else 80),
           path := removeDots [] (Files.splitSlashes ((asked.takeWhile (· != '?')).drop 1)), query := asked.dropWhile (· != '?') }

/-- The address of a server alone. -/
def AddressParts.origin (a : AddressParts) : String :=
  (if a.secure then secureScheme else plainScheme) ++ String.ofList a.host ++ (a.port.elim "" fun port => s!":{port}")

/-- The address without user, password and query. -/
def AddressParts.page (a : AddressParts) : String := a.origin ++ "/" ++ "/".intercalate (a.path.map String.ofList)

/-- The address without user and password. -/
def AddressParts.url (a : AddressParts) : String := a.page ++ String.ofList a.query

/-- The digit for six bits. -/
def base64Digit (n : Nat) : Char :=
  if n < 26 then Char.ofNat ('A'.toNat + n)
  else if n < 52 then Char.ofNat ('a'.toNat + (n - 26))
  else if n < 62 then Char.ofNat ('0'.toNat + (n - 52))
  else if n = 62 then '+' else '/'

/-- Bytes in base 64. -/
def base64 : List UInt8 → List Char
  | [] => []
  | [a] => [base64Digit (a.toNat / 4), base64Digit (a.toNat % 4 * 16), '=', '=']
  | [a, b] => [base64Digit (a.toNat / 4), base64Digit (a.toNat % 4 * 16 + b.toNat / 16), base64Digit (b.toNat % 16 * 4), '=']
  | a :: b :: c :: bytes =>
    base64Digit (a.toNat / 4) :: base64Digit (a.toNat % 4 * 16 + b.toNat / 16) ::
      base64Digit (b.toNat % 16 * 4 + c.toNat / 64) :: base64Digit (c.toNat % 64) :: base64 bytes

/-- The header for a user and a password. -/
def basicAuthorization (user : List Char) : Option String :=
  let name := user.takeWhile (· != ':')
  let password := (user.dropWhile (· != ':')).drop 1
  if name.isEmpty && password.isEmpty then none
  else some ("Basic " ++ String.ofList (base64 ((name ++ ':' :: password).map Char.toUInt8)))

/-- What a plain address says. -/
def Address.ofUrl? (url : String) : Option Address :=
  (AddressParts.ofUrl? url).map fun a => { url := a.url, authorization := basicAuthorization a.user }

/-! ## Plain redirects -/

/-- Whether a location begins with a scheme. -/
def namesScheme (location : String) : Bool := (location.toList.takeWhile fun c => c != '/' && c != '?' && c != '#').contains ':'

/-- The address that a response sends on to, seen from an address. -/
def AddressParts.resolve? (a : AddressParts) (location : String) : Option AddressParts :=
  if namesScheme location then AddressParts.ofUrl? location
  else AddressParts.ofUrl? <| match location.toList with
    | '/' :: '/' :: _ => (if a.secure then "https:" else "http:") ++ location
    | '/' :: _ => a.origin ++ location
    | '?' :: _ => a.page ++ location
    | [] | '#' :: _ => a.url
    | _ => a.origin ++ "/" ++ String.join (a.path.dropLast.map fun p => String.ofList p ++ "/") ++ location

/-- The headers that speak of a body. -/
def bodyHeaders : List String := ["content-type", "content-length", "content-encoding", "transfer-encoding"]

/-- The headers that are meant for one server. -/
def secretHeaders : List String := ["authorization", "cookie", "cookie2", "proxy-authorization", "www-authenticate"]

/-- Headers without some names. -/
def withoutHeaders (names : List String) (headers : List (String × String)) : List (String × String) :=
  headers.filter fun h => !names.contains h.1

/-- The statuses that ask for something else: the body is left out. -/
def seeOtherStatuses : List Nat := [301, 302, 303]

/-- The statuses that ask for the same elsewhere. -/
def elsewhereStatuses : List Nat := [307, 308]

/-- What is sent to the address that a response gives. -/
def Message.toward (m : Message) (status : Nat) (source target : AddressParts) : Message :=
  let m := if seeOtherStatuses.contains status then
      { m with method := .get, body := "", headers := withoutHeaders bodyHeaders m.headers }
    else m
  let kept := if source.origin == target.origin then m.headers else withoutHeaders secretHeaders m.headers
  let told := if source.secure && !target.secure then [] else [("referer", source.url)]
  { m with url := target.url, headers := withoutHeaders (told.map (·.1)) kept ++ told }

/-- What the response to a message at a plain address means. -/
def Redirection.ofResponse (m : Message) (r : Response) : Redirection :=
  if !(seeOtherStatuses ++ elsewhereStatuses).contains r.status then stay
  else match AddressParts.ofUrl? m.url, r.location with
    | some source, some location =>
      match source.resolve? location with
      | some target => go (m.toward r.status source target)
      | none => refused "the redirect leads to no plain address"
    | _, _ => stay

/-- The library of the program. -/
def Library.plain : Library where
  readUrl := Address.ofUrl?
  hasRoom headers := headers.length ≤ 24576
  redirect := Redirection.ofResponse

end SchemaWeave.Http

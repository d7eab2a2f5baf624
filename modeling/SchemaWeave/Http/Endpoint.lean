/-!
# Endpoints

The address of a server, and how an address is told from the path of a file: by its scheme, in either case.
-/

namespace SchemaWeave.Http

/-- Whether a text starts with a scheme, where the case of letters does not count. -/
def hasScheme (scheme url : String) : Bool :=
  ((url.toList.take scheme.length).map Char.toLower) == scheme.toList

def plainScheme : String := "http://"

def secureScheme : String := "https://"

/-- Whether a text is the address of a server. -/
def isHttpUrl (source : String) : Bool := hasScheme plainScheme source || hasScheme secureScheme source

/-- The address of a server, and whether its certificate may be invalid. -/
structure Endpoint where
  url : String
  insecure : Bool
  deriving DecidableEq, Repr

/-- Whether the connection to an endpoint is secured by a certificate. -/
def Endpoint.isSecure (e : Endpoint) : Bool := hasScheme secureScheme e.url

/-- Whether the certificate of an endpoint is taken without a check. -/
def Endpoint.acceptsInvalidCerts (e : Endpoint) : Bool := e.insecure && e.isSecure

end SchemaWeave.Http

/-!
# Fragments

A fragment is text of the schema language from one source: a file or a server.
-/

namespace SchemaWeave

/-- The text of one source. -/
structure Fragment where
  /-- the path or address that the text came from -/
  source : String
  sdl : String
  deriving DecidableEq, Repr

end SchemaWeave

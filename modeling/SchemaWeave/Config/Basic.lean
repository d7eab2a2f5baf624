import SchemaWeave.Files.Tree
import SchemaWeave.Text.Blank

/-!
# Settings

The settings of a run. Each of them may be left unset, so settings are put in layers: `merge` lays some over others, and a
value that is still unset in the end has a default. A setting of text is not blank in settings that are `Valid`.
-/

namespace SchemaWeave

open Files

/-- The names of settings. -/
inductive Config.Field
  | remote | client | output | insecure
  deriving DecidableEq, Repr

namespace Config.Field

/-- All settings, in the order in which messages list them. -/
def all : List Field := [remote, client, output, insecure]

def name : Field → String
  | remote => "remote"
  | client => "client"
  | output => "output"
  | insecure => "insecure"

/-- The setting with a name. -/
def ofName? (name : String) : Option Field := all.find? (·.name == name)

end Config.Field

/-- Settings, each of which may be left unset. -/
structure Config where
  /-- the address of a server or the path of a schema file -/
  remote : Option String := none
  /-- the pattern for local schema files -/
  client : Option String := none
  /-- where the artifact is written -/
  output : Option Path := none
  /-- whether the certificate of a secure server may be invalid -/
  insecure : Option Bool := none
  deriving DecidableEq, Repr

namespace Config

/-- Lays settings over others: a value that is set above hides the one below. -/
def merge (below above : Config) : Config where
  remote := above.remote <|> below.remote
  client := above.client <|> below.client
  output := above.output <|> below.output
  insecure := above.insecure <|> below.insecure

/-- The pattern for local schema files where none is set. -/
def defaultClient : String := "stores/**/*.graphql"

/-- The path of the artifact where none is set. -/
def defaultOutput : Path := "schema.json"

/-- Certificates are not checked unless a setting asks for it. -/
def defaultInsecure : Bool := true

def clientOrDefault (c : Config) : String := c.client.getD defaultClient

def outputOrDefault (c : Config) : Path := c.output.getD defaultOutput

def insecureOrDefault (c : Config) : Bool := c.insecure.getD defaultInsecure

/-- The first setting whose text is empty; a remote or a pattern that is blank counts as empty, a path does not. -/
def emptyField? (c : Config) : Option Field :=
  if c.remote.any Text.isBlankText then some .remote
  else if c.client.any Text.isBlankText then some .client
  else if c.output.any String.isEmpty then some .output
  else none

/-- Settings none of whose texts is empty. -/
def Valid (c : Config) : Prop := c.emptyField? = none

instance (c : Config) : Decidable c.Valid := inferInstanceAs (Decidable (_ = _))

end Config

end SchemaWeave

/-!
# Switches of the command line

The program has switches of its own, and its command has more. Some of the program's switches may also stand behind the
command.
-/

namespace SchemaWeave.Command

/-- Where on the command line a switch stands. -/
inductive Level
  /-- before the command -/
  | program
  /-- behind it -/
  | introspect
  deriving DecidableEq, Repr

inductive Switch
  | config | quiet | noProgress | remote | client | output | insecure | header | timeout | help | version
  deriving DecidableEq, Repr

/-- Whether a switch has a value. -/
inductive Arity
  | none | one | atMostOne
  deriving DecidableEq

namespace Switch

/-- All switches, in the order in which help lists them. -/
def all : List Switch :=
  [remote, client, output, insecure, header, timeout, config, quiet, noProgress, help, version]

/-- The name of a switch behind two dashes. -/
def long : Switch → String
  | config => "config"
  | quiet => "quiet"
  | noProgress => "no-progress"
  | remote => "remote"
  | client => "client"
  | output => "output"
  | insecure => "insecure"
  | header => "header"
  | timeout => "timeout"
  | help => "help"
  | version => "version"

/-- The letter of a switch behind one dash. -/
def letter? : Switch → Option Char
  | config => some 'c'
  | quiet => some 'q'
  | noProgress => none
  | remote => some 'r'
  | client => none
  | output => some 'o'
  | insecure => some 'K'
  | header => some 'H'
  | timeout => none
  | help => some 'h'
  | version => some 'V'

def arity : Switch → Arity
  | quiet | noProgress | help | version => .none
  | insecure => .atMostOne
  | config | remote | client | output | header | timeout => .one

/-- Whether a switch may come again at the same level. -/
def isRepeatable : Switch → Bool
  | header => true
  | _ => false

/-- The levels at which a switch may stand. -/
def levels : Switch → List Level
  | config | quiet | noProgress | help => [.program, .introspect]
  | version => [.program]
  | remote | client | output | insecure | header | timeout => [.introspect]

/-- The switch of a level with a name. -/
def ofLong? (level : Level) (name : String) : Option Switch :=
  all.find? fun s => s.levels.contains level && s.long == name

/-- The switch of a level with a letter. -/
def ofLetter? (level : Level) (c : Char) : Option Switch :=
  all.find? fun s => s.levels.contains level && s.letter? == some c

/-- What help says about a switch. -/
def summary : Switch → String
  | config => "Path to a .graphql-codegenrc config file"
  | quiet => "Suppress all output except errors"
  | noProgress => "Suppress progress indicators"
  | remote => "Remote GraphQL endpoint URL or path to a schema file"
  | client => "Glob pattern for client schema files [default: stores/**/*.graphql]"
  | output => "Output path for the introspection JSON [default: schema.json]"
  | insecure => "Accept invalid TLS certificates from an https remote [default: true]"
  | header => "HTTP header to include in the introspection request, as \"Header-Name: Header-Value\""
  | timeout => "Request timeout in seconds"
  | help => "Print help"
  | version => "Print version"

end Switch

end SchemaWeave.Command

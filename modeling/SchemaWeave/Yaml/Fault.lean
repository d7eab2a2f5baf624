/-!
# Faults in a YAML text
-/

namespace SchemaWeave.Yaml

/-- Why a text is no flat mapping of scalars. -/
inductive Fault
  | control (c : Char)
  | tab
  | unclosed
  | escape
  | marker
  | header
  | name
  | tag
  | undefinedHandle (handle : String)
  | directive
  | undefinedAlias (name : String)
  | key
  | unexpected
  deriving DecidableEq

def Fault.message : Fault → String
  | control _ => "control characters are not allowed"
  | tab => "found a tab where indentation is expected"
  | unclosed => "found the end of the text inside a scalar or a mapping"
  | escape => "found an invalid escape"
  | marker => "found the end of the document inside a scalar or a mapping"
  | header => "found an invalid header of a block scalar"
  | name => "found an invalid name of an anchor"
  | tag => "found an invalid tag"
  | undefinedHandle h => s!"found the undefined tag handle {h}"
  | directive => "found an invalid directive"
  | undefinedAlias n => s!"found the undefined alias {n}"
  | key => "could not find the end of a key"
  | unexpected => "expected one mapping of scalars"

end SchemaWeave.Yaml

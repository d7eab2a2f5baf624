import SchemaWeave.Config.Basic

/-!
# Why settings cannot be loaded
-/

namespace SchemaWeave

open Files

/-- What is wrong with the contents of a settings file. -/
inductive ConfigFault
  | emptyField (field : Config.Field)
  | json (message : String)
  | yaml (message : String)
  deriving DecidableEq

def ConfigFault.message : ConfigFault → String
  | emptyField field => s!"'{field.name}' must not be empty"
  | json message => s!"JSON parse error: {message}"
  | yaml message => s!"YAML parse error: {message}"

/-- Why settings cannot be loaded. -/
inductive ConfigError
  | unreadable (error : OsError)
  | invalid (path : Path) (fault : ConfigFault)
  | unsupportedFormat (path : Path)
  deriving DecidableEq

def ConfigError.message : ConfigError → String
  | unreadable error => s!"Failed to read config: {error.message}"
  | invalid path fault => s!"Invalid config at {path}: {fault.message}"
  | unsupportedFormat path => s!"Unsupported config format: {path}"

/-- The causes behind a failure that its message does not end in alone. -/
def ConfigError.causes : ConfigError → List String
  | unreadable error => [error.message]
  | _ => []

end SchemaWeave

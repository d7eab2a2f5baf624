import SchemaWeave.Text.Blank

/-!
# Headers on the command line

A header is given as a name, a colon and a value; blanks around the name and the value do not count.
-/

namespace SchemaWeave.Command

/-- Why a text is no header. -/
inductive HeaderError
  | noColon (text : String)
  | emptyName
  deriving DecidableEq

def HeaderError.message : HeaderError → String
  | noColon text => s!"Invalid header format: '{text}'. Expected 'Header-Name: Header-Value'"
  | emptyName => "Header name cannot be empty"

/-- The name and the value of a header. -/
def headerOfText (text : String) : Except HeaderError (String × String) :=
  match text.toList.dropWhile (· != ':') with
  | [] => .error (.noColon text)
  | _ :: value =>
    let name := Text.trimBlank (text.toList.takeWhile (· != ':'))
    if name.isEmpty then .error .emptyName
    else .ok (String.ofList name, String.ofList (Text.trimBlank value))

end SchemaWeave.Command

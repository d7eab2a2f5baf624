import SchemaWeave.Config.Basic
import SchemaWeave.Yaml.Mapping

/-!
# Settings in YAML

Settings are one flat mapping from their names. A text takes any scalar as it is written, a truth value one of six words
without quotes. A word for null without quotes and without a tag, or nothing at all, leaves a setting unset.
-/

namespace SchemaWeave.Config

open Yaml (Scalar Entry)

/-- What is wrong with the entries of a mapping. -/
inductive EntryFault
  | malformed (fault : Yaml.Fault)
  | unknown (name : String)
  | duplicate (field : Field)
  | wrongType (field : Field) (text : String)

def EntryFault.message : EntryFault → String
  | malformed fault => fault.message
  | unknown name => s!"unknown field `{name}`"
  | duplicate field => s!"duplicate field `{field.name}`"
  | wrongType field text => s!"{field.name}: invalid type: {text}"

/-- The tag of null. -/
def nullTag : String := "tag:yaml.org,2002:null"

/-- The tag of truth values. -/
def boolTag : String := "tag:yaml.org,2002:bool"

/-- Whether a text is a word for null. -/
def isNullWord (text : String) : Bool := ["null", "Null", "NULL", "~"].contains text

/-- Whether a scalar is null; with the tag of null it has to be a word for it. -/
def isNullScalar (field : Field) (s : Scalar) : Except EntryFault Bool :=
  if s.style ≠ .plain then .ok false
  else match s.tag with
    | none => .ok (s.text.isEmpty || isNullWord s.text)
    | some tag =>
      if tag ≠ nullTag then .ok false
      else if isNullWord s.text then .ok true
      else .error (.wrongType field s.text)

/-- The truth value of a word. -/
def boolOfWord? (text : String) : Option Bool :=
  if ["true", "True", "TRUE"].contains text then some true
  else if ["false", "False", "FALSE"].contains text then some false
  else none

/-- Whether a scalar may be a truth value: it is plain, or a literal block with the tag of truth values. -/
def mayBeBool (s : Scalar) : Bool := s.style == .plain || (s.style == .literal && s.tag == some boolTag)

/-- The truth value of a scalar. -/
def boolOfScalar (field : Field) (s : Scalar) : Except EntryFault Bool :=
  match (if mayBeBool s then boolOfWord? s.text else none) with
  | some b => .ok b
  | none => .error (.wrongType field s.text)

/-- A setting put into settings. -/
def setScalar (field : Field) (s : Scalar) (c : Config) : Except EntryFault Config := do
  if ← isNullScalar field s then return c
  match field with
  | .remote => return { c with remote := some s.text }
  | .client => return { c with client := some s.text }
  | .output => return { c with output := some s.text }
  | .insecure => return { c with insecure := some (← boolOfScalar field s) }

/-- The settings in some entries, of which those in `seen` came before. -/
def ofEntries : (seen : List Field) → Config → List Entry → Except EntryFault Config
  | _, c, [] => .ok c
  | seen, c, (key, value) :: entries =>
    match Field.ofName? key.text with
    | none => .error (.unknown key.text)
    | some field =>
      if seen.contains field then .error (.duplicate field)
      else match setScalar field value c with
        | .error e => .error e
        | .ok c => ofEntries (field :: seen) c entries

/-- The settings that a text in YAML holds. -/
def ofYamlChars (text : List Char) : Except EntryFault Config :=
  match Yaml.readMapping text with
  | .error e => .error (.malformed e)
  | .ok entries => ofEntries [] {} entries

/-- The settings that a text in YAML holds, or the message of the fault. A blank text holds none. -/
def ofYaml (text : String) : Except String Config :=
  if Text.isBlankText text then .ok {}
  else match ofYamlChars text.toList with
    | .ok c => .ok c
    | .error e => .error e.message

end SchemaWeave.Config

import SchemaWeave.Json.Printer
import SchemaWeave.Text.Quoted

/-!
# Reading typed data from JSON values

A record is read from an object, by the names of its fields, or from an array, by their order. Members of an object that
are no fields are passed over. `Record.slot` looks a field up and reads it; `Record.check` reports the first fault in the
order of the text, and the fields that are missing are reported after all faults of those that are there.
-/

namespace SchemaWeave.Json

/-- Why a JSON value is no value of some type. -/
inductive DecodeError
  | missingField (field : String)
  | duplicateField (field : String)
  | unknownVariant (found : String) (variants : List String)
  | invalidType (found expected : String)
  | invalidValue (found expected : String)
  | invalidLength (length : Nat) (expected : String)
  deriving DecidableEq

/-- Names in backticks, with commas between them. -/
def listed (names : List String) : String :=
  ", ".intercalate (names.map fun n => s!"`{n}`")

/-- The names that were expected. -/
def oneOf (names : List String) : String :=
  match names with
  | [] => "there are no variants"
  | [n] => s!"expected `{n}`"
  | [m, n] => s!"expected `{m}` or `{n}`"
  | names => s!"expected one of {listed names}"

def DecodeError.message : DecodeError → String
  | missingField field => s!"missing field `{field}`"
  | duplicateField field => s!"duplicate field `{field}`"
  | unknownVariant found variants => s!"unknown variant `{found}`, {oneOf variants}"
  | invalidType found expected => s!"invalid type: {found}, expected {expected}"
  | invalidValue found expected => s!"invalid value: {found}, expected {expected}"
  | invalidLength length expected => s!"invalid length {length}, expected {expected}"

/-- A value as it is named in a message. -/
def describe : Json → String
  | null => "null"
  | bool b => s!"boolean `{b}`"
  | number (.int n) => s!"integer `{n}`"
  | number (.float x) => s!"floating point `{String.ofList (doubleChars x)}`"
  | string s => s!"string {Text.quoted s}"
  | array _ => "sequence"
  | object _ => "map"

abbrev Decoded (α : Type) := Except DecodeError α

def expected (what : String) (j : Json) : DecodeError := .invalidType j.describe what

def decodeString : Json → Decoded String
  | string s => .ok s
  | j => .error (expected "a string" j)

def decodeBool : Json → Decoded Bool
  | bool b => .ok b
  | j => .error (expected "a boolean" j)

/-- A value that may be null. -/
def decodeNullable {α : Type} (decode : Json → Decoded α) : Json → Decoded (Option α)
  | null => .ok none
  | j => (decode j).map some

def decodeList {α : Type} (decode : Json → Decoded α) : Json → Decoded (List α)
  | array items => items.mapM decode
  | j => .error (expected "a sequence" j)

/-- What a record is read from. -/
inductive RecordSource
  | members (members : List (String × Json))
  | items (items : List Json)

/-- How a sequence reports items that no field takes. -/
inductive Surplus
  /-- it asks for fewer items -/
  | fewer
  /-- it asks for as many items as there are fields -/
  | exactly

/-- A record that is being read: its name, its fields in the order of their declaration, and what they are read from. -/
structure Record where
  name : String
  fields : List String
  source : RecordSource
  surplus : Surplus := .fewer

/-- A count of elements. -/
def elements (n : Nat) : String := if n = 1 then "1 element" else s!"{n} elements"

/-- The record that a value holds. -/
def asRecord (name : String) (fields : List String) (surplus : Surplus) : Json → Decoded Record
  | object members => .ok { name, fields, source := .members members, surplus }
  | array items => .ok { name, fields, source := .items items, surplus }
  | j => .error (expected s!"struct {name}" j)

/-- The value of a field, if it is there: the first member with its name, or the item in its place. -/
def RecordSource.value? (fields : List String) (field : String) : RecordSource → Option Json
  | members ms => (ms.find? (·.1 == field)).map (·.2)
  | items xs => xs[fields.idxOf field]?

/-- A field of a record: its name and what reading it gave, if it is there. -/
structure Slot (α : Type) where
  field : String
  result : Option (Decoded α)

/-- Reads a field. -/
def Record.slot {α : Type} (r : Record) (field : String) (decode : Json → Decoded α) : Slot α :=
  { field, result := (r.source.value? r.fields field).map decode }

/-- The fault of a field that is there. -/
def Slot.fault? {α : Type} (s : Slot α) : String × Option DecodeError :=
  (s.field, match s.result with
    | some (.error e) => some e
    | _ => none)

/-- The first fault among members, in their order: a field that cannot be read, or one that comes again. -/
def firstFault (faults : List (String × Option DecodeError)) :
    (seen : List String) → List (String × Json) → Option DecodeError
  | _, [] => none
  | seen, (key, _) :: members =>
    match faults.lookup key with
    | none => firstFault faults seen members
    | some fault =>
      if seen.contains key then some (.duplicateField key)
      else fault <|> firstFault faults (key :: seen) members

/-- Reports the first fault among the fields that are there. -/
def Record.check (r : Record) (faults : List (String × Option DecodeError)) : Decoded Unit :=
  let fault := match r.source with
    | .members ms => firstFault faults [] ms
    | .items _ => faults.findSome? (·.2)
  match fault with
  | none => .ok ()
  | some e => .error e

/-- Reports items that no field takes. -/
def Record.checkSurplus (r : Record) : Decoded Unit :=
  match r.source with
  | .members _ => .ok ()
  | .items xs =>
    if xs.length ≤ r.fields.length then .ok ()
    else .error (.invalidLength xs.length (match r.surplus with
      | .fewer => "fewer elements in array"
      | .exactly => s!"{elements r.fields.length} in sequence"))

/-- The fault of a field that is missing. -/
def Record.missing (r : Record) (field : String) : DecodeError :=
  match r.source with
  | .members _ => .missingField field
  | .items _ => .invalidLength (r.fields.idxOf field) s!"struct {r.name} with {elements r.fields.length}"

/-- The value of a field that has to be there. -/
def Record.required {α : Type} (r : Record) (s : Slot α) : Decoded α :=
  match s.result with
  | some result => result
  | none => .error (r.missing s.field)

/-- The value of a field that an object may leave out. -/
def Record.optional {α : Type} (r : Record) (s : Slot (Option α)) : Decoded (Option α) :=
  match s.result, r.source with
  | some result, _ => result
  | none, .members _ => .ok none
  | none, .items _ => .error (r.missing s.field)

/-- The value of a field that may be left out. -/
def Record.defaulted {α : Type} (s : Slot (Option α)) : Decoded (Option α) :=
  s.result.getD (.ok none)

end SchemaWeave.Json

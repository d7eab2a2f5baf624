import SchemaWeave.Introspection.Model
import SchemaWeave.Json.Decode
import SchemaWeave.Json.Reader

/-!
# Introspection results from JSON

`SchemaInfo.ofResponse` reads the data of a live response, `SchemaInfo.ofText` a stored result, with or without its
envelope. Types are told apart by their `kind`, which may stand anywhere among their members, so a type is set aside
whole before its content is read. Three states of a value matter for that: one that is read as it is, one that was set
aside until its shape is known, and the content of a type. A stored result that fits neither shape is a fault without
a place in the text, and the text behind it is not looked at.
-/

namespace SchemaWeave.Introspection

open Json (Decoded DecodeError Record Slot)

/-- The state in which a value is read. -/
inductive Holding
  /-- a value of its own -/
  | plain
  /-- a value set aside until its shape is known -/
  | aside
  /-- the content of a type, set aside until its kind is known -/
  | content
  deriving DecidableEq

/-- How a record that is held in this state reports surplus items. -/
def Holding.surplus : Holding → Json.Surplus
  | plain => .fewer
  | aside | content => .exactly

/-- The fields of a record in this state. -/
def Holding.record (h : Holding) (name : String) (fields : List String) : Json → Decoded Record :=
  Json.asRecord name fields h.surplus

/-- A kind by its name. -/
def RefKind.decodeName (s : String) : Decoded RefKind :=
  match RefKind.ofName? s with
  | some kind => .ok kind
  | none => .error (.unknownVariant s (RefKind.all.map RefKind.name))

/-- A kind: its name, or an object whose only member has that name and holds nothing. -/
def RefKind.decode (h : Holding) : Json → Decoded RefKind
  | .string s => decodeName s
  | .object [(key, value)] => do
    let kind ← decodeName key
    match value, h with
    | .null, _ | .object [], .content => return kind
    | value, _ => throw (Json.expected "unit" value)
  | .object members => .error (.invalidValue (Json.object members).describe "map with a single key")
  | j => .error (Json.expected "string or map" j)

namespace TypeRef

def recordName : String := "IntrospectionTypeRefFull"

def fields : List String := ["kind", "name", "ofType"]

/-- A reference from its record, where the type inside has been read. -/
def assemble (h : Holding) (source : Json.RecordSource) (inner : Option (Decoded (Option TypeRef))) : Decoded TypeRef := do
  let r : Record := { name := recordName, fields, source, surplus := h.surplus }
  let kind := r.slot "kind" (RefKind.decode h)
  let name := r.slot "name" (Json.decodeNullable Json.decodeString)
  let ofType : Slot (Option TypeRef) := { field := "ofType", result := inner }
  r.check [kind.fault?, name.fault?, ofType.fault?]
  let kind ← r.required kind
  let name ← r.optional name
  let ofType ← r.optional ofType
  r.checkSurplus
  return ofParts kind name ofType

mutual

/-- A type reference. -/
def decode (h : Holding) : Json → Decoded TypeRef
  | .object members => assemble h (.members members) (innerMember h members)
  | .array items => assemble h (.items items) (innerItem h items)
  | .null => .error (Json.expected s!"struct {recordName}" .null)
  | .bool b => .error (Json.expected s!"struct {recordName}" (.bool b))
  | .number n => .error (Json.expected s!"struct {recordName}" (.number n))
  | .string s => .error (Json.expected s!"struct {recordName}" (.string s))

/-- The type inside a reference that is an object. -/
def innerMember (h : Holding) : List (String × Json) → Option (Decoded (Option TypeRef))
  | [] => none
  | (key, value) :: members =>
    if key = "ofType" then some (if value.isNull then .ok none else (decode h value).map some)
    else innerMember h members

/-- The type inside a reference that is an array: its third item. -/
def innerItem (h : Holding) : List Json → Option (Decoded (Option TypeRef))
  | _ :: _ :: value :: _ => some (if value.isNull then .ok none else (decode h value).map some)
  | _ => none

end

end TypeRef

/-- A type given by its name. -/
def decodeNamed (h : Holding) (j : Json) : Decoded String := do
  let r ← h.record "IntrospectionTypeRef" ["name"] j
  let name := r.slot "name" Json.decodeString
  r.check [name.fault?]
  let name ← r.required name
  r.checkSurplus
  return name

def InputValue.decode (h : Holding) (j : Json) : Decoded InputValue := do
  let r ← h.record "IntrospectionInputValue" ["name", "description", "type", "defaultValue"] j
  let name := r.slot "name" Json.decodeString
  let description := r.slot "description" (Json.decodeNullable Json.decodeString)
  let type := r.slot "type" (TypeRef.decode h)
  let defaultValue := r.slot "defaultValue" (Json.decodeNullable Json.decodeString)
  r.check [name.fault?, description.fault?, type.fault?, defaultValue.fault?]
  let value : InputValue :=
    { name := ← r.required name, description := ← r.optional description, type := ← r.required type,
      defaultValue := ← r.optional defaultValue }
  r.checkSurplus
  return value

def Field.decode (h : Holding) (j : Json) : Decoded Field := do
  let r ← h.record "IntrospectionField"
    ["name", "description", "args", "type", "isDeprecated", "deprecationReason"] j
  let name := r.slot "name" Json.decodeString
  let description := r.slot "description" (Json.decodeNullable Json.decodeString)
  let args := r.slot "args" (Json.decodeList (InputValue.decode h))
  let type := r.slot "type" (TypeRef.decode h)
  let isDeprecated := r.slot "isDeprecated" Json.decodeBool
  let deprecationReason := r.slot "deprecationReason" (Json.decodeNullable Json.decodeString)
  r.check [name.fault?, description.fault?, args.fault?, type.fault?, isDeprecated.fault?, deprecationReason.fault?]
  let field : Field :=
    { name := ← r.required name, description := ← r.optional description, args := ← r.required args,
      type := ← r.required type, isDeprecated := ← r.required isDeprecated,
      deprecationReason := ← r.optional deprecationReason }
  r.checkSurplus
  return field

def EnumValue.decode (h : Holding) (j : Json) : Decoded EnumValue := do
  let r ← h.record "IntrospectionEnumValue" ["name", "description", "isDeprecated", "deprecationReason"] j
  let name := r.slot "name" Json.decodeString
  let description := r.slot "description" (Json.decodeNullable Json.decodeString)
  let isDeprecated := r.slot "isDeprecated" Json.decodeBool
  let deprecationReason := r.slot "deprecationReason" (Json.decodeNullable Json.decodeString)
  r.check [name.fault?, description.fault?, isDeprecated.fault?, deprecationReason.fault?]
  let value : EnumValue :=
    { name := ← r.required name, description := ← r.optional description, isDeprecated := ← r.required isDeprecated,
      deprecationReason := ← r.optional deprecationReason }
  r.checkSurplus
  return value

/-- The kinds that a listed type may have, in the order in which a position counts them. -/
def listedKinds : List RefKind := [.scalar, .object, .interface, .union, .enum, .inputObject]

/-- The kind of a listed type: a name, or, for a type that was set aside, its position among the kinds. -/
def decodeTag (h : Holding) : Json → Decoded RefKind
  | .string s =>
    match listedKinds.find? (·.name == s) with
    | some kind => .ok kind
    | none => .error (.unknownVariant s (listedKinds.map RefKind.name))
  | .number (.int (.ofNat n)) =>
    if h = .plain then .error (Json.expected "variant identifier" (.number (.int n)))
    else match listedKinds[n]? with
      | some kind => .ok kind
      | none => .error (.invalidValue (Json.number (.int n)).describe s!"variant index 0 <= i < {listedKinds.length}")
  | j => .error (Json.expected "variant identifier" j)

/-- The kind of a listed type, and what is left without it. -/
def splitTag (h : Holding) : Json → Decoded (RefKind × Json)
  | .object members =>
    match members.filter (·.1 == "kind") with
    | [] => .error (.missingField "kind")
    | (_, tag) :: others => do
      let kind ← decodeTag h tag
      if others.isEmpty then return (kind, .object (members.filter (·.1 != "kind")))
      else throw (.duplicateField "kind")
  | .array [] => .error (.missingField "kind")
  | .array (tag :: items) => do return (← decodeTag h tag, .array items)
  | j => .error (Json.expected "internally tagged enum IntrospectionType" j)

/-- A record for the content of a listed type, with the slots that all of them have. -/
def contentRecord (name : String) (fields : List String) (j : Json) :
    Decoded (Record × Slot String × Slot (Option String)) := do
  let r ← Holding.content.record name ("name" :: "description" :: fields) j
  return (r, r.slot "name" Json.decodeString, r.slot "description" (Json.decodeNullable Json.decodeString))

/-- A listed type of a known kind. -/
def TypeInfo.decodeContent (kind : RefKind) (j : Json) : Decoded TypeInfo := do
  match kind with
  | .object => do
    let (r, name, description) ← contentRecord "IntrospectionObjectType" ["fields", "interfaces"] j
    let fields := r.slot "fields" (Json.decodeList (Field.decode .content))
    let interfaces := r.slot "interfaces" (Json.decodeList (decodeNamed .content))
    r.check [name.fault?, description.fault?, fields.fault?, interfaces.fault?]
    let info : TypeInfo :=
      { name := ← r.required name, description := ← r.optional description,
        content := .object (← r.required fields) (← r.required interfaces) }
    r.checkSurplus
    return info
  | .interface => do
    let (r, name, description) ←
      contentRecord "IntrospectionInterfaceType" ["fields", "interfaces", "possibleTypes"] j
    let fields := r.slot "fields" (Json.decodeList (Field.decode .content))
    let interfaces := r.slot "interfaces" (Json.decodeNullable (Json.decodeList (decodeNamed .content)))
    let possibleTypes := r.slot "possibleTypes" (Json.decodeNullable (Json.decodeList (decodeNamed .content)))
    r.check [name.fault?, description.fault?, fields.fault?, interfaces.fault?, possibleTypes.fault?]
    let info : TypeInfo :=
      { name := ← r.required name, description := ← r.optional description,
        content := .interface (← r.required fields) (← Record.defaulted interfaces) (← r.optional possibleTypes) }
    r.checkSurplus
    return info
  | .union => do
    let (r, name, description) ← contentRecord "IntrospectionUnionType" ["possibleTypes"] j
    let possibleTypes := r.slot "possibleTypes" (Json.decodeList (decodeNamed .content))
    r.check [name.fault?, description.fault?, possibleTypes.fault?]
    let info : TypeInfo :=
      { name := ← r.required name, description := ← r.optional description,
        content := .union (← r.required possibleTypes) }
    r.checkSurplus
    return info
  | .enum => do
    let (r, name, description) ← contentRecord "IntrospectionEnumType" ["enumValues"] j
    let values := r.slot "enumValues" (Json.decodeList (EnumValue.decode .content))
    r.check [name.fault?, description.fault?, values.fault?]
    let info : TypeInfo :=
      { name := ← r.required name, description := ← r.optional description, content := .enum (← r.required values) }
    r.checkSurplus
    return info
  | .inputObject => do
    let (r, name, description) ← contentRecord "IntrospectionInputObjectType" ["inputFields"] j
    let fields := r.slot "inputFields" (Json.decodeList (InputValue.decode .content))
    r.check [name.fault?, description.fault?, fields.fault?]
    let info : TypeInfo :=
      { name := ← r.required name, description := ← r.optional description,
        content := .inputObject (← r.required fields) }
    r.checkSurplus
    return info
  | .scalar | .list | .nonNull => do
    let (r, name, description) ← contentRecord "IntrospectionScalarType" [] j
    r.check [name.fault?, description.fault?]
    let info : TypeInfo :=
      { name := ← r.required name, description := ← r.optional description, content := .scalar }
    r.checkSurplus
    return info

/-- A listed type. -/
def TypeInfo.decode (h : Holding) (j : Json) : Decoded TypeInfo := do
  let (kind, content) ← splitTag h j
  decodeContent kind content

def DirectiveInfo.decode (h : Holding) (j : Json) : Decoded DirectiveInfo := do
  let r ← h.record "IntrospectionDirective" ["name", "description", "locations", "args"] j
  let name := r.slot "name" Json.decodeString
  let description := r.slot "description" (Json.decodeNullable Json.decodeString)
  let locations := r.slot "locations" (Json.decodeList Json.decodeString)
  let args := r.slot "args" (Json.decodeList (InputValue.decode h))
  r.check [name.fault?, description.fault?, locations.fault?, args.fault?]
  let info : DirectiveInfo :=
    { name := ← r.required name, description := ← r.optional description, locations := ← r.required locations,
      args := ← r.required args }
  r.checkSurplus
  return info

/-- A schema, as it stands under `__schema`. -/
def SchemaInfo.decode (h : Holding) (j : Json) : Decoded SchemaInfo := do
  let r ← h.record "IntrospectionSchema"
    ["queryType", "mutationType", "subscriptionType", "types", "directives"] j
  let queryType := r.slot "queryType" (Json.decodeNullable (decodeNamed h))
  let mutationType := r.slot "mutationType" (Json.decodeNullable (decodeNamed h))
  let subscriptionType := r.slot "subscriptionType" (Json.decodeNullable (decodeNamed h))
  let types := r.slot "types" (Json.decodeList (TypeInfo.decode h))
  let directives := r.slot "directives" (Json.decodeList (DirectiveInfo.decode h))
  r.check [queryType.fault?, mutationType.fault?, subscriptionType.fault?, types.fault?, directives.fault?]
  let info : SchemaInfo :=
    { queryType := ← r.optional queryType, mutationType := ← r.optional mutationType,
      subscriptionType := ← r.optional subscriptionType, types := ← r.required types,
      directives := ← r.required directives }
  r.checkSurplus
  return info

/-- The data of a response: a record with the one field `__schema`. -/
def SchemaInfo.decodeData (h : Holding) (j : Json) : Decoded SchemaInfo := do
  let r ← h.record "IntrospectionData" ["__schema"] j
  let schema := r.slot "__schema" (SchemaInfo.decode h)
  r.check [schema.fault?]
  let schema ← r.required schema
  r.checkSurplus
  return schema

/-- A whole response: a record with the one field `data`. -/
def SchemaInfo.decodeEnvelope (h : Holding) (j : Json) : Decoded SchemaInfo := do
  let r ← h.record "IntrospectionResponse" ["data"] j
  let data := r.slot "data" (SchemaInfo.decodeData h)
  r.check [data.fault?]
  let data ← r.required data
  r.checkSurplus
  return data

/-- Reads the data of a live response. -/
def SchemaInfo.ofResponse (data : Json) : Except String SchemaInfo :=
  (decodeData .plain data).mapError DecodeError.message

/-- The message for a stored result of neither shape. -/
def noShape : String := "data did not match any variant of untagged enum StoredIntrospection"

/-- Reads a stored result: the envelope of a response, or its data alone. -/
def SchemaInfo.ofStored (j : Json) : Option SchemaInfo :=
  match decodeEnvelope .aside j with
  | .ok info => some info
  | .error _ => (decodeData .aside j).toOption

/-- Reads the text of a stored result, or gives the message of the fault. -/
def SchemaInfo.ofText (text : String) : Except String SchemaInfo :=
  match Json.read text.toList with
  | .error e => .error (e.message text.toList)
  | .ok (j, rest) =>
    match ofStored j with
    | none => .error noShape
    | some info =>
      match Json.checkEnd rest with
      | .error e => .error (e.message text.toList)
      | .ok () => .ok info

end SchemaWeave.Introspection

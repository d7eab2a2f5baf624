import SchemaWeave.Introspection.Decode
import SchemaWeave.Introspection.Encode
import SchemaWeave.Proofs.Json.Record

/-!
# Records of introspection results read from objects

Each record is read from an object with its fields in their order, if the values of the fields are read. A listed
type has the fields of all kinds, of which those of its own kind count (`TypeInfo.decode_object`).
-/

namespace SchemaWeave.Introspection

open Json

theorem decodeList_map {α β : Type} {decode : Json → Decoded β} {f : α → Json} {g : α → β} {l : List α}
    (h : ∀ a ∈ l, decode (f a) = .ok (g a)) : decodeList decode (.array (l.map f)) = .ok (l.map g) := by
  rw [decodeList]
  induction l with
  | nil => rfl
  | cons a l ih =>
    rw [List.map_cons, List.mapM_cons, h a List.mem_cons_self, ih fun b hb => h b (List.mem_cons_of_mem a hb)]
    rfl

@[simp] theorem decodeString_string (s : String) : decodeString (.string s) = .ok s := rfl

@[simp] theorem decodeBool_bool (b : Bool) : decodeBool (.bool b) = .ok b := rfl

@[simp] theorem decodeNullable_encodeOption : ∀ o : Option String, decodeNullable decodeString (encodeOption o) = .ok o
  | none => rfl
  | some _ => rfl

@[simp] theorem record_object (h : Holding) (name : String) (fields : List String) (members : List (String × Json)) :
    h.record name fields (.object members) = .ok (.ofMembers name fields h.surplus members) := rfl

/-! ## References -/

section

variable (h : Holding) (kind : RefKind) (name : Option String)

@[simp] theorem RefKind.decode_name : RefKind.decode h (.string kind.name) = .ok kind := by
  cases kind <;> rfl

theorem TypeRef.decode_bare :
    TypeRef.decode h (.object [("kind", .string kind.name), ("name", encodeOption name)]) = .ok (.bare kind name) := by
  simp [TypeRef.decode, TypeRef.innerMember, TypeRef.assemble, firstFault_eq_none, TypeRef.ofParts]

theorem TypeRef.decode_null :
    TypeRef.decode h (.object [("kind", .string kind.name), ("name", encodeOption name), ("ofType", .null)]) =
      .ok (.bare kind name) := by
  simp [TypeRef.decode, TypeRef.innerMember, TypeRef.assemble, firstFault_eq_none, TypeRef.ofParts, isNull]

theorem TypeRef.decode_wrap {members : List (String × Json)} {inner : TypeRef}
    (hinner : TypeRef.decode h (.object members) = .ok inner) :
    TypeRef.decode h (.object [("kind", .string kind.name), ("name", encodeOption name), ("ofType", .object members)]) =
      .ok (.wrap kind name inner) := by
  rw [TypeRef.decode]
  simp [TypeRef.innerMember, TypeRef.assemble, hinner, firstFault_eq_none, TypeRef.ofParts, isNull, Except.map]

end

/-! ## Members of types -/

section

variable (h : Holding) {name : String} {description default reason : Option String} {deprecated : Bool} {type : TypeRef}
  {args : List InputValue} {jtype jargs : Json}

theorem InputValue.decode_object (htype : TypeRef.decode h jtype = .ok type) :
    InputValue.decode h (.object [("name", .string name), ("description", encodeOption description), ("type", jtype),
      ("defaultValue", encodeOption default)]) = .ok ⟨name, description, type, default⟩ := by
  simp [InputValue.decode, htype, firstFault_eq_none]

theorem Field.decode_object (hargs : decodeList (InputValue.decode h) jargs = .ok args)
    (htype : TypeRef.decode h jtype = .ok type) :
    Field.decode h (.object [("name", .string name), ("description", encodeOption description), ("args", jargs),
      ("type", jtype), ("isDeprecated", .bool deprecated), ("deprecationReason", encodeOption reason)]) =
      .ok ⟨name, description, args, type, deprecated, reason⟩ := by
  simp [Field.decode, hargs, htype, firstFault_eq_none]

theorem EnumValue.decode_object :
    EnumValue.decode h (.object [("name", .string name), ("description", encodeOption description),
      ("isDeprecated", .bool deprecated), ("deprecationReason", encodeOption reason)]) =
      .ok ⟨name, description, deprecated, reason⟩ := by
  simp [EnumValue.decode, firstFault_eq_none]

/-- A type given by its name among other members. -/
theorem decodeNamed_object {jkind joutside : Json} :
    decodeNamed h (.object [("kind", jkind), ("name", .string name), ("ofType", joutside)]) = .ok name := by
  simp [decodeNamed, firstFault_eq_none]

theorem decodeNamed_name : decodeNamed h (.object [("name", .string name)]) = .ok name := by
  simp [decodeNamed, firstFault_eq_none]

theorem DirectiveInfo.decode_object {locations : List String}
    (hargs : decodeList (InputValue.decode h) jargs = .ok args) :
    DirectiveInfo.decode h (.object [("name", .string name), ("description", encodeOption description),
      ("locations", .array (locations.map .string)), ("args", jargs)]) = .ok ⟨name, description, locations, args⟩ := by
  have hlocations : decodeList decodeString (.array (locations.map .string)) = .ok locations := by
    simpa using decodeList_map (f := Json.string) (g := id) (l := locations) fun s _ => decodeString_string s
  simp [DirectiveInfo.decode, hargs, hlocations, firstFault_eq_none]

end

/-! ## Types -/

section

variable {jfields jinputs jinterfaces jvalues jpossible : Json}

/-- What the members of a listed type that depend on its kind are read as. -/
def ReadsContent (jfields jinputs jinterfaces jvalues jpossible : Json) : TypeContent → Prop
  | .scalar => True
  | .object fields interfaces =>
    decodeList (Field.decode .content) jfields = .ok fields ∧
      decodeList (decodeNamed .content) jinterfaces = .ok interfaces
  | .interface fields interfaces possibleTypes =>
    decodeList (Field.decode .content) jfields = .ok fields ∧
      decodeNullable (decodeList (decodeNamed .content)) jinterfaces = .ok interfaces ∧
      decodeNullable (decodeList (decodeNamed .content)) jpossible = .ok possibleTypes
  | .union possibleTypes => decodeList (decodeNamed .content) jpossible = .ok possibleTypes
  | .enum values => decodeList (EnumValue.decode .content) jvalues = .ok values
  | .inputObject fields => decodeList (InputValue.decode .content) jinputs = .ok fields

theorem decodeTag_kind (h : Holding) (content : TypeContent) :
    decodeTag h (.string content.kind.name) = .ok content.kind := by
  cases content <;> rfl

theorem splitTag_object (h : Holding) (content : TypeContent) {members : List (String × Json)}
    (hm : members.filter (·.1 == "kind") = []) (hk : members.filter (·.1 != "kind") = members) :
    splitTag h (.object (("kind", .string content.kind.name) :: members)) = .ok (content.kind, .object members) := by
  simp [splitTag, hm, hk, decodeTag_kind]

theorem TypeInfo.decode_object (h : Holding) (content : TypeContent) {name : String} {description : Option String}
    (hcontent : ReadsContent jfields jinputs jinterfaces jvalues jpossible content) :
    TypeInfo.decode h (.object [("kind", .string content.kind.name), ("name", .string name),
      ("description", encodeOption description), ("fields", jfields), ("inputFields", jinputs),
      ("interfaces", jinterfaces), ("enumValues", jvalues), ("possibleTypes", jpossible)]) =
      .ok ⟨name, description, content⟩ := by
  rw [TypeInfo.decode, splitTag_object h content (by simp) (by simp), bind_ok]
  cases content with
  | scalar => simp [TypeContent.kind, decodeContent, contentRecord, firstFault_eq_none]
  | object fields interfaces =>
    simp [TypeContent.kind, decodeContent, contentRecord, firstFault_eq_none, hcontent.1, hcontent.2]
  | interface fields interfaces possibleTypes =>
    simp [TypeContent.kind, decodeContent, contentRecord, firstFault_eq_none, hcontent.1, hcontent.2.1, hcontent.2.2]
  | union possibleTypes =>
    simp [TypeContent.kind, decodeContent, contentRecord, firstFault_eq_none,
      show decodeList _ jpossible = _ from hcontent]
  | enum values =>
    simp [TypeContent.kind, decodeContent, contentRecord, firstFault_eq_none,
      show decodeList _ jvalues = _ from hcontent]
  | inputObject fields =>
    simp [TypeContent.kind, decodeContent, contentRecord, firstFault_eq_none,
      show decodeList _ jinputs = _ from hcontent]

end

/-! ## Schemas -/

section

variable {jquery jmutation jsubscription jtypes jdirectives : Json}

/-- The data that holds a schema is read, without an envelope, if its parts are. -/
theorem SchemaInfo.ofStored_object (info : SchemaInfo)
    (hquery : decodeNullable (decodeNamed .aside) jquery = .ok info.queryType)
    (hmutation : decodeNullable (decodeNamed .aside) jmutation = .ok info.mutationType)
    (hsubscription : decodeNullable (decodeNamed .aside) jsubscription = .ok info.subscriptionType)
    (htypes : decodeList (TypeInfo.decode .aside) jtypes = .ok info.types)
    (hdirectives : decodeList (DirectiveInfo.decode .aside) jdirectives = .ok info.directives) :
    SchemaInfo.ofStored (.object [("__schema", .object [("queryType", jquery), ("mutationType", jmutation),
      ("subscriptionType", jsubscription), ("types", jtypes), ("directives", jdirectives)])]) = some info := by
  have hschema : SchemaInfo.decode .aside (.object [("queryType", jquery), ("mutationType", jmutation),
      ("subscriptionType", jsubscription), ("types", jtypes), ("directives", jdirectives)]) = .ok info := by
    simp [SchemaInfo.decode, hquery, hmutation, hsubscription, htypes, hdirectives, firstFault_eq_none]
  have henvelope : ∀ j, ∃ e, SchemaInfo.decodeEnvelope .aside (.object [("__schema", j)]) = .error e := by
    intro j
    exact ⟨_, rfl⟩
  obtain ⟨e, he⟩ := henvelope _
  rw [SchemaInfo.ofStored, he]
  simp [SchemaInfo.decodeData, hschema, firstFault_eq_none, Except.toOption]

end

end SchemaWeave.Introspection

import SchemaWeave.Introspection.Encode
import SchemaWeave.Proofs.Introspection.Decode
import SchemaWeave.Proofs.Introspection.Reads
import SchemaWeave.Proofs.Json.Text

/-!
# An introspection result that is written is read again

One lemma for each part of a result says that its JSON is read as the part, in whatever state it is held
(`TypeRef.decode_toJson`, …, `SchemaInfo.decodeData_toJson`). A written result holds no numbers, so its text is read as
its value (`Json.parse_compact`, `Json.parse_pretty`), as far as it is not nested too deeply; this gives the round trip of
texts (`SchemaInfo.ofText_toJson`).

A result without envelope is tried as an envelope first. That fails, since `__schema` is no field of an envelope and its
field `data` is missing.
-/

namespace SchemaWeave.Introspection

open Json

/-! ## Reading what was written -/

section

variable (h : Holding)

/-- By induction on the wrappers: each type inside is written as an object. -/
theorem TypeRef.decode_toJson : ∀ t : TypeRef, TypeRef.decode h t.toJson = .ok t
  | .bare kind name => TypeRef.decode_null h kind name
  | .wrap kind name (.bare innerKind innerName) =>
    TypeRef.decode_wrap h kind name (TypeRef.decode_toJson (.bare innerKind innerName))
  | .wrap kind name (.wrap innerKind innerName inner) =>
    TypeRef.decode_wrap h kind name (TypeRef.decode_toJson (.wrap innerKind innerName inner))

/-- A list of written parts is read if each part is. -/
theorem decodeList_toJson {α : Type} {decode : Json → Decoded α} {toJson : α → Json}
    (hdecode : ∀ a, decode (toJson a) = .ok a) (l : List α) : decodeList decode (.array (l.map toJson)) = .ok l := by
  simpa using decodeList_map (g := id) fun a (_ : a ∈ l) => hdecode a

theorem InputValue.decode_toJson (v : InputValue) : InputValue.decode h v.toJson = .ok v :=
  InputValue.decode_object h (TypeRef.decode_toJson h v.type)

theorem decodeList_encodeInputs (vs : List InputValue) :
    decodeList (InputValue.decode h) (encodeInputs vs) = .ok vs :=
  decodeList_toJson (InputValue.decode_toJson h) vs

theorem Field.decode_toJson (f : Field) : Field.decode h f.toJson = .ok f :=
  Field.decode_object h (decodeList_encodeInputs h f.args) (TypeRef.decode_toJson h f.type)

theorem EnumValue.decode_toJson (v : EnumValue) : EnumValue.decode h v.toJson = .ok v :=
  EnumValue.decode_object h

theorem DirectiveInfo.decode_toJson (d : DirectiveInfo) : DirectiveInfo.decode h d.toJson = .ok d :=
  DirectiveInfo.decode_object h (decodeList_encodeInputs h d.args)

theorem decodeList_encodeNames (names : List String) :
    decodeList (decodeNamed h) (encodeNames names) = .ok names :=
  decodeList_toJson (fun _ => decodeNamed_name h) names

theorem decodeNullable_encodeNamesOption :
    ∀ names : Option (List String), decodeNullable (decodeList (decodeNamed h)) (encodeNamesOption names) = .ok names
  | none => rfl
  | some names => congrArg (Except.map some) (decodeList_encodeNames h names)

theorem decodeNullable_encodeNamedOption :
    ∀ name : Option String, decodeNullable (decodeNamed h) (encodeNamedOption name) = .ok name
  | none => rfl
  | some _ => congrArg (Except.map some) (decodeNamed_name h)

/-- The content of a type is read from the members of its own kind, behind its name and description. -/
theorem decodeContent_members (name : String) (description : Option String) (content : TypeContent) :
    TypeInfo.decodeContent content.kind (.object ([("name", .string name),
      ("description", encodeOption description)] ++ content.members)) = .ok ⟨name, description, content⟩ := by
  cases content with
  | scalar =>
    simp [TypeContent.kind, TypeContent.members, TypeInfo.decodeContent, contentRecord, firstFault_eq_none]
  | object fields interfaces =>
    have hfields : decodeList (Field.decode .content) (encodeFields fields) = .ok fields :=
      decodeList_toJson (Field.decode_toJson .content) fields
    simp [TypeContent.kind, TypeContent.members, TypeInfo.decodeContent, contentRecord, firstFault_eq_none, hfields,
      decodeList_encodeNames]
  | interface fields interfaces possibleTypes =>
    have hfields : decodeList (Field.decode .content) (encodeFields fields) = .ok fields :=
      decodeList_toJson (Field.decode_toJson .content) fields
    simp [TypeContent.kind, TypeContent.members, TypeInfo.decodeContent, contentRecord, firstFault_eq_none, hfields,
      decodeNullable_encodeNamesOption]
  | union possibleTypes =>
    simp [TypeContent.kind, TypeContent.members, TypeInfo.decodeContent, contentRecord, firstFault_eq_none,
      decodeList_encodeNames]
  | enum values =>
    have hvalues : decodeList (EnumValue.decode .content) (.array (values.map EnumValue.toJson)) = .ok values :=
      decodeList_toJson (EnumValue.decode_toJson .content) values
    simp [TypeContent.kind, TypeContent.members, TypeInfo.decodeContent, contentRecord, firstFault_eq_none, hvalues]
  | inputObject fields =>
    simp [TypeContent.kind, TypeContent.members, TypeInfo.decodeContent, contentRecord, firstFault_eq_none,
      decodeList_encodeInputs]

/-- The kind is written once, in front of the members that are left for the content. -/
theorem TypeInfo.decode_toJson (t : TypeInfo) : TypeInfo.decode h t.toJson = .ok t := by
  have hkind : ∀ m ∈ t.content.members, m.1 ≠ "kind" := by
    cases t.content <;> simp [TypeContent.members]
  have hsplit : splitTag h t.toJson = .ok (t.content.kind, .object ([("name", .string t.name),
      ("description", encodeOption t.description)] ++ t.content.members)) :=
    splitTag_object h t.content (by simpa [List.filter_eq_nil_iff] using fun k j hm => hkind (k, j) hm)
      (by simpa [List.filter_eq_self] using fun k j hm => hkind (k, j) hm)
  rw [TypeInfo.decode, hsplit, bind_ok]
  exact decodeContent_members t.name t.description t.content

theorem SchemaInfo.decodeData_toJson (s : SchemaInfo) : SchemaInfo.decodeData h s.toJson = .ok s := by
  have htypes := decodeList_toJson (TypeInfo.decode_toJson h) s.types
  have hdirectives := decodeList_toJson (DirectiveInfo.decode_toJson h) s.directives
  have hschema : SchemaInfo.decode h (.object [
      ("queryType", encodeNamedOption s.queryType), ("mutationType", encodeNamedOption s.mutationType),
      ("subscriptionType", encodeNamedOption s.subscriptionType), ("types", .array (s.types.map TypeInfo.toJson)),
      ("directives", .array (s.directives.map DirectiveInfo.toJson))]) = .ok s := by
    simp [SchemaInfo.decode, decodeNullable_encodeNamedOption, htypes, hdirectives, firstFault_eq_none]
  rw [SchemaInfo.toJson]
  simp [SchemaInfo.decodeData, hschema, firstFault_eq_none]

end

/-- The response that has a result as its data. -/
def SchemaInfo.toResponse (s : SchemaInfo) : Json := .object [("data", s.toJson)]

theorem SchemaInfo.ofStored_toResponse (s : SchemaInfo) : SchemaInfo.ofStored s.toResponse = some s := by
  have henvelope : SchemaInfo.decodeEnvelope .aside s.toResponse = .ok s := by
    simp [SchemaInfo.toResponse, SchemaInfo.decodeEnvelope, SchemaInfo.decodeData_toJson, firstFault_eq_none]
  exact SchemaInfo.ofStored_of_envelope henvelope

theorem SchemaInfo.ofStored_toJson (s : SchemaInfo) : SchemaInfo.ofStored s.toJson = some s := by
  have henvelope : ∃ e, SchemaInfo.decodeEnvelope .aside s.toJson = .error e := ⟨_, rfl⟩
  obtain ⟨e, he⟩ := henvelope
  rw [SchemaInfo.ofStored, he, SchemaInfo.decodeData_toJson]
  rfl

/-! ## A written result holds no numbers -/

theorem isNumberlessItems_map {α : Type} {toJson : α → Json} (h : ∀ a, (toJson a).isNumberless = true) :
    ∀ l : List α, isNumberlessItems (l.map toJson) = true
  | [] => rfl
  | a :: l => by rw [List.map_cons, isNumberlessItems, h a, isNumberlessItems_map h l, Bool.and_self]

@[simp] theorem isNumberless_encodeOption : ∀ o : Option String, (encodeOption o).isNumberless = true
  | none | some _ => rfl

@[simp] theorem isNumberless_encodeNamedOption : ∀ o : Option String, (encodeNamedOption o).isNumberless = true
  | none | some _ => rfl

@[simp] theorem isNumberless_encodeNames (names : List String) : (encodeNames names).isNumberless = true :=
  isNumberlessItems_map (fun _ => rfl) names

@[simp] theorem isNumberless_encodeNamesOption :
    ∀ o : Option (List String), (encodeNamesOption o).isNumberless = true
  | none => rfl
  | some names => isNumberless_encodeNames names

@[simp] theorem TypeRef.isNumberless_toJson : ∀ t : TypeRef, t.toJson.isNumberless = true
  | .bare .. => by simp [TypeRef.toJson, isNumberless, isNumberlessMembers]
  | .wrap _ _ inner => by
    simp [TypeRef.toJson, isNumberless, isNumberlessMembers, TypeRef.isNumberless_toJson inner]

@[simp] theorem isNumberless_encodeInputs (vs : List InputValue) : (encodeInputs vs).isNumberless = true :=
  isNumberlessItems_map (fun v => by simp [InputValue.toJson, isNumberless, isNumberlessMembers]) vs

@[simp] theorem isNumberless_encodeFields (fs : List Field) : (encodeFields fs).isNumberless = true :=
  isNumberlessItems_map (fun f => by simp [Field.toJson, isNumberless, isNumberlessMembers]) fs

theorem EnumValue.isNumberless_toJson (v : EnumValue) : v.toJson.isNumberless = true := by
  simp [EnumValue.toJson, isNumberless, isNumberlessMembers]

theorem TypeInfo.isNumberless_toJson (t : TypeInfo) : t.toJson.isNumberless = true := by
  cases hc : t.content <;>
    simp [TypeInfo.toJson, hc, TypeContent.members, isNumberless, isNumberlessMembers,
      isNumberlessItems_map EnumValue.isNumberless_toJson]

theorem DirectiveInfo.isNumberless_toJson (d : DirectiveInfo) : d.toJson.isNumberless = true := by
  have hlocations := isNumberlessItems_map (fun s => (rfl : (Json.string s).isNumberless = true)) d.locations
  simp [DirectiveInfo.toJson, isNumberless, isNumberlessMembers, hlocations]

theorem SchemaInfo.isNumberless_toJson (s : SchemaInfo) : s.toJson.isNumberless = true := by
  simp [SchemaInfo.toJson, isNumberless, isNumberlessMembers, isNumberlessItems_map TypeInfo.isNumberless_toJson,
    isNumberlessItems_map DirectiveInfo.isNumberless_toJson]

theorem SchemaInfo.isNumberless_toResponse (s : SchemaInfo) : s.toResponse.isNumberless = true := by
  simp [SchemaInfo.toResponse, isNumberless, isNumberlessMembers, s.isNumberless_toJson]

/-! ## Texts -/

/-- **A result that is written is read again**, from its text with or without line breaks, alone or in the envelope of a
response, if the value written nests fewer levels than the limit. -/
theorem SchemaInfo.ofText_toJson (s : SchemaInfo) :
    (s.toJson.nesting < 128 →
      SchemaInfo.ofText s.toJson.compact = .ok s ∧ SchemaInfo.ofText s.toJson.pretty = .ok s) ∧
    (s.toResponse.nesting < 128 →
      SchemaInfo.ofText s.toResponse.compact = .ok s ∧ SchemaInfo.ofText s.toResponse.pretty = .ok s) := by
  constructor
  · intro hn
    exact ⟨(SchemaInfo.ofText_of_parse (parse_compact s.isNumberless_toJson hn)).mpr s.ofStored_toJson,
      (SchemaInfo.ofText_of_parse (parse_pretty s.isNumberless_toJson hn)).mpr s.ofStored_toJson⟩
  · intro hn
    exact ⟨(SchemaInfo.ofText_of_parse (parse_compact s.isNumberless_toResponse hn)).mpr s.ofStored_toResponse,
      (SchemaInfo.ofText_of_parse (parse_pretty s.isNumberless_toResponse hn)).mpr s.ofStored_toResponse⟩

/-- A schema with a type of each kind, a reference over three wrappers, and texts with quotes and line breaks. -/
def SchemaInfo.sample : SchemaInfo where
  queryType := some "Query"
  mutationType := none
  subscriptionType := some "\"S\"\\"
  types := [
    ⟨"Date", some "one\ntwo\t\u0001", .scalar⟩,
    ⟨"Query", none, .object
      [⟨"items", none, [⟨"first", some "", .bare .scalar (some "Int"), some "10"⟩],
        .wrap .nonNull none (.wrap .list none (.wrap .nonNull (some "") (.bare .object (some "Item")))), true,
        some "gone"⟩] ["Node"]⟩,
    ⟨"Node", none, .interface [] none (some ["Query"])⟩,
    ⟨"Any", none, .union []⟩,
    ⟨"Color", none, .enum [⟨"RED", none, false, none⟩]⟩,
    ⟨"Filter", none, .inputObject [⟨"color", none, .bare .list none, none⟩]⟩]
  directives := [⟨"cached", none, ["FIELD"], []⟩]

theorem SchemaInfo.ofText_toJson_sample :
    SchemaInfo.sample.toJson.nesting < 128 ∧ SchemaInfo.sample.toResponse.nesting < 128 ∧
      SchemaInfo.ofText SchemaInfo.sample.toJson.compact = .ok SchemaInfo.sample ∧
      SchemaInfo.ofText SchemaInfo.sample.toResponse.pretty = .ok SchemaInfo.sample := by
  have hbare : SchemaInfo.sample.toJson.nesting < 128 := by decide +kernel
  have hresponse : SchemaInfo.sample.toResponse.nesting < 128 := by decide +kernel
  exact ⟨hbare, hresponse, ((SchemaInfo.ofText_toJson _).1 hbare).1, ((SchemaInfo.ofText_toJson _).2 hresponse).2⟩

end SchemaWeave.Introspection

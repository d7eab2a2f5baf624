import SchemaWeave.Introspection.Decode
import SchemaWeave.Proofs.Json.Reads

/-!
# What it takes to read an introspection result

For each part of an introspection result one equivalence says when it is read from a value: the value is an object or an
array that gives no field twice, and what stands in each field is read as the part has it. A listed type is split into its
kind and the rest first (`TypeInfo.decode_eq_ok`).
-/

namespace SchemaWeave.Introspection

open Json

theorem record_eq_ok {h : Holding} {name : String} {fields : List String} {j : Json} {r : Record} :
    h.record name fields j = .ok r ↔ ∃ source, j.source? = some source ∧ r = ⟨name, fields, source, h.surplus⟩ :=
  asRecord_eq_ok

/-! ## References -/

def namedFields : List String := ["name"]

theorem decodeNamed_eq_ok {h : Holding} {j : Json} {name : String} : decodeNamed h j = .ok name ↔
    ∃ source, j.source? = some source ∧ source.Fits namedFields ∧ source.Reads namedFields "name" decodeString name := by
  simp only [decodeNamed, bind_eq_ok, record_eq_ok, required_slot, pure_eq_ok, Except.ok.injEq]
  constructor
  · rintro ⟨_, ⟨source, hs, rfl⟩, _, hcheck, _, hname, _, hsurplus, rfl⟩
    exact ⟨source, hs, fits_of_check hcheck hsurplus rfl, hname⟩
  · rintro ⟨source, hs, hfits, hname⟩
    refine ⟨_, ⟨source, hs, rfl⟩, (), check_of_fits hfits rfl ?_, _, hname, (), checkSurplus_of_fits hfits, rfl⟩
    simp only [List.forall_mem_cons]
    exact ⟨fault?_of_reads hname, List.forall_mem_nil _⟩

namespace TypeRef

/-- A reference has the parts it is made of. -/
theorem ofParts_eq {kind : RefKind} {name : Option String} {inner : Option TypeRef} {t : TypeRef} :
    ofParts kind name inner = t ↔ kind = t.kind ∧ name = t.name ∧ inner = t.ofType? := by
  cases inner <;> cases t <;> simp [ofParts, TypeRef.kind, TypeRef.name, ofType?]

theorem decodeNullable_decode (h : Holding) (j : Json) :
    (if j.isNull then .ok none else (decode h j).map some) = decodeNullable (decode h) j := by
  cases j <;> rfl

/-- The type inside a reference is what stands in its last field. -/
theorem innerMember_eq (h : Holding) (members : List (String × Json)) : innerMember h members =
    ((RecordSource.members members).value? fields "ofType").map (decodeNullable (decode h)) := by
  induction members with
  | nil => rfl
  | cons m members ih =>
    obtain ⟨key, value⟩ := m
    rw [innerMember, decodeNullable_decode, ih, RecordSource.value?, RecordSource.value?, List.find?_cons]
    by_cases hk : key = "ofType"
    · simp [hk]
    · have hb : (key == "ofType") = false := beq_eq_false_iff_ne.mpr hk
      simp only [if_neg hk, hb]

theorem innerItem_eq (h : Holding) (items : List Json) : innerItem h items =
    ((RecordSource.items items).value? fields "ofType").map (decodeNullable (decode h)) := by
  match items with
  | [] | [_] | [_, _] => rfl
  | _ :: _ :: value :: _ => exact congrArg some (decodeNullable_decode h value)

theorem assemble_eq_ok {h : Holding} {source : RecordSource} {t : TypeRef} :
    assemble h source ((source.value? fields "ofType").map (decodeNullable (decode h))) = .ok t ↔
      source.Fits fields ∧ source.Reads fields "kind" (RefKind.decode h) t.kind ∧
        source.ReadsOptional fields "name" (decodeNullable decodeString) t.name ∧
        source.ReadsOptional fields "ofType" (decodeNullable (decode h)) t.ofType? := by
  have hslot (r : Record) (hr : r.source = source) (hf : r.fields = fields) :
      ({ field := "ofType", result := (source.value? fields "ofType").map (decodeNullable (decode h)) } : Slot _) =
        r.slot "ofType" (decodeNullable (decode h)) := by
    rw [← hr, ← hf]
    rfl
  rw [assemble, hslot ⟨recordName, fields, source, h.surplus⟩ rfl rfl]
  simp only [bind_eq_ok, required_slot, optional_slot, pure_eq_ok, Except.ok.injEq, ofParts_eq]
  constructor
  · rintro ⟨_, hcheck, _, hkind, _, hname, _, hinner, _, hsurplus, rfl, rfl, rfl⟩
    exact ⟨fits_of_check hcheck hsurplus rfl, hkind, hname, hinner⟩
  · rintro ⟨hfits, hkind, hname, hinner⟩
    refine ⟨(), check_of_fits hfits rfl ?_, _, hkind, _, hname, _, hinner, (), checkSurplus_of_fits hfits, rfl, rfl, rfl⟩
    simp only [List.forall_mem_cons]
    exact ⟨fault?_of_reads hkind, fault?_of_readsOptional hname, fault?_of_readsOptional hinner, List.forall_mem_nil _⟩

theorem decode_eq_ok {h : Holding} {j : Json} {t : TypeRef} : decode h j = .ok t ↔
    ∃ source, j.source? = some source ∧ source.Fits fields ∧
      source.Reads fields "kind" (RefKind.decode h) t.kind ∧
      source.ReadsOptional fields "name" (decodeNullable decodeString) t.name ∧
      source.ReadsOptional fields "ofType" (decodeNullable (decode h)) t.ofType? := by
  cases j with
  | object members =>
    rw [decode, innerMember_eq, assemble_eq_ok]
    simp [source?]
  | array items =>
    rw [decode, innerItem_eq, assemble_eq_ok]
    simp [source?]
  | _ => simp [decode, source?]

end TypeRef

/-! ## Members of types -/

def InputValue.fields : List String := ["name", "description", "type", "defaultValue"]

theorem InputValue.decode_eq_ok {h : Holding} {j : Json} {v : InputValue} : InputValue.decode h j = .ok v ↔
    ∃ source, j.source? = some source ∧ source.Fits fields ∧ source.Reads fields "name" decodeString v.name ∧
      source.ReadsOptional fields "description" (decodeNullable decodeString) v.description ∧
      source.Reads fields "type" (TypeRef.decode h) v.type ∧
      source.ReadsOptional fields "defaultValue" (decodeNullable decodeString) v.defaultValue := by
  simp only [InputValue.decode, bind_eq_ok, record_eq_ok, required_slot, optional_slot, pure_eq_ok, Except.ok.injEq]
  constructor
  · rintro ⟨_, ⟨source, hs, rfl⟩, _, hcheck, _, hname, _, hdescription, _, htype, _, hdefault, _, hsurplus, rfl⟩
    exact ⟨source, hs, fits_of_check hcheck hsurplus rfl, hname, hdescription, htype, hdefault⟩
  · rintro ⟨source, hs, hfits, hname, hdescription, htype, hdefault⟩
    refine ⟨_, ⟨source, hs, rfl⟩, (), check_of_fits hfits rfl ?_, _, hname, _, hdescription, _, htype, _, hdefault, (),
      checkSurplus_of_fits hfits, rfl⟩
    simp only [List.forall_mem_cons]
    exact ⟨fault?_of_reads hname, fault?_of_readsOptional hdescription, fault?_of_reads htype,
      fault?_of_readsOptional hdefault, List.forall_mem_nil _⟩

def Field.fields : List String := ["name", "description", "args", "type", "isDeprecated", "deprecationReason"]

theorem Field.decode_eq_ok {h : Holding} {j : Json} {f : Field} : Field.decode h j = .ok f ↔
    ∃ source, j.source? = some source ∧ source.Fits fields ∧ source.Reads fields "name" decodeString f.name ∧
      source.ReadsOptional fields "description" (decodeNullable decodeString) f.description ∧
      source.Reads fields "args" (decodeList (InputValue.decode h)) f.args ∧
      source.Reads fields "type" (TypeRef.decode h) f.type ∧
      source.Reads fields "isDeprecated" decodeBool f.isDeprecated ∧
      source.ReadsOptional fields "deprecationReason" (decodeNullable decodeString) f.deprecationReason := by
  simp only [Field.decode, bind_eq_ok, record_eq_ok, required_slot, optional_slot, pure_eq_ok, Except.ok.injEq]
  constructor
  · rintro ⟨_, ⟨source, hs, rfl⟩, _, hcheck, _, hname, _, hdescription, _, hargs, _, htype, _, hdeprecated, _, hreason,
      _, hsurplus, rfl⟩
    exact ⟨source, hs, fits_of_check hcheck hsurplus rfl, hname, hdescription, hargs, htype, hdeprecated, hreason⟩
  · rintro ⟨source, hs, hfits, hname, hdescription, hargs, htype, hdeprecated, hreason⟩
    refine ⟨_, ⟨source, hs, rfl⟩, (), check_of_fits hfits rfl ?_, _, hname, _, hdescription, _, hargs, _, htype, _,
      hdeprecated, _, hreason, (), checkSurplus_of_fits hfits, rfl⟩
    simp only [List.forall_mem_cons]
    exact ⟨fault?_of_reads hname, fault?_of_readsOptional hdescription, fault?_of_reads hargs, fault?_of_reads htype,
      fault?_of_reads hdeprecated, fault?_of_readsOptional hreason, List.forall_mem_nil _⟩

def EnumValue.fields : List String := ["name", "description", "isDeprecated", "deprecationReason"]

theorem EnumValue.decode_eq_ok {h : Holding} {j : Json} {v : EnumValue} : EnumValue.decode h j = .ok v ↔
    ∃ source, j.source? = some source ∧ source.Fits fields ∧ source.Reads fields "name" decodeString v.name ∧
      source.ReadsOptional fields "description" (decodeNullable decodeString) v.description ∧
      source.Reads fields "isDeprecated" decodeBool v.isDeprecated ∧
      source.ReadsOptional fields "deprecationReason" (decodeNullable decodeString) v.deprecationReason := by
  simp only [EnumValue.decode, bind_eq_ok, record_eq_ok, required_slot, optional_slot, pure_eq_ok, Except.ok.injEq]
  constructor
  · rintro ⟨_, ⟨source, hs, rfl⟩, _, hcheck, _, hname, _, hdescription, _, hdeprecated, _, hreason, _, hsurplus, rfl⟩
    exact ⟨source, hs, fits_of_check hcheck hsurplus rfl, hname, hdescription, hdeprecated, hreason⟩
  · rintro ⟨source, hs, hfits, hname, hdescription, hdeprecated, hreason⟩
    refine ⟨_, ⟨source, hs, rfl⟩, (), check_of_fits hfits rfl ?_, _, hname, _, hdescription, _, hdeprecated, _, hreason,
      (), checkSurplus_of_fits hfits, rfl⟩
    simp only [List.forall_mem_cons]
    exact ⟨fault?_of_reads hname, fault?_of_readsOptional hdescription, fault?_of_reads hdeprecated,
      fault?_of_readsOptional hreason, List.forall_mem_nil _⟩

def DirectiveInfo.fields : List String := ["name", "description", "locations", "args"]

theorem DirectiveInfo.decode_eq_ok {h : Holding} {j : Json} {d : DirectiveInfo} : DirectiveInfo.decode h j = .ok d ↔
    ∃ source, j.source? = some source ∧ source.Fits fields ∧ source.Reads fields "name" decodeString d.name ∧
      source.ReadsOptional fields "description" (decodeNullable decodeString) d.description ∧
      source.Reads fields "locations" (decodeList decodeString) d.locations ∧
      source.Reads fields "args" (decodeList (InputValue.decode h)) d.args := by
  simp only [DirectiveInfo.decode, bind_eq_ok, record_eq_ok, required_slot, optional_slot, pure_eq_ok, Except.ok.injEq]
  constructor
  · rintro ⟨_, ⟨source, hs, rfl⟩, _, hcheck, _, hname, _, hdescription, _, hlocations, _, hargs, _, hsurplus, rfl⟩
    exact ⟨source, hs, fits_of_check hcheck hsurplus rfl, hname, hdescription, hlocations, hargs⟩
  · rintro ⟨source, hs, hfits, hname, hdescription, hlocations, hargs⟩
    refine ⟨_, ⟨source, hs, rfl⟩, (), check_of_fits hfits rfl ?_, _, hname, _, hdescription, _, hlocations, _, hargs, (),
      checkSurplus_of_fits hfits, rfl⟩
    simp only [List.forall_mem_cons]
    exact ⟨fault?_of_reads hname, fault?_of_readsOptional hdescription, fault?_of_reads hlocations, fault?_of_reads hargs,
      List.forall_mem_nil _⟩

/-! ## Types -/

/-- The kind of a listed type as it is given, and what is left without it. -/
def untagged? : Json → Option (Json × Json)
  | .object members =>
    match members.filter (·.1 == "kind") with
    | [(_, tag)] => some (tag, .object (members.filter (·.1 != "kind")))
    | _ => none
  | .array (tag :: items) => some (tag, .array items)
  | _ => none

theorem splitTag_eq_ok {h : Holding} {j content : Json} {kind : RefKind} : splitTag h j = .ok (kind, content) ↔
    ∃ tag, untagged? j = some (tag, content) ∧ decodeTag h tag = .ok kind := by
  cases j with
  | object members =>
    rw [splitTag, untagged?]
    generalize members.filter (·.1 == "kind") = tags
    rcases tags with _ | ⟨⟨_, tag⟩, _ | ⟨other, others⟩⟩
    · simp
    · simp [bind_eq_ok, and_comm]
    · simp only [bind_eq_ok, List.isEmpty_cons, reduceCtorEq, false_and, exists_false, iff_false]
      rintro ⟨_, -, h⟩
      exact nomatch h
  | array items =>
    cases items with
    | nil => simp [splitTag, untagged?]
    | cons tag items => simp [splitTag, untagged?, bind_eq_ok, and_comm]
  | _ => simp [splitTag, untagged?]

/-- The name of the record that holds the content of a listed type of a kind. -/
def contentName : RefKind → String
  | .object => "IntrospectionObjectType"
  | .interface => "IntrospectionInterfaceType"
  | .union => "IntrospectionUnionType"
  | .enum => "IntrospectionEnumType"
  | .inputObject => "IntrospectionInputObjectType"
  | .scalar | .list | .nonNull => "IntrospectionScalarType"

/-- The fields that a listed type of a kind has beside its name and description. -/
def contentFields : RefKind → List String
  | .object => ["fields", "interfaces"]
  | .interface => ["fields", "interfaces", "possibleTypes"]
  | .union => ["possibleTypes"]
  | .enum => ["enumValues"]
  | .inputObject => ["inputFields"]
  | .scalar | .list | .nonNull => []

/-- All fields of a listed type of a kind. -/
def typeFields (kind : RefKind) : List String := "name" :: "description" :: contentFields kind

/-- The faults of the fields that a listed type of a kind has beside its name and description. -/
def contentFaults (r : Record) : RefKind → List (String × Option DecodeError)
  | .object => [(r.slot "fields" (decodeList (Field.decode .content))).fault?,
      (r.slot "interfaces" (decodeList (decodeNamed .content))).fault?]
  | .interface => [(r.slot "fields" (decodeList (Field.decode .content))).fault?,
      (r.slot "interfaces" (decodeNullable (decodeList (decodeNamed .content)))).fault?,
      (r.slot "possibleTypes" (decodeNullable (decodeList (decodeNamed .content)))).fault?]
  | .union => [(r.slot "possibleTypes" (decodeList (decodeNamed .content))).fault?]
  | .enum => [(r.slot "enumValues" (decodeList (EnumValue.decode .content))).fault?]
  | .inputObject => [(r.slot "inputFields" (decodeList (InputValue.decode .content))).fault?]
  | .scalar | .list | .nonNull => []

/-- What a listed type of a kind has beside its name and description. -/
def decodeFields (r : Record) : RefKind → Decoded TypeContent
  | .object => do
    let fields ← r.required (r.slot "fields" (decodeList (Field.decode .content)))
    let interfaces ← r.required (r.slot "interfaces" (decodeList (decodeNamed .content)))
    return .object fields interfaces
  | .interface => do
    let fields ← r.required (r.slot "fields" (decodeList (Field.decode .content)))
    let interfaces ← Record.defaulted (r.slot "interfaces" (decodeNullable (decodeList (decodeNamed .content))))
    let possibleTypes ← r.optional (r.slot "possibleTypes" (decodeNullable (decodeList (decodeNamed .content))))
    return .interface fields interfaces possibleTypes
  | .union => do return .union (← r.required (r.slot "possibleTypes" (decodeList (decodeNamed .content))))
  | .enum => do return .enum (← r.required (r.slot "enumValues" (decodeList (EnumValue.decode .content))))
  | .inputObject => do
    return .inputObject (← r.required (r.slot "inputFields" (decodeList (InputValue.decode .content))))
  | .scalar | .list | .nonNull => return .scalar

/-- A listed type of any kind is read in the same steps. -/
theorem TypeInfo.decodeContent_eq (kind : RefKind) (j : Json) : decodeContent kind j = (do
    let (r, name, description) ← contentRecord (contentName kind) (contentFields kind) j
    r.check (name.fault? :: description.fault? :: contentFaults r kind)
    let name ← r.required name
    let description ← r.optional description
    let content ← decodeFields r kind
    r.checkSurplus
    return { name, description, content }) := by
  cases kind <;> simp only [decodeContent, contentName, contentFields, contentFaults, decodeFields, bind_assoc, pure_bind]

/-- What a type has beside its name and description is read as the fields of its kind. -/
def TypeContent.ReadFrom (source : RecordSource) : RefKind → TypeContent → Prop
  | .object, .object fields interfaces =>
    source.Reads (typeFields .object) "fields" (decodeList (Field.decode .content)) fields ∧
      source.Reads (typeFields .object) "interfaces" (decodeList (decodeNamed .content)) interfaces
  | .interface, .interface fields interfaces possibleTypes =>
    source.Reads (typeFields .interface) "fields" (decodeList (Field.decode .content)) fields ∧
      source.ReadsDefaulted (typeFields .interface) "interfaces"
        (decodeNullable (decodeList (decodeNamed .content))) interfaces ∧
      source.ReadsOptional (typeFields .interface) "possibleTypes"
        (decodeNullable (decodeList (decodeNamed .content))) possibleTypes
  | .union, .union possibleTypes =>
    source.Reads (typeFields .union) "possibleTypes" (decodeList (decodeNamed .content)) possibleTypes
  | .enum, .enum values => source.Reads (typeFields .enum) "enumValues" (decodeList (EnumValue.decode .content)) values
  | .inputObject, .inputObject fields =>
    source.Reads (typeFields .inputObject) "inputFields" (decodeList (InputValue.decode .content)) fields
  | .scalar, .scalar | .list, .scalar | .nonNull, .scalar => True
  | _, _ => False

section

variable {r : Record} {kind : RefKind} (hr : r.fields = typeFields kind) {content : TypeContent}

include hr

theorem decodeFields_eq_ok : decodeFields r kind = .ok content ↔ content.ReadFrom r.source kind := by
  cases kind <;> cases content <;>
    simp [decodeFields, TypeContent.ReadFrom, bind_eq_ok, required_slot, optional_slot, defaulted_slot, hr]

theorem contentFaults_eq_none (h : content.ReadFrom r.source kind) : ∀ p ∈ contentFaults r kind, p.2 = none := by
  cases kind <;> cases content <;> simp only [TypeContent.ReadFrom, ← hr] at h <;>
    simp only [contentFaults, List.forall_mem_cons]
  case object.object =>
    exact ⟨fault?_of_reads h.1, fault?_of_reads h.2, List.forall_mem_nil _⟩
  case interface.interface =>
    exact ⟨fault?_of_reads h.1, fault?_of_readsDefaulted h.2.1, fault?_of_readsOptional h.2.2, List.forall_mem_nil _⟩
  case scalar.scalar | list.scalar | nonNull.scalar => exact List.forall_mem_nil _
  all_goals exact ⟨fault?_of_reads h, List.forall_mem_nil _⟩

end

theorem TypeInfo.decodeContent_eq_ok {kind : RefKind} {j : Json} {t : TypeInfo} : decodeContent kind j = .ok t ↔
    ∃ source, j.source? = some source ∧ source.Fits (typeFields kind) ∧
      source.Reads (typeFields kind) "name" decodeString t.name ∧
      source.ReadsOptional (typeFields kind) "description" (decodeNullable decodeString) t.description ∧
      t.content.ReadFrom source kind := by
  have hfields (r : Record) : (contentFaults r kind).map (·.1) = contentFields kind := by cases kind <;> rfl
  simp only [decodeContent_eq, contentRecord, bind_assoc, pure_bind]
  simp only [bind_eq_ok, record_eq_ok, required_slot, optional_slot, pure_eq_ok, Except.ok.injEq]
  constructor
  · rintro ⟨_, ⟨source, hs, rfl⟩, _, hcheck, _, hname, _, hdescription, _, hcontent, _, hsurplus, rfl⟩
    refine ⟨source, hs, fits_of_check hcheck hsurplus ?_, hname, hdescription, (decodeFields_eq_ok rfl).mp hcontent⟩
    exact congrArg ("name" :: "description" :: ·) (hfields _)
  · rintro ⟨source, hs, hfits, hname, hdescription, hcontent⟩
    refine ⟨_, ⟨source, hs, rfl⟩, (), check_of_fits hfits ?_ ?_, _, hname, _, hdescription, _,
      (decodeFields_eq_ok rfl).mpr hcontent, (), checkSurplus_of_fits hfits, rfl⟩
    · exact congrArg ("name" :: "description" :: ·) (hfields _)
    · simp only [List.forall_mem_cons]
      exact ⟨fault?_of_reads hname, fault?_of_readsOptional hdescription, contentFaults_eq_none rfl hcontent⟩

/-- A listed type is split into its kind and the rest, and the rest is read as the fields of the kind. -/
theorem TypeInfo.decode_eq_ok {h : Holding} {j : Json} {t : TypeInfo} : TypeInfo.decode h j = .ok t ↔
    ∃ kind tag content, untagged? j = some (tag, content) ∧ decodeTag h tag = .ok kind ∧
      decodeContent kind content = .ok t := by
  simp only [TypeInfo.decode, bind_eq_ok]
  constructor
  · rintro ⟨⟨kind, content⟩, hsplit, hcontent⟩
    obtain ⟨tag, htag, hkind⟩ := splitTag_eq_ok.mp hsplit
    exact ⟨kind, tag, content, htag, hkind, hcontent⟩
  · rintro ⟨kind, tag, content, htag, hkind, hcontent⟩
    exact ⟨(kind, content), splitTag_eq_ok.mpr ⟨tag, htag, hkind⟩, hcontent⟩

/-! ## Schemas -/

def SchemaInfo.fields : List String := ["queryType", "mutationType", "subscriptionType", "types", "directives"]

theorem SchemaInfo.decode_eq_ok {h : Holding} {j : Json} {d : SchemaInfo} : SchemaInfo.decode h j = .ok d ↔
    ∃ source, j.source? = some source ∧ source.Fits fields ∧
      source.ReadsOptional fields "queryType" (decodeNullable (decodeNamed h)) d.queryType ∧
      source.ReadsOptional fields "mutationType" (decodeNullable (decodeNamed h)) d.mutationType ∧
      source.ReadsOptional fields "subscriptionType" (decodeNullable (decodeNamed h)) d.subscriptionType ∧
      source.Reads fields "types" (decodeList (TypeInfo.decode h)) d.types ∧
      source.Reads fields "directives" (decodeList (DirectiveInfo.decode h)) d.directives := by
  simp only [SchemaInfo.decode, bind_eq_ok, record_eq_ok, required_slot, optional_slot, pure_eq_ok, Except.ok.injEq]
  constructor
  · rintro ⟨_, ⟨source, hs, rfl⟩, _, hcheck, _, hquery, _, hmutation, _, hsubscription, _, htypes, _, hdirectives, _,
      hsurplus, rfl⟩
    exact ⟨source, hs, fits_of_check hcheck hsurplus rfl, hquery, hmutation, hsubscription, htypes, hdirectives⟩
  · rintro ⟨source, hs, hfits, hquery, hmutation, hsubscription, htypes, hdirectives⟩
    refine ⟨_, ⟨source, hs, rfl⟩, (), check_of_fits hfits rfl ?_, _, hquery, _, hmutation, _, hsubscription, _, htypes, _,
      hdirectives, (), checkSurplus_of_fits hfits, rfl⟩
    simp only [List.forall_mem_cons]
    exact ⟨fault?_of_readsOptional hquery, fault?_of_readsOptional hmutation, fault?_of_readsOptional hsubscription,
      fault?_of_reads htypes, fault?_of_reads hdirectives, List.forall_mem_nil _⟩

def SchemaInfo.dataFields : List String := ["__schema"]

theorem SchemaInfo.decodeData_eq_ok {h : Holding} {j : Json} {d : SchemaInfo} : decodeData h j = .ok d ↔
    ∃ source, j.source? = some source ∧ source.Fits dataFields ∧
      source.Reads dataFields "__schema" (SchemaInfo.decode h) d := by
  simp only [decodeData, bind_eq_ok, record_eq_ok, required_slot, pure_eq_ok, Except.ok.injEq]
  constructor
  · rintro ⟨_, ⟨source, hs, rfl⟩, _, hcheck, _, hschema, _, hsurplus, rfl⟩
    exact ⟨source, hs, fits_of_check hcheck hsurplus rfl, hschema⟩
  · rintro ⟨source, hs, hfits, hschema⟩
    refine ⟨_, ⟨source, hs, rfl⟩, (), check_of_fits hfits rfl ?_, _, hschema, (), checkSurplus_of_fits hfits, rfl⟩
    simp only [List.forall_mem_cons]
    exact ⟨fault?_of_reads hschema, List.forall_mem_nil _⟩

def SchemaInfo.envelopeFields : List String := ["data"]

theorem SchemaInfo.decodeEnvelope_eq_ok {h : Holding} {j : Json} {d : SchemaInfo} : decodeEnvelope h j = .ok d ↔
    ∃ source, j.source? = some source ∧ source.Fits envelopeFields ∧
      source.Reads envelopeFields "data" (SchemaInfo.decodeData h) d := by
  simp only [decodeEnvelope, bind_eq_ok, record_eq_ok, required_slot, pure_eq_ok, Except.ok.injEq]
  constructor
  · rintro ⟨_, ⟨source, hs, rfl⟩, _, hcheck, _, hdata, _, hsurplus, rfl⟩
    exact ⟨source, hs, fits_of_check hcheck hsurplus rfl, hdata⟩
  · rintro ⟨source, hs, hfits, hdata⟩
    refine ⟨_, ⟨source, hs, rfl⟩, (), check_of_fits hfits rfl ?_, _, hdata, (), checkSurplus_of_fits hfits, rfl⟩
    simp only [List.forall_mem_cons]
    exact ⟨fault?_of_reads hdata, List.forall_mem_nil _⟩

/-- A text is read as a stored result if it holds an envelope or its data alone, and nothing but blanks behind it. -/
theorem SchemaInfo.ofText_eq_ok {text : String} {d : SchemaInfo} : SchemaInfo.ofText text = .ok d ↔
    ∃ j, Json.parse text = .ok j ∧ SchemaInfo.ofStored j = some d := by
  rw [ofText, Json.parse, parseChars]
  cases Json.read text.toList with
  | error e => simp [bind, Except.bind]
  | ok found =>
    obtain ⟨j, rest⟩ := found
    simp only [bind_ok]
    cases hs : ofStored j with
    | none => cases checkEnd rest <;> simp [bind, Except.bind, hs]
    | some info => cases checkEnd rest <;> simp [bind, Except.bind, hs]

/-- A text that parses is read as what its value stores. -/
theorem SchemaInfo.ofText_of_parse {text : String} {j : Json} (hparse : Json.parse text = .ok j) {d : SchemaInfo} :
    SchemaInfo.ofText text = .ok d ↔ SchemaInfo.ofStored j = some d := by
  rw [ofText_eq_ok]
  constructor
  · rintro ⟨j', hj', h⟩
    cases hparse.symm.trans hj'
    exact h
  · exact fun h => ⟨j, hparse, h⟩

/-- A result with its envelope is tried with it first. -/
theorem SchemaInfo.ofStored_of_envelope {j : Json} {d : SchemaInfo} (h : decodeEnvelope .aside j = .ok d) :
    ofStored j = some d := by
  rw [ofStored, h]

end SchemaWeave.Introspection

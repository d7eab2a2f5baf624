import SchemaWeave.Proofs.Introspection.Decode
import SchemaWeave.Proofs.Introspection.Reads
import SchemaWeave.Proofs.Schema.Answer
import SchemaWeave.Proofs.Schema.Info

/-!
# Reading an artifact

Each selection of the introspection query gives an object that is read as what the schema has to say there
(`decode_reference`, `decode_input`, …), and so the artifact of a resolved schema is read as its info
(`ofText_artifact`).
-/

namespace SchemaWeave.Schema

open Graphql Introspection
open Json (decodeList decodeNullable)

theorem optionalText_eq : ∀ o : Option String, optionalText o = .value (encodeOption o)
  | none => rfl
  | some _ => rfl

theorem deprecationReason_eq (ds : List Directive) : deprecationReason ds = .value (encodeOption (reason? ds)) := by
  rw [deprecationReason, reason?]
  cases deprecation? ds with
  | none => rfl
  | some d =>
    dsimp only
    cases d.argument? "reason" with
    | none => rfl
    | some v => cases v <;> rfl

section

variable (s : Schema)

/-! ## References -/

/-- What the fields of a reference give. -/
theorem resolveType_eq : ∀ {e : TypeExpr}, s.hasType e.core = true → ∀ b : Bool,
    s.resolveType e "kind" b = .value (.string (s.outerKind e).name) ∧
      s.resolveType e "name" b = .value (encodeOption (outerName? e)) ∧
      s.resolveType e "ofType" b = match inside? e with
        | none => .value .null
        | some inner => .node (.type inner)
  | .named name true, _, b => ⟨rfl, rfl, rfl⟩
  | .list item true, _, b => ⟨rfl, rfl, rfl⟩
  | .list item false, _, b => ⟨rfl, rfl, rfl⟩
  | .named name false, h, b => by
    obtain ⟨t, ht⟩ := Option.isSome_iff_exists.mp h
    rw [TypeExpr.core] at ht
    simp [resolveType, ht, resolveNamed, outerKind, outerName?, inside?, encodeOption, name_of_type? ht]

theorem core_of_inside? : ∀ {e inner : TypeExpr}, inside? e = some inner → inner.core = e.core
  | .named _ true, _, h => by cases h; rfl
  | .list _ true, _, h => by cases h; rfl
  | .list _ false, _, h => by cases h; rfl

theorem decode_reference (h : Holding) (levels : Nat) {e : TypeExpr} (he : s.hasType e.core = true) :
    TypeRef.decode h (.object (s.answer (.type e) (typeRefSelections levels))) = .ok (s.refInfo levels e) := by
  induction levels generalizing e with
  | zero =>
    obtain ⟨hkind, hname, -⟩ := s.resolveType_eq he false
    simp only [typeRefSelections, answer, answerOne, resolve, hkind, hname, List.append_nil, List.singleton_append,
      refInfo]
    exact TypeRef.decode_bare h _ _
  | succ levels ih =>
    obtain ⟨hkind, hname, hinside⟩ := s.resolveType_eq he false
    simp only [typeRefSelections, answer, answerOne, resolve, hkind, hname, hinside, List.append_nil,
      List.singleton_append, refInfo]
    cases hi : inside? e with
    | none => exact TypeRef.decode_null h _ _
    | some inner =>
      have hinner := ih (e := inner) (by rw [core_of_inside? hi]; exact he)
      exact TypeRef.decode_wrap h _ _ hinner

/-- A name is read from a reference to its type. -/
theorem decode_named (h : Holding) {name : Name} (hn : s.hasType name = true) :
    decodeNamed h (.object (s.answer (namedNode name) typeRefFragment.selections)) = .ok name := by
  obtain ⟨hkind, hname, hinside⟩ := s.resolveType_eq (e := .named name false) hn false
  simp only [typeRefFragment, wrapperLevels, typeRefSelections, answer, answerOne, namedNode, resolve, hkind, hname,
    hinside, List.append_nil, List.singleton_append, inside?, outerName?, encodeOption]
  exact decodeNamed_object h

/-! ## Members of types -/

theorem decode_input (h : Holding) {d : InputDef} (hd : s.hasType d.type.core = true) :
    InputValue.decode h (.object (s.answer (.input d) inputValueFragment.selections)) = .ok (s.inputInfo d) := by
  have htype := s.decode_reference h wrapperLevels hd
  simp only [inputValueFragment, typeRefField, answer, answerOne, resolve, optionalText_eq, List.append_nil,
    List.cons_append]
  exact InputValue.decode_object h htype

/-- Arguments and input fields are read, those left out that are deprecated. -/
theorem decode_inputs (h : Holding) (ds : List InputDef) (hd : ∀ d ∈ ds, s.hasType d.type.core = true) :
    decodeList (InputValue.decode h) (.array (((shown false InputDef.directives ds).map .input).map fun inner =>
      .object (s.answer inner inputValueFragment.selections))) = .ok (s.inputInfos ds) := by
  rw [List.map_map]
  exact decodeList_map fun d hm => s.decode_input h (hd d (List.mem_filter.mp hm).1)

/-- The selections of the query for the fields of a type. -/
def fieldSelections : List Selection :=
  [.leaf "name", .leaf "description", .node "args" false false [inputValueFragment.spread], typeRefField "type",
    .leaf "isDeprecated", .leaf "deprecationReason"]

/-- The selections of the query for the values of an enum type. -/
def valueSelections : List Selection :=
  [.leaf "name", .leaf "description", .leaf "isDeprecated", .leaf "deprecationReason"]

/-- The selections of the query for directives. -/
def directiveSelections : List Selection :=
  [.leaf "name", .leaf "description", .leaf "locations", .node "args" false false [inputValueFragment.spread]]

theorem fullTypeFragment_selections : fullTypeFragment.selections =
    [.leaf "kind", .leaf "name", .leaf "description", .node "fields" true false fieldSelections,
      .node "inputFields" false false [inputValueFragment.spread], typeRefField "interfaces",
      .node "enumValues" true false valueSelections, typeRefField "possibleTypes"] := rfl

theorem decode_field (h : Holding) {f : FieldDef} (hf : ∀ name ∈ fieldReferences f, s.hasType name = true) :
    Field.decode h (.object (s.answer (.field f) fieldSelections)) = .ok (s.fieldInfo f) := by
  have htype := s.decode_reference h wrapperLevels (hf f.type.core List.mem_cons_self)
  have hargs := s.decode_inputs h f.arguments fun d hd =>
    hf d.type.core (List.mem_cons_of_mem _ (List.mem_map_of_mem hd))
  simp only [fieldSelections, typeRefField, answer, answerOne, resolve, optionalText_eq, deprecationReason_eq,
    List.append_nil, List.cons_append]
  exact Field.decode_object h hargs htype

theorem decode_value (h : Holding) (v : EnumValueDef) :
    EnumValue.decode h (.object (s.answer (.enumValue v) valueSelections)) = .ok (valueInfo v) := by
  simp only [valueSelections, answer, answerOne, resolve, optionalText_eq, deprecationReason_eq, List.append_nil,
    List.cons_append]
  exact EnumValue.decode_object h

theorem decode_directive (h : Holding) {d : DirectiveDef} (hd : ∀ a ∈ d.arguments, s.hasType a.type.core = true) :
    DirectiveInfo.decode h (.object (s.answer (.directive d) directiveSelections)) = .ok (s.directiveInfo d) := by
  have hargs := s.decode_inputs h d.arguments hd
  simp only [directiveSelections, answer, answerOne, resolve, optionalText_eq, List.append_nil, List.cons_append]
  have hlocations : (d.locations.map fun l => Json.string l.name) =
      (d.locations.map DirectiveLocation.name).map .string := by
    rw [List.map_map]
    rfl
  rw [hlocations]
  exact DirectiveInfo.decode_object h hargs

theorem decode_names (h : Holding) (names : List Name) (hn : ∀ name ∈ names, s.hasType name = true) :
    decodeList (decodeNamed h) (.array ((names.map namedNode).map fun inner =>
      .object (s.answer inner typeRefFragment.selections))) = .ok names := by
  rw [List.map_map]
  conv_rhs => rw [← List.map_id names]
  exact decodeList_map fun name hm => s.decode_named h (hn name hm)

end

/-! ## Types -/

section

variable {s : Schema} (hs : s.Resolved)

include hs

/-- What a type refers to is resolved. -/
theorem Resolved.references {t : TypeDef} (ht : t ∈ s.types) {name : Name} (hn : name ∈ references t) :
    s.hasType name = true :=
  hs.used name (List.mem_append_left _ (List.mem_flatMap.mpr ⟨t, ht, hn⟩))

theorem decode_fields {t : TypeDef} (ht : t ∈ s.types) :
    decodeList (Field.decode .content) (.array (((shown true FieldDef.directives t.body.fields).map .field).map
      fun inner => .object (s.answer inner fieldSelections))) = .ok (t.body.fields.map s.fieldInfo) := by
  rw [List.map_map]
  refine decodeList_map fun f hf => s.decode_field .content fun name hn => hs.references ht ?_
  rw [references_eq]
  exact List.mem_append_left _ (List.mem_flatMap.mpr ⟨f, hf, hn⟩)

theorem decode_type {t : TypeDef} (ht : t ∈ s.types) :
    TypeInfo.decode .aside (.object (s.answer (namedNode t.name) fullTypeFragment.selections)) =
      .ok (s.typeInfo t) := by
  have hfound := type?_name hs.nodup ht
  have hfields := decode_fields hs ht
  have hinterfaces := s.decode_names .content t.interfaces (hs.interfaces t ht)
  have hmembers := s.decode_names .content t.body.members (hs.members t ht)
  have himplementers := s.decode_names .content (s.implementers t.name) fun name hn => by
    obtain ⟨u, hu, rfl⟩ := List.mem_map.mp hn
    exact hasType_iff.mpr (List.mem_map_of_mem (List.mem_filter.mp hu).1)
  have hinputs : ∀ d ∈ t.body.inputs, s.hasType d.type.core = true := by
    intro d hd
    apply hs.references ht
    rw [references_eq]
    exact List.mem_append_right _ (List.mem_map_of_mem hd)
  rw [fullTypeFragment_selections]
  simp only [typeRefField, answer, answerOne, resolve, namedNode, resolveType, hfound, resolveNamed, optionalText_eq,
    List.append_nil, List.cons_append, typeInfo, TypeDef.kind]
  cases hb : t.body with
  | scalar => exact TypeInfo.decode_object .aside .scalar True.intro
  | object interfaces fields =>
    rw [TypeDef.interfaces, hb] at hinterfaces
    rw [hb] at hfields
    exact TypeInfo.decode_object .aside (.object _ _) ⟨hfields, hinterfaces⟩
  | interface interfaces fields =>
    rw [TypeDef.interfaces, hb] at hinterfaces
    rw [hb] at hfields
    refine TypeInfo.decode_object .aside (.interface _ _ _) ⟨hfields, ?_, ?_⟩
    · exact congrArg (Except.map some) hinterfaces
    · exact congrArg (Except.map some) himplementers
  | union members =>
    rw [hb] at hmembers
    exact TypeInfo.decode_object .aside (.union _) hmembers
  | enum values =>
    refine TypeInfo.decode_object .aside (.enum _) ?_
    rw [List.map_map]
    exact decodeList_map fun v _ => decode_value s .content v
  | inputObject fields =>
    rw [hb] at hinputs
    exact TypeInfo.decode_object .aside (.inputObject _) (s.decode_inputs .content fields hinputs)

/-! ## Schemas -/

/-- The selections of the query for the schema. -/
def schemaSelections : List Selection :=
  [.node "queryType" false true [.leaf "name"], .node "mutationType" false true [.leaf "name"],
    .node "subscriptionType" false true [.leaf "name"], .node "types" false false [fullTypeFragment.spread],
    .node "directives" false false directiveSelections]

omit hs in
theorem run_introspectionQuery :
    s.run introspectionQuery = .object [("__schema", .object (s.answer .schema schemaSelections))] := rfl

/-- A root type is read by its name. -/
theorem decode_root (field : Name) {kind : OperationKind} (hf : s.resolve .schema field false = s.resolveRoot kind) :
    ∃ j, s.answerOne .schema (.node field false true [.leaf "name"]) = [(field, j)] ∧
      decodeNullable (decodeNamed .aside) j = .ok (s.root? kind) := by
  rw [answerOne, hf, resolveRoot]
  cases hr : s.root? kind with
  | none => exact ⟨.null, rfl, rfl⟩
  | some name =>
    obtain ⟨before, after, he, -⟩ := List.lookup_eq_some_iff.mp hr
    have hname : s.hasType name = true := hs.roots (kind, name) (by rw [he]; simp)
    have hanswer : s.answer (namedNode name) [.leaf "name"] = [("name", .string name)] := by
      have := (s.resolveType_eq (e := .named name false) hname false).2.1
      simp [answer, answerOne, resolve, namedNode, this, outerName?, encodeOption]
    refine ⟨_, rfl, ?_⟩
    rw [hanswer]
    exact congrArg (Except.map some) (decodeNamed_name .aside)

theorem decode_types : ∃ j, s.answerOne .schema (.node "types" false false [fullTypeFragment.spread]) = [("types", j)] ∧
    decodeList (TypeInfo.decode .aside) j = .ok (s.types.map s.typeInfo) := by
  refine ⟨_, rfl, ?_⟩
  rw [List.map_map]
  refine decodeList_map fun t ht => ?_
  rw [← decode_type hs ht, Function.comp_apply, answer, answer, List.append_nil]
  rfl

theorem decode_directives : ∃ j, s.answerOne .schema (.node "directives" false false directiveSelections) =
    [("directives", j)] ∧ decodeList (DirectiveInfo.decode .aside) j = .ok (s.directives.map s.directiveInfo) := by
  refine ⟨_, rfl, ?_⟩
  rw [List.map_map]
  exact decodeList_map fun d hd => s.decode_directive .aside fun a ha =>
    hs.used a.type.core (List.mem_append_right _ (List.mem_flatMap.mpr ⟨d, hd, List.mem_map_of_mem ha⟩))

/-- The answer to the introspection query is read as the info of the schema. -/
theorem ofStored_run : SchemaInfo.ofStored (s.run introspectionQuery) = some s.info := by
  obtain ⟨jquery, hquery, hreadQuery⟩ := decode_root hs "queryType" rfl
  obtain ⟨jmutation, hmutation, hreadMutation⟩ := decode_root hs "mutationType" rfl
  obtain ⟨jsubscription, hsubscription, hreadSubscription⟩ := decode_root hs "subscriptionType" rfl
  obtain ⟨jtypes, htypes, hreadTypes⟩ := decode_types hs
  obtain ⟨jdirectives, hdirectives, hreadDirectives⟩ := decode_directives hs
  rw [run_introspectionQuery]
  simp only [schemaSelections, answer, hquery, hmutation, hsubscription, htypes, hdirectives, List.append_nil,
    List.cons_append]
  exact SchemaInfo.ofStored_object s.info hreadQuery hreadMutation hreadSubscription hreadTypes hreadDirectives

omit hs in
/-- A value that is a stored result is read from its text. -/
theorem ofText_pretty {j : Json} (hn : j.isNumberless = true) (hd : j.nesting < Json.nestingLimit) {d : SchemaInfo}
    (h : SchemaInfo.ofStored j = some d) : SchemaInfo.ofText j.pretty = .ok d :=
  (SchemaInfo.ofText_of_parse (Json.parse_pretty hn hd)).mpr h

/-- **The artifact of a schema is read as its info.** -/
theorem ofText_artifact : SchemaInfo.ofText s.artifact = .ok s.info := by
  obtain ⟨hn, hd⟩ := bounded_answer s schemaSelections .schema
  have hdepth : depth schemaSelections + 2 < Json.nestingLimit := by decide +kernel
  have hnumberless : (s.run introspectionQuery).isNumberless = true := by
    simpa [run_introspectionQuery, Json.isNumberless, Json.isNumberlessMembers] using hn
  have hnesting : (s.run introspectionQuery).nesting < Json.nestingLimit := by
    simp only [run_introspectionQuery, Json.nesting, Json.nestingMembers]
    omega
  exact ofText_pretty hnumberless hnesting (ofStored_run hs)

end

end SchemaWeave.Schema

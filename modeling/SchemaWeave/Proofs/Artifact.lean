import Mathlib.Data.List.Nodup
import SchemaWeave.Proofs.Merge
import SchemaWeave.Proofs.Schema.Artifact
import SchemaWeave.Proofs.Schema.Assembly
import SchemaWeave.Proofs.Schema.Resolved
import SchemaWeave.Schema.Build

/-!
# From fragments to the artifact

The artifact of fragments that merge and build lists the types of the schema, and among them the types that the
fragments define, each with what its last definition says and with what all extensions of it add
(`artifact_lists`).
-/

namespace SchemaWeave

open Graphql Introspection

namespace Merge

/-! ## The types that definitions define -/

/-- The names of the types that are defined, in the order in which they come first. What every schema has is left
out. -/
def typeNames (defs : List Definition) : List Name :=
  (((Schema.typeDefs defs).map (·.name)).filter fun name => !(DefinitionKey.type name).isBuiltin).eraseDups

/-- The last definition of a type. -/
def lastType? (defs : List Definition) (name : Name) : Option TypeDef :=
  (Schema.typeDefs defs).reverse.find? (·.name == name)

/-- For each type that is defined its last definition, in the order in which the types are defined first. -/
def definedTypes (defs : List Definition) : List TypeDef := (typeNames defs).filterMap (lastType? defs)

/-- The name of a type whose key it is. -/
def typeName? : DefinitionKey → Option Name
  | .type name => some name
  | _ => none

/-- The type that a definition defines. -/
def asType? : Definition → Option TypeDef
  | .type t => some t
  | _ => none

theorem typeDefs_eq (defs : List Definition) : Schema.typeDefs defs = defs.filterMap asType? := rfl

theorem typeNames_eq (defs : List Definition) : typeNames defs = (keptKeys defs).filterMap typeName? := by
  have hinj : ∀ a b c, typeName? a = some c → typeName? b = some c → a = b := by
    intro a b c ha hb
    cases a <;> cases b <;> simp_all [typeName?]
  rw [keptKeys, ← eraseDups_filterMap hinj, typeNames, List.filterMap_filterMap, typeDefs_eq, List.map_filterMap,
    List.filter_filterMap]
  congr 2
  funext d
  cases d with
  | type t =>
    cases hb : (DefinitionKey.type t.name).isBuiltin <;>
      simp [asType?, DefinitionKey.kept?, DefinitionKey.of?, Option.filter, hb, typeName?]
  | directive d =>
    cases hb : (DefinitionKey.directive d.name).isBuiltin <;>
      simp [asType?, DefinitionKey.kept?, DefinitionKey.of?, Option.filter, hb, typeName?]
  | _ => rfl

/-- The last definition with the key of a type is the last definition of this type. -/
theorem lastWith?_type (defs : List Definition) (name : Name) :
    (lastWith? defs (.type name)).bind asType? = lastType? defs name := by
  rw [lastWith?, lastType?, typeDefs_eq, ← List.filterMap_reverse, List.find?_filterMap]
  congr 2
  funext d
  cases d <;> simp [asType?, DefinitionKey.of?]

theorem lastWith?_asType? {defs : List Definition} {key : DefinitionKey} (hk : typeName? key = none) :
    (lastWith? defs key).bind asType? = none := by
  cases hl : lastWith? defs key with
  | none => rfl
  | some d =>
    have hd : DefinitionKey.of? d = some key := by simpa using List.find?_some hl
    cases d with
    | type t => cases hd; cases hk
    | _ => rfl

/-- What is left of the definitions of a sort without extensions: for each key that is kept the last definition, if it is
of the sort. -/
theorem filterMap_result {α : Type} {as? : Definition → Option α} (hext : ∀ d, d.isExtension = true → as? d = none)
    (defs : List Definition) :
    (result defs).filterMap as? = (keptKeys defs).filterMap fun key => (lastWith? defs key).bind as? := by
  have hnone : (defs.filter Definition.isExtension).filterMap as? = [] :=
    List.filterMap_eq_nil_iff.mpr fun d hd => hext d (List.mem_filter.mp hd).2
  rw [result, List.filterMap_append, hnone, List.append_nil, List.filterMap_filterMap]

/-- **What is left of the type definitions among some definitions: the last one of each type.** -/
theorem typeDefs_result (defs : List Definition) : Schema.typeDefs (result defs) = definedTypes defs := by
  have hext : ∀ d, d.isExtension = true → asType? d = none := by
    intro d hd
    cases d <;> first | rfl | cases hd
  rw [typeDefs_eq, filterMap_result hext, definedTypes, typeNames_eq, List.filterMap_filterMap]
  congr 1
  funext key
  cases key with
  | type name => exact lastWith?_type defs name
  | _ => exact lastWith?_asType? rfl

/-- What is left of the definitions of a sort of extensions: all of them. -/
theorem filterMap_result_extension {α : Type} {as? : Definition → Option α}
    (hext : ∀ d, d.isExtension = false → as? d = none) (defs : List Definition) :
    (result defs).filterMap as? = defs.filterMap as? := by
  have hfilter : ∀ defs : List Definition, (defs.filter Definition.isExtension).filterMap as? = defs.filterMap as? := by
    intro defs
    rw [List.filterMap_filter]
    congr 1
    funext d
    cases hd : d.isExtension with
    | false => rw [if_neg Bool.false_ne_true, hext d hd]
    | true => rw [if_pos rfl]
  rw [← hfilter, extensions_result, hfilter]

/-- **Every extension of a type is left.** -/
theorem typeExtensions_result (defs : List Definition) :
    Schema.typeExtensions (result defs) = Schema.typeExtensions defs :=
  filterMap_result_extension (fun d hd => by cases d <;> first | rfl | cases hd) defs

/-- **Every extension of the schema is left.** -/
theorem schemaExtensions_result (defs : List Definition) :
    Schema.schemaExtensions (result defs) = Schema.schemaExtensions defs :=
  filterMap_result_extension (fun d hd => by cases d <;> first | rfl | cases hd) defs

/-- The types that are defined have names of their own, none of which every schema has. -/
theorem not_isBuiltin_of_mem_definedTypes {defs : List Definition} {t : TypeDef} (ht : t ∈ definedTypes defs) :
    (DefinitionKey.type t.name).isBuiltin = false := by
  obtain ⟨name, hn, hl⟩ := List.mem_filterMap.mp ht
  have hname : t.name = name := by simpa using List.find?_some hl
  have := (List.mem_filter.mp (List.mem_eraseDups.mp hn)).2
  rw [hname]
  simpa using this

/-! ## The schema definition that is left -/

/-- A function that is undefined for all elements but one gives at most one result. -/
theorem filterMap_eq_toList {α β : Type} {f : α → Option β} {a : α} (hf : ∀ b, b ≠ a → f b = none) {l : List α}
    (hn : l.Nodup) (hl : a ∉ l → f a = none) : l.filterMap f = (f a).toList := by
  by_cases ha : a ∈ l
  · obtain ⟨before, after, rfl⟩ := List.append_of_mem ha
    have hmiddle := List.nodup_middle.mp hn
    have hnone : ∀ m : List α, a ∉ m → m.filterMap f = [] := fun m hm =>
      List.filterMap_eq_nil_iff.mpr fun b hb => hf b fun h => hm (h ▸ hb)
    have hnot := (List.nodup_cons.mp hmiddle).1
    rw [List.mem_append, not_or] at hnot
    rw [List.filterMap_append, hnone before hnot.1, List.nil_append, List.filterMap_cons, hnone after hnot.2]
    cases f a <;> rfl
  · rw [hl ha]
    exact List.filterMap_eq_nil_iff.mpr fun b hb => hf b fun h => ha (h ▸ hb)

/-- The schema definition that a definition is. -/
def asSchema? : Definition → Option SchemaDef
  | .schema d => some d
  | _ => none

theorem schemaDefs_eq (defs : List Definition) : Schema.schemaDefs defs = defs.filterMap asSchema? := rfl

/-- **Of the schema definitions the last one is left.** -/
theorem schemaDefs_result (defs : List Definition) :
    Schema.schemaDefs (result defs) = (Schema.schemaDefs defs).getLast?.toList := by
  have hext : ∀ d, d.isExtension = true → asSchema? d = none := fun d hd => by cases d <;> first | rfl | cases hd
  have hother : ∀ key, key ≠ .schema → (lastWith? defs key).bind asSchema? = none := by
    intro key hk
    cases hl : lastWith? defs key with
    | none => rfl
    | some d =>
      have hd : DefinitionKey.of? d = some key := by simpa using List.find?_some hl
      cases d <;> first | rfl | exact absurd (Option.some.inj hd).symm hk
  have hlast : (lastWith? defs .schema).bind asSchema? = (Schema.schemaDefs defs).getLast? := by
    have hhead : ∀ l : List SchemaDef, l.head? = l.find? fun _ => true := fun l => by cases l <;> rfl
    rw [lastWith?, schemaDefs_eq, List.getLast?_eq_head?_reverse, ← List.filterMap_reverse, hhead, List.find?_filterMap]
    congr 2
    funext d
    cases d <;> rfl
  rw [schemaDefs_eq, filterMap_result hext, filterMap_eq_toList hother (nodup_keptKeys defs), hlast]
  intro hk
  cases hl : lastWith? defs .schema with
  | none => rfl
  | some d => exact absurd (mem_keptKeys_of_lastWith? rfl hl) hk

end Merge

/-! ## The artifact -/

namespace Introspection

/-- The fields that a listed type has. -/
def TypeContent.fields : TypeContent → List Field
  | object fields _ | interface fields _ _ => fields
  | _ => []

/-- The interfaces that a listed type implements. -/
def TypeContent.interfaces : TypeContent → List String
  | object _ interfaces => interfaces
  | interface _ interfaces _ => interfaces.getD []
  | _ => []

/-- The members of a listed union type. -/
def TypeContent.unionMembers : TypeContent → List String
  | union possibleTypes => possibleTypes
  | _ => []

/-- The values of a listed enum type. -/
def TypeContent.values : TypeContent → List EnumValue
  | enum values => values
  | _ => []

/-- The fields of a listed input object type. -/
def TypeContent.inputs : TypeContent → List InputValue
  | inputObject fields => fields
  | _ => []

end Introspection

namespace Schema

/-- What a listed type says: the name, kind and description of a definition, and its fields, interfaces, members
and values with those of some extensions behind them. -/
structure Lists (s : Schema) (es : List TypeExtension) (d : TypeDef) (t : TypeInfo) : Prop where
  name : t.name = d.name
  kind : t.content.kind = refKind d.kind
  description : t.description = d.description
  fields : t.content.fields = (d.body.fields ++ es.flatMap (·.body.fields)).map s.fieldInfo
  interfaces : t.content.interfaces = d.body.interfaces ++ es.flatMap (·.body.interfaces)
  members : t.content.unionMembers = d.body.members ++ es.flatMap (·.body.members)
  values : t.content.values = (d.body.values ++ es.flatMap (·.body.values)).map valueInfo
  inputs : t.content.inputs = s.inputInfos (d.body.inputs ++ es.flatMap (·.body.inputs))

/-- What a listed type says follows from the content of its definition. -/
theorem contentInfo_eq (s : Schema) (name : Name) (body : TypeBody) :
    (s.contentInfo name body).kind = refKind body.kind ∧
      (s.contentInfo name body).fields = body.fields.map s.fieldInfo ∧
      (s.contentInfo name body).interfaces = body.interfaces ∧
      (s.contentInfo name body).unionMembers = body.members ∧
      (s.contentInfo name body).values = body.values.map valueInfo ∧
      (s.contentInfo name body).inputs = s.inputInfos body.inputs := by
  cases body <;> exact ⟨rfl, rfl, rfl, rfl, rfl, rfl⟩

/-- The info of an extended type lists its definition and its extensions. -/
theorem lists_typeInfo (s : Schema) (es : List TypeExtension) (d : TypeDef)
    (hk : ∀ e ∈ es, e.name = d.name → e.body.kind = d.kind) :
    s.Lists (es.filter (·.name == d.name)) d (s.typeInfo (d.extended es)) := by
  obtain ⟨hname, hdescription, hkind⟩ := TypeDef.extended_eq es d
  obtain ⟨ckind, cfields, cinterfaces, cmembers, cvalues, cinputs⟩ :=
    s.contentInfo_eq (d.extended es).name (d.extended es).body
  exact
    { name := hname
      kind := ckind.trans (congrArg refKind hkind)
      description := hdescription
      fields := by rw [← TypeDef.extended_members TypeBody.appends_fields es d hk]; exact cfields
      interfaces := by rw [← TypeDef.extended_members TypeBody.appends_interfaces es d hk]; exact cinterfaces
      members := by rw [← TypeDef.extended_members TypeBody.appends_members es d hk]; exact cmembers
      values := by rw [← TypeDef.extended_members TypeBody.appends_values es d hk]; exact cvalues
      inputs := by rw [← TypeDef.extended_members TypeBody.appends_inputs es d hk]; exact cinputs }

/-- A text that builds holds a document without slips, which is assembled without a report to a schema without
faults. -/
theorem assemble_of_build {text : String} {s : Schema} (h : build text = .ok s) {doc : Document}
    {slips : List SyntaxError}
    (hread : Document.read text = .ok (doc, slips)) :
    ∃ whole : Schema, (assemble doc).run [] = (whole, []) ∧ whole.diagnostics = [] ∧ s = whole.dropUnusedScalars := by
  rw [build, examine, readDocument, hread] at h
  cases hrun : (assemble doc).run [] with
  | mk whole reported =>
    simp only [hrun] at h
    split at h
    · next s' he =>
      cases h
      simp only [Prod.mk.injEq, List.append_eq_nil_iff] at he
      obtain ⟨rfl, ⟨-, rfl⟩, hfaults⟩ := he
      exact ⟨whole, rfl, hfaults, rfl⟩
    · cases h

/-- The types of an assembled schema that have the name of a built-in scalar are scalars. -/
theorem AssembledTypes.scalar {doc : Document} {types : List TypeDef} (h : AssembledTypes doc types) :
    ∀ t ∈ types, builtinScalars.contains t.name = true → t.kind = .scalar := by
  intro t ht hb
  rw [h.eq] at ht
  obtain ⟨d, hd, rfl⟩ := List.mem_map.mp ht
  obtain ⟨hname, -, hkind⟩ := TypeDef.extended_eq (typeExtensions doc) d
  rw [hname] at hb
  rw [hkind]
  rcases List.mem_append.mp hd with hd | hd
  · have hbuiltin : ∀ d ∈ Builtin.types, builtinScalars.contains d.name = true → d.kind = .scalar := by decide +kernel
    exact hbuiltin d hd hb
  · rw [h.notScalar d hd] at hb
    cases hb

/-- The types that every schema has are known by their names. -/
theorem isBuiltin_of_mem_types : ∀ d ∈ Builtin.types, (DefinitionKey.type d.name).isBuiltin = true := by decide +kernel

/-- The types of an assembled schema that not every schema has are those of the document, if it defines no others. -/
theorem AssembledTypes.filter_dropUnusedScalars {doc : Document} {s : Schema} (h : AssembledTypes doc s.types)
    (hdefs : ∀ d ∈ typeDefs doc, (DefinitionKey.type d.name).isBuiltin = false) :
    s.dropUnusedScalars.types.filter (fun t => !(DefinitionKey.type t.name).isBuiltin) =
      (typeDefs doc).map (TypeDef.extended (typeExtensions doc)) := by
  have hname := fun d => (TypeDef.extended_eq (typeExtensions doc) d).1
  have hother : ∀ d ∈ typeDefs doc, d.name ∉ builtinScalars := fun d hd => by simpa using h.notScalar d hd
  rw [dropUnusedScalars, List.filter_filter, h.eq, List.map_append, List.filter_append]
  have hnone : ∀ p : TypeDef → Bool, (Builtin.types.map (TypeDef.extended (typeExtensions doc))).filter
      (fun t => !(DefinitionKey.type t.name).isBuiltin && p t) = [] := by
    intro p
    rw [List.filter_eq_nil_iff]
    intro t ht
    obtain ⟨d, hd, rfl⟩ := List.mem_map.mp ht
    simp [hname, isBuiltin_of_mem_types d hd]
  rw [hnone, List.nil_append, List.filter_eq_self]
  intro t ht
  obtain ⟨d, hd, rfl⟩ := List.mem_map.mp ht
  simp [hname, hdefs d hd, hother d hd]

end Schema

/-- **The artifact of fragments tells what they define.** If fragments merge to a text and the text builds a
schema, the artifact of the schema is read; the names of its types are distinct and those of the types of the
schema; and besides what every schema has it lists, in the order in which the fragments first define them, the
types of the fragments, each as its last definition has it with all extensions of its name behind. -/
theorem artifact_lists {fragments : List Fragment} {text : String} {s : Schema}
    (hmerge : mergeFragments fragments = .ok text)
    (hbuild : Schema.build text = .ok s) :
    ∃ docs info, List.Forall₂ Merge.Contributes fragments docs ∧ SchemaInfo.ofText s.artifact = .ok info ∧
      (info.types.map (·.name)).Nodup ∧ (∀ name, name ∈ info.types.map (·.name) ↔ s.hasType name = true) ∧
      List.Forall₂ (fun d t => s.Lists ((Schema.typeExtensions docs.flatten).filter (·.name == d.name)) d t)
        (Merge.definedTypes docs.flatten) (info.types.filter fun t => !(DefinitionKey.type t.name).isBuiltin) := by
  have hmerged := Merge.mergeDocuments_result fragments
  rw [mergeFragments] at hmerge
  cases hm : mergeDocuments fragments with
  | error e => rw [hm] at hmerge; cases hmerge
  | ok merged =>
    rw [hm] at hmerge hmerged
    obtain ⟨docs, hdocs, rfl⟩ := hmerged
    cases hmerge
    have hg : ∀ d ∈ Merge.result docs.flatten, d.Grammatical := fun d h =>
      Merge.grammatical_of_contributes hdocs d (Merge.mem_of_mem_result h)
    obtain ⟨whole, hrun, hfaults, rfl⟩ := Schema.assemble_of_build hbuild (read_text hg)
    have htypes := (Schema.silently_assemble _).run hrun
    have hresolved := Schema.resolved_dropUnusedScalars htypes.nodup htypes.scalar hfaults
    refine ⟨docs, _, hdocs, Schema.ofText_artifact hresolved, ?_, fun name => ?_, ?_⟩
    · rw [Schema.info, List.map_map]
      exact hresolved.nodup
    · rw [Schema.info, List.map_map, Schema.hasType_iff]
      rfl
    · have hdefined := htypes.filter_dropUnusedScalars fun d hd => by
        rw [Merge.typeDefs_result] at hd
        exact Merge.not_isBuiltin_of_mem_definedTypes hd
      rw [Merge.typeDefs_result, Merge.typeExtensions_result] at hdefined
      have hlisted : (whole.dropUnusedScalars.info.types.filter fun t => !(DefinitionKey.type t.name).isBuiltin) =
          (Merge.definedTypes docs.flatten).map fun d =>
            whole.dropUnusedScalars.typeInfo (d.extended (Schema.typeExtensions docs.flatten)) := by
        rw [Schema.info, List.filter_map]
        exact (congrArg (List.map _) hdefined).trans List.map_map
      rw [hlisted, List.forall₂_map_right_iff, List.forall₂_same]
      intro d hd
      refine Schema.lists_typeInfo _ _ _ fun e he hed => ?_
      refine htypes.kind e ?_ d ?_ hed
      · rw [Merge.typeExtensions_result]
        exact he
      · rw [Merge.typeDefs_result]
        exact hd

/-- A type that is defined twice, and extended between its definitions. -/
theorem artifact_lists_query :
    ∃ (s : Schema) (docs : List Document) (info : SchemaInfo),
      mergeFragments [⟨"a.graphql", "type Query \x7b a: Int \x7d extend type Query \x7b c: Int @deprecated \x7d"⟩,
        ⟨"b.graphql", "type Query \x7b b: String \x7d"⟩] =
        .ok "type Query \x7b\n  b: String\n\x7d\n\nextend type Query \x7b\n  c: Int @deprecated\n\x7d\n" ∧
      Schema.build "type Query \x7b\n  b: String\n\x7d\n\nextend type Query \x7b\n  c: Int @deprecated\n\x7d\n" = .ok s ∧
      SchemaInfo.ofText s.artifact = .ok info ∧
      (info.types.map (·.name)).Nodup ∧ (∀ name, name ∈ info.types.map (·.name) ↔ s.hasType name = true) ∧
      List.Forall₂ (fun d t => s.Lists ((Schema.typeExtensions docs.flatten).filter (·.name == d.name)) d t)
        (Merge.definedTypes docs.flatten) (info.types.filter fun t => !(DefinitionKey.type t.name).isBuiltin) := by
  have hmerge : (mergeFragments
      [⟨"a.graphql", "type Query \x7b a: Int \x7d extend type Query \x7b c: Int @deprecated \x7d"⟩,
        ⟨"b.graphql", "type Query \x7b b: String \x7d"⟩]).toOption =
      some "type Query \x7b\n  b: String\n\x7d\n\nextend type Query \x7b\n  c: Int @deprecated\n\x7d\n" := by
    decide +kernel
  have hbuild : (Schema.build
      "type Query \x7b\n  b: String\n\x7d\n\nextend type Query \x7b\n  c: Int @deprecated\n\x7d\n").toOption.isSome =
      true := by
    decide +kernel
  obtain ⟨s, hs⟩ := Option.isSome_iff_exists.mp hbuild
  have hmerge := eq_ok_of_toOption hmerge
  have hs := eq_ok_of_toOption hs
  obtain ⟨docs, info, -, hread, hnodup, hnames, hlists⟩ := artifact_lists hmerge hs
  exact ⟨s, docs, info, hmerge, hs, hread, hnodup, hnames, hlists⟩

end SchemaWeave

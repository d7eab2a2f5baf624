import SchemaWeave.Proofs.Reload

/-!
# Arguments and input fields in the artifact

Of the arguments of a field or of a directive, and of the fields of an input object, the artifact tells those that are not
deprecated, in their order (`artifact_inputs`): the introspection query asks for deprecated fields and enum values, but
not for deprecated arguments and input fields.
-/

namespace SchemaWeave

open Graphql Introspection

/-! ## What is told -/

/-- What is told of an argument or input field beside its type. -/
structure Tells (d : InputDef) (v : InputValue) : Prop where
  name : v.name = d.name
  description : v.description = d.description
  defaultValue : v.defaultValue = d.default.map Value.text

/-- What is told of a list of arguments or input fields: those that are not deprecated, in their order. So all of them are
told exactly if none is deprecated. -/
structure TellsInputs (ds : List InputDef) (vs : List InputValue) : Prop where
  current : List.Forall₂ Tells (Schema.current InputDef.directives ds) vs
  all_iff : List.Forall₂ Tells ds vs ↔ ∀ d ∈ ds, Schema.isDeprecated d.directives = false

/-- What is told of the arguments and input fields of a type with some extensions. -/
structure TellsMembers (es : List TypeExtension) (d : TypeDef) (t : TypeInfo) : Prop where
  name : t.name = d.name
  arguments : List.Forall₂ (fun f g => g.name = f.name ∧ TellsInputs f.arguments g.args)
    (d.body.fields ++ es.flatMap (·.body.fields)) t.content.fields
  inputs : TellsInputs (d.body.inputs ++ es.flatMap (·.body.inputs)) t.content.inputs

namespace Schema

theorem tellsInputs_inputInfos (s : Schema) (ds : List InputDef) : TellsInputs ds (s.inputInfos ds) := by
  have hcurrent : List.Forall₂ Tells (current InputDef.directives ds) (s.inputInfos ds) := by
    rw [inputInfos, List.forall₂_map_right_iff, List.forall₂_same]
    exact fun d _ => ⟨rfl, rfl, rfl⟩
  refine ⟨hcurrent, fun hall => ?_, fun hnone => ?_⟩
  · -- nothing is left out, as there are as many values as there are definitions
    have hlength : (current InputDef.directives ds).length = ds.length :=
      hcurrent.length_eq.trans hall.length_eq.symm
    have hkept := List.length_filter_eq_length_iff.mp hlength
    intro d hd
    exact (Bool.not_eq_true' _).mp (hkept d hd)
  · have heq : current InputDef.directives ds = ds := by
      refine List.filter_eq_self.mpr fun d hd => ?_
      rw [hnone d hd]
      rfl
    rwa [heq] at hcurrent

/-- Of two arguments, the deprecated one is not told. -/
example : (current InputDef.directives
    [{ name := "x", type := .named "Int" false, directives := [{ name := "deprecated" }] },
      { name := "y", type := .named "Int" false }]).map (·.name) = ["y"] := by
  decide +kernel

/-- A listed type tells of its arguments and input fields what a definition and its extensions have. -/
theorem Lists.tellsMembers {s : Schema} {es : List TypeExtension} {d : TypeDef} {t : TypeInfo} (h : s.Lists es d t) :
    TellsMembers es d t := by
  refine ⟨h.name, ?_, ?_⟩
  · rw [h.fields, List.forall₂_map_right_iff, List.forall₂_same]
    exact fun f _ => ⟨rfl, s.tellsInputs_inputInfos f.arguments⟩
  · rw [h.inputs]
    exact s.tellsInputs_inputInfos _

/-! ## Types and directives that are told -/

namespace Faultless

variable {doc : Document} {whole : Schema} (h : Faultless doc whole)

include h

/-- Extensions are of the kind of the type they name, also if every schema has it. -/
theorem kind_of_extension {e : TypeExtension} (he : e ∈ typeExtensions doc) {d : TypeDef}
    (hd : d ∈ Builtin.types ++ typeDefs doc) (hn : e.name = d.name) : e.body.kind = d.kind := by
  rcases List.mem_append.mp hd with hd | hd
  · exact h.types.kindBuiltin e he d hd hn
  · exact h.types.kind e he d hd hn

/-- Every type but the scalars is listed with its extensions. -/
theorem exists_lists {d : TypeDef} (hd : d ∈ Builtin.types ++ typeDefs doc) (hk : d.kind ≠ .scalar) :
    ∃ t ∈ whole.dropUnusedScalars.info.types,
      whole.dropUnusedScalars.Lists ((typeExtensions doc).filter (·.name == d.name)) d t := by
  have hmem : d.extended (typeExtensions doc) ∈ whole.types := by
    rw [h.types.eq]
    exact List.mem_map_of_mem hd
  have hkept : d.extended (typeExtensions doc) ∈ whole.dropUnusedScalars.types := by
    refine mem_types_dropUnusedScalars.mpr ⟨hmem, fun hscalar => ?_⟩
    have hkind := h.types.scalar _ hmem hscalar
    rw [(TypeDef.extended_eq (typeExtensions doc) d).2.2] at hkind
    exact absurd hkind hk
  exact ⟨_, List.mem_map_of_mem hkept, lists_typeInfo _ _ _ fun e he hn => h.kind_of_extension he hd hn⟩

end Faultless

end Schema

namespace Merge

/-- The directive that a definition defines. -/
def asDirective? : Definition → Option DirectiveDef
  | .directive d => some d
  | _ => none

/-- For each directive that is defined, and that not every schema has, its last definition, in the order in which the
directives are defined first. -/
def definedDirectives (defs : List Definition) : List DirectiveDef :=
  (keptKeys defs).filterMap fun key => (lastWith? defs key).bind asDirective?

theorem directiveDefs_result (defs : List Definition) : Schema.directiveDefs (result defs) = definedDirectives defs :=
  filterMap_result (fun d hd => by cases d <;> first | rfl | cases hd) defs

end Merge

/-! ## The artifact -/

/-- **What the artifact tells of arguments and input fields.** Let fragments merge to a text that builds a schema. For
every type of the fragments, as its last definition has it with all extensions of its name behind, and for every type
that each schema has, the artifact tells for each field the arguments, and of an input object the fields, that are not
deprecated, in their order and with their names, descriptions and default values. It tells all of them exactly if none
is deprecated. The same holds for the arguments of the directives of the fragments. -/
theorem artifact_inputs {fragments : List Fragment} {text : String} {s : Schema}
    (hmerge : mergeFragments fragments = .ok text) (hbuild : Schema.build text = .ok s) :
    ∃ docs info, List.Forall₂ Merge.Contributes fragments docs ∧ SchemaInfo.ofText s.artifact = .ok info ∧
      (∀ d ∈ Schema.Builtin.types ++ Merge.definedTypes docs.flatten, d.kind ≠ .scalar → ∃ t ∈ info.types,
        TellsMembers ((Schema.typeExtensions docs.flatten).filter (·.name == d.name)) d t) ∧
      List.Forall₂ (fun d i => i.name = d.name ∧ TellsInputs d.arguments i.args)
        (Merge.definedDirectives docs.flatten) info.ownDirectives := by
  obtain ⟨docs, whole, hdocs, h, rfl⟩ := Schema.exists_faultless_result hmerge hbuild
  refine ⟨docs, _, hdocs, Schema.ofText_artifact h.resolved, fun d hd hk => ?_, ?_⟩
  · rw [← Merge.typeDefs_result] at hd
    rw [← Merge.typeExtensions_result]
    obtain ⟨t, ht, hlists⟩ := h.exists_lists hd hk
    exact ⟨t, ht, hlists.tellsMembers⟩
  · rw [← Merge.directiveDefs_result, h.ownDirectives, List.forall₂_map_right_iff, List.forall₂_same]
    exact fun d _ => ⟨rfl, whole.dropUnusedScalars.tellsInputs_inputInfos d.arguments⟩

/-- A field and a directive with an argument, and an input object with a field that an extension adds. -/
theorem artifact_inputs_extended :
    ∃ (text : String) (s : Schema) (docs : List Document) (info : SchemaInfo),
      mergeFragments [⟨"a.graphql", "type Query \x7b a(x: Int = 1): Int \x7d directive @d(x: I) on FIELD " ++
        "input I \x7b x: Int \x7d"⟩, ⟨"b.graphql", "extend input I \x7b y: [Int] = [1, 2] \x7d"⟩] = .ok text ∧
      Schema.build text = .ok s ∧ SchemaInfo.ofText s.artifact = .ok info ∧
      (∀ d ∈ Schema.Builtin.types ++ Merge.definedTypes docs.flatten, d.kind ≠ .scalar → ∃ t ∈ info.types,
        TellsMembers ((Schema.typeExtensions docs.flatten).filter (·.name == d.name)) d t) ∧
      List.Forall₂ (fun d i => i.name = d.name ∧ TellsInputs d.arguments i.args)
        (Merge.definedDirectives docs.flatten) info.ownDirectives := by
  have hbuild : ∃ text ∈ (mergeFragments
      [⟨"a.graphql", "type Query \x7b a(x: Int = 1): Int \x7d directive @d(x: I) on FIELD " ++
        "input I \x7b x: Int \x7d"⟩, ⟨"b.graphql", "extend input I \x7b y: [Int] = [1, 2] \x7d"⟩]).toOption,
      (Schema.build text).toOption.isSome = true := by
    decide +kernel
  obtain ⟨text, hmerge, hbuild⟩ := hbuild
  obtain ⟨s, hs⟩ := Option.isSome_iff_exists.mp hbuild
  have hmerge := eq_ok_of_toOption hmerge
  have hs := eq_ok_of_toOption hs
  obtain ⟨docs, info, -, hread, htypes, hdirectives⟩ := artifact_inputs hmerge hs
  exact ⟨text, s, docs, info, hmerge, hs, hread, htypes, hdirectives⟩

/-- Of two arguments the artifact tells the one that is not deprecated. -/
theorem artifact_inputs_deprecated :
    ∃ (docs : List Document) (text : String) (s : Schema) (info : SchemaInfo),
      List.Forall₂ Merge.Contributes
        [⟨"a.graphql", "type Query \x7b a(x: Int @deprecated, y: Int): Int \x7d"⟩] docs ∧
      mergeFragments [⟨"a.graphql", "type Query \x7b a(x: Int @deprecated, y: Int): Int \x7d"⟩] = .ok text ∧
      Schema.build text = .ok s ∧ SchemaInfo.ofText s.artifact = .ok info ∧
      (∃ d ∈ Merge.definedTypes docs.flatten, d.name = "Query" ∧
        d.body.fields.map (fun f => (f.name, f.arguments.map (·.name))) = [("a", ["x", "y"])]) ∧
      ((info.types.filter (·.name = "Query")).map fun t =>
        t.content.fields.map fun f => (f.name, f.args.map (·.name))) = [[("a", ["y"])]] := by
  have hdocs : ∃ docs ∈ (List.mapM Merge.read
      [⟨"a.graphql", "type Query \x7b a(x: Int @deprecated, y: Int): Int \x7d"⟩]).toOption,
      ∃ d ∈ Merge.definedTypes docs.flatten, d.name = "Query" ∧
        d.body.fields.map (fun f => (f.name, f.arguments.map (·.name))) = [("a", ["x", "y"])] := by
    decide +kernel
  have hbuild : ∃ text ∈ (mergeFragments
      [⟨"a.graphql", "type Query \x7b a(x: Int @deprecated, y: Int): Int \x7d"⟩]).toOption,
      ∃ s ∈ (Schema.build text).toOption, ((s.info.types.filter (·.name = "Query")).map fun t =>
        t.content.fields.map fun f => (f.name, f.args.map (·.name))) = [[("a", ["y"])]] := by
    decide +kernel
  obtain ⟨docs, hdocs, harguments⟩ := hdocs
  obtain ⟨text, hmerge, s, hs, htold⟩ := hbuild
  have hdocs := eq_ok_of_toOption hdocs
  have hmerge := eq_ok_of_toOption hmerge
  have hs := eq_ok_of_toOption hs
  have hcontributes := Merge.mapM_read [⟨"a.graphql", "type Query \x7b a(x: Int @deprecated, y: Int): Int \x7d"⟩]
  rw [hdocs] at hcontributes
  obtain ⟨doc, whole, h, rfl⟩ := Schema.exists_faultless hmerge hs
  exact ⟨docs, text, _, _, hcontributes, hmerge, hs, Schema.ofText_artifact h.resolved, harguments, htold⟩

end SchemaWeave

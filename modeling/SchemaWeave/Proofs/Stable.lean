import SchemaWeave.Proofs.Printed
import SchemaWeave.Proofs.Schema.Settled
import SchemaWeave.Run.Pipeline

/-!
# Storing an artifact and loading it again

The artifact that is made from a stored introspection result alone (`storedArtifact`) can be stored in its place: the schema
that is built from it is alike to the first one (`PrintedFrom.alike`), and so its artifact is the same
(`storedArtifact_stable`).
-/

namespace SchemaWeave

open Graphql Introspection

/-- The artifact of a stored introspection result that is the only fragment. -/
def storedArtifact (source text : String) : Except SchemaError String :=
  match SchemaInfo.ofText text with
  | .error reason => .error (.load (.invalidIntrospection source reason))
  | .ok info => artifactOf [⟨source, info.sdl⟩]

/-- No type that an introspection result refers to has more wrappers than the query asks for. -/
structure Introspection.SchemaInfo.Shallow (d : SchemaInfo) : Prop where
  types : ∀ t ∈ d.types, t.typeDef.Shallow
  directives : ∀ e ∈ d.directives, ∀ a ∈ e.directiveDef.arguments, a.Shallow

instance (d : SchemaInfo) : Decidable d.Shallow :=
  decidable_of_iff ((∀ t ∈ d.types, t.typeDef.Shallow) ∧ ∀ e ∈ d.directives, ∀ a ∈ e.directiveDef.arguments, a.Shallow)
    ⟨fun h => ⟨h.1, h.2⟩, fun h => ⟨h.types, h.directives⟩⟩

/-- What it takes to make an artifact of fragments. -/
theorem artifactOf_eq_ok {fragments : List Fragment} {artifact : String} : artifactOf fragments = .ok artifact ↔
    ∃ text s, mergeFragments fragments = .ok text ∧ Schema.build text = .ok s ∧ s.artifact = artifact := by
  rw [artifactOf]
  cases mergeFragments fragments with
  | error e => simp [Except.mapError, bind, Except.bind]
  | ok text =>
    simp only [Except.mapError, bind, Except.bind]
    cases hs : Schema.build text with
    | error e => simp [hs]
    | ok s => simp [hs, pure, Except.pure]

namespace Schema

/-! ## Definitions of a printed result -/

/-- The definitions of a document are printed from an introspection result. -/
structure PrintedFrom (d : SchemaInfo) (doc : Document) : Prop where
  roots : schemaDefs doc = if d.namesRoot then [{ roots := d.rootNames }] else []
  types : ∀ t ∈ typeDefs doc, ∃ i ∈ d.types, i.typeDef = t
  directives : ∀ e ∈ directiveDefs doc, ∃ i ∈ d.directives, i.directiveDef = e

theorem printedFrom_document (d : SchemaInfo) : PrintedFrom d d.document := by
  refine ⟨schemaDefs_document d, fun t ht => ?_, fun e he => ?_⟩
  · rw [typeDefs_document] at ht
    obtain ⟨i, hi, rfl⟩ := List.mem_map.mp ht
    exact ⟨i, (List.mem_filter.mp hi).1, rfl⟩
  · rw [directiveDefs_document] at he
    obtain ⟨i, hi, rfl⟩ := List.mem_map.mp he
    exact ⟨i, (List.mem_filter.mp hi).1, rfl⟩

theorem printedFrom_result (d : SchemaInfo) : PrintedFrom d (Merge.result d.document) where
  roots := schemaDefs_result d
  types t ht := (printedFrom_document d).types t (mem_typeDefs.mpr (Merge.mem_of_mem_result (mem_typeDefs.mp ht)))
  directives e he :=
    (printedFrom_document d).directives e (mem_directiveDefs.mpr (Merge.mem_of_mem_result (mem_directiveDefs.mp he)))

/-- Arguments and input fields are printed without directives. -/
theorem directives_content (c : TypeContent) : (∀ f ∈ c.body.fields, ∀ a ∈ f.arguments, a.directives = []) ∧
    ∀ a ∈ c.body.inputs, a.directives = [] := by
  have hfields : ∀ fields : List Field, ∀ f ∈ fields.map Field.fieldDef, ∀ a ∈ f.arguments, a.directives = [] := by
    intro fields f hf a ha
    obtain ⟨i, -, rfl⟩ := List.mem_map.mp hf
    obtain ⟨v, -, rfl⟩ := List.mem_map.mp ha
    rfl
  cases c with
  | object fields interfaces => exact ⟨hfields fields, List.forall_mem_nil _⟩
  | interface fields interfaces possibleTypes => exact ⟨hfields fields, List.forall_mem_nil _⟩
  | inputObject fields =>
    refine ⟨List.forall_mem_nil _, fun a ha => ?_⟩
    obtain ⟨v, -, rfl⟩ := List.mem_map.mp ha
    rfl
  | _ => exact ⟨List.forall_mem_nil _, List.forall_mem_nil _⟩

theorem PlainType.directives_inputs {t : TypeDef} (h : PlainType t) :
    (∀ f ∈ t.body.fields, ∀ a ∈ f.arguments, a.directives = []) ∧ ∀ a ∈ t.body.inputs, a.directives = [] := by
  have hkind : t.body.kind ≠ .inputObject := by
    rcases h.kind with hk | hk | hk <;> rw [TypeDef.kind] at hk <;> rw [hk] <;> decide
  rw [inputs_eq_nil hkind]
  exact ⟨fun f hf a ha => ((h.fields f hf).2.2.2 a ha).2.2.1, List.forall_mem_nil _⟩

theorem shallow_builtin : (∀ t ∈ Builtin.types, t.Shallow) ∧ ∀ e ∈ Builtin.directives, ∀ a ∈ e.arguments, a.Shallow := by
  decide +kernel

section

variable {d : SchemaInfo} {doc : Document} (hp : PrintedFrom d doc)

include hp

/-- The roots of the schema of a printed result. -/
theorem PrintedFrom.root? (kind : OperationKind) : (composed doc).root? kind =
    if d.namesRoot then d.root? kind else implicitRoot? (Builtin.types ++ typeDefs doc) kind := by
  rw [Schema.root?, roots_composed hp.roots, lookup_rootsBy]
  split <;> rfl

theorem PrintedFrom.directives_inputs {t : TypeDef} (ht : t ∈ (composed doc).types) :
    (∀ f ∈ t.body.fields, ∀ a ∈ f.arguments, a.directives = []) ∧ ∀ a ∈ t.body.inputs, a.directives = [] := by
  rcases List.mem_append.mp ht with hb | hown
  · exact (plainType_builtin t hb).directives_inputs
  · obtain ⟨i, -, rfl⟩ := hp.types t hown
    exact directives_content i.content

variable (hs : d.Shallow)

include hs

theorem PrintedFrom.shallow : (composed doc).Shallow := by
  refine ⟨fun t ht => ?_, fun e he => ?_⟩
  · rcases List.mem_append.mp ht with hb | hown
    · exact shallow_builtin.1 t hb
    · obtain ⟨i, hi, rfl⟩ := hp.types t hown
      exact hs.types i hi
  · rcases List.mem_append.mp he with hb | hown
    · exact shallow_builtin.2 e hb
    · obtain ⟨i, hi, rfl⟩ := hp.directives e hown
      exact hs.directives i hi

variable (h : Faultless doc (composed doc))

include h

/-- Nothing that the rules ask for is lost when a printed result is printed again. -/
theorem PrintedFrom.reloadable : (composed doc).dropUnusedScalars.Reloadable := by
  have hleft : ∀ t ∈ (composed doc).dropUnusedScalars.types, t ∈ (composed doc).types := fun t ht =>
    (mem_types_dropUnusedScalars.mp ht).1
  have hshallow := hp.shallow hs
  refine ⟨⟨fun t ht => hshallow.types t (hleft t ht), hshallow.directives⟩, fun t ht hk => ?_, ?_⟩
  · have hcontent := checkContent_eq_nil_iff.mp (checkContent_eq_nil h.types.scalar h.sound (hleft t ht))
    have hcurrent : current InputDef.directives t.body.inputs = t.body.inputs := by
      refine List.filter_eq_self.mpr fun a ha => ?_
      rw [(hp.directives_inputs (hleft t ht)).2 a ha]
      rfl
    rw [hcurrent]
    exact hcontent.someInput hk
  · intro t ht _ i _ u hu e he f hf _
    refine ⟨fun a ha b hb _ => ?_, fun r hr hreserved => ?_⟩
    · have hu := hleft u (List.mem_of_find?_eq_some hu)
      rw [(hp.directives_inputs hu).1 e he a ha, (hp.directives_inputs (hleft t ht)).1 f hf b hb]
      exact ⟨id, fun _ => id⟩
    · rcases List.mem_append.mp (hleft r (List.mem_of_find?_eq_some hr)) with hb | hown
      · rw [(plainType_builtin r hb).interfaces]
        exact List.not_mem_nil
      · rw [(h.own.type hown).1] at hreserved
        cases hreserved

/-! ## Building again -/

theorem PrintedFrom.typeDefs_again (hf : Fits doc) : List.Forall₂ TypeDef.Alike (typeDefs doc)
    (typeDefs (composed doc).dropUnusedScalars.info.document) := by
  rw [typeDefs_document, h.ownTypes, hf.typeExtensions, List.map_map, List.map_map, List.forall₂_map_right_iff,
    List.forall₂_same]
  intro t ht
  have hg := h.grammatical_type (List.mem_append_right _ ht)
  obtain ⟨i, hi, rfl⟩ := hp.types t ht
  exact alike_typeInfo _ hg (hs.types i hi)

theorem PrintedFrom.directiveDefs_again :
    directiveDefs (composed doc).dropUnusedScalars.info.document = directiveDefs doc := by
  have hsame : ∀ e ∈ directiveDefs doc, ((composed doc).dropUnusedScalars.directiveInfo e).directiveDef = e := by
    intro e he
    have hg := h.grammatical_directive (List.mem_append_right _ he)
    obtain ⟨i, hi, rfl⟩ := hp.directives e he
    exact directiveDef_directiveInfo _ hg (hs.directives i hi)
  rw [directiveDefs_document, h.ownDirectives, List.map_map]
  exact (List.map_congr_left hsame).trans (List.map_id' _)

end

/-- Whether a root type has a name of its own depends on the roots alone. -/
theorem namesRoot_congr {d d' : SchemaInfo} (h : ∀ kind, d'.root? kind = d.root? kind) : d'.namesRoot = d.namesRoot := by
  rw [SchemaInfo.namesRoot, SchemaInfo.namesRoot, rootNames_eq, rootNames_eq, funext h]

theorem implicitRoot?_alike {types types' : List TypeDef} (h : List.Forall₂ TypeDef.Alike types types')
    (kind : OperationKind) : implicitRoot? types' kind = implicitRoot? types kind := by
  have hfound : Option.Rel TypeDef.Alike (types.find? (·.name == defaultRootName kind))
      (types'.find? (·.name == defaultRootName kind)) := rel_find? (fun _ _ ht => by rw [ht.name]) h
  rw [implicitRoot?, implicitRoot?]
  generalize types.find? (·.name == defaultRootName kind) = found at hfound
  generalize types'.find? (·.name == defaultRootName kind) = found' at hfound
  cases hfound with
  | none => rfl
  | some ht => simp only [Option.filter, ht.kind, apply_ite (Option.map _), Option.map_some, ht.name]

/-- The roots come back: those that are written out are told as they are, and the others follow from the types. -/
theorem PrintedFrom.root?_again {d : SchemaInfo} {doc : Document} (hp : PrintedFrom d doc)
    (htypes : List.Forall₂ TypeDef.Alike (composed doc).types
      (Builtin.types ++ typeDefs (composed doc).dropUnusedScalars.info.document)) (kind : OperationKind) :
    (composed (composed doc).dropUnusedScalars.info.document).root? kind = (composed doc).root? kind := by
  have htold : ∀ kind, (composed doc).dropUnusedScalars.info.root? kind = (composed doc).root? kind := root?_info _
  rw [(printedFrom_document _).root?]
  cases hnames : (composed doc).dropUnusedScalars.info.namesRoot with
  | true => exact htold kind
  | false =>
    -- a root type with a name of its own would have been told
    have hnone : d.namesRoot = false := by
      by_contra hown
      have hsame : (composed doc).dropUnusedScalars.info.namesRoot = d.namesRoot := by
        refine namesRoot_congr fun kind => ?_
        rw [htold, hp.root?, if_pos (by simpa using hown)]
      exact hown (hsame.symm.trans hnames)
    rw [if_neg Bool.false_ne_true, implicitRoot?_alike htypes, hp.root?, hnone]
    rfl

/-- **A printed result that is printed again is built to a schema that is alike.** -/
theorem PrintedFrom.alike {d : SchemaInfo} {doc : Document} (hp : PrintedFrom d doc) (hs : d.Shallow) (hf : Fits doc)
    (h : Faultless doc (composed doc)) :
    (composed doc).Alike (composed (composed doc).dropUnusedScalars.info.document) := by
  have htypes := List.rel_append (List.forall₂_same.mpr fun t (_ : t ∈ Builtin.types) => TypeDef.Alike.refl t)
    (hp.typeDefs_again hs h hf)
  refine ⟨hp.root?_again htypes, ?_, htypes⟩
  exact congrArg (Builtin.directives ++ ·) (hp.directiveDefs_again hs h)

end Schema

/-- **An artifact that is made from a stored result can be stored in its place.** The text of an introspection result that
conforms, whose references the query does not cut, gives an artifact from which the same artifact is made again. -/
theorem storedArtifact_stable {text : String} {d : SchemaInfo} (htext : SchemaInfo.ofText text = .ok d) (hd : d.Conforms)
    (hs : d.Shallow) {source artifact : String} (hstored : storedArtifact source text = .ok artifact) (source' : String) :
    storedArtifact source' artifact = .ok artifact := by
  rw [storedArtifact, htext] at hstored
  obtain ⟨merged, s, hmerge, hbuild, rfl⟩ := artifactOf_eq_ok.mp hstored
  obtain ⟨hfits, hfaultless, rfl⟩ := composed_of_sdl hd hmerge hbuild
  have hp := Schema.printedFrom_result d
  have hreload := hp.reloadable hs hfaultless
  have halike := (hp.alike hs hfits hfaultless).dropUnusedScalars
  obtain ⟨hmerge', hbuild'⟩ := hfaultless.reloads hreload source'
  rw [storedArtifact, Schema.ofText_artifact hfaultless.resolved]
  exact artifactOf_eq_ok.mpr ⟨_, _, hmerge', hbuild', halike.artifact⟩

/-- A stored result with what printing changes: a description with indented lines and a deprecation without a reason. -/
def Introspection.outdated : SchemaInfo :=
  let x : InputValue :=
    { name := "x", description := none, type := .bare .scalar (some "Int"), defaultValue := some "1" }
  let n : Field :=
    { name := "n", description := none, args := [x], type := .bare .scalar (some "ID"), isDeprecated := true,
      deprecationReason := none }
  { queryType := some "Query", mutationType := none, subscriptionType := none, directives := [],
    types := [⟨"Query", some "  a\n\n  b ", .object [n] []⟩] }

/-- The response that tells it. -/
def Introspection.outdatedResponse : Json :=
  let reference (name : Name) : Json := .object [("kind", .string "SCALAR"), ("name", .string name)]
  let x : Json := .object [("name", .string "x"), ("type", reference "Int"), ("defaultValue", .string "1")]
  let n : Json :=
    .object [("name", .string "n"), ("args", .array [x]), ("type", reference "ID"), ("isDeprecated", .bool true)]
  let query : Json :=
    .object [("kind", .string "OBJECT"), ("name", .string "Query"), ("description", .string "  a\n\n  b "),
      ("fields", .array [n]), ("interfaces", .array [])]
  .object [("data", .object [("__schema", .object [("queryType", .object [("name", .string "Query")]),
    ("types", .array [query]), ("directives", .array [])])])]

theorem Introspection.conforms_outdated : outdated.Conforms := by
  have hone : IsConstantText "1" := by
    have hlexeme : lexeme "1".toList = some (.int "1", []) := by decide
    exact ⟨.int "1", hlexeme, .token hlexeme .nil⟩
  refine ⟨fun r hr => ?_, fun t ht => ?_, List.forall_mem_nil _, ?_⟩
  · rw [List.mem_singleton.mp hr]
    decide
  · rw [List.mem_singleton.mp ht]
    refine ⟨by decide, List.forall_mem_singleton.mpr ⟨by decide, ?_, ⟨rfl, by decide, by decide⟩⟩, List.forall_mem_nil _⟩
    exact List.forall_mem_singleton.mpr ⟨by decide, ⟨rfl, by decide, by decide⟩, by simpa using hone⟩
  · exact document_ne_nil_of_mem outdated List.mem_cons_self (by decide)

theorem storedArtifact_stable_outdated : ∃ artifact, SchemaInfo.ofText outdatedResponse.pretty = .ok outdated ∧
    outdated.Conforms ∧ outdated.Shallow ∧ storedArtifact "a.json" outdatedResponse.pretty = .ok artifact ∧
    storedArtifact "b.json" artifact = .ok artifact := by
  have hread : SchemaInfo.ofText outdatedResponse.pretty = .ok outdated :=
    Schema.ofText_pretty (by decide +kernel) (by decide +kernel) (by decide +kernel)
  have hshallow : outdated.Shallow := by decide +kernel
  have hbuild : ∃ merged ∈ (mergeFragments [⟨"a.json", outdated.sdl⟩]).toOption,
      (Schema.build merged).toOption.isSome = true := by
    decide +kernel
  obtain ⟨merged, hmerge, hbuild⟩ := hbuild
  obtain ⟨s, hs⟩ := Option.isSome_iff_exists.mp hbuild
  have hstored : storedArtifact "a.json" outdatedResponse.pretty = .ok s.artifact := by
    rw [storedArtifact, hread]
    exact artifactOf_eq_ok.mpr ⟨merged, s, eq_ok_of_toOption hmerge, eq_ok_of_toOption hs, rfl⟩
  exact ⟨s.artifact, hread, conforms_outdated, hshallow, hstored,
    storedArtifact_stable hread conforms_outdated hshallow hstored "b.json"⟩

end SchemaWeave

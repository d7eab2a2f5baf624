import SchemaWeave.Proofs.Printed

/-!
# The roots of a result that follows local definitions

A conforming introspection result is merged behind local fragments. The schema then has the roots of the result, unless
all of them have the default names and a local fragment has a schema definition: the result is printed without one, and so
the local definition stands (`roots_of_remote`).
-/

namespace SchemaWeave

open Graphql Introspection

namespace Merge

/-- Fragments that a conforming result follows contribute their documents in front of that of the result. -/
theorem contributes_remote {d : SchemaInfo} (hd : d.Conforms) {locals : List Fragment} {source : String}
    {docs : List Document} (h : List.Forall₂ Contributes (locals ++ [⟨source, d.sdl⟩]) docs) :
    ∃ front, List.Forall₂ Contributes locals front ∧ docs.flatten = front.flatten ++ d.document := by
  have hreverse := List.forall₂_reverse_iff.mpr h
  rw [List.reverse_append, List.reverse_singleton, List.singleton_append, List.forall₂_cons_left_iff] at hreverse
  obtain ⟨doc, front, hdoc, hfront, hdocs⟩ := hreverse
  obtain rfl : d.document = doc := Except.ok.inj ((contributes_sdl hd source).1.symm.trans hdoc.1)
  refine ⟨front.reverse, ?_, ?_⟩
  · rw [← List.forall₂_reverse_iff, List.reverse_reverse]
    exact hfront
  · rw [← List.reverse_reverse docs, hdocs, List.reverse_cons, List.flatten_append, List.flatten_singleton]

/-- The last definition of a type is the last one of the last part that has any. -/
theorem lastType?_append (defs more : List Definition) (name : Name) :
    lastType? (defs ++ more) name = (lastType? more name).or (lastType? defs name) := by
  rw [lastType?, Schema.typeDefs, List.filterMap_append, List.reverse_append, List.find?_append]
  rfl

/-- The later part has a definition of the type, and so the earlier one does not count. -/
example : (lastType? ([.type { name := "A", body := .scalar }] ++ [.type { name := "A", body := .union ["B"] }]) "A").map
    (·.kind) = some .union := by
  decide +kernel

end Merge

namespace Schema

namespace Faultless

variable {doc : Document} {whole : Schema} (h : Faultless doc whole)

include h

/-- The roots of a schema without faults are those of its definition with those of its extensions behind. -/
theorem roots_eq : whole.roots = baseRoots doc whole.types ++ (schemaExtensions doc).flatMap (·.roots) :=
  (silently_roots doc).run h.run

/-- A type that not every schema has is the one that the document defines, extended. -/
theorem find?_types {name : Name} (hb : (DefinitionKey.type name).isBuiltin = false) :
    whole.types.find? (·.name == name) =
      ((typeDefs doc).find? (·.name == name)).map (TypeDef.extended (typeExtensions doc)) := by
  have hname : ((fun t : TypeDef => t.name == name) ∘ TypeDef.extended (typeExtensions doc)) = fun t => t.name == name := by
    funext t
    rw [Function.comp_apply, (TypeDef.extended_eq (typeExtensions doc) t).1]
  rw [h.types.eq, List.find?_map, hname, find?_builtin _ hb]

end Faultless

section

variable {d : SchemaInfo} {defs : List Definition}

/-- The schema definition of merged definitions that a result follows: that of the result if it has one, and else the
last one of the others. -/
theorem schemaDefs_remote : schemaDefs (Merge.result (defs ++ d.document)) =
    if d.namesRoot then [{ roots := d.rootNames }] else (schemaDefs defs).getLast?.toList := by
  rw [Merge.schemaDefs_result, schemaDefs, List.filterMap_append, ← schemaDefs, ← schemaDefs, schemaDefs_document]
  split
  · rw [List.getLast?_concat]
    rfl
  · rw [List.append_nil]

theorem schemaExtensions_remote : schemaExtensions (Merge.result (defs ++ d.document)) = schemaExtensions defs := by
  have hext : ∀ x ∈ d.document, x.isExtension = false := fun x hx => by
    obtain ⟨key, hk⟩ := hasKey_document d x hx
    exact (Merge.complete_of_key hk).2
  rw [Merge.schemaExtensions_result, schemaExtensions, List.filterMap_append, ← schemaExtensions, ← schemaExtensions,
    schemaExtensions_eq_nil hext, List.append_nil]

/-- Without any schema definition a root of the default name is found among the types. -/
theorem implicitRoot?_remote {whole : Schema} (h : Faultless (Merge.result (defs ++ d.document)) whole)
    (hn : d.namesRoot = false) {kind : OperationKind} {name : Name} (hr : d.root? kind = some name)
    (hobject : ∃ t, d.lastType? name = some t ∧ t.content.kind = .object) :
    implicitRoot? whole.types kind = some name := by
  have hdefault := root?_eq_default hn hr
  have hb : (DefinitionKey.type name).isBuiltin = false := by rw [hdefault]; cases kind <;> decide
  obtain ⟨t, ht, hk⟩ := hobject
  have hfound : (typeDefs (Merge.result (defs ++ d.document))).find? (·.name == name) = some t.typeDef := by
    rw [Merge.typeDefs_result, Merge.find?_definedTypes _ hb, Merge.lastType?_append, lastType?_document d hb, ht]
    rfl
  refine implicitRoot?_eq_some.mpr ⟨hdefault, _, by rw [h.find?_types hb, hfound]; rfl, ?_⟩
  rw [← kind_typeDef] at hk
  rw [(TypeDef.extended_eq _ t.typeDef).2.2]
  cases hkind : t.typeDef.kind <;> rw [hkind] at hk <;> first | rfl | cases hk

end

end Schema

/-- **The roots of a result that follows local definitions.** Let the text of a conforming result, whose roots are object
types of its list, be the last of some fragments, and let the fragments merge to a text that builds a schema. Each root
that the result has is that of the schema, unless all roots of the result have the default names and another fragment has
a schema definition: then the last such definition, with the schema extensions, tells the root. -/
theorem roots_of_remote {d : SchemaInfo} (hd : d.Conforms)
    (hobject : ∀ kind name, d.root? kind = some name → ∃ t, d.lastType? name = some t ∧ t.content.kind = .object)
    {locals : List Fragment} {source text : String} {s : Schema}
    (hmerge : mergeFragments (locals ++ [⟨source, d.sdl⟩]) = .ok text) (hbuild : Schema.build text = .ok s) :
    ∃ docs info, List.Forall₂ Merge.Contributes locals docs ∧ SchemaInfo.ofText s.artifact = .ok info ∧
      ∀ kind name, d.root? kind = some name → info.root? kind =
        match (Schema.schemaDefs docs.flatten).getLast? with
        | none => some name
        | some definition =>
          if d.namesRoot then some name
          else (definition.roots ++ (Schema.schemaExtensions docs.flatten).flatMap (·.roots)).lookup kind := by
  obtain ⟨docs, whole, hdocs, h, rfl⟩ := Schema.exists_faultless_result hmerge hbuild
  obtain ⟨front, hfront, hflatten⟩ := Merge.contributes_remote hd hdocs
  rw [hflatten] at h
  refine ⟨front, _, hfront, Schema.ofText_artifact h.resolved, fun kind name hr => ?_⟩
  have hroots : whole.roots = Schema.baseRoots (Merge.result (front.flatten ++ d.document)) whole.types ++
      (Schema.schemaExtensions front.flatten).flatMap (·.roots) := by
    rw [h.roots_eq, Schema.schemaExtensions_remote]
  have hroot : whole.dropUnusedScalars.info.root? kind = whole.roots.lookup kind := Schema.root?_info _ kind
  rw [hroot, hroots, Schema.baseRoots, Schema.schemaDefs_remote]
  cases hn : d.namesRoot with
  | true =>
    have hlookup : d.rootNames.lookup kind = some name := by
      rw [Schema.rootNames_eq, Schema.lookup_rootsBy, hr]
    simp only [if_true, List.head?_cons, Option.elim_some, List.lookup_append, hlookup, Option.some_or]
    cases (Schema.schemaDefs front.flatten).getLast? <;> rfl
  | false =>
    cases (Schema.schemaDefs front.flatten).getLast? with
    | none =>
      have himplicit := Schema.implicitRoot?_remote h hn hr (hobject kind name hr)
      simp only [Bool.false_eq_true, if_false, Option.toList_none, List.head?_nil, Option.elim_none,
        List.lookup_append, Schema.implicitRoots_eq, Schema.lookup_rootsBy, himplicit, Option.some_or]
    | some definition => rfl

/-- A root with a name of its own stands against a local schema definition. -/
theorem roots_of_remote_named : ∃ (text : String) (s : Schema) (info : SchemaInfo), (queryAlone "Root").Conforms ∧
    (∀ kind name, (queryAlone "Root").root? kind = some name →
      ∃ t, (queryAlone "Root").lastType? name = some t ∧ t.content.kind = .object) ∧
    mergeFragments ([⟨"a.graphql", "schema \x7b query: A \x7d type A \x7b id: ID \x7d"⟩] ++
      [⟨"a.json", (queryAlone "Root").sdl⟩]) = .ok text ∧
    Schema.build text = .ok s ∧ SchemaInfo.ofText s.artifact = .ok info ∧
    (queryAlone "Root").root? .query = some "Root" ∧ info.root? .query = some "Root" := by
  have hconforms : (queryAlone "Root").Conforms := conforms_queryAlone (by decide)
  have hobject : ∀ kind name, (queryAlone "Root").root? kind = some name →
      ∃ t, (queryAlone "Root").lastType? name = some t ∧ t.content.kind = .object :=
    fun _ _ => object_queryAlone "Root" (by decide)
  have hbuild : ∃ text ∈ (mergeFragments ([⟨"a.graphql", "schema \x7b query: A \x7d type A \x7b id: ID \x7d"⟩] ++
      [⟨"a.json", (queryAlone "Root").sdl⟩])).toOption, (Schema.build text).toOption.isSome = true := by
    decide +kernel
  obtain ⟨text, hmerge, hbuild⟩ := hbuild
  obtain ⟨s, hs⟩ := Option.isSome_iff_exists.mp hbuild
  have hmerge := eq_ok_of_toOption hmerge
  have hs := eq_ok_of_toOption hs
  obtain ⟨docs, info, -, hread, hroots⟩ := roots_of_remote hconforms hobject hmerge hs
  have hnames : (queryAlone "Root").namesRoot = true := by decide
  have hquery := hroots .query "Root" rfl
  rw [hnames] at hquery
  refine ⟨text, s, info, hconforms, hobject, hmerge, hs, hread, rfl, ?_⟩
  rw [hquery]
  split <;> rfl

/-- A root with the default name gives way to that of a local schema definition. -/
theorem roots_of_remote_default : ∃ (text : String) (s : Schema) (info : SchemaInfo), (queryAlone "Query").Conforms ∧
    (∀ kind name, (queryAlone "Query").root? kind = some name →
      ∃ t, (queryAlone "Query").lastType? name = some t ∧ t.content.kind = .object) ∧
    mergeFragments ([⟨"a.graphql", "schema \x7b query: A \x7d type A \x7b id: ID \x7d"⟩] ++
      [⟨"a.json", (queryAlone "Query").sdl⟩]) = .ok text ∧
    Schema.build text = .ok s ∧ SchemaInfo.ofText s.artifact = .ok info ∧
    (queryAlone "Query").root? .query = some "Query" ∧ info.root? .query = some "A" := by
  have hconforms : (queryAlone "Query").Conforms := conforms_queryAlone (by decide)
  have hobject : ∀ kind name, (queryAlone "Query").root? kind = some name →
      ∃ t, (queryAlone "Query").lastType? name = some t ∧ t.content.kind = .object :=
    fun _ _ => object_queryAlone "Query" (by decide)
  have hbuild : ∃ text ∈ (mergeFragments ([⟨"a.graphql", "schema \x7b query: A \x7d type A \x7b id: ID \x7d"⟩] ++
      [⟨"a.json", (queryAlone "Query").sdl⟩])).toOption,
      ∃ s ∈ (Schema.build text).toOption, s.info.root? .query = some "A" := by
    decide +kernel
  obtain ⟨text, hmerge, s, hs, hquery⟩ := hbuild
  have hmerge := eq_ok_of_toOption hmerge
  have hs := eq_ok_of_toOption hs
  obtain ⟨doc, whole, h, rfl⟩ := Schema.exists_faultless hmerge hs
  exact ⟨text, _, _, hconforms, hobject, hmerge, hs, Schema.ofText_artifact h.resolved, rfl, hquery⟩

end SchemaWeave

import SchemaWeave.Proofs.Reload

/-!
# Schemas of printed introspection results

The schema that is built from the printed text of a conforming introspection result consists of the definitions of the
result's document (`composed_of_sdl`). Its roots are those of the result where the document has a schema definition;
otherwise they are the types with the default names, whether the result has them as roots or not (`roots_of_sdl`).
-/

namespace SchemaWeave

open Graphql Introspection

namespace Schema

/-! ## Schemas of definitions alone -/

/-- A schema without faults whose document has no extensions consists of the definitions of the document. -/
theorem Faultless.eq_composed {doc : Document} {whole : Schema} (h : Faultless doc whole)
    (hkey : ∀ d ∈ doc, ∃ key, DefinitionKey.of? d = some key)
    (hroots : ∀ d ∈ schemaDefs doc, (d.roots.map (·.1)).Nodup) : Fits doc ∧ whole = composed doc := by
  have hcomplete : ∀ d ∈ doc, d.isExtension = false := by
    intro d hd
    obtain ⟨key, hk⟩ := hkey d hd
    exact (Merge.complete_of_key hk).2
  have htypes : whole.types = Builtin.types ++ typeDefs doc := by
    rw [h.types.eq, typeExtensions_eq_nil hcomplete]
    exact List.map_id' _
  have hfits : Fits doc := by
    refine ⟨h.keys, h.own, hcomplete, fun t ht => h.distinct t ?_, hroots⟩
    rw [htypes]
    exact List.mem_append_right _ ht
  have hrun := h.run
  rw [hfits.assemble_eq] at hrun
  exact ⟨hfits, (congrArg Prod.fst hrun).symm⟩

/-- The schema definition of a printed result, if it has one, is still there when the definitions are merged. -/
theorem schemaDefs_result (d : SchemaInfo) :
    schemaDefs (Merge.result d.document) = if d.namesRoot then [{ roots := d.rootNames }] else [] := by
  rw [Merge.schemaDefs_result, schemaDefs_document]
  split <;> rfl

end Schema

/-- **The schema of a printed result consists of the definitions that the result stands for.** -/
theorem composed_of_sdl {d : SchemaInfo} (hd : d.Conforms) {source text : String} {s : Schema}
    (hmerge : mergeFragments [⟨source, d.sdl⟩] = .ok text) (hbuild : Schema.build text = .ok s) :
    Schema.Fits (Merge.result d.document) ∧
      Schema.Faultless (Merge.result d.document) (Schema.composed (Merge.result d.document)) ∧
      s = (Schema.composed (Merge.result d.document)).dropUnusedScalars := by
  have hg : ∀ x ∈ Merge.result d.document, x.Grammatical := fun x hx =>
    (grammatical_document hd x (Merge.mem_of_mem_result hx)).1
  rw [Merge.mergeFragments_sdl hd] at hmerge
  cases hmerge
  obtain ⟨whole, hrun, hsound, rfl⟩ := Schema.assemble_of_build hbuild (read_text hg)
  have hn : ((Merge.result d.document).filterMap DefinitionKey.of?).Nodup := by
    rw [Merge.keys_result]
    exact Merge.nodup_keptKeys _
  have hfaultless : Schema.Faultless (Merge.result d.document) whole :=
    ⟨hg, hn, Merge.ownKeys_result _, hrun, hsound⟩
  obtain ⟨hfits, rfl⟩ := hfaultless.eq_composed
    (fun x hx => hasKey_document d x (Merge.mem_of_mem_result hx)) (fun x hx => by
      rw [Schema.schemaDefs_result] at hx
      split at hx
      · rw [List.mem_singleton.mp hx, Schema.rootNames_eq]
        exact Schema.nodup_rootsBy _
      · cases hx)
  exact ⟨hfits, hfaultless, rfl⟩

/-! ## Roots -/

/-- The last type of a name among those of an introspection result. -/
def Introspection.SchemaInfo.lastType? (d : SchemaInfo) (name : Name) : Option TypeInfo :=
  d.types.reverse.find? (·.name == name)

namespace Merge

theorem find?_filterMap {α : Type} {name : α → Name} {f : Name → Option α} (hf : ∀ n a, f n = some a → name a = n)
    {names : List Name} {n : Name} (hn : n ∈ names) : (names.filterMap f).find? (name · == n) = f n := by
  induction names with
  | nil => cases hn
  | cons m names ih =>
    rw [List.filterMap_cons]
    by_cases hm : m = n
    · subst hm
      cases ha : f m with
      | some a =>
        have hname : (name a == m) = true := beq_iff_eq.mpr (hf m a ha)
        simp only [List.find?_cons, hname]
      | none =>
        by_cases hmem : m ∈ names
        · exact (ih hmem).trans ha
        · refine List.find?_eq_none.mpr fun b hb he => hmem ?_
          obtain ⟨k, hk, hb⟩ := List.mem_filterMap.mp hb
          rw [← hf k b hb, beq_iff_eq.mp he] at hk
          exact hk
    · have hn := (List.mem_cons.mp hn).resolve_left fun h => hm h.symm
      cases ha : f m with
      | none => exact ih hn
      | some a =>
        have hname : (name a == n) = false := by
          rw [hf m a ha]
          exact beq_eq_false_iff_ne.mpr hm
        simp only [List.find?_cons, hname]
        exact ih hn

/-- A type that is left is the last one of its name. -/
theorem find?_definedTypes (defs : List Definition) {name : Name} (hb : (DefinitionKey.type name).isBuiltin = false) :
    (definedTypes defs).find? (·.name == name) = lastType? defs name := by
  have hname : ∀ n t, lastType? defs n = some t → t.name = n := fun n t ht => by simpa using List.find?_some ht
  by_cases hn : name ∈ typeNames defs
  · exact find?_filterMap hname hn
  · have hnone : ∀ t ∈ Schema.typeDefs defs, t.name ≠ name := by
      rintro t ht rfl
      refine hn (List.mem_eraseDups.mpr (List.mem_filter.mpr ⟨List.mem_map_of_mem ht, ?_⟩))
      rw [hb]
      rfl
    have hlast : lastType? defs name = none := by
      refine List.find?_eq_none.mpr fun t ht => ?_
      simpa using hnone t (List.mem_reverse.mp ht)
    rw [hlast]
    refine List.find?_eq_none.mpr fun t ht he => hn ?_
    obtain ⟨k, hk, ht⟩ := List.mem_filterMap.mp ht
    rw [← hname k t ht, beq_iff_eq.mp he] at hk
    exact hk

end Merge

/-- The last type definition of a name that is printed is that of the last type of the name. -/
theorem Introspection.lastType?_document (d : SchemaInfo) {name : Name} (hb : (DefinitionKey.type name).isBuiltin = false) :
    Merge.lastType? d.document name = (d.lastType? name).map TypeInfo.typeDef := by
  have hown : d.ownTypes.reverse.find? (·.name == name) = d.lastType? name := by
    rw [SchemaInfo.ownTypes, ← List.filter_reverse, SchemaInfo.lastType?, List.find?_filter]
    congr 1
    funext t
    by_cases ht : t.name = name
    · subst ht
      obtain ⟨hreserved, hscalar⟩ := Bool.or_eq_false_iff.mp hb
      simp only [hreserved, hscalar, Bool.not_false, Bool.and_self, true_and, Bool.decide_eq_true]
    · simp [ht]
  rw [Merge.lastType?, typeDefs_document, ← List.map_reverse, List.find?_map, ← hown]
  rfl

namespace Schema

/-- Behind the types that every schema has, a type that not every schema has is found among those of the document. -/
theorem find?_builtin (types : List TypeDef) {name : Name} (hb : (DefinitionKey.type name).isBuiltin = false) :
    (Builtin.types ++ types).find? (·.name == name) = types.find? (·.name == name) := by
  have hnone : Builtin.types.find? (·.name == name) = none := by
    refine List.find?_eq_none.mpr fun t ht he => ?_
    rw [beq_iff_eq] at he
    rw [← he] at hb
    exact Bool.false_ne_true (hb.symm.trans (isBuiltin_of_mem_types t ht))
  rw [List.find?_append, hnone, Option.none_or]

/-- The last type of a name that is printed is the type of this name in the schema. -/
theorem type?_composed (d : SchemaInfo) {name : Name} (hb : (DefinitionKey.type name).isBuiltin = false) :
    (composed (Merge.result d.document)).type? name = (d.lastType? name).map TypeInfo.typeDef := by
  rw [type?, composed, find?_builtin _ hb, Merge.typeDefs_result, Merge.find?_definedTypes _ hb, lastType?_document d hb]

/-- The kind of a type that is printed. -/
theorem kind_typeDef (t : TypeInfo) : refKind t.typeDef.kind = t.content.kind := by
  rw [TypeInfo.typeDef, TypeDef.kind]
  cases t.content <;> rfl

/-- The name of the root type that a printed result has for a kind of operation without a schema definition. -/
theorem implicitRoot?_composed (d : SchemaInfo) (kind : OperationKind) :
    implicitRoot? (composed (Merge.result d.document)).types kind =
      ((d.lastType? (defaultRootName kind)).filter (·.content.kind = .object)).map (·.name) := by
  have hb : (DefinitionKey.type (defaultRootName kind)).isBuiltin = false := by cases kind <;> decide
  have htype := type?_composed d hb
  rw [type?] at htype
  rw [implicitRoot?, htype, Option.filter_map, Option.map_map]
  have hkind : ∀ t : TypeInfo, decide (t.typeDef.kind = .object) = decide (t.content.kind = .object) := by
    intro t
    rw [← kind_typeDef]
    cases t.typeDef.kind <;> rfl
  congr 1
  exact congrArg (Option.filter · _) (funext hkind)

end Schema

/-- **The roots of a printed result.** If the roots of a conforming result are object types of its list, the schema that is
built from its text has them as its roots. A root that the result does not have is not one of the schema either, unless
all other roots have the default names: then an object type with the default name becomes one. -/
theorem roots_of_sdl {d : SchemaInfo} (hd : d.Conforms)
    (hobject : ∀ kind name, d.root? kind = some name → ∃ t, d.lastType? name = some t ∧ t.content.kind = .object)
    {source text : String} {s : Schema} (hmerge : mergeFragments [⟨source, d.sdl⟩] = .ok text)
    (hbuild : Schema.build text = .ok s) :
    ∃ info, SchemaInfo.ofText s.artifact = .ok info ∧ ∀ kind, info.root? kind = (d.root? kind).or
      (if d.namesRoot then none
        else ((d.lastType? (Schema.defaultRootName kind)).filter (·.content.kind = .object)).map (·.name)) := by
  obtain ⟨-, hfaultless, rfl⟩ := composed_of_sdl hd hmerge hbuild
  refine ⟨_, Schema.ofText_artifact hfaultless.resolved, fun kind => ?_⟩
  have hroots := Schema.roots_composed (Schema.schemaDefs_result d)
  have hroot : (Schema.composed (Merge.result d.document)).dropUnusedScalars.info.root? kind =
      (if d.namesRoot then d.root? else Schema.implicitRoot? (Schema.composed (Merge.result d.document)).types) kind := by
    rw [Schema.root?_info]
    exact (congrArg (List.lookup kind) hroots).trans (Schema.lookup_rootsBy _ kind)
  rw [hroot]
  cases hn : d.namesRoot with
  | true => simp
  | false =>
    rw [if_neg Bool.false_ne_true, if_neg Bool.false_ne_true, Schema.implicitRoot?_composed]
    cases hr : d.root? kind with
    | none => rfl
    | some name =>
      obtain ⟨t, ht, hk⟩ := hobject kind name hr
      have hname : t.name = name := by simpa using List.find?_some ht
      rw [← Schema.root?_eq_default hn hr, ht]
      simp [Option.filter, hk, hname]

/-- A result with two object types, one of them the root for queries, and the other one with the default name of the root
for mutations, which the result does not have. -/
def Introspection.queryAlone (query : Name) : SchemaInfo :=
  let id : Field :=
    { name := "id", description := none, args := [], type := .bare .scalar (some "ID"), isDeprecated := false,
      deprecationReason := none }
  { queryType := some query, mutationType := none, subscriptionType := none, directives := [],
    types := [⟨query, none, .object [id] []⟩, ⟨"Mutation", none, .object [id] []⟩] }

theorem Introspection.conforms_queryAlone {query : Name} (h : isName query = true) : (queryAlone query).Conforms := by
  have hid : TypeRef.Conforms (.bare .scalar (some "ID")) := ⟨rfl, by decide, by decide⟩
  have hcontent : TypeContent.Conforms (.object [⟨"id", none, [], .bare .scalar (some "ID"), false, none⟩] []) := by
    refine ⟨fun f hf => ?_, List.forall_mem_nil _⟩
    rw [List.mem_singleton.mp hf]
    exact ⟨by decide, List.forall_mem_nil _, hid⟩
  refine ⟨fun r hr => ?_, fun t ht => ?_, List.forall_mem_nil _, ?_⟩
  · rw [List.mem_singleton.mp hr]
    exact h
  · simp only [queryAlone, List.mem_cons, List.not_mem_nil, or_false] at ht
    rcases ht with rfl | rfl
    · exact ⟨h, hcontent⟩
    · exact ⟨by decide, hcontent⟩
  · exact document_ne_nil_of_mem (queryAlone query) (List.mem_cons_of_mem _ List.mem_cons_self) (by decide)

theorem Introspection.object_queryAlone (query : Name) (hne : query ≠ "Mutation") {kind : OperationKind} {name : Name}
    (h : (queryAlone query).root? kind = some name) :
    ∃ t, (queryAlone query).lastType? name = some t ∧ t.content.kind = .object := by
  cases kind <;> cases h
  have hmutation : ("Mutation" == query) = false := beq_eq_false_iff_ne.mpr hne.symm
  refine ⟨⟨query, none, .object [⟨"id", none, [], .bare .scalar (some "ID"), false, none⟩] []⟩, ?_, rfl⟩
  simp [SchemaInfo.lastType?, queryAlone, hmutation]

/-- A root for queries with a name of its own keeps the type `Mutation` from becoming a root. -/
theorem roots_of_sdl_named : ∃ (text : String) (s : Schema) (info : SchemaInfo), (queryAlone "Root").Conforms ∧
    (∀ kind name, (queryAlone "Root").root? kind = some name →
      ∃ t, (queryAlone "Root").lastType? name = some t ∧ t.content.kind = .object) ∧
    mergeFragments [⟨"a.json", (queryAlone "Root").sdl⟩] = .ok text ∧ Schema.build text = .ok s ∧
    SchemaInfo.ofText s.artifact = .ok info ∧ info.queryType = some "Root" ∧ info.mutationType = none := by
  have hconforms : (queryAlone "Root").Conforms := conforms_queryAlone (by decide)
  have hobject : ∀ kind name, (queryAlone "Root").root? kind = some name →
      ∃ t, (queryAlone "Root").lastType? name = some t ∧ t.content.kind = .object :=
    fun _ _ => object_queryAlone "Root" (by decide)
  have hbuild : ∃ text ∈ (mergeFragments [⟨"a.json", (queryAlone "Root").sdl⟩]).toOption,
      (Schema.build text).toOption.isSome = true := by
    decide +kernel
  obtain ⟨text, hmerge, hbuild⟩ := hbuild
  obtain ⟨s, hs⟩ := Option.isSome_iff_exists.mp hbuild
  have hmerge := eq_ok_of_toOption hmerge
  have hs := eq_ok_of_toOption hs
  obtain ⟨info, hread, hroots⟩ := roots_of_sdl hconforms hobject hmerge hs
  exact ⟨text, s, info, hconforms, hobject, hmerge, hs, hread, hroots .query, hroots .mutation⟩

/-- With a root for queries of the default name the type `Mutation` becomes a root, which the result does not have. -/
theorem roots_of_sdl_implied : ∃ (text : String) (s : Schema) (info : SchemaInfo), (queryAlone "Query").Conforms ∧
    (∀ kind name, (queryAlone "Query").root? kind = some name →
      ∃ t, (queryAlone "Query").lastType? name = some t ∧ t.content.kind = .object) ∧
    mergeFragments [⟨"a.json", (queryAlone "Query").sdl⟩] = .ok text ∧ Schema.build text = .ok s ∧
    SchemaInfo.ofText s.artifact = .ok info ∧ (queryAlone "Query").mutationType = none ∧
    info.mutationType = some "Mutation" := by
  have hconforms : (queryAlone "Query").Conforms := conforms_queryAlone (by decide)
  have hobject : ∀ kind name, (queryAlone "Query").root? kind = some name →
      ∃ t, (queryAlone "Query").lastType? name = some t ∧ t.content.kind = .object :=
    fun _ _ => object_queryAlone "Query" (by decide)
  have hbuild : ∃ text ∈ (mergeFragments [⟨"a.json", (queryAlone "Query").sdl⟩]).toOption,
      ∃ s ∈ (Schema.build text).toOption, s.root? .mutation = some "Mutation" := by
    decide +kernel
  obtain ⟨text, hmerge, s, hs, hmutation⟩ := hbuild
  have hmerge := eq_ok_of_toOption hmerge
  have hs := eq_ok_of_toOption hs
  obtain ⟨doc, whole, h, rfl⟩ := Schema.exists_faultless hmerge hs
  exact ⟨text, _, _, hconforms, hobject, hmerge, hs, Schema.ofText_artifact h.resolved, rfl, hmutation⟩

end SchemaWeave

import SchemaWeave.Proofs.Artifact.Inputs
import SchemaWeave.Proofs.Schema.Missing

/-!
# Merging keeps references

If fragments refer only to what some of them defines and to what every schema is supposed to have, building the merged text
reports nothing as missing but two things (`merge_keeps_references`): the directive `@oneOf`, whose definitions are dropped
although the schema does not provide it, and a type that is implemented without being an interface.
-/

namespace SchemaWeave

open Graphql

namespace Merge

/-! ## Closed fragments -/

/-- The types that definitions may refer to: those that are among them, unless their names are set apart, and the built-in
scalars. -/
def declaredTypes (defs : List Definition) : List Name :=
  ((Schema.typeDefs defs).map (·.name)).filter (!isReserved ·) ++ builtinScalars

/-- The directives that may be applied: those that are defined, and those whose definitions are left to the schema. -/
def declaredDirectives (defs : List Definition) : List Name := (Schema.directiveDefs defs).map (·.name) ++ builtinDirectives

/-- Definitions that refer to declared types and apply declared directives only. -/
structure Closed (defs : List Definition) : Prop where
  types : ∀ d ∈ defs, ∀ n ∈ d.named ++ d.interfaces, n ∈ declaredTypes defs
  directives : ∀ d ∈ defs, ∀ a ∈ d.applied, a.name ∈ declaredDirectives defs

instance (defs : List Definition) : Decidable (Closed defs) :=
  decidable_of_iff ((∀ d ∈ defs, ∀ n ∈ d.named ++ d.interfaces, n ∈ declaredTypes defs) ∧
      ∀ d ∈ defs, ∀ a ∈ d.applied, a.name ∈ declaredDirectives defs)
    ⟨fun h => ⟨h.1, h.2⟩, fun h => ⟨h.types, h.directives⟩⟩

/-! ## What is left of what is declared -/

/-- A definition whose key is not built in leaves a definition with this key. -/
theorem exists_result {defs : List Definition} {d : Definition} (hd : d ∈ defs) {key : DefinitionKey}
    (hk : DefinitionKey.of? d = some key) (hb : key.isBuiltin = false) :
    ∃ e ∈ result defs, DefinitionKey.of? e = some key := by
  have hkept : key ∈ keptKeys defs :=
    List.mem_eraseDups.mpr (List.mem_filterMap.mpr ⟨d, hd, by simp [DefinitionKey.kept?, hk, hb]⟩)
  rw [← keys_result] at hkept
  exact List.mem_filterMap.mp hkept

theorem mem_names_of_declared {defs : List Definition} {n : Name} (h : n ∈ declaredTypes defs) :
    n ∈ Schema.names (Schema.Builtin.types ++ Schema.typeDefs (result defs)) := by
  have hscalars : ∀ n ∈ builtinScalars, n ∈ Schema.names Schema.Builtin.types := by decide +kernel
  rw [Schema.names, List.map_append, List.mem_append]
  by_cases hscalar : n ∈ builtinScalars
  · exact .inl (hscalars n hscalar)
  obtain ⟨hdefined, hreserved⟩ := List.mem_filter.mp ((List.mem_append.mp h).resolve_right hscalar)
  obtain ⟨t, ht, rfl⟩ := List.mem_map.mp hdefined
  have hb : (DefinitionKey.type t.name).isBuiltin = false := by
    simpa [DefinitionKey.isBuiltin, hscalar] using hreserved
  obtain ⟨e, he, hk⟩ := exists_result (Schema.mem_typeDefs.mp ht) rfl hb
  cases e with
  | type u =>
    rw [← DefinitionKey.type.inj (Option.some.inj hk)]
    exact .inr (List.mem_map_of_mem (Schema.mem_typeDefs.mpr he))
  | _ => cases hk

/-- A declared directive is there, but for one. -/
theorem mem_directives_of_declared {defs : List Definition} {n : Name} (h : n ∈ declaredDirectives defs)
    (hn : n ≠ "oneOf") : n ∈ (Schema.Builtin.directives ++ Schema.directiveDefs (result defs)).map (·.name) := by
  have hprovided : ∀ n ∈ builtinDirectives, n ≠ "oneOf" → n ∈ Schema.Builtin.directives.map (·.name) := by decide
  rw [List.map_append, List.mem_append]
  by_cases hbuiltin : n ∈ builtinDirectives
  · exact .inl (hprovided n hbuiltin hn)
  obtain ⟨d, hd, rfl⟩ := List.mem_map.mp ((List.mem_append.mp h).resolve_right hbuiltin)
  have hb : (DefinitionKey.directive d.name).isBuiltin = false := by
    simpa [DefinitionKey.isBuiltin] using hbuiltin
  obtain ⟨e, he, hk⟩ := exists_result (Schema.mem_directiveDefs.mp hd) rfl hb
  cases e with
  | directive e =>
    rw [← DefinitionKey.directive.inj (Option.some.inj hk)]
    exact .inr (List.mem_map_of_mem (Schema.mem_directiveDefs.mpr he))
  | _ => cases hk

/-- What some definitions refer to, of what they merge to. -/
def scope (defs : List Definition) : Scope where
  type n := n ∈ Schema.names (Schema.Builtin.types ++ Schema.typeDefs (result defs))
  interface n := n ∈ declaredTypes defs ∧ ∃ d ∈ defs, n ∈ d.interfaces
  directive n := n ∈ declaredDirectives defs ∧ ∃ d ∈ defs, ∃ a ∈ d.applied, a.name = n

theorem Closed.within {defs : List Definition} (h : Closed defs) : ∀ d ∈ result defs, d.Within (scope defs) := by
  intro d hd
  have hmem := mem_of_mem_result hd
  refine ⟨fun n hn => mem_names_of_declared (h.types d hmem n (List.mem_append_left _ hn)), fun n hn => ?_, fun a ha => ?_⟩
  · exact ⟨h.types d hmem n (List.mem_append_right _ hn), d, hmem, hn⟩
  · exact ⟨h.directives d hmem a ha, d, hmem, a, ha, rfl⟩

end Merge

/-! ## Building what was merged -/

namespace Schema

theorem directive?_eq_none {s : Schema} {n : Name} : s.directive? n = none ↔ n ∉ s.directives.map (·.name) := by
  simp [directive?, List.find?_eq_none]

/-- A name that is no interface is that of a type of another kind, if it is that of a type at all. -/
theorem TypesWithin.exists_of_interface?_eq_none {σ : Scope} {s : Schema} {defs : List TypeDef}
    (h : TypesWithin σ s.types defs) {n : Name} (hn : n ∈ names defs) (hi : interface? s n = none) :
    ∃ d ∈ defs, d.name = n ∧ d.kind ≠ .interface := by
  obtain ⟨t, ht⟩ := Option.isSome_iff_exists.mp (hasType_iff.mpr ((h.mem_names n).mpr hn))
  obtain ⟨d, hd, hname, hkind⟩ := h.kinds t (List.mem_of_find?_eq_some ht)
  refine ⟨d, hd, hname.trans (name_of_type? ht), fun hinterface => ?_⟩
  rw [interface?, ht, Option.filter_some, if_pos (by rw [← hkind, hinterface]; rfl)] at hi
  cases hi

/-- What building a text reports, where the text holds a document. -/
theorem errors_of_build {text : String} {ds : List Diagnostic} (h : build text = .error ds) {doc : Document}
    {slips : List SyntaxError} (hread : Document.read text = .ok (doc, slips)) :
    ∃ whole reported, (assemble doc).run [] = (whole, reported) ∧
      ds = List.replicate slips.length .unreadable ++ reported ++ whole.diagnostics := by
  rw [build, examine, readDocument, hread] at h
  cases hrun : (assemble doc).run [] with
  | mk whole reported =>
    refine ⟨whole, reported, rfl, ?_⟩
    simp only [hrun] at h
    split at h
    · cases h
    · next he =>
      cases h
      exact (Prod.mk.inj he).2.symm

end Schema

/-- **Merging keeps references.** Let fragments be readable and refer only to what one of them defines, to the five
built-in scalars and the five directives whose definitions are left to the schema. They merge, and if building the merged
text reports anything, it reports no extension of a type that is not there; as an undefined directive it reports only
`@oneOf`, and this only if it is applied; and as an undefined type it reports only what has a definition that is no
interface, and is implemented. -/
theorem merge_keeps_references {fragments : List Fragment} {docs : List Document}
    (hdocs : List.Forall₂ Merge.Contributes fragments docs) (hclosed : Merge.Closed docs.flatten) :
    ∃ text, mergeFragments fragments = .ok text ∧ ∀ ds, Schema.build text = .error ds →
      (∀ n, .orphanTypeExtension n ∉ ds) ∧
      (∀ n, .unknownDirective n ∈ ds → n = "oneOf" ∧ ∃ d ∈ docs.flatten, ∃ a ∈ d.applied, a.name = n) ∧
      ∀ n, .unknownType n ∈ ds →
        (∃ d ∈ Schema.Builtin.types ++ Merge.definedTypes docs.flatten, d.name = n ∧ d.kind ≠ .interface) ∧
          ∃ d ∈ docs.flatten, n ∈ d.interfaces := by
  have hg : ∀ d ∈ Merge.result docs.flatten, d.Grammatical := fun d hd =>
    Merge.grammatical_of_contributes hdocs d (Merge.mem_of_mem_result hd)
  refine ⟨Document.text (Merge.result docs.flatten), ?_, fun ds hbuild => ?_⟩
  · rw [mergeFragments, Merge.mergeDocuments_eq, Merge.mapM_read_of_contributes hdocs]
    rfl
  obtain ⟨whole, reported, hrun, rfl⟩ := Schema.errors_of_build hbuild (read_text hg)
  obtain ⟨⟨hwithin, htypes, hdirectives⟩, hreported⟩ :=
    (Schema.finds_assemble hclosed.within fun n => Iff.rfl).run hrun
  have hmisses := Schema.misses_diagnostics
    (fun n hn => Schema.hasType_iff.mpr ((htypes.mem_names n).mpr hn)) hwithin
  have hmissing : ∀ d ∈ List.replicate (Merge.result docs.flatten).slips.length .unreadable ++ reported ++
      whole.diagnostics, d.isMissing = true → whole.Lacks (Merge.scope docs.flatten) d := by
    intro d hd hm
    rcases List.mem_append.mp hd with hd | hd
    · rcases List.mem_append.mp hd with hd | hd
      · rw [(List.mem_replicate.mp hd).2] at hm
        cases hm
      · rw [hreported d hd] at hm
        cases hm
    · exact hmisses d hd hm
  refine ⟨fun n hn => hmissing _ hn rfl, fun n hn => ?_, fun n hn => ?_⟩
  · obtain ⟨⟨hdeclared, happlied⟩, hnone⟩ := hmissing _ hn rfl
    refine ⟨?_, happlied⟩
    by_contra hone
    exact Schema.directive?_eq_none.mp hnone
      ((hdirectives n).mpr (Merge.mem_directives_of_declared hdeclared hone))
  · obtain ⟨⟨hdeclared, himplemented⟩, hnone⟩ := hmissing _ hn rfl
    refine ⟨?_, himplemented⟩
    rw [← Merge.typeDefs_result]
    exact htypes.exists_of_interface?_eq_none (Merge.mem_names_of_declared hdeclared) hnone

/-- An input object to which `@oneOf` is applied. -/
def choosingFragments : List Fragment :=
  [⟨"a.graphql", "type Query \x7b a: Int \x7d input I @oneOf \x7b a: Int \x7d"⟩]

theorem closed_choosingFragments : ∃ docs text ds, List.Forall₂ Merge.Contributes choosingFragments docs ∧
    Merge.Closed docs.flatten ∧ mergeFragments choosingFragments = .ok text ∧ Schema.build text = .error ds ∧
    .unknownDirective "oneOf" ∈ ds := by
  have hread : ∃ docs ∈ (choosingFragments.mapM Merge.read).toOption, Merge.Closed docs.flatten := by decide +kernel
  have hbuild : ∃ text ∈ (mergeFragments choosingFragments).toOption,
      (match Schema.build text with
        | .ok _ => false
        | .error ds => ds.any (· matches .unknownDirective "oneOf")) = true := by
    decide +kernel
  obtain ⟨docs, hdocs, hclosed⟩ := hread
  obtain ⟨text, hmerge, hbuild⟩ := hbuild
  have hcontributes := Merge.mapM_read choosingFragments
  rw [eq_ok_of_toOption hdocs] at hcontributes
  cases hds : Schema.build text with
  | ok s =>
    rw [hds] at hbuild
    cases hbuild
  | error ds =>
    rw [hds, List.any_eq_true] at hbuild
    obtain ⟨d, hd, hdirective⟩ := hbuild
    refine ⟨docs, text, ds, hcontributes, hclosed, eq_ok_of_toOption hmerge, hds, ?_⟩
    split at hdirective
    · exact hd
    · cases hdirective

theorem merge_keeps_references_choosing :
    ∃ (docs : List Document) (text : String) (ds : List Schema.Diagnostic),
      List.Forall₂ Merge.Contributes choosingFragments docs ∧ Merge.Closed docs.flatten ∧
      mergeFragments choosingFragments = .ok text ∧ Schema.build text = .error ds ∧
      (∀ n, .orphanTypeExtension n ∉ ds) ∧
      (∀ n, .unknownDirective n ∈ ds → n = "oneOf" ∧ ∃ d ∈ docs.flatten, ∃ a ∈ d.applied, a.name = n) ∧
      ∀ n, .unknownType n ∈ ds →
        (∃ d ∈ Schema.Builtin.types ++ Merge.definedTypes docs.flatten, d.name = n ∧ d.kind ≠ .interface) ∧
          ∃ d ∈ docs.flatten, n ∈ d.interfaces := by
  obtain ⟨docs, text, ds, hdocs, hclosed, hmerge, hbuild, -⟩ := closed_choosingFragments
  obtain ⟨text', hmerge', hreports⟩ := merge_keeps_references hdocs hclosed
  cases hmerge.symm.trans hmerge'
  exact ⟨docs, text, ds, hdocs, hclosed, hmerge, hbuild, hreports ds hbuild⟩

/-- The directive that is applied is one of those that every schema is supposed to have, and is reported. -/
theorem merge_breaks_oneOf : ∃ (docs : List Document) (text : String) (ds : List Schema.Diagnostic),
    List.Forall₂ Merge.Contributes choosingFragments docs ∧ Merge.Closed docs.flatten ∧ "oneOf" ∈ builtinDirectives ∧
    mergeFragments choosingFragments = .ok text ∧ Schema.build text = .error ds ∧ .unknownDirective "oneOf" ∈ ds := by
  obtain ⟨docs, text, ds, hdocs, hclosed, hmerge, hbuild, hdirective⟩ := closed_choosingFragments
  exact ⟨docs, text, ds, hdocs, hclosed, by decide, hmerge, hbuild, hdirective⟩

end SchemaWeave

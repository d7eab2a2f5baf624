import SchemaWeave.Proofs.Schema.Rebuild

/-!
# Loading an artifact again

The artifact of fragments that merge and build can stand for a remote schema: it is read, printed, merged as the only
fragment and built (`artifact_reloads`), unless what is printed lacks something that the rules ask for
(`Schema.Reloadable`).
-/

namespace SchemaWeave

open Graphql Introspection

/-! ## Merging what is printed -/

namespace Merge

/-- Definitions with keys of their own merge to themselves. -/
theorem result_eq_self {defs : List Definition} (hn : (defs.filterMap DefinitionKey.of?).Nodup)
    (ho : Schema.OwnKeys defs) (hkey : ∀ d ∈ defs, ∃ key, DefinitionKey.of? d = some key) : result defs = defs := by
  have hkept : defs.filterMap DefinitionKey.kept? = defs.filterMap DefinitionKey.of? := by
    refine List.filterMap_congr fun d hd => ?_
    rw [DefinitionKey.kept?]
    cases hk : DefinitionKey.of? d with
    | none => rfl
    | some key => simp [Option.filter, ho d hd key hk]
  have hext : defs.filter Definition.isExtension = [] := by
    refine List.filter_eq_nil_iff.mpr fun d hd => ?_
    obtain ⟨key, hk⟩ := hkey d hd
    rw [(complete_of_key hk).2]
    exact Bool.false_ne_true
  rw [result, keptKeys, hkept, eraseDups_of_nodup hn, hext, List.append_nil, List.filterMap_filterMap]
  have hself : defs.filterMap (fun d => (DefinitionKey.of? d).bind (lastWith? defs)) = defs.filterMap some := by
    refine List.filterMap_congr fun d hd => ?_
    obtain ⟨key, hk⟩ := hkey d hd
    rw [hk]
    exact lastWith?_of_mem hn hd hk
  rw [hself, List.filterMap_some]

/-- What definitions merge to is not what every schema has. -/
theorem ownKeys_result (defs : List Definition) : Schema.OwnKeys (result defs) := by
  intro d hd key hk
  have hmem : key ∈ (result defs).filterMap DefinitionKey.of? := List.mem_filterMap.mpr ⟨d, hd, hk⟩
  rw [keys_result] at hmem
  exact not_isBuiltin_of_mem hmem

/-- The text of a conforming result contributes its document. -/
theorem contributes_sdl {d : SchemaInfo} (h : d.Conforms) (source : String) :
    Contributes ⟨source, d.sdl⟩ d.document := by
  refine ⟨by rw [Document.parse, read_sdl h], fun x hx => ?_⟩
  obtain ⟨key, hk⟩ := hasKey_document d x hx
  exact (complete_of_key hk).1

/-- The text of a conforming result merges to the result of its document. -/
theorem mergeFragments_sdl {d : SchemaInfo} (h : d.Conforms) (source : String) :
    mergeFragments [⟨source, d.sdl⟩] = .ok (Document.text (result d.document)) := by
  have hread := mapM_read_of_contributes (.cons (contributes_sdl h source) .nil)
  rw [mergeFragments, mergeDocuments_eq, hread, Except.map, List.flatten_singleton]
  rfl

end Merge

namespace Schema

/-! ## Building what is printed -/

/-- A schema without faults is built from the text of its document. -/
theorem Faultless.build_text {doc : Document} {whole : Schema} (h : Faultless doc whole) (hs : doc.slips = []) :
    build doc.text = .ok whole.dropUnusedScalars := by
  have hrun := h.run
  rw [build, examine, readDocument, read_text h.grammatical, hs]
  simp only [hrun, h.sound]
  rfl

/-- Fragments that merge and build define a schema without faults. -/
theorem exists_faultless_result {fragments : List Fragment} {text : String} {s : Schema}
    (hmerge : mergeFragments fragments = .ok text) (hbuild : build text = .ok s) :
    ∃ docs whole, List.Forall₂ Merge.Contributes fragments docs ∧ Faultless (Merge.result docs.flatten) whole ∧
      s = whole.dropUnusedScalars := by
  have hmerged := Merge.mergeDocuments_result fragments
  rw [mergeFragments] at hmerge
  cases hm : mergeDocuments fragments with
  | error e =>
    rw [hm] at hmerge
    cases hmerge
  | ok merged =>
    rw [hm] at hmerge hmerged
    obtain ⟨docs, hdocs, rfl⟩ := hmerged
    cases hmerge
    have hg : ∀ d ∈ Merge.result docs.flatten, d.Grammatical := fun d h =>
      Merge.grammatical_of_contributes hdocs d (Merge.mem_of_mem_result h)
    obtain ⟨whole, hrun, hsound, rfl⟩ := assemble_of_build hbuild (read_text hg)
    refine ⟨docs, whole, hdocs, ⟨hg, ?_, Merge.ownKeys_result _, hrun, hsound⟩, rfl⟩
    rw [Merge.keys_result]
    exact Merge.nodup_keptKeys _

/-- Fragments that merge and build have a document, and the schema of the document has no faults. -/
theorem exists_faultless {fragments : List Fragment} {text : String} {s : Schema}
    (hmerge : mergeFragments fragments = .ok text) (hbuild : build text = .ok s) :
    ∃ doc whole, Faultless doc whole ∧ s = whole.dropUnusedScalars := by
  obtain ⟨docs, whole, -, h, hs⟩ := exists_faultless_result hmerge hbuild
  exact ⟨_, whole, h, hs⟩

/-- A schema that is built again from its artifact has no faults either. -/
theorem Faultless.again {doc : Document} {whole : Schema} (h : Faultless doc whole)
    (hr : whole.dropUnusedScalars.Reloadable) :
    Faultless whole.dropUnusedScalars.info.document (composed whole.dropUnusedScalars.info.document) := by
  have hfits := h.fits_document
  refine
    { grammatical := fun d hd => (grammatical_document (h.conforms_info hr) d hd).1, keys := hfits.keys, own := hfits.own,
      run := ?_, sound := h.diagnostics_composed hr }
  rw [hfits.assemble_eq]
  rfl

/-- The text that is printed from an artifact merges and builds. -/
theorem Faultless.reloads {doc : Document} {whole : Schema} (h : Faultless doc whole)
    (hr : whole.dropUnusedScalars.Reloadable) (source : String) :
    mergeFragments [⟨source, whole.dropUnusedScalars.info.sdl⟩] =
        .ok (Document.text whole.dropUnusedScalars.info.document) ∧
      build (Document.text whole.dropUnusedScalars.info.document) =
        .ok (composed whole.dropUnusedScalars.info.document).dropUnusedScalars := by
  have hconforms := h.conforms_info hr
  have hagain := h.again hr
  have hresult := Merge.result_eq_self hagain.keys hagain.own (hasKey_document whole.dropUnusedScalars.info)
  constructor
  · rw [Merge.mergeFragments_sdl hconforms, hresult]
  · refine hagain.build_text (slips_eq_nil.mpr ⟨h.document_ne_nil, fun d hd => ?_⟩)
    exact (grammatical_document hconforms d hd).2

end Schema

/-! ## The artifact -/

/-- **An artifact can stand for a remote schema.** If fragments merge to a text and the text builds a schema, the artifact
of the schema is read, and what is printed of it merges as the only fragment and builds, unless the artifact lacks
something that the rules ask for. -/
theorem artifact_reloads {fragments : List Fragment} {text : String} {s : Schema}
    (hmerge : mergeFragments fragments = .ok text) (hbuild : Schema.build text = .ok s) (hr : s.Reloadable)
    (source : String) :
    ∃ info text' s', SchemaInfo.ofText s.artifact = .ok info ∧ mergeFragments [⟨source, info.sdl⟩] = .ok text' ∧
      Schema.build text' = .ok s' := by
  obtain ⟨doc, whole, h, rfl⟩ := Schema.exists_faultless hmerge hbuild
  obtain ⟨hmerge', hbuild'⟩ := h.reloads hr source
  exact ⟨_, _, _, Schema.ofText_artifact h.resolved, hmerge', hbuild'⟩

/-- An interface with a deprecated argument, which is deprecated where it is implemented too. -/
theorem artifact_reloads_query :
    ∃ (text : String) (s : Schema) (info : SchemaInfo) (text' : String) (s' : Schema),
      mergeFragments [⟨"a.graphql", "interface A \x7b n(x: Int @deprecated): [A!] \x7d " ++
        "type Query implements A \x7b n(x: Int @deprecated): [Query!]! \x7d"⟩] = .ok text ∧
      Schema.build text = .ok s ∧ s.Reloadable ∧ SchemaInfo.ofText s.artifact = .ok info ∧
      mergeFragments [⟨"a.json", info.sdl⟩] = .ok text' ∧ Schema.build text' = .ok s' := by
  have hbuild : ∃ text ∈ (mergeFragments [⟨"a.graphql", "interface A \x7b n(x: Int @deprecated): [A!] \x7d " ++
      "type Query implements A \x7b n(x: Int @deprecated): [Query!]! \x7d"⟩]).toOption,
      ∃ s ∈ (Schema.build text).toOption, s.Reloadable := by
    decide +kernel
  obtain ⟨text, hmerge, s, hs, hr⟩ := hbuild
  have hmerge := eq_ok_of_toOption hmerge
  have hs := eq_ok_of_toOption hs
  obtain ⟨info, text', s', hread, hmerge', hbuild'⟩ := artifact_reloads hmerge hs hr "a.json"
  exact ⟨text, s, info, text', s', hmerge, hs, hr, hread, hmerge', hbuild'⟩

/-- An extension of a type of introspection is not printed, and so the type no longer implements what a field needs. -/
theorem artifact_refused :
    ∃ (text : String) (s : Schema) (info : SchemaInfo) (text' : String),
      mergeFragments [⟨"a.graphql", "interface N \x7b id: ID \x7d extend type __Schema implements N \x7b id: ID \x7d " ++
        "interface A \x7b n: N \x7d type Query implements A \x7b n: __Schema \x7d"⟩] = .ok text ∧
      Schema.build text = .ok s ∧ s.Shallow ∧ SchemaInfo.ofText s.artifact = .ok info ∧
      mergeFragments [⟨"a.json", info.sdl⟩] = .ok text' ∧ ∀ s', Schema.build text' ≠ .ok s' := by
  have hbuild : ∃ text ∈ (mergeFragments [⟨"a.graphql", "interface N \x7b id: ID \x7d " ++
      "extend type __Schema implements N \x7b id: ID \x7d " ++
      "interface A \x7b n: N \x7d type Query implements A \x7b n: __Schema \x7d"⟩]).toOption,
      ∃ s ∈ (Schema.build text).toOption, s.Shallow ∧ ∃ text' ∈ (mergeFragments [⟨"a.json", s.info.sdl⟩]).toOption,
        (Schema.build text').toOption.isNone = true := by
    decide +kernel
  obtain ⟨text, hmerge, s, hs, hshallow, text', hmerge', hrefused⟩ := hbuild
  have hmerge := eq_ok_of_toOption hmerge
  have hs := eq_ok_of_toOption hs
  obtain ⟨doc, whole, h, rfl⟩ := Schema.exists_faultless hmerge hs
  have hread := Schema.ofText_artifact h.resolved
  refine ⟨text, _, _, text', hmerge, hs, hshallow, hread, eq_ok_of_toOption hmerge', fun s' hs' => ?_⟩
  rw [hs'] at hrefused
  cases hrefused

end SchemaWeave

import SchemaWeave.Proofs.Merge

/-!
# Merging what has been merged before

The result of some definitions, put in their place among others, leaves the result of all as it was (`result_premerged`).
So the text that fragments merge to may stand for them in every list of fragments, where a merge that fails still fails
with the same error, exactly if no definition in the text has a slip in its printed form (`mergeFragments_premerged`).
-/

namespace SchemaWeave

open Graphql

namespace Merge

/-! ## Keys -/

section

variable {α : Type} [BEq α] [LawfulBEq α]

theorem eraseDups_filter (p : α → Bool) (l : List α) : (l.filter p).eraseDups = l.eraseDups.filter p := by
  have hguard : ∀ a b c : α, Option.guard p a = some c → Option.guard p b = some c → a = b := by
    intro a b c ha hb
    rw [Option.guard_eq_some_iff] at ha hb
    exact ha.1.trans hb.1.symm
  have h := eraseDups_filterMap hguard l
  simp only [List.filterMap_eq_filter] at h
  exact h

/-- Repetitions that were removed from a part before make no difference. -/
theorem eraseDups_append_eraseDups (before l after : List α) :
    (before ++ l.eraseDups ++ after).eraseDups = (before ++ l ++ after).eraseDups := by
  have hfront : (before ++ l.eraseDups).eraseDups = (before ++ l).eraseDups := by
    have hkept := (nodup_eraseDups l).sublist (List.filter_sublist (p := fun a => !before.elem a))
    rw [List.eraseDups_append, List.eraseDups_append, List.removeAll, List.removeAll, eraseDups_of_nodup hkept,
      eraseDups_filter]
  have helem : ∀ a, (before ++ l.eraseDups).elem a = (before ++ l).elem a := by
    intro a
    rw [Bool.eq_iff_iff, List.elem_iff, List.elem_iff, List.mem_append, List.mem_append, List.mem_eraseDups]
  rw [List.eraseDups_append, hfront, @List.eraseDups_append _ _ _ (before ++ l) after, List.removeAll, List.removeAll]
  simp only [helem]

end

theorem filterMap_kept? (defs : List Definition) :
    defs.filterMap DefinitionKey.kept? = (defs.filterMap DefinitionKey.of?).filter (!·.isBuiltin) :=
  List.filter_filterMap.symm

/-- What definitions merge to is kept under the keys under which they are kept. -/
theorem filterMap_kept?_result (defs : List Definition) :
    (result defs).filterMap DefinitionKey.kept? = keptKeys defs := by
  rw [filterMap_kept?, keys_result, List.filter_eq_self]
  intro key hk
  rw [not_isBuiltin_of_mem hk]
  rfl

theorem keptKeys_premerged (before defs after : List Definition) :
    keptKeys (before ++ result defs ++ after) = keptKeys (before ++ defs ++ after) := by
  simp only [keptKeys, List.filterMap_append, filterMap_kept?_result]
  exact eraseDups_append_eraseDups _ _ _

/-! ## Last definitions -/

/-- The last definition with a key is the last one of the last part that has any. -/
theorem lastWith?_parts (defs more : List Definition) (key : DefinitionKey) :
    lastWith? (defs ++ more) key = (lastWith? more key).or (lastWith? defs key) := by
  rw [lastWith?, List.reverse_append, List.find?_append]
  rfl

/-- Merging keeps the last definition of every key that is kept. -/
theorem lastWith?_result (defs : List Definition) {key : DefinitionKey} (hb : key.isBuiltin = false) :
    lastWith? (result defs) key = lastWith? defs key := by
  have hn : ((result defs).filterMap DefinitionKey.of?).Nodup := by
    rw [keys_result]
    exact nodup_keptKeys defs
  cases hl : lastWith? defs key with
  | some d =>
    have hkept := mem_keptKeys_of_lastWith? hb hl
    have hk : DefinitionKey.of? d = some key := by simpa using List.find?_some hl
    exact lastWith?_of_mem hn (List.mem_append_left _ (List.mem_filterMap.mpr ⟨key, hkept, hl⟩)) hk
  | none =>
    refine List.find?_eq_none.mpr fun d hd => ?_
    exact List.find?_eq_none.mp hl d (List.mem_reverse.mpr (mem_of_mem_result (List.mem_reverse.mp hd)))

/-- **Definitions may be merged before they are merged with others.** -/
theorem result_premerged (before defs after : List Definition) :
    result (before ++ result defs ++ after) = result (before ++ defs ++ after) := by
  have hlast : ∀ key ∈ keptKeys (before ++ defs ++ after),
      lastWith? (before ++ result defs ++ after) key = lastWith? (before ++ defs ++ after) key := by
    intro key hk
    simp only [lastWith?_parts, lastWith?_result defs (not_isBuiltin_of_mem hk)]
  rw [result, keptKeys_premerged, List.filterMap_congr hlast, List.filter_append, List.filter_append, extensions_result,
    result, List.filter_append, List.filter_append]

/-! ## Fragments -/

/-- A fragment that is read as the result of others takes their place. -/
theorem mergeDocuments_premerged {f : Fragment} {fragments : List Fragment} {docs : List Document}
    (hdocs : fragments.mapM read = .ok docs) (hf : read f = .ok (result docs.flatten)) (before after : List Fragment) :
    mergeDocuments (before ++ [f] ++ after) = mergeDocuments (before ++ fragments ++ after) := by
  have hone : [f].mapM read = .ok [result docs.flatten] := by
    rw [List.mapM_cons, hf]
    rfl
  simp only [mergeDocuments_eq, List.mapM_append, hone, hdocs]
  cases before.mapM read with
  | error e => rfl
  | ok front =>
    cases after.mapM read with
    | error e => rfl
    | ok back =>
      refine congrArg Except.ok ?_
      simp only [List.flatten_append, List.flatten_singleton]
      exact result_premerged _ _ _

/-! ## Merged texts -/

section

variable {doc : Document} (hg : ∀ d ∈ doc, d.Grammatical)

include hg

/-- A fragment with the text of a document is read as the document, if it can be read at all. -/
theorem eq_of_read_text {source : String} {doc' : Document} (h : read ⟨source, doc.text⟩ = .ok doc') : doc' = doc := by
  have hparse : Document.parse doc.text = .ok doc' := (read_eq_ok.mp h).1
  rw [Document.parse, read_text hg] at hparse
  cases hs : doc.slips with
  | nil =>
    rw [hs] at hparse
    exact (Except.ok.inj hparse).symm
  | cons slip slips =>
    rw [hs] at hparse
    cases hparse

theorem read_text_eq_ok (hx : ∀ d ∈ doc, d.isExecutable = false) (source : String) :
    read ⟨source, doc.text⟩ = .ok doc ↔ doc ≠ [] ∧ ∀ d ∈ doc, d.slips = [] := by
  rw [read_eq_ok, Contributes, parse_text hg]
  exact and_iff_left hx

end

/-- **When what has been merged may be merged again.** Let fragments merge to a text that is not empty. A fragment with
this text may stand for them in every list of fragments, whether the list merges or fails, and merges to its own text,
exactly if no definition of their result has a slip in its printed form: no schema definition is left without root
operation types, and no schema extension with neither directives nor root operation types. -/
theorem mergeFragments_premerged {fragments : List Fragment} {text : String}
    (hmerge : mergeFragments fragments = .ok text) (hne : text ≠ "") (source : String) :
    ∃ docs, List.Forall₂ Contributes fragments docs ∧ text = Document.text (result docs.flatten) ∧
      ((∀ before after, mergeFragments (before ++ [⟨source, text⟩] ++ after) =
          mergeFragments (before ++ fragments ++ after)) ↔
        ∀ d ∈ result docs.flatten, d.slips = []) ∧
      (mergeFragments [⟨source, text⟩] = .ok text ↔ ∀ d ∈ result docs.flatten, d.slips = []) := by
  have hmerged := hmerge
  rw [mergeFragments, mergeDocuments_eq] at hmerged
  cases hr : fragments.mapM read with
  | error e =>
    rw [hr] at hmerged
    cases hmerged
  | ok docs =>
    rw [hr] at hmerged
    obtain rfl : Document.text (result docs.flatten) = text := Except.ok.inj hmerged
    have hdocs := mapM_read fragments
    rw [hr] at hdocs
    have hnil : result docs.flatten ≠ [] := fun h => hne (congrArg Document.text h)
    have hg : ∀ d ∈ result docs.flatten, d.Grammatical := fun d hd =>
      grammatical_of_contributes hdocs d (mem_of_mem_result hd)
    have hread := read_text_eq_ok hg (fun d hd => not_isExecutable_of_contributes hdocs d (mem_of_mem_result hd)) source
    -- the three statements imply each other in a circle
    have hstands (hslips : ∀ d ∈ result docs.flatten, d.slips = []) (before after : List Fragment) :
        mergeFragments (before ++ [⟨source, Document.text (result docs.flatten)⟩] ++ after) =
          mergeFragments (before ++ fragments ++ after) := by
      rw [mergeFragments, mergeDocuments_premerged hr (hread.mpr ⟨hnil, hslips⟩), mergeFragments]
    have halone (h : ∀ before after,
        mergeFragments (before ++ [⟨source, Document.text (result docs.flatten)⟩] ++ after) =
          mergeFragments (before ++ fragments ++ after)) :
        mergeFragments [⟨source, Document.text (result docs.flatten)⟩] = .ok (Document.text (result docs.flatten)) := by
      have h := h [] []
      rw [List.nil_append, List.append_nil, List.nil_append, List.append_nil] at h
      exact h.trans hmerge
    have hslips (h : mergeFragments [⟨source, Document.text (result docs.flatten)⟩] =
        .ok (Document.text (result docs.flatten))) : ∀ d ∈ result docs.flatten, d.slips = [] := by
      rw [mergeFragments, mergeDocuments_eq, List.mapM_cons] at h
      cases hf : read ⟨source, Document.text (result docs.flatten)⟩ with
      | error e =>
        rw [hf] at h
        cases h
      | ok doc =>
        rw [eq_of_read_text hg hf] at hf
        exact (hread.mp hf).2
    exact ⟨docs, hdocs, rfl, ⟨fun h => hslips (halone h), hstands⟩, hslips, fun h => halone (hstands h)⟩

/-- A type that is defined in both fragments and extended in the first one. -/
theorem mergeFragments_premerged_type :
    ∃ text, mergeFragments [⟨"a.graphql", "type A \x7b a: Int \x7d extend type A \x7b b: Int \x7d"⟩,
        ⟨"b.graphql", "type B \x7b b: Int \x7d type A \x7b c: Int \x7d"⟩] = .ok text ∧ text ≠ "" ∧
      mergeFragments [⟨"merged.graphql", text⟩] = .ok text ∧
      ∀ before after, mergeFragments (before ++ [⟨"merged.graphql", text⟩] ++ after) =
        mergeFragments (before ++ [⟨"a.graphql", "type A \x7b a: Int \x7d extend type A \x7b b: Int \x7d"⟩,
          ⟨"b.graphql", "type B \x7b b: Int \x7d type A \x7b c: Int \x7d"⟩] ++ after) := by
  have hmerge : ∃ text ∈ (mergeFragments
      [⟨"a.graphql", "type A \x7b a: Int \x7d extend type A \x7b b: Int \x7d"⟩,
        ⟨"b.graphql", "type B \x7b b: Int \x7d type A \x7b c: Int \x7d"⟩]).toOption,
      text ≠ "" ∧ (mergeFragments [⟨"merged.graphql", text⟩]).toOption = some text := by
    decide +kernel
  obtain ⟨text, hmerge, hne, hagain⟩ := hmerge
  have hmerge := eq_ok_of_toOption hmerge
  have hagain := eq_ok_of_toOption hagain
  obtain ⟨docs, -, -, hstands, halone⟩ := mergeFragments_premerged hmerge hne "merged.graphql"
  exact ⟨text, hmerge, hne, hagain, hstands.mpr (halone.mp hagain)⟩

/-- A schema definition without braces is merged to one with braces, which cannot be merged again. -/
theorem mergeFragments_premerged_schema :
    ∃ text, mergeFragments [⟨"a.graphql", "schema"⟩] = .ok text ∧ text ≠ "" ∧
      mergeFragments ([] ++ [⟨"merged.graphql", text⟩] ++ []) ≠ mergeFragments ([] ++ [⟨"a.graphql", "schema"⟩] ++ []) := by
  have hmerge : ∃ text ∈ (mergeFragments [⟨"a.graphql", "schema"⟩]).toOption, text ≠ "" ∧
      (mergeFragments [⟨"merged.graphql", text⟩]).toOption = none := by
    decide +kernel
  obtain ⟨text, hmerge, hne, hrefused⟩ := hmerge
  have hmerge := eq_ok_of_toOption hmerge
  refine ⟨text, hmerge, hne, fun h => ?_⟩
  rw [List.nil_append, List.append_nil, List.nil_append, List.append_nil, hmerge] at h
  rw [h] at hrefused
  cases hrefused

end Merge

end SchemaWeave

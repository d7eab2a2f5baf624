import Mathlib.Tactic.SplitIfs
import SchemaWeave.Proofs.Schema.Info
import SchemaWeave.Schema.Rules

/-!
# A schema without faults is resolved

The rules report every name that is that of no type, and so every reference of a schema without diagnostics is
that of a type of a kind that may stand there. What is left without the scalars that are not used is resolved
(`resolved_dropUnusedScalars`).
-/

namespace SchemaWeave.Schema

open Graphql

section

variable {s : Schema}

/-- A reference that nothing is wrong with is that of a type of an allowed kind. -/
theorem checkReference_eq_nil {allowed : TypeKind → Bool} {otherwise : Diagnostic} {e : TypeExpr}
    (h : s.checkReference allowed otherwise e = []) : ∃ t, s.type? e.core = some t ∧ allowed t.kind = true := by
  rw [checkReference] at h
  split at h
  · cases h
  · next t ht =>
    split_ifs at h with hk
    exact ⟨t, ht, hk⟩

theorem hasType_of_checkReference {allowed : TypeKind → Bool} {otherwise : Diagnostic} {e : TypeExpr}
    (h : s.checkReference allowed otherwise e = []) : s.hasType e.core = true := by
  obtain ⟨t, ht, -⟩ := checkReference_eq_nil h
  rw [hasType, ht]
  rfl

theorem hasType_of_checkInput {element : NamedElement} {location : DirectiveLocation} {d : InputDef}
    (h : s.checkInput element location d = []) : s.hasType d.type.core = true :=
  hasType_of_checkReference (List.append_eq_nil_iff.mp h).2

theorem hasType_of_checkArgumentDefs {arguments : List InputDef} (h : s.checkArgumentDefs arguments = []) {d : InputDef}
    (hd : d ∈ arguments) : s.hasType d.type.core = true :=
  hasType_of_checkInput (List.flatMap_eq_nil_iff.mp (List.append_eq_nil_iff.mp h).1 d hd)

theorem hasType_of_checkField {f : FieldDef} (h : s.checkField f = []) {name : Name} (hn : name ∈ fieldReferences f) :
    s.hasType name = true := by
  obtain ⟨h, htype⟩ := List.append_eq_nil_iff.mp h
  rcases List.mem_cons.mp hn with rfl | hn
  · exact hasType_of_checkReference htype
  · obtain ⟨d, hd, rfl⟩ := List.mem_map.mp hn
    exact hasType_of_checkArgumentDefs (List.append_eq_nil_iff.mp h).2 hd

end

/-! ## The whole schema -/

section

variable {s : Schema} (hscalars : ∀ t ∈ s.types, builtinScalars.contains t.name = true → t.kind = .scalar)
  (h : s.diagnostics = [])

include h in
theorem checkRoots_eq_nil : s.checkRoots = [] := (List.append_eq_nil_iff.mp (List.append_eq_nil_iff.mp h).1).1

include h in
theorem checkDirectiveDef_eq_nil {d : DirectiveDef} (hd : d ∈ s.directives) : s.checkDirectiveDef d = [] :=
  List.flatMap_eq_nil_iff.mp (List.append_eq_nil_iff.mp (List.append_eq_nil_iff.mp h).1).2 d hd

include hscalars h in
/-- Nothing is wrong with the content of any type. The built-in scalars are not looked at, and have none. -/
theorem checkContent_eq_nil {t : TypeDef} (ht : t ∈ s.types) : s.checkContent t = [] := by
  have hcheck := List.flatMap_eq_nil_iff.mp (List.append_eq_nil_iff.mp h).2 t ht
  rw [checkType] at hcheck
  split_ifs at hcheck with hbuiltin
  · have hkind := hscalars t ht hbuiltin
    rw [TypeDef.kind] at hkind
    rw [checkContent]
    cases hb : t.body <;> rw [hb] at hkind <;> first | rfl | cases hkind
  all_goals exact (List.append_eq_nil_iff.mp hcheck).2

include hscalars h

theorem checkField_eq_nil {t : TypeDef} (ht : t ∈ s.types) {f : FieldDef} (hf : f ∈ t.body.fields) :
    s.checkField f = [] := by
  have hcontent := checkContent_eq_nil hscalars h ht
  rw [checkContent] at hcontent
  cases hb : t.body with
  | object interfaces fields | interface interfaces fields =>
    rw [hb] at hf hcontent
    simp only [List.append_eq_nil_iff] at hcontent
    obtain ⟨⟨hfields, -⟩, -⟩ := hcontent
    exact List.flatMap_eq_nil_iff.mp hfields f hf
  | _ =>
    rw [hb] at hf
    cases hf

theorem hasType_of_mem_inputs {t : TypeDef} (ht : t ∈ s.types) {d : InputDef} (hd : d ∈ t.body.inputs) :
    s.hasType d.type.core = true := by
  have hcontent := checkContent_eq_nil hscalars h ht
  rw [checkContent] at hcontent
  cases hb : t.body with
  | inputObject fields =>
    rw [hb] at hd hcontent
    simp only [List.append_eq_nil_iff] at hcontent
    obtain ⟨⟨hfields, -⟩, -⟩ := hcontent
    exact hasType_of_checkInput (List.flatMap_eq_nil_iff.mp hfields d hd)
  | _ =>
    rw [hb] at hd
    cases hd

theorem hasType_of_mem_usedTypes {name : Name} (hn : name ∈ s.usedTypes) : s.hasType name = true := by
  rw [usedTypes, List.mem_append, List.mem_flatMap, List.mem_flatMap] at hn
  rcases hn with ⟨t, ht, hn⟩ | ⟨d, hd, hn⟩
  · rw [references_eq, List.mem_append, List.mem_flatMap, List.mem_map] at hn
    rcases hn with ⟨f, hf, hn⟩ | ⟨d, hd, rfl⟩
    · exact hasType_of_checkField (checkField_eq_nil hscalars h ht hf) hn
    · exact hasType_of_mem_inputs hscalars h ht hd
  · obtain ⟨a, ha, rfl⟩ := List.mem_map.mp hn
    have hcheck := checkDirectiveDef_eq_nil h hd
    simp only [checkDirectiveDef, List.append_eq_nil_iff] at hcheck
    obtain ⟨⟨-, harguments⟩, -⟩ := hcheck
    exact hasType_of_checkArgumentDefs harguments ha

/-- The interfaces that a type implements are interface types. -/
theorem interface_of_mem {t : TypeDef} (ht : t ∈ s.types) {name : Name} (hn : name ∈ t.interfaces) :
    ∃ u, s.type? name = some u ∧ u.kind = .interface := by
  have hcontent := checkContent_eq_nil hscalars h ht
  have hinterfaces : s.checkInterfaces t = [] := by
    rw [TypeDef.interfaces] at hn
    rw [checkContent] at hcontent
    cases hb : t.body with
    | object interfaces fields | interface interfaces fields =>
      rw [hb] at hcontent
      exact (List.append_eq_nil_iff.mp hcontent).2
    | _ =>
      rw [hb] at hn
      cases hn
  simp only [checkInterfaces, List.append_eq_nil_iff] at hinterfaces
  obtain ⟨⟨⟨hunknown, -⟩, -⟩, -⟩ := hinterfaces
  have hsome := List.filter_eq_nil_iff.mp (List.map_eq_nil_iff.mp hunknown) name hn
  cases hi : interface? s name with
  | none => exact absurd (by rw [hi]; rfl) hsome
  | some u =>
    obtain ⟨hu, hk⟩ := Option.filter_eq_some_iff.mp hi
    exact ⟨u, hu, by simpa using hk⟩

theorem object_of_mem_members {t : TypeDef} (ht : t ∈ s.types) {name : Name} (hn : name ∈ t.body.members) :
    ∃ u, s.type? name = some u ∧ u.kind = .object := by
  have hcontent := checkContent_eq_nil hscalars h ht
  rw [checkContent] at hcontent
  cases hb : t.body with
  | union members =>
    rw [hb] at hn hcontent
    have hmembers := (List.append_eq_nil_iff.mp hcontent).1
    obtain ⟨u, hu, hk⟩ := checkReference_eq_nil (List.flatMap_eq_nil_iff.mp hmembers name hn)
    exact ⟨u, hu, by simpa using hk⟩
  | _ =>
    rw [hb] at hn
    cases hn

omit hscalars in
theorem object_of_mem_roots {root : OperationKind × Name} (hr : root ∈ s.roots) :
    ∃ u, s.type? root.2 = some u ∧ u.kind = .object := by
  have hroots := checkRoots_eq_nil h
  simp only [checkRoots, List.append_eq_nil_iff] at hroots
  obtain ⟨⟨⟨-, hroots⟩, -⟩, -⟩ := hroots
  obtain ⟨u, hu, hk⟩ := checkReference_eq_nil (List.flatMap_eq_nil_iff.mp hroots root hr)
  exact ⟨u, hu, by simpa using hk⟩

end

/-! ## Dropping scalars -/

theorem mem_types_dropUnusedScalars {s : Schema} {t : TypeDef} :
    t ∈ s.dropUnusedScalars.types ↔ t ∈ s.types ∧ (builtinScalars.contains t.name = true → t.name ∈ s.usedTypes) := by
  rw [dropUnusedScalars, List.mem_filter, Bool.or_eq_true, Bool.not_eq_true', List.contains_iff_mem]
  cases builtinScalars.contains t.name <;> simp

/-- A type stays if its name is used, or if it is no scalar. -/
theorem hasType_dropUnusedScalars {s : Schema} {name : Name} {t : TypeDef} (ht : s.type? name = some t)
    (hk : builtinScalars.contains t.name = true → name ∈ s.usedTypes) : s.dropUnusedScalars.hasType name = true := by
  have hname := name_of_type? ht
  rw [hasType_iff]
  refine List.mem_map.mpr ⟨t, mem_types_dropUnusedScalars.mpr ⟨List.mem_of_find?_eq_some ht, ?_⟩, hname⟩
  rw [hname] at hk ⊢
  exact hk

theorem mem_usedTypes_of_dropUnusedScalars {s : Schema} {name : Name} (h : name ∈ s.dropUnusedScalars.usedTypes) :
    name ∈ s.usedTypes := by
  rcases List.mem_append.mp h with h | h
  · obtain ⟨t, ht, hn⟩ := List.mem_flatMap.mp h
    exact List.mem_append_left _ (List.mem_flatMap.mpr ⟨t, (mem_types_dropUnusedScalars.mp ht).1, hn⟩)
  · exact List.mem_append_right _ h

/-- **A schema without faults is resolved, without the scalars that it does not use.** -/
theorem resolved_dropUnusedScalars {s : Schema} (hn : (s.types.map (·.name)).Nodup)
    (hscalars : ∀ t ∈ s.types, builtinScalars.contains t.name = true → t.kind = .scalar) (h : s.diagnostics = []) :
    s.dropUnusedScalars.Resolved := by
  have hother : ∀ {name : Name} {t : TypeDef}, s.type? name = some t → t.kind ≠ .scalar →
      s.dropUnusedScalars.hasType name = true := by
    intro name t ht hk
    apply hasType_dropUnusedScalars ht
    intro hb
    exact absurd (hscalars t (List.mem_of_find?_eq_some ht) hb) hk
  refine ⟨hn.sublist (List.filter_sublist.map _), ?_, ?_, ?_, ?_⟩
  · intro name hu
    have hu := mem_usedTypes_of_dropUnusedScalars hu
    obtain ⟨t, ht⟩ := Option.isSome_iff_exists.mp (hasType_of_mem_usedTypes hscalars h hu)
    exact hasType_dropUnusedScalars ht fun _ => hu
  · intro t ht name hi
    obtain ⟨u, hu, hk⟩ := interface_of_mem hscalars h (mem_types_dropUnusedScalars.mp ht).1 hi
    exact hother hu (by rw [hk]; exact TypeKind.noConfusion)
  · intro t ht name hm
    obtain ⟨u, hu, hk⟩ := object_of_mem_members hscalars h (mem_types_dropUnusedScalars.mp ht).1 hm
    exact hother hu (by rw [hk]; exact TypeKind.noConfusion)
  · intro root hr
    obtain ⟨u, hu, hk⟩ := object_of_mem_roots h hr
    exact hother hu (by rw [hk]; exact TypeKind.noConfusion)

end SchemaWeave.Schema

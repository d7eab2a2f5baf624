import SchemaWeave.Proofs.Artifact.Inputs

/-!
# Type references in the artifact

The introspection query asks for type references with up to seven wrappers around a named type. A reference in the artifact
is printed as the type that was declared exactly if that has no more (`artifact_references`); what is inside the eighth
wrapper is cut, and its mark is left around nothing.
-/

namespace SchemaWeave

open Graphql Introspection

/-! ## References that are cut -/

namespace Schema

theorem text_named (name : Name) : (TypeExpr.named name false).text = name := String.append_empty

/-- A named type is printed as its name. -/
theorem text_refInfo_named (s : Schema) (levels : Nat) (name : Name) :
    (s.refInfo levels (.named name false)).text = (TypeExpr.named name false).text := by
  obtain ⟨hlist, hrequired⟩ := s.outerKind_named name
  rw [refInfo_named, text_named]
  cases hk : s.outerKind (.named name false) <;> first | rfl | exact absurd hk hlist | exact absurd hk hrequired

theorem text_ne_empty {e : TypeExpr} (h : e.core ≠ "") : e.text ≠ "" := by
  cases e with
  | named name required => exact fun he => h (String.append_eq_empty_iff.mp he).1
  | list item required => simp [TypeExpr.text]

theorem text_list (item : TypeExpr) : (TypeExpr.list item false).text = "[" ++ item.text ++ "]" := String.append_empty

/-- A required list is printed as the list with an exclamation mark behind. -/
theorem text_required (item : TypeExpr) : (TypeExpr.list item true).text = (TypeExpr.list item false).text ++ "!" := by
  simp [TypeExpr.text]

/-- The mark of a wrapper that is cut is not the text of a type. -/
theorem mark_ne_text {e : TypeExpr} (h : e.core ≠ "") : "!" ≠ e.text ++ "!" ∧ "[]" ≠ "[" ++ e.text ++ "]" := by
  have hne := text_ne_empty h
  constructor
  · intro he
    exact hne ((String.append_left_inj "!").mp (he.symm.trans String.empty_append.symm))
  · intro he
    have hbracket : "[" ++ e.text = "[" ++ "" := (String.append_left_inj "]").mp he.symm
    exact hne ((String.append_right_inj "[").mp hbracket)

/-- **A reference is printed as the type exactly if the type has no more wrappers than are asked for.** By induction on the
wrappers that are asked for: each takes the outermost one off the type, and puts its mark around what is inside. -/
theorem text_refInfo_iff (s : Schema) {levels : Nat} {e : TypeExpr} (h : e.core ≠ "") :
    (s.refInfo levels e).text = e.text ↔ e.wrappers ≤ levels := by
  induction levels generalizing e with
  | zero =>
    have hcut {e : TypeExpr} (hne : (s.refInfo 0 e).text ≠ e.text) (hw : e.wrappers ≠ 0) :
        (s.refInfo 0 e).text = e.text ↔ e.wrappers ≤ 0 := iff_of_false hne fun hle => hw (Nat.le_zero.mp hle)
    match e with
    | .named name false => exact iff_of_true (s.text_refInfo_named 0 name) (Nat.zero_le 0)
    | .named name true =>
      have hmark := (mark_ne_text (e := .named name false) h).1
      rw [text_named] at hmark
      exact hcut hmark Nat.one_ne_zero
    | .list item false =>
      have hmark := (mark_ne_text (e := item) h).2
      rw [← text_list] at hmark
      exact hcut hmark (by simp [TypeExpr.wrappers])
    | .list item true =>
      have hmark := (mark_ne_text (e := .list item false) h).1
      rw [← text_required] at hmark
      exact hcut hmark (by simp [TypeExpr.wrappers])
  | succ levels ih =>
    match e with
    | .named name false => exact iff_of_true (s.text_refInfo_named _ name) (Nat.zero_le _)
    | .named name true =>
      have hmark : (s.refInfo levels (.named name false)).text ++ "!" = name ++ "!" := by
        rw [text_refInfo_named, text_named]
      exact iff_of_true hmark (Nat.le_add_left 1 levels)
    | .list item false =>
      have hmark : (s.refInfo (levels + 1) (.list item false)).text = "[" ++ (s.refInfo levels item).text ++ "]" := rfl
      rw [hmark, text_list, String.append_left_inj, String.append_right_inj, ih (e := item) h]
      exact Nat.add_le_add_iff_right.symm
    | .list item true =>
      have hmark : (s.refInfo (levels + 1) (.list item true)).text = (s.refInfo levels (.list item false)).text ++ "!" :=
        rfl
      rw [hmark, text_required, String.append_left_inj, ih (e := .list item false) h]
      exact Nat.add_le_add_iff_right.symm

example (s : Schema) : (s.refInfo 1 (.list (.named "A" true) false)).text = "[!]" := rfl

end Schema

/-! ## What is told -/

/-- A reference that is printed as the declared type exactly if this has at most seven wrappers. -/
def Refers (e : TypeExpr) (r : TypeRef) : Prop := r.text = e.text ↔ e.wrappers ≤ 7

/-- The arguments or input fields that are told have the names of those that are not deprecated, and refer to their types. -/
def RefersInputs (ds : List InputDef) (vs : List InputValue) : Prop :=
  List.Forall₂ (fun d v => v.name = d.name ∧ Refers d.type v.type) (Schema.current InputDef.directives ds) vs

structure RefersField (f : FieldDef) (g : Field) : Prop where
  name : g.name = f.name
  type : Refers f.type g.type
  arguments : RefersInputs f.arguments g.args

/-- A listed type refers to the types of the fields, arguments and input fields of a definition and its extensions. -/
structure RefersMembers (es : List TypeExtension) (d : TypeDef) (t : TypeInfo) : Prop where
  name : t.name = d.name
  fields : List.Forall₂ RefersField (d.body.fields ++ es.flatMap (·.body.fields)) t.content.fields
  inputs : RefersInputs (d.body.inputs ++ es.flatMap (·.body.inputs)) t.content.inputs

namespace Schema

section

variable (s : Schema)

theorem refers_refInfo {e : TypeExpr} (h : e.Grammatical) : Refers e (s.refInfo wrapperLevels e) := by
  refine s.text_refInfo_iff fun hempty => ?_
  have hname := h.1
  rw [hempty] at hname
  exact absurd hname (by decide)

theorem refers_inputInfos {ds : List InputDef} (h : ∀ d ∈ ds, d.Grammatical) : RefersInputs ds (s.inputInfos ds) := by
  rw [RefersInputs, inputInfos, List.forall₂_map_right_iff, List.forall₂_same]
  exact fun d hd => ⟨rfl, s.refers_refInfo (h d (List.mem_filter.mp hd).1).type⟩

theorem refers_fieldInfo {f : FieldDef} (h : f.Grammatical) : RefersField f (s.fieldInfo f) :=
  ⟨rfl, s.refers_refInfo h.type, s.refers_inputInfos h.arguments⟩

/-- A listed type refers as its definition and its extensions do, if what they have together is grammatical. -/
theorem refersMembers_typeInfo {es : List TypeExtension} {d : TypeDef}
    (hk : ∀ e ∈ es, e.name = d.name → e.body.kind = d.kind) (hg : (d.extended es).Grammatical) :
    RefersMembers (es.filter (·.name == d.name)) d (s.typeInfo (d.extended es)) := by
  have hlists := lists_typeInfo s es d hk
  obtain ⟨-, gfields, -, -, ginputs⟩ := grammatical_lists hg.body
  rw [TypeDef.extended_members TypeBody.appends_fields es d hk] at gfields
  rw [TypeDef.extended_members TypeBody.appends_inputs es d hk] at ginputs
  refine ⟨hlists.name, ?_, ?_⟩
  · rw [hlists.fields, List.forall₂_map_right_iff, List.forall₂_same]
    exact fun f hf => s.refers_fieldInfo (gfields f hf)
  · rw [hlists.inputs]
    exact s.refers_inputInfos ginputs

end

end Schema

/-! ## The artifact -/

/-- **What the artifact tells of types that are referred to.** Let fragments merge to a text that builds a schema. Every
type that the artifact lists is one that each schema has, or the last definition of its name in the fragments, with the
extensions of its name behind. The type of each of its fields, of each of their arguments and of each of its input
fields is told such that it is printed as it was declared exactly if it was declared with at most seven list and
required wrappers. The same holds for the arguments of all directives. -/
theorem artifact_references {fragments : List Fragment} {text : String} {s : Schema}
    (hmerge : mergeFragments fragments = .ok text) (hbuild : Schema.build text = .ok s) :
    ∃ docs info, List.Forall₂ Merge.Contributes fragments docs ∧ SchemaInfo.ofText s.artifact = .ok info ∧
      (∀ t ∈ info.types, ∃ d ∈ Schema.Builtin.types ++ Merge.definedTypes docs.flatten,
        RefersMembers ((Schema.typeExtensions docs.flatten).filter (·.name == d.name)) d t) ∧
      List.Forall₂ (fun d i => i.name = d.name ∧ RefersInputs d.arguments i.args)
        (Schema.Builtin.directives ++ Merge.definedDirectives docs.flatten) info.directives := by
  obtain ⟨docs, whole, hdocs, h, rfl⟩ := Schema.exists_faultless_result hmerge hbuild
  refine ⟨docs, _, hdocs, Schema.ofText_artifact h.resolved, fun t ht => ?_, ?_⟩
  · obtain ⟨extended, hkept, rfl⟩ := List.mem_map.mp ht
    have hmem := (Schema.mem_types_dropUnusedScalars.mp hkept).1
    have hg := h.grammatical_type hmem
    rw [h.types.eq] at hmem
    obtain ⟨d, hd, rfl⟩ := List.mem_map.mp hmem
    have hrefers := Schema.refersMembers_typeInfo whole.dropUnusedScalars
      (fun e he hn => h.kind_of_extension he hd hn) hg
    rw [Merge.typeDefs_result] at hd
    rw [Merge.typeExtensions_result] at hrefers ⊢
    exact ⟨d, hd, hrefers⟩
  · have hdirectives : whole.dropUnusedScalars.directives =
        Schema.Builtin.directives ++ Merge.definedDirectives docs.flatten := by
      rw [← Merge.directiveDefs_result]
      exact h.directives
    rw [← hdirectives, Schema.info, List.forall₂_map_right_iff, List.forall₂_same]
    exact fun d hd => ⟨rfl, whole.dropUnusedScalars.refers_inputInfos (h.grammatical_directive hd).arguments⟩

/-- A field with seven wrappers around its type, and an argument with eight. -/
theorem artifact_references_query :
    ∃ (text : String) (s : Schema) (docs : List Document) (info : SchemaInfo),
      mergeFragments [⟨"a.graphql", "type Query \x7b a(x: [[[[[[[Int]]]]]]!]): [[[[[[Int]]]]]]! \x7d"⟩] = .ok text ∧
      Schema.build text = .ok s ∧ SchemaInfo.ofText s.artifact = .ok info ∧
      (∀ t ∈ info.types, ∃ d ∈ Schema.Builtin.types ++ Merge.definedTypes docs.flatten,
        RefersMembers ((Schema.typeExtensions docs.flatten).filter (·.name == d.name)) d t) ∧
      List.Forall₂ (fun d i => i.name = d.name ∧ RefersInputs d.arguments i.args)
        (Schema.Builtin.directives ++ Merge.definedDirectives docs.flatten) info.directives := by
  have hbuild : ∃ text ∈ (mergeFragments
      [⟨"a.graphql", "type Query \x7b a(x: [[[[[[[Int]]]]]]!]): [[[[[[Int]]]]]]! \x7d"⟩]).toOption,
      (Schema.build text).toOption.isSome = true := by
    decide +kernel
  obtain ⟨text, hmerge, hbuild⟩ := hbuild
  obtain ⟨s, hs⟩ := Option.isSome_iff_exists.mp hbuild
  have hmerge := eq_ok_of_toOption hmerge
  have hs := eq_ok_of_toOption hs
  obtain ⟨docs, info, -, hread, htypes, hdirectives⟩ := artifact_references hmerge hs
  exact ⟨text, s, docs, info, hmerge, hs, hread, htypes, hdirectives⟩

end SchemaWeave

import SchemaWeave.Proofs.Introspection.Description
import SchemaWeave.Proofs.Schema.Alike
import SchemaWeave.Proofs.Schema.Reprint

/-!
# Definitions that are printed again

A definition that was printed from an introspection result (`TypeInfo.typeDef`) has lost what printing does not keep. What
the artifact of a schema tells of it stands for a definition that is alike (`alike_typeInfo`): only a deprecation without
a reason now has the default one.
-/

namespace SchemaWeave

open Graphql Introspection

namespace Schema

variable (s : Schema)

/-! ## Arguments and input fields -/

theorem argument_inputInfo {v : InputValue} (hg : v.argument.Grammatical) (hs : v.argument.Shallow) :
    (s.inputInfo v.argument).argument = v.argument := by
  have htype := (s.refInfo_faithful hs).1
  have hdefault := constant?_text hg.default
  simp only [InputValue.argument, inputInfo] at htype hdefault ⊢
  rw [htype, hdefault]

theorem description_idem (level : Nat) (d : Option String) :
    (d.map (readDescription level)).map (readDescription level) = d.map (readDescription level) := by
  rw [Option.map_map]
  congr 1
  funext text
  exact readDescription_idem level text

theorem inputField_inputInfo {v : InputValue} (hg : v.inputField.Grammatical) (hs : v.inputField.Shallow) :
    (s.inputInfo v.inputField).inputField = v.inputField := by
  have htype := (s.refInfo_faithful hs).1
  have hdefault := constant?_text hg.default
  simp only [InputValue.inputField, InputValue.argument, inputInfo] at htype hdefault ⊢
  rw [htype, hdefault, description_idem]

/-- Definitions without directives are all told. -/
theorem map_inputInfos {vs : List InputValue} {f : InputValue → InputDef} (hd : ∀ v, (f v).directives = [])
    (h : ∀ v ∈ vs, f (s.inputInfo (f v)) = f v) : (s.inputInfos (vs.map f)).map f = vs.map f := by
  have hcurrent : current InputDef.directives (vs.map f) = vs.map f := by
    refine List.filter_eq_self.mpr fun d hm => ?_
    obtain ⟨v, -, rfl⟩ := List.mem_map.mp hm
    rw [hd]
    rfl
  rw [inputInfos, hcurrent, List.map_map, List.map_map]
  exact List.map_congr_left h

theorem map_argument_inputInfos {vs : List InputValue} (hg : ∀ d ∈ vs.map InputValue.argument, d.Grammatical)
    (hs : ∀ d ∈ vs.map InputValue.argument, d.Shallow) :
    (s.inputInfos (vs.map InputValue.argument)).map InputValue.argument = vs.map InputValue.argument :=
  s.map_inputInfos (fun _ => rfl) fun _ hv =>
    s.argument_inputInfo (hg _ (List.mem_map_of_mem hv)) (hs _ (List.mem_map_of_mem hv))

/-! ## Fields and enum values -/

/-- A deprecation that is told and written again says the same. -/
theorem sameDeprecation_again (isDeprecated : Bool) (reason : Option String) :
    SameDeprecation (deprecation isDeprecated reason)
      (deprecation (Schema.isDeprecated (deprecation isDeprecated reason)) (reason? (deprecation isDeprecated reason))) := by
  cases isDeprecated with
  | false => exact ⟨rfl, rfl⟩
  | true => cases reason <;> exact ⟨rfl, rfl⟩

theorem alike_fieldInfo {f : Field} (hg : f.fieldDef.Grammatical) (hs : f.fieldDef.Shallow) :
    f.fieldDef.Alike (s.fieldInfo f.fieldDef).fieldDef where
  name := rfl
  description := description_idem 1 f.description
  arguments := s.map_argument_inputInfos hg.arguments hs.arguments
  type := (s.refInfo_faithful hs.type).1
  directives := sameDeprecation_again f.isDeprecated f.deprecationReason

theorem alike_valueInfo (v : EnumValue) : v.enumValueDef.Alike (valueInfo v.enumValueDef).enumValueDef where
  name := rfl
  description := description_idem 1 v.description
  directives := sameDeprecation_again v.isDeprecated v.deprecationReason

/-! ## Definitions -/

theorem alike_contentInfo (name : Name) {c : TypeContent} (hg : c.body.Grammatical)
    (hf : ∀ f ∈ c.body.fields, f.Shallow) (hi : ∀ d ∈ c.body.inputs, d.Shallow) :
    c.body.Alike (s.contentInfo name c.body).body := by
  have hfields : ∀ {fields : List Field}, (∀ f ∈ fields.map Field.fieldDef, f.Grammatical) →
      (∀ f ∈ fields.map Field.fieldDef, f.Shallow) → List.Forall₂ FieldDef.Alike (fields.map Field.fieldDef)
        (((fields.map Field.fieldDef).map s.fieldInfo).map Field.fieldDef) := by
    intro fields hg hs
    rw [List.map_map, List.forall₂_map_right_iff, List.forall₂_same]
    intro f hm
    have hf := hg f hm
    have hs := hs f hm
    obtain ⟨f, -, rfl⟩ := List.mem_map.mp hm
    exact s.alike_fieldInfo hf hs
  cases c with
  | scalar => exact .scalar
  | object fields interfaces => exact .object (hfields hg.2 hf)
  | interface fields interfaces possibleTypes => exact .interface (hfields hg.2 hf)
  | union possibleTypes => exact .union
  | enum values =>
    refine .enum ?_
    rw [List.map_map, List.forall₂_map_right_iff, List.forall₂_same]
    intro v hm
    obtain ⟨v, -, rfl⟩ := List.mem_map.mp hm
    exact alike_valueInfo v
  | inputObject fields =>
    have hinputs : (s.inputInfos (fields.map InputValue.inputField)).map InputValue.inputField =
        fields.map InputValue.inputField :=
      s.map_inputInfos (fun _ => rfl) fun v hv =>
        s.inputField_inputInfo (hg _ (List.mem_map_of_mem hv)) (hi _ (List.mem_map_of_mem hv))
    simp only [TypeContent.body, contentInfo, hinputs]
    exact .inputObject

/-- **A type that is printed again is alike.** -/
theorem alike_typeInfo {t : TypeInfo} (hg : t.typeDef.Grammatical) (hs : t.typeDef.Shallow) :
    t.typeDef.Alike (s.typeInfo t.typeDef).typeDef where
  name := rfl
  description := description_idem 0 t.description
  body := s.alike_contentInfo t.name hg.body hs.fields hs.inputs

/-- A directive that is printed again is the same. -/
theorem directiveDef_directiveInfo {d : DirectiveInfo} (hg : d.directiveDef.Grammatical)
    (hs : ∀ a ∈ d.directiveDef.arguments, a.Shallow) : (s.directiveInfo d.directiveDef).directiveDef = d.directiveDef := by
  have harguments := s.map_argument_inputInfos hg.arguments hs
  have hlocations : ∀ ls : List DirectiveLocation,
      (ls.map DirectiveLocation.name).filterMap DirectiveLocation.ofName? = ls := by
    intro ls
    rw [List.filterMap_map]
    exact (List.filterMap_congr fun l _ => ofName?_name l).trans List.filterMap_some
  simp only [DirectiveInfo.directiveDef, directiveInfo, hlocations, description_idem] at harguments ⊢
  rw [harguments]

end Schema

end SchemaWeave

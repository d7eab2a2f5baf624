import SchemaWeave.Proofs.Introspection.Sdl
import SchemaWeave.Proofs.Schema.Fitting
import SchemaWeave.Proofs.Schema.Restated

/-!
# Printing what the artifact of a schema tells

The introspection result of a schema (`Schema.info`) stands for a document that restates the definitions of the schema
(`keeps_typeInfo`), and the result conforms (`conforms_info`), if no reference has more wrappers than the query asks
for.
-/

namespace SchemaWeave

open Graphql Introspection

/-! ## Shallow references -/

/-- The type has no more wrappers than the query asks for. -/
def Graphql.InputDef.Shallow (d : InputDef) : Prop := d.type.wrappers ≤ wrapperLevels

/-- The types of the field and of its arguments have no more wrappers than the query asks for. -/
structure Graphql.FieldDef.Shallow (f : FieldDef) : Prop where
  type : f.type.wrappers ≤ wrapperLevels
  arguments : ∀ a ∈ f.arguments, a.Shallow

structure Graphql.TypeDef.Shallow (t : TypeDef) : Prop where
  fields : ∀ f ∈ t.body.fields, f.Shallow
  inputs : ∀ d ∈ t.body.inputs, d.Shallow

instance (d : InputDef) : Decidable d.Shallow := inferInstanceAs (Decidable (_ ≤ _))

instance (f : FieldDef) : Decidable f.Shallow :=
  decidable_of_iff (f.type.wrappers ≤ wrapperLevels ∧ ∀ a ∈ f.arguments, a.Shallow)
    ⟨fun h => ⟨h.1, h.2⟩, fun h => ⟨h.type, h.arguments⟩⟩

instance (t : TypeDef) : Decidable t.Shallow :=
  decidable_of_iff ((∀ f ∈ t.body.fields, f.Shallow) ∧ ∀ d ∈ t.body.inputs, d.Shallow)
    ⟨fun h => ⟨h.1, h.2⟩, fun h => ⟨h.fields, h.inputs⟩⟩

/-- A type that can be printed from what the artifact tells of it: a member is told where one has to be. -/
structure Graphql.TypeDef.Printable (t : TypeDef) : Prop where
  grammatical : t.Grammatical
  shallow : t.Shallow
  someMember : t.kind = .union → t.body.members ≠ []
  someValue : t.kind = .enum → t.body.values ≠ []
  someInput : t.kind = .inputObject → Schema.current InputDef.directives t.body.inputs ≠ []

namespace Schema

/-- No type of the schema has more wrappers than the query asks for. -/
structure Shallow (s : Schema) : Prop where
  types : ∀ t ∈ s.types, t.Shallow
  directives : ∀ d ∈ s.directives, ∀ a ∈ d.arguments, a.Shallow

instance (s : Schema) : Decidable s.Shallow :=
  decidable_of_iff ((∀ t ∈ s.types, t.Shallow) ∧ ∀ d ∈ s.directives, ∀ a ∈ d.arguments, a.Shallow)
    ⟨fun h => ⟨h.1, h.2⟩, fun h => ⟨h.types, h.directives⟩⟩

/-! ## References -/

section

variable (s : Schema)

theorem refKind_ne (kind : TypeKind) : refKind kind ≠ .list ∧ refKind kind ≠ .nonNull := by
  cases kind <;> exact ⟨RefKind.noConfusion, RefKind.noConfusion⟩

/-- The kind of a named type is not that of a wrapper. -/
theorem outerKind_named (name : Name) :
    s.outerKind (.named name false) ≠ .list ∧ s.outerKind (.named name false) ≠ .nonNull := by
  rw [outerKind]
  cases s.type? name with
  | none => exact ⟨RefKind.noConfusion, RefKind.noConfusion⟩
  | some t => exact refKind_ne t.kind

theorem refInfo_named (levels : Nat) (name : Name) :
    s.refInfo levels (.named name false) = .bare (s.outerKind (.named name false)) (some name) := by
  cases levels <;> rfl

theorem isWellFormed_bare {kind : RefKind} (h : kind ≠ .list ∧ kind ≠ .nonNull) (name : Name) :
    (TypeRef.bare kind (some name)).isWellFormed = true := by
  obtain ⟨hl, hn⟩ := h
  cases kind <;> first | rfl | exact absurd rfl hl | exact absurd rfl hn

/-- A reference that is not cut stands for the type it is the reference to. -/
theorem refInfo_faithful {levels : Nat} {e : TypeExpr} (h : e.wrappers ≤ levels) :
    (s.refInfo levels e).expr = e ∧ (s.refInfo levels e).isWellFormed = true ∧
      ((s.refInfo levels e).kind = .nonNull → e.isRequired = true) := by
  induction levels generalizing e with
  | zero =>
    cases e with
    | named name required =>
      cases required with
      | true => cases h
      | false =>
        rw [refInfo_named]
        exact ⟨rfl, isWellFormed_bare (s.outerKind_named name) name, fun hk => absurd hk (s.outerKind_named name).2⟩
    | list item required =>
      rw [TypeExpr.wrappers] at h
      omega
  | succ levels ih =>
    cases e with
    | named name required =>
      cases required with
      | false =>
        rw [refInfo_named]
        exact ⟨rfl, isWellFormed_bare (s.outerKind_named name) name, fun hk => absurd hk (s.outerKind_named name).2⟩
      | true =>
        obtain ⟨hexpr, hwell, hkind⟩ := ih (e := .named name false) (Nat.zero_le levels)
        refine ⟨?_, ?_, fun _ => rfl⟩
        · exact congrArg required hexpr
        · refine Bool.and_eq_true_iff.mpr ⟨?_, hwell⟩
          exact bne_iff_ne.mpr fun hk => Bool.false_ne_true (hkind hk)
    | list item required =>
      rw [TypeExpr.wrappers] at h
      cases required with
      | false =>
        obtain ⟨hexpr, hwell, -⟩ := ih (e := item) (by simpa using h)
        refine ⟨?_, hwell, fun hk => RefKind.noConfusion hk⟩
        exact congrArg (TypeExpr.list · false) hexpr
      | true =>
        obtain ⟨hexpr, hwell, hkind⟩ := ih (e := .list item false) (by simpa [TypeExpr.wrappers] using h)
        refine ⟨?_, ?_, fun _ => rfl⟩
        · exact congrArg required hexpr
        · refine Bool.and_eq_true_iff.mpr ⟨?_, hwell⟩
          exact bne_iff_ne.mpr fun hk => Bool.false_ne_true (hkind hk)

end

/-! ## Default values -/

theorem scans_valueText {v : Value} (h : v.Grammatical) : Scans v.text.toList v.tokens := by
  have hl : Lays (v.pieces true 0) v.tokens := by simpa using h.lays true 0 lays_nil noWordFirst_nil
  have hs := scans_pieces hl.wellLaid
  rw [hl.tokens] at hs
  simpa [Value.text, Piece.text] using hs

/-- The text of a default value is read as this value. -/
theorem constant?_text {default : Option Value} (h : ∀ v ∈ default, v.Grammatical) :
    (default.map Value.text).bind constant? = default := by
  cases default with
  | none => rfl
  | some v => exact constant?_eq (h v rfl) (scans_valueText (h v rfl))

/-! ## What is restated -/

section

variable (s : Schema)

theorem restates_argument {d : InputDef} (hg : d.Grammatical) (hs : d.Shallow) :
    d.Restates (s.inputInfo d).argument :=
  ⟨rfl, (s.refInfo_faithful hs).1, constant?_text hg.default, rfl⟩

theorem restates_inputField {d : InputDef} (hg : d.Grammatical) (hs : d.Shallow) :
    d.Restates (s.inputInfo d).inputField :=
  ⟨rfl, (s.refInfo_faithful hs).1, constant?_text hg.default, rfl⟩

theorem restates_inputs {ds : List InputDef} {f : InputValue → InputDef}
    (h : ∀ d ∈ ds, d.Restates (f (s.inputInfo d))) : InputsRestate ds ((s.inputInfos ds).map f) := by
  rw [inputInfos, List.map_map, InputsRestate, List.forall₂_map_right_iff, List.forall₂_same]
  exact fun d hd => h d (List.mem_filter.mp hd).1

theorem restates_arguments {ds : List InputDef} (hg : ∀ d ∈ ds, d.Grammatical) (hs : ∀ d ∈ ds, d.Shallow) :
    InputsRestate ds ((s.inputInfos ds).map InputValue.argument) :=
  s.restates_inputs fun d hd => s.restates_argument (hg d hd) (hs d hd)

theorem restates_fieldInfo {f : FieldDef} (hg : f.Grammatical) (hs : f.Shallow) :
    f.Restates (s.fieldInfo f).fieldDef :=
  ⟨rfl, (s.refInfo_faithful hs.type).1, s.restates_arguments hg.arguments hs.arguments, ⟨_, _, rfl⟩⟩

theorem restates_valueInfo (v : EnumValueDef) : v.Restates (valueInfo v).enumValueDef := ⟨rfl, ⟨_, _, rfl⟩⟩

theorem restates_directiveInfo {d : DirectiveDef} (hg : d.Grammatical) (hs : ∀ a ∈ d.arguments, a.Shallow) :
    d.Restates (s.directiveInfo d).directiveDef :=
  ⟨rfl, s.restates_arguments hg.arguments hs⟩

/-- What the document has for the content of a type, list by list. -/
theorem body_contentInfo (name : Name) (b : TypeBody) :
    (s.contentInfo name b).body.kind = b.kind ∧
      (s.contentInfo name b).body.interfaces = b.interfaces ∧
      (s.contentInfo name b).body.members = b.members ∧
      (s.contentInfo name b).body.fields = b.fields.map (fun f => (s.fieldInfo f).fieldDef) ∧
      (s.contentInfo name b).body.values = b.values.map (fun v => (valueInfo v).enumValueDef) ∧
      (s.contentInfo name b).body.inputs = (s.inputInfos b.inputs).map InputValue.inputField := by
  cases b with
  | object interfaces fields | interface interfaces fields =>
    exact ⟨rfl, rfl, rfl, List.map_map, rfl, rfl⟩
  | enum values => exact ⟨rfl, rfl, rfl, rfl, List.map_map, rfl⟩
  | _ => exact ⟨rfl, rfl, rfl, rfl, rfl, rfl⟩

omit s in
theorem grammatical_lists {b : TypeBody} (h : b.Grammatical) :
    (∀ n ∈ b.interfaces, isName n = true) ∧ (∀ f ∈ b.fields, f.Grammatical) ∧ (∀ n ∈ b.members, isName n = true) ∧
      (∀ v ∈ b.values, v.Grammatical) ∧ ∀ d ∈ b.inputs, d.Grammatical := by
  cases b with
  | scalar => simp [TypeBody.interfaces, TypeBody.fields, TypeBody.members, TypeBody.values, TypeBody.inputs]
  | object interfaces fields | interface interfaces fields =>
    refine ⟨h.1, h.2, ?_, ?_, ?_⟩ <;> exact List.forall_mem_nil _
  | union members => refine ⟨?_, ?_, h, ?_, ?_⟩ <;> exact List.forall_mem_nil _
  | enum values => refine ⟨?_, ?_, ?_, h, ?_⟩ <;> exact List.forall_mem_nil _
  | inputObject fields => refine ⟨?_, ?_, ?_, ?_, h⟩ <;> exact List.forall_mem_nil _

/-- A type that is printed is restated by what the artifact tells of it. -/
theorem keeps_typeInfo {t : TypeDef} (h : t.Printable) (hown : isReserved t.name = false) :
    t.Keeps (s.typeInfo t).typeDef := by
  obtain ⟨hkind, hinterfaces, hmembers, hfields, hvalues, hinputs⟩ := s.body_contentInfo t.name t.body
  obtain ⟨-, gfields, -, -, ginputs⟩ := grammatical_lists h.grammatical.body
  have hrestates : List.Forall₂ FieldDef.Restates t.body.fields (t.body.fields.map fun f => (s.fieldInfo f).fieldDef) := by
    rw [List.forall₂_map_right_iff, List.forall₂_same]
    exact fun f hf => s.restates_fieldInfo (gfields f hf) (h.shallow.fields f hf)
  refine
    { name := rfl, kind := hkind, directives := rfl, interfaces := ?_, members := hmembers,
      fields := fun f' hf' => ?_, allFields := fun _ => ?_, values := fun v' hv' => ?_, inputs := ?_,
      someField := fun hne => ?_, someValue := fun hne => ?_, someInput := fun hne => ?_ }
  · rw [hown, if_neg Bool.false_ne_true]
    exact hinterfaces
  · exact exists_of_forall₂ hrestates (hfields ▸ hf')
  · rw [← hfields] at hrestates
    exact hrestates
  · obtain ⟨v, hv, rfl⟩ := List.mem_map.mp (hvalues ▸ hv')
    exact ⟨v, hv, restates_valueInfo v⟩
  · rw [TypeInfo.typeDef, typeInfo, hinputs]
    exact s.restates_inputs fun d hd => s.restates_inputField (ginputs d hd) (h.shallow.inputs d hd)
  · rw [TypeInfo.typeDef, typeInfo, hfields]
    exact mt List.map_eq_nil_iff.mp hne
  · rw [TypeInfo.typeDef, typeInfo, hvalues]
    exact mt List.map_eq_nil_iff.mp hne
  · rw [TypeInfo.typeDef, typeInfo, hinputs, inputInfos, List.map_map]
    refine mt List.map_eq_nil_iff.mp (h.someInput ?_)
    rw [TypeDef.kind]
    cases hb : t.body <;> rw [hb] at hne <;> first | rfl | exact absurd rfl hne

/-! ## What conforms -/

theorem conforms_refInfo {e : TypeExpr} (hg : e.Grammatical) (hs : e.wrappers ≤ wrapperLevels) :
    (s.refInfo wrapperLevels e).Conforms := by
  obtain ⟨hexpr, hwell, -⟩ := s.refInfo_faithful hs
  exact ⟨hwell, by rw [hexpr]; exact hg⟩

theorem conforms_inputInfo {d : InputDef} (hg : d.Grammatical) (hs : d.Shallow) : (s.inputInfo d).Conforms := by
  refine ⟨hg.name, s.conforms_refInfo hg.type hs, fun text ht => ?_⟩
  obtain ⟨v, hv, rfl⟩ := Option.map_eq_some_iff.mp ht
  exact ⟨v, hg.default v hv, scans_valueText (hg.default v hv)⟩

theorem conforms_inputInfos {ds : List InputDef} (hg : ∀ d ∈ ds, d.Grammatical) (hs : ∀ d ∈ ds, d.Shallow) :
    ∀ v ∈ s.inputInfos ds, v.Conforms := by
  intro v hv
  obtain ⟨d, hd, rfl⟩ := List.mem_map.mp hv
  have hd := (List.mem_filter.mp hd).1
  exact s.conforms_inputInfo (hg d hd) (hs d hd)

theorem conforms_fieldInfo {f : FieldDef} (hg : f.Grammatical) (hs : f.Shallow) : (s.fieldInfo f).Conforms :=
  ⟨hg.name, s.conforms_inputInfos hg.arguments hs.arguments, s.conforms_refInfo hg.type hs.type⟩

theorem conforms_typeInfo {t : TypeDef} (h : t.Printable) : (s.typeInfo t).Conforms := by
  have hg := h.grammatical.body
  have hfields : ∀ f ∈ t.body.fields, (s.fieldInfo f).Conforms := fun f hf =>
    s.conforms_fieldInfo ((grammatical_lists hg).2.1 f hf) (h.shallow.fields f hf)
  have hmember := h.someMember
  have hvalue := h.someValue
  have hinput := h.someInput
  have hinputs := h.shallow.inputs
  refine ⟨h.grammatical.name, ?_⟩
  rw [typeInfo]
  rw [TypeDef.kind] at hmember hvalue hinput
  cases hb : t.body with
  | scalar => trivial
  | object interfaces fields | interface interfaces fields =>
    rw [hb] at hg hfields
    exact ⟨List.forall_mem_map.mpr hfields, hg.1⟩
  | union members =>
    rw [hb] at hg hmember
    exact ⟨hmember rfl, hg⟩
  | enum values =>
    rw [hb] at hg hvalue
    refine ⟨mt List.map_eq_nil_iff.mp (hvalue rfl), List.forall_mem_map.mpr fun v hv => ?_⟩
    exact ⟨(hg v hv).name, (hg v hv).notKeyword⟩
  | inputObject fields =>
    rw [hb] at hg hinput hinputs
    exact ⟨mt List.map_eq_nil_iff.mp (hinput rfl), s.conforms_inputInfos hg hinputs⟩

theorem ofName?_name (l : DirectiveLocation) : DirectiveLocation.ofName? l.name = some l := by
  cases l <;> rfl

theorem conforms_directiveInfo {d : DirectiveDef} (hg : d.Grammatical) (hs : ∀ a ∈ d.arguments, a.Shallow) :
    (s.directiveInfo d).Conforms := by
  refine ⟨hg.name, s.conforms_inputInfos hg.arguments hs, ?_, ?_⟩
  · exact mt List.map_eq_nil_iff.mp hg.locations
  · refine List.forall_mem_map.mpr fun l _ => ?_
    rw [ofName?_name]
    rfl

end

end Schema

end SchemaWeave

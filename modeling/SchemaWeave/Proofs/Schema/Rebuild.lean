import SchemaWeave.Proofs.Schema.Reprint
import SchemaWeave.Proofs.Schema.Roots

/-!
# Building a schema again from its artifact

The document that the introspection result of a schema stands for fits (`fits_document`), and the schema that is put
together from it restates the first one (`keeps_composed`). So it has no faults if the first one has none
(`diagnostics_composed`).
-/

namespace SchemaWeave

open Graphql Introspection

/-! ## The definitions of an introspection result -/

namespace Introspection

variable (d : SchemaInfo)

/-- Whether a root type has a name of its own. -/
def SchemaInfo.namesRoot : Bool := d.rootNames.any fun (kind, name) => name != Schema.defaultRootName kind

/-- The directives and types that are written out. -/
def SchemaInfo.ownDirectives : List DirectiveInfo := d.directives.filter fun d => !builtinDirectives.contains d.name

def SchemaInfo.ownTypes : List TypeInfo :=
  d.types.filter fun t => !isReserved t.name && !builtinScalars.contains t.name

theorem document_eq : d.document = (if d.namesRoot then [.schema { roots := d.rootNames }] else []) ++
    (d.ownDirectives.map fun d => .directive d.directiveDef) ++ d.ownTypes.map fun t => .type t.typeDef := rfl

/-- Where one type is printed, something is. -/
theorem document_ne_nil_of_mem {t : TypeInfo} (ht : t ∈ d.types) (hprinted : t.isPrinted = true) : d.document ≠ [] := by
  rw [document_eq]
  exact List.append_ne_nil_of_right_ne_nil _
    (List.ne_nil_of_mem (List.mem_map_of_mem (List.mem_filter.mpr ⟨ht, hprinted⟩)))

theorem typeDefs_document : Schema.typeDefs d.document = d.ownTypes.map TypeInfo.typeDef := by
  rw [document_eq, Schema.typeDefs, List.filterMap_append, List.filterMap_append, List.filterMap_map,
    List.filterMap_map]
  split <;> simp

theorem directiveDefs_document : Schema.directiveDefs d.document = d.ownDirectives.map DirectiveInfo.directiveDef := by
  rw [document_eq, Schema.directiveDefs, List.filterMap_append, List.filterMap_append, List.filterMap_map,
    List.filterMap_map]
  split <;> simp

theorem schemaDefs_document :
    Schema.schemaDefs d.document = if d.namesRoot then [{ roots := d.rootNames }] else [] := by
  rw [document_eq, Schema.schemaDefs, List.filterMap_append, List.filterMap_append, List.filterMap_map,
    List.filterMap_map]
  split <;> simp

/-- Nothing that is written out is what every schema has. -/
theorem ownKeys_document : Schema.OwnKeys d.document := by
  intro x hx key hkey
  rw [document_eq, List.mem_append, List.mem_append] at hx
  rcases hx with (hx | hx) | hx
  · split at hx
    · rw [List.mem_singleton.mp hx] at hkey
      cases hkey
      rfl
    · cases hx
  · obtain ⟨e, he, rfl⟩ := List.mem_map.mp hx
    cases hkey
    exact (Bool.not_eq_true' _).mp (List.mem_filter.mp he).2
  · obtain ⟨t, ht, rfl⟩ := List.mem_map.mp hx
    cases hkey
    have hown := (List.mem_filter.mp ht).2
    rw [Bool.and_eq_true, Bool.not_eq_true', Bool.not_eq_true'] at hown
    exact Bool.or_eq_false_iff.mpr hown

/-- Nothing that is written out is an extension, an operation or a fragment. -/
theorem hasKey_document : ∀ x ∈ d.document, ∃ key, DefinitionKey.of? x = some key := by
  intro x hx
  rw [document_eq, List.mem_append, List.mem_append] at hx
  rcases hx with (hx | hx) | hx
  · split at hx
    · rw [List.mem_singleton.mp hx]
      exact ⟨_, rfl⟩
    · cases hx
  · obtain ⟨e, -, rfl⟩ := List.mem_map.mp hx
    exact ⟨_, rfl⟩
  · obtain ⟨t, -, rfl⟩ := List.mem_map.mp hx
    exact ⟨_, rfl⟩

/-- The definitions that are written out have keys of their own if the directives and the types have names of their own. -/
theorem nodup_keys_document (hdirectives : (d.ownDirectives.map (·.name)).Nodup) (htypes : (d.ownTypes.map (·.name)).Nodup) :
    (d.document.filterMap DefinitionKey.of?).Nodup := by
  have hkeys : d.document.filterMap DefinitionKey.of? = (if d.namesRoot then [.schema] else []) ++
      (d.ownDirectives.map (·.name)).map .directive ++ (d.ownTypes.map (·.name)).map .type := by
    rw [document_eq, List.filterMap_append, List.filterMap_append, List.filterMap_map, List.filterMap_map]
    split <;> simp [Function.comp_def, DefinitionKey.of?, DirectiveInfo.directiveDef, TypeInfo.typeDef]
  have hschema : (if d.namesRoot then [DefinitionKey.schema] else []).Nodup := by
    split
    · exact List.nodup_singleton _
    · exact List.nodup_nil
  have hdirectives := hdirectives.map (f := DefinitionKey.directive) fun _ _ h => by cases h; rfl
  have htypes := htypes.map (f := DefinitionKey.type) fun _ _ h => by cases h; rfl
  rw [hkeys, List.nodup_append, List.nodup_append]
  refine ⟨⟨hschema, hdirectives, fun k hk k' hk' he => ?_⟩, htypes, fun k hk k' hk' he => ?_⟩
  · obtain ⟨n, -, rfl⟩ := List.mem_map.mp hk'
    split at hk
    · cases (List.mem_singleton.mp hk).symm.trans he
    · cases hk
  · obtain ⟨n, -, rfl⟩ := List.mem_map.mp hk'
    rcases List.mem_append.mp hk with hk | hk
    · split at hk
      · cases (List.mem_singleton.mp hk).symm.trans he
      · cases hk
    · obtain ⟨m, -, rfl⟩ := List.mem_map.mp hk
      cases he

end Introspection

namespace Schema

/-! ## Roots -/

section

variable {d : SchemaInfo} {doc : Document}

/-- A root type of an introspection result that names none of its own has the default name. -/
theorem root?_eq_default (hn : d.namesRoot = false) {kind : OperationKind} {name : Name} (h : d.root? kind = some name) :
    name = defaultRootName kind := by
  rw [SchemaInfo.namesRoot, rootNames_eq, List.any_eq_false] at hn
  have hdefault := hn (kind, name) (by rw [mem_rootsBy]; exact h)
  simpa using hdefault

variable (hdefs : schemaDefs doc = if d.namesRoot then [{ roots := d.rootNames }] else [])

include hdefs

theorem applied_composed : (composed doc).applied = [] := by
  rw [composed, hdefs]
  split <;> rfl

/-- The roots of the definition that is written out, or those of the types by their names. -/
theorem roots_composed : (composed doc).roots =
    rootsBy (if d.namesRoot then d.root? else implicitRoot? (Builtin.types ++ typeDefs doc)) := by
  rw [composed, hdefs]
  split
  · exact rootNames_eq d
  · exact implicitRoots_eq _

end

/-! ## Built-in definitions -/

instance (e : TypeExpr) : Decidable e.Grammatical := inferInstanceAs (Decidable (_ ∧ _))

/-- What the arguments of built-in fields and directives are like: without directives, and with a plain default value if
with any. -/
def PlainInput (d : InputDef) : Prop :=
  isName d.name = true ∧ d.type.Grammatical ∧ d.directives = [] ∧ ∀ v ∈ d.default, v matches .boolean _ | .string _

instance (d : InputDef) : Decidable (PlainInput d) := inferInstanceAs (Decidable (_ ∧ _ ∧ _ ∧ _))

theorem PlainInput.grammatical {d : InputDef} (h : PlainInput d) : d.Grammatical := by
  obtain ⟨hname, htype, hdirectives, hdefault⟩ := h
  refine ⟨hname, htype, fun v hv => ?_, by rw [hdirectives]; exact List.forall_mem_nil _⟩
  have hplain := hdefault v hv
  cases v <;> first | exact trivial | cases hplain

theorem PlainInput.restates {ds : List InputDef} (h : ∀ d ∈ ds, PlainInput d) : InputsRestate ds ds := by
  have hcurrent : current InputDef.directives ds = ds := by
    refine List.filter_eq_self.mpr fun d hd => ?_
    rw [(h d hd).2.2.1]
    rfl
  rw [InputsRestate, hcurrent, List.forall₂_same]
  exact fun d hd => ⟨rfl, rfl, rfl, (h d hd).2.2.1⟩

/-- What the built-in types are like: objects, enums and scalars without directives and interfaces. -/
structure PlainType (t : TypeDef) : Prop where
  name : isName t.name = true
  kind : t.kind = .object ∨ t.kind = .enum ∨ t.kind = .scalar
  directives : t.directives = []
  interfaces : t.body.interfaces = []
  fields : ∀ f ∈ t.body.fields, isName f.name = true ∧ f.type.Grammatical ∧ f.directives = [] ∧
    ∀ a ∈ f.arguments, PlainInput a
  values : ∀ v ∈ t.body.values, isName v.name = true ∧ v.name ∉ Value.keywords ∧ v.directives = []
  someField : t.kind = .object → t.body.fields ≠ []
  someValue : t.kind = .enum → t.body.values ≠ []

theorem plainType_builtin : ∀ t ∈ Builtin.types, PlainType t := by
  have h : ∀ t ∈ Builtin.types, isName t.name = true ∧ (t.kind = .object ∨ t.kind = .enum ∨ t.kind = .scalar) ∧
      t.directives = [] ∧ t.body.interfaces = [] ∧ (t.kind = .object → t.body.fields ≠ []) ∧
      (t.kind = .enum → t.body.values ≠ []) := by decide +kernel
  have hfields : ∀ t ∈ Builtin.types, ∀ f ∈ t.body.fields, isName f.name = true ∧ f.type.Grammatical ∧
      f.directives = [] ∧ ∀ a ∈ f.arguments, PlainInput a := by decide +kernel
  have hvalues : ∀ t ∈ Builtin.types, ∀ v ∈ t.body.values, isName v.name = true ∧ v.name ∉ Value.keywords ∧
      v.directives = [] := by decide +kernel
  intro t ht
  obtain ⟨hname, hkind, hdirectives, hinterfaces, hfield, hvalue⟩ := h t ht
  exact ⟨hname, hkind, hdirectives, hinterfaces, hfields t ht, hvalues t ht, hfield, hvalue⟩

theorem PlainType.grammatical {t : TypeDef} (h : PlainType t) : t.Grammatical := by
  have hfields : ∀ f ∈ t.body.fields, f.Grammatical := fun f hf => by
    obtain ⟨hname, htype, hdirectives, harguments⟩ := h.fields f hf
    exact ⟨hname, fun a ha => (harguments a ha).grammatical, htype, by rw [hdirectives]; exact List.forall_mem_nil _⟩
  have hvalues : ∀ v ∈ t.body.values, v.Grammatical := fun v hv => by
    obtain ⟨hname, hkeyword, hdirectives⟩ := h.values v hv
    exact ⟨hname, hkeyword, by rw [hdirectives]; exact List.forall_mem_nil _⟩
  have hkind := h.kind
  have hinterfaces := h.interfaces
  refine ⟨h.name, by rw [h.directives]; exact List.forall_mem_nil _, ?_⟩
  rw [TypeDef.kind] at hkind
  cases hb : t.body <;> rw [hb] at hkind hinterfaces hfields hvalues <;> simp only [TypeBody.kind, reduceCtorEq, or_false,
    or_true] at hkind
  case scalar => trivial
  case object =>
    cases hinterfaces
    exact ⟨List.forall_mem_nil _, hfields⟩
  case enum => exact hvalues

/-- What the built-in directives are like. -/
theorem plainDirective_builtin : ∀ d ∈ Builtin.directives, isName d.name = true ∧ d.locations ≠ [] ∧
    ∀ a ∈ d.arguments, PlainInput a := by decide +kernel

/-! ## Extended types -/

/-- Content that is added is grammatical if both parts are. -/
theorem grammatical_append {a b : TypeBody} (ha : a.Grammatical) (hb : b.Grammatical) : (a.append b).Grammatical := by
  cases a <;> cases b <;> first | exact ha | skip
  case object.object | interface.interface =>
    exact ⟨List.forall_mem_append.mpr ⟨ha.1, hb.1⟩, List.forall_mem_append.mpr ⟨ha.2, hb.2⟩⟩
  all_goals exact List.forall_mem_append.mpr ⟨ha, hb⟩

theorem grammatical_extended {es : List TypeExtension} (hes : ∀ e ∈ es, e.Grammatical) {t : TypeDef}
    (ht : t.Grammatical) : (t.extended es).Grammatical := by
  rw [TypeDef.extended]
  have hes : ∀ e ∈ es.filter (·.name == t.name), e.Grammatical := fun e he => hes e (List.mem_filter.mp he).1
  revert hes
  generalize es.filter (·.name == t.name) = es
  intro hes
  induction es generalizing t with
  | nil => exact ht
  | cons e es ih =>
    have he := hes e List.mem_cons_self
    refine ih ?_ fun e' he' => hes e' (List.mem_cons_of_mem e he')
    exact ⟨ht.name, List.forall_mem_append.mpr ⟨ht.directives, he.directives⟩, grammatical_append ht.body he.body⟩

/-- Members that content has are still there when more is added. -/
theorem subset_extended {α : Type} {list : TypeBody → List α} (hl : ∀ a b : TypeBody, list a ⊆ list (a.append b))
    (es : List TypeExtension) (t : TypeDef) : list t.body ⊆ list (t.extended es).body := by
  rw [TypeDef.extended]
  generalize es.filter (·.name == t.name) = es
  induction es generalizing t with
  | nil => exact List.Subset.refl _
  | cons e es ih => exact List.Subset.trans (hl t.body e.body) (ih (t.extend e))

theorem fields_subset_append (a b : TypeBody) : a.fields ⊆ (a.append b).fields := by
  cases a <;> cases b <;> first | exact List.Subset.refl _ | exact List.subset_append_left _ _

theorem values_subset_append (a b : TypeBody) : a.values ⊆ (a.append b).values := by
  cases a <;> cases b <;> first | exact List.Subset.refl _ | exact List.subset_append_left _ _

theorem fields_eq_nil {b : TypeBody} (ho : b.kind ≠ .object) (hi : b.kind ≠ .interface) : b.fields = [] := by
  cases b <;> first | rfl | exact absurd rfl ho | exact absurd rfl hi

theorem members_eq_nil {b : TypeBody} (h : b.kind ≠ .union) : b.members = [] := by
  cases b <;> first | rfl | exact absurd rfl h

theorem values_eq_nil {b : TypeBody} (h : b.kind ≠ .enum) : b.values = [] := by
  cases b <;> first | rfl | exact absurd rfl h

theorem inputs_eq_nil {b : TypeBody} (h : b.kind ≠ .inputObject) : b.inputs = [] := by
  cases b <;> first | rfl | exact absurd rfl h

/-- A built-in type restates what extensions make of it, if they add no interfaces or the type is one of introspection. -/
theorem PlainType.keeps_extended {t : TypeDef} (h : PlainType t) {es : List TypeExtension}
    (hi : isReserved t.name = true ∨ (t.extended es).body.interfaces = []) : (t.extended es).Keeps t := by
  obtain ⟨hname, -, hkind⟩ := TypeDef.extended_eq es t
  have hkinds : t.kind ≠ .union ∧ t.kind ≠ .inputObject ∧ t.kind ≠ .interface := by
    rcases h.kind with hk | hk | hk <;> rw [hk] <;> decide
  obtain ⟨hunion, hinput, hinterface⟩ := hkinds
  have hbody : (t.extended es).body.kind = t.body.kind := hkind
  have hinputs : (t.extended es).body.inputs = [] := inputs_eq_nil (by rw [hbody]; exact hinput)
  have hmembers : (t.extended es).body.members = [] := members_eq_nil (by rw [hbody]; exact hunion)
  refine
    { name := hname.symm, kind := hkind.symm, directives := h.directives, interfaces := ?_,
      members := by rw [hmembers, members_eq_nil hunion], fields := fun f hf => ?_, allFields := fun hall => ?_,
      values := fun v hv => ?_, inputs := ?_, someField := fun hne => ?_, someValue := fun hne => ?_,
      someInput := fun hne => absurd hinputs hne }
  · rw [h.interfaces, hname]
    rcases hi with hreserved | hnone
    · exact (if_pos hreserved).symm
    · rw [hnone, ite_self]
  · obtain ⟨-, -, hdirectives, harguments⟩ := h.fields f hf
    refine ⟨f, subset_extended fields_subset_append es t hf, rfl, rfl, PlainInput.restates harguments, ?_⟩
    exact ⟨false, none, hdirectives⟩
  · rcases hall with hall | hall
    · exact absurd (hkind ▸ hall) hinterface
    · exact absurd h.interfaces hall
  · obtain ⟨-, -, hdirectives⟩ := h.values v hv
    exact ⟨v, subset_extended values_subset_append es t hv, rfl, false, none, hdirectives⟩
  · rw [hinputs, inputs_eq_nil hinput]
    exact List.Forall₂.nil
  · refine h.someField (by_contra fun hobject => hne (fields_eq_nil ?_ ?_))
    · rw [hbody]
      exact hobject
    · rw [hbody]
      exact hinterface
  · refine h.someValue (by_contra fun henum => hne (values_eq_nil ?_))
    rw [hbody]
    exact henum

/-- What the artifact tells of the content of a type has its members, or some of them. -/
theorem distinct_contentInfo (s : Schema) (name : Name) {b : TypeBody} (h : b.Distinct) :
    (s.contentInfo name b).body.Distinct := by
  obtain ⟨-, hinterfaces, hmembers, hfields, hvalues, hinputs⟩ := s.body_contentInfo name b
  refine ⟨hinterfaces ▸ h.interfaces, ?_, hmembers ▸ h.members, ?_, ?_⟩
  · rw [hfields, List.map_map]
    exact h.fields
  · rw [hvalues, List.map_map]
    exact h.values
  · rw [hinputs, inputInfos, List.map_map, List.map_map]
    exact h.inputs.sublist (List.filter_sublist.map _)

/-! ## Schemas without faults -/

theorem mem_typeExtensions {doc : Document} {e : TypeExtension} (h : e ∈ typeExtensions doc) : .typeExtension e ∈ doc := by
  rw [typeExtensions, List.mem_filterMap] at h
  obtain ⟨d, hd, he⟩ := h
  cases d <;> cases he
  exact hd

/-- A schema without faults that is put together, without a report, from definitions with keys of their own. -/
structure Faultless (doc : Document) (whole : Schema) : Prop where
  grammatical : ∀ d ∈ doc, d.Grammatical
  keys : (doc.filterMap DefinitionKey.of?).Nodup
  own : OwnKeys doc
  run : (assemble doc).run [] = (whole, [])
  sound : whole.diagnostics = []

namespace Faultless

variable {doc : Document} {whole : Schema} (h : Faultless doc whole)

include h

theorem types : AssembledTypes doc whole.types := (silently_assemble doc).run h.run

theorem distinct : DistinctTypes whole.types := (silently_distinct doc).run h.run

theorem directives : whole.directives = Builtin.directives ++ directiveDefs doc :=
  (silently_directives h.keys h.own).run h.run

theorem resolved : whole.dropUnusedScalars.Resolved :=
  resolved_dropUnusedScalars h.types.nodup h.types.scalar h.sound

theorem grammatical_type {t : TypeDef} (ht : t ∈ whole.types) : t.Grammatical := by
  rw [h.types.eq] at ht
  obtain ⟨d, hd, rfl⟩ := List.mem_map.mp ht
  refine grammatical_extended (fun e he => h.grammatical _ (mem_typeExtensions he)) ?_
  rcases List.mem_append.mp hd with hd | hd
  · exact (plainType_builtin d hd).grammatical
  · exact h.grammatical _ (mem_typeDefs.mp hd)

theorem grammatical_directive {d : DirectiveDef} (hd : d ∈ whole.directives) : d.Grammatical := by
  rw [h.directives] at hd
  rcases List.mem_append.mp hd with hd | hd
  · obtain ⟨hname, hlocations, harguments⟩ := plainDirective_builtin d hd
    exact ⟨hname, fun a ha => (harguments a ha).grammatical, hlocations⟩
  · exact h.grammatical _ (mem_directiveDefs.mp hd)

/-- The types that are written out are those of the document, extended. -/
theorem ownTypes : whole.dropUnusedScalars.info.ownTypes =
    ((typeDefs doc).map (TypeDef.extended (typeExtensions doc))).map whole.dropUnusedScalars.typeInfo := by
  have hfilter := h.types.filter_dropUnusedScalars fun d hd => Bool.or_eq_false_iff.mpr (h.own.type hd)
  rw [← hfilter, SchemaInfo.ownTypes, info, List.filter_map]
  congr 2
  funext t
  exact (Bool.not_or _ _).symm

/-- The directives that are written out are those of the document. -/
theorem ownDirectives : whole.dropUnusedScalars.info.ownDirectives =
    (directiveDefs doc).map whole.dropUnusedScalars.directiveInfo := by
  have hbuiltin : ∀ d ∈ Builtin.directives, builtinDirectives.contains d.name = true := by decide
  have hdirectives : whole.dropUnusedScalars.directives = Builtin.directives ++ directiveDefs doc := h.directives
  rw [SchemaInfo.ownDirectives, info, List.filter_map, hdirectives, List.filter_append]
  congr 1
  have hnone : Builtin.directives.filter ((fun d => !builtinDirectives.contains d.name) ∘
      whole.dropUnusedScalars.directiveInfo) = [] := by
    rw [List.filter_eq_nil_iff]
    intro d hd
    simp only [Function.comp_apply, directiveInfo, hbuiltin d hd, Bool.not_true, Bool.false_eq_true, not_false_iff]
  have hall : (directiveDefs doc).filter ((fun d => !builtinDirectives.contains d.name) ∘
      whole.dropUnusedScalars.directiveInfo) = directiveDefs doc := by
    rw [List.filter_eq_self]
    intro d hd
    simp only [Function.comp_apply, directiveInfo, h.own.directive hd, Bool.not_false]
  rw [hnone, hall, List.nil_append]

end Faultless

/-- What keeps a schema from losing what its rules ask for when it is printed from its artifact: no reference is cut, no
input object consists of deprecated fields alone, and no type that is printed has a field that answers to an interface by
an argument that is left out, or by what the types of introspection, which are not printed, have been made to implement. -/
structure Reloadable (s : Schema) : Prop where
  shallow : s.Shallow
  someInput : ∀ t ∈ s.types, t.kind = .inputObject → current InputDef.directives t.body.inputs ≠ []
  agree : ∀ t ∈ s.types, isReserved t.name = false → s.AgreesWith t

instance (s : Schema) : Decidable s.Reloadable :=
  decidable_of_iff (s.Shallow ∧
      (∀ t ∈ s.types, t.kind = .inputObject → current InputDef.directives t.body.inputs ≠ []) ∧
      ∀ t ∈ s.types, isReserved t.name = false → s.AgreesWith t)
    ⟨fun h => ⟨h.1, h.2.1, h.2.2⟩, fun h => ⟨h.shallow, h.someInput, h.agree⟩⟩

namespace Faultless

variable {doc : Document} {whole : Schema} (h : Faultless doc whole)

include h

theorem members_of_scalar {t : TypeDef} (ht : t ∈ whole.types) (hb : builtinScalars.contains t.name = true) :
    t.body = .scalar := by
  have hkind := h.types.scalar t ht hb
  rw [TypeDef.kind] at hkind
  cases hbody : t.body <;> rw [hbody] at hkind <;> first | rfl | cases hkind

/-- A type that is not left is a built-in scalar. -/
theorem mem_or_scalar {t : TypeDef} (ht : t ∈ whole.types) : t ∈ whole.dropUnusedScalars.types ∨ t.body = .scalar := by
  cases hb : builtinScalars.contains t.name with
  | true => exact .inr (h.members_of_scalar ht hb)
  | false => exact .inl (mem_types_dropUnusedScalars.mpr ⟨ht, fun hc => absurd (hb.symm.trans hc) Bool.false_ne_true⟩)

/-- A type with content is still found by its name. -/
theorem type?_left {name : Name} {t : TypeDef} (ht : whole.type? name = some t) (hbody : t.body ≠ .scalar) :
    whole.dropUnusedScalars.type? name = some t := by
  rcases h.mem_or_scalar (List.mem_of_find?_eq_some ht) with hleft | hscalar
  · rw [← name_of_type? ht]
    exact type?_name h.resolved.nodup hleft
  · exact absurd hscalar hbody

/-- Something is written out: the schema definition, or at least the type `Query`. -/
theorem document_ne_nil : whole.dropUnusedScalars.info.document ≠ [] := by
  obtain ⟨name, hname⟩ := query_of_checkRoots (checkRoots_eq_nil h.sound)
  obtain ⟨t, ht, -⟩ := object_of_mem_roots h.sound (mem_roots hname)
  by_cases hdefault : name = "Query"
  · have htname : t.name = "Query" := (name_of_type? ht).trans hdefault
    have hleft : t ∈ whole.dropUnusedScalars.types := by
      refine mem_types_dropUnusedScalars.mpr ⟨List.mem_of_find?_eq_some ht, fun hb => ?_⟩
      rw [htname] at hb
      exact absurd hb (by decide)
    have hprinted : (!isReserved "Query" && !builtinScalars.contains "Query") = true := by decide
    rw [← htname] at hprinted
    exact document_ne_nil_of_mem _ (List.mem_map_of_mem hleft) hprinted
  · have hroot : (OperationKind.query, name) ∈ whole.dropUnusedScalars.info.rootNames := by
      rw [rootNames_eq, mem_rootsBy, root?_info]
      exact hname
    have hnames : whole.dropUnusedScalars.info.namesRoot = true :=
      List.any_eq_true.mpr ⟨_, hroot, bne_iff_ne.mpr hdefault⟩
    rw [document_eq, if_pos hnames]
    simp

section

variable (hr : whole.dropUnusedScalars.Reloadable)

include hr

theorem printable {t : TypeDef} (ht : t ∈ whole.types) : t.Printable := by
  have hcontent := checkContent_eq_nil_iff.mp (checkContent_eq_nil h.types.scalar h.sound ht)
  rcases h.mem_or_scalar ht with hleft | hscalar
  · exact ⟨h.grammatical_type ht, hr.shallow.types t hleft, hcontent.someMember, hcontent.someValue, hr.someInput t hleft⟩
  · refine ⟨h.grammatical_type ht, ⟨?_, ?_⟩, hcontent.someMember, hcontent.someValue, fun hk => ?_⟩
    · rw [hscalar]
      exact List.forall_mem_nil _
    · rw [hscalar]
      exact List.forall_mem_nil _
    · rw [TypeDef.kind, hscalar] at hk
      cases hk

theorem agree {t : TypeDef} (ht : t ∈ whole.types) (hown : isReserved t.name = false) : whole.AgreesWith t := by
  intro i hi u hu e he f hf hname
  rcases h.mem_or_scalar ht with hleft | hscalar
  · have hu := h.type?_left hu fun hbody => by rw [hbody] at he; cases he
    obtain ⟨hagree, hrests⟩ := hr.agree t hleft hown i hi u hu e he f hf hname
    refine ⟨hagree, fun r hfound hreserved hmem => ?_⟩
    exact hrests r (h.type?_left hfound fun hbody => by rw [hbody] at hmem; cases hmem) hreserved hmem
  · rw [hscalar] at hi
    cases hi

/-- The introspection result of a schema that may be reloaded conforms. -/
theorem conforms_info : whole.dropUnusedScalars.info.Conforms := by
  have htypes : ∀ t ∈ whole.dropUnusedScalars.types, t ∈ whole.types := fun t ht => (mem_types_dropUnusedScalars.mp ht).1
  refine ⟨fun r hroot => ?_, ?_, ?_, ?_⟩
  · rw [rootNames_eq, mem_rootsBy, root?_info] at hroot
    obtain ⟨t, ht, -⟩ := object_of_mem_roots h.sound (mem_roots hroot)
    rw [← name_of_type? ht]
    exact (h.grammatical_type (List.mem_of_find?_eq_some ht)).name
  · exact List.forall_mem_map.mpr fun t ht => conforms_typeInfo _ (h.printable hr (htypes t ht))
  · refine List.forall_mem_map.mpr fun d hd => conforms_directiveInfo _ (h.grammatical_directive hd) ?_
    exact hr.shallow.directives d hd
  · exact h.document_ne_nil

omit hr in
/-- The document of the introspection result fits. -/
theorem fits_document : Fits whole.dropUnusedScalars.info.document := by
  have hnames : (whole.dropUnusedScalars.info.ownTypes.map (·.name)).Nodup := by
    refine List.Nodup.sublist (List.filter_sublist.map _) ?_
    rw [info, List.map_map]
    exact h.resolved.nodup
  have hdirectives : (whole.dropUnusedScalars.info.ownDirectives.map (·.name)).Nodup := by
    rw [h.ownDirectives, List.map_map]
    exact nodup_directiveDefs h.keys
  refine
    { keys := nodup_keys_document _ hdirectives hnames, own := ownKeys_document _, complete := fun d hd => ?_,
      distinct := fun t ht => ?_, roots := fun d hd => ?_ }
  · obtain ⟨key, hk⟩ := hasKey_document _ d hd
    exact (Merge.complete_of_key hk).2
  · rw [typeDefs_document, h.ownTypes, List.map_map, List.map_map] at ht
    obtain ⟨d, hd, rfl⟩ := List.mem_map.mp ht
    have hdistinct : (d.extended (typeExtensions doc)).body.Distinct := by
      refine h.distinct _ ?_
      rw [h.types.eq]
      exact List.mem_map_of_mem (List.mem_append_right _ hd)
    exact distinct_contentInfo _ _ hdistinct
  · rw [schemaDefs_document] at hd
    split at hd
    · rw [List.mem_singleton.mp hd, rootNames_eq]
      exact nodup_rootsBy _
    · cases hd

omit hr in
/-- Of the types that every schema has, extensions add interfaces to those of introspection alone. -/
theorem builtin_interfaces {t : TypeDef} (ht : t ∈ Builtin.types) :
    isReserved t.name = true ∨ (t.extended (typeExtensions doc)).body.interfaces = [] := by
  have hname := (TypeDef.extended_eq (typeExtensions doc) t).1
  refine (Bool.or_eq_true_iff.mp (isBuiltin_of_mem_types t ht)).imp_right fun hscalar => ?_
  have hmem : t.extended (typeExtensions doc) ∈ whole.types := by
    rw [h.types.eq]
    exact List.mem_map_of_mem (List.mem_append_left _ ht)
  rw [h.members_of_scalar hmem (by rw [hname]; exact hscalar)]
  rfl

/-- The schema that is built again restates the first one. -/
theorem keeps_composed : whole.Keeps (composed whole.dropUnusedScalars.info.document) := by
  have htypes : List.Forall₂ TypeDef.Keeps whole.types
      (Builtin.types ++ typeDefs whole.dropUnusedScalars.info.document) := by
    rw [h.types.eq, typeDefs_document, h.ownTypes, List.map_append, List.map_map, List.map_map]
    refine List.rel_append ?_ ?_
    · rw [List.forall₂_map_left_iff, List.forall₂_same]
      intro t ht
      exact (plainType_builtin t ht).keeps_extended (h.builtin_interfaces ht)
    · rw [List.forall₂_map_left_iff, List.forall₂_map_right_iff, List.forall₂_same]
      intro t ht
      refine keeps_typeInfo _ (h.printable hr ?_) ?_
      · rw [h.types.eq]
        exact List.mem_map_of_mem (List.mem_append_right _ ht)
      · rw [(TypeDef.extended_eq _ t).1]
        exact (h.own.type ht).1
  have hdirectives : List.Forall₂ DirectiveDef.Restates whole.directives
      (Builtin.directives ++ directiveDefs whole.dropUnusedScalars.info.document) := by
    rw [h.directives, directiveDefs_document, h.ownDirectives, List.map_map]
    refine List.rel_append ?_ ?_
    · rw [List.forall₂_same]
      exact fun d hd => ⟨rfl, PlainInput.restates (plainDirective_builtin d hd).2.2⟩
    · rw [List.forall₂_map_right_iff, List.forall₂_same]
      intro d hd
      have hmem : d ∈ whole.directives := by
        rw [h.directives]
        exact List.mem_append_right _ hd
      exact restates_directiveInfo _ (h.grammatical_directive hmem) (hr.shallow.directives d hmem)
  refine ⟨htypes, hdirectives, ?_, ?_, fun d hd => ?_⟩
  · have hstring : ∃ t, Builtin.types.find? (·.name == "String") = some t ∧ t.kind = .scalar := ⟨_, rfl, rfl⟩
    obtain ⟨t, ht, hk⟩ := hstring
    exact ⟨t, by rw [type?, composed, List.find?_append, ht]; rfl, hk⟩
  · rw [directive?, composed, List.find?_append]
    rfl
  · rcases List.mem_append.mp hd with hd | hd
    · exact .inl hd
    · refine .inr fun hname => ?_
      have hown := h.fits_document.own.directive hd
      rw [hname] at hown
      exact absurd hown (by decide)

/-- The roots of the schema that is built again have no faults. -/
theorem checkRoots_composed : (composed whole.dropUnusedScalars.info.document).checkRoots = [] := by
  have hkeeps := h.keeps_composed hr
  have hobject : ∀ kind name, whole.root? kind = some name →
      ∃ t, (composed whole.dropUnusedScalars.info.document).type? name = some t ∧ t.kind = .object := by
    intro kind name hroot
    obtain ⟨t, ht, hk⟩ := object_of_mem_roots h.sound (mem_roots hroot)
    obtain ⟨t', ht', hkeep⟩ := hkeeps.type?_some ht
    exact ⟨t', ht', hkeep.kind.trans hk⟩
  obtain ⟨query, hquery⟩ := query_of_checkRoots (checkRoots_eq_nil h.sound)
  have happlied := applied_composed (schemaDefs_document whole.dropUnusedScalars.info)
  have hroots := roots_composed (schemaDefs_document whole.dropUnusedScalars.info)
  cases hn : whole.dropUnusedScalars.info.namesRoot with
  | true =>
    rw [hn, if_pos rfl] at hroots
    refine checkRoots_rootsBy happlied hroots (fun kind name hroot => ?_) (fun kind kind' name hk hk' => ?_) ?_
    · rw [root?_info] at hroot
      exact hobject kind name hroot
    · rw [root?_info] at hk hk'
      have hinj := List.inj_on_of_nodup_map (nodup_of_checkRoots (checkRoots_eq_nil h.sound))
      cases hinj (mem_roots hk) (mem_roots hk') rfl
      rfl
    · exact ⟨query, by rw [root?_info]; exact hquery⟩
  | false =>
    rw [hn, if_neg Bool.false_ne_true] at hroots
    refine checkRoots_rootsBy happlied hroots (fun kind name hroot => ?_) (fun kind kind' name hk hk' => ?_) ?_
    · exact (implicitRoot?_eq_some.mp hroot).2
    · obtain ⟨hname, -⟩ := implicitRoot?_eq_some.mp hk
      obtain ⟨hname', -⟩ := implicitRoot?_eq_some.mp hk'
      exact defaultRootName_injective (hname.symm.trans hname')
    · have hdefault : query = defaultRootName .query := by
        refine root?_eq_default hn ?_
        rw [root?_info]
        exact hquery
      exact ⟨query, implicitRoot?_eq_some.mpr ⟨hdefault, hobject .query query hquery⟩⟩

/-- **The schema that is built again has no faults.** -/
theorem diagnostics_composed : (composed whole.dropUnusedScalars.info.document).diagnostics = [] :=
  (h.keeps_composed hr).diagnostics (h.checkRoots_composed hr) (fun _ ht hown => h.agree hr ht hown) h.sound

end

end Faultless

end Schema

end SchemaWeave

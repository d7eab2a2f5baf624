import Mathlib.Data.List.Forall2
import SchemaWeave.Proofs.Introspection.Document
import SchemaWeave.Proofs.Schema.Resolved

/-!
# The rules for definitions that are restated

A schema that is printed from its artifact and built again restates its definitions: arguments and input fields that
are deprecated are gone, and of directives only deprecations are left. `Keeps` says what the two schemas have in common, and
each rule that finds nothing wrong with a definition finds nothing wrong with what restates it.
-/

namespace SchemaWeave

open Graphql Introspection

/-! ## Related lists -/

/-- Of related lists, the first elements that are searched for are related. -/
theorem rel_find? {α β : Type} {R : α → β → Prop} {p : α → Bool} {q : β → Bool} (hp : ∀ a b, R a b → p a = q b)
    {l : List α} {l' : List β} (h : List.Forall₂ R l l') : Option.Rel R (l.find? p) (l'.find? q) := by
  induction h with
  | nil => exact .none
  | @cons a b l l' hab _ ih =>
    rw [List.find?_cons, List.find?_cons, ← hp a b hab]
    cases p a with
    | true => exact .some hab
    | false => exact ih

theorem exists_of_forall₂ {α β : Type} {R : α → β → Prop} {l : List α} {l' : List β} (h : List.Forall₂ R l l') {b : β}
    (hb : b ∈ l') : ∃ a ∈ l, R a b := by
  induction h with
  | nil => cases hb
  | @cons a b' l l' hab _ ih =>
    rcases List.mem_cons.mp hb with rfl | hb
    · exact ⟨a, List.mem_cons_self, hab⟩
    · obtain ⟨a', ha', hr⟩ := ih hb
      exact ⟨a', List.mem_cons_of_mem _ ha', hr⟩

theorem exists_of_forall₂' {α β : Type} {R : α → β → Prop} {l : List α} {l' : List β} (h : List.Forall₂ R l l') {a : α}
    (ha : a ∈ l) : ∃ b ∈ l', R a b := by
  obtain ⟨b, hb, hr⟩ := exists_of_forall₂ h.flip ha
  exact ⟨b, hb, hr⟩

/-- The first element that is searched for is the first of those that are left, if it is left. -/
theorem find?_filter_of_find? {α : Type} {p q : α → Bool} {a : α} {l : List α} (h : l.find? q = some a) (hp : p a = true) :
    (l.filter p).find? q = some a := by
  obtain ⟨hq, before, after, rfl, hbefore⟩ := List.find?_eq_some_iff_append.mp h
  rw [List.filter_append, List.filter_cons_of_pos hp]
  refine List.find?_eq_some_iff_append.mpr ⟨hq, _, _, rfl, fun b hb => ?_⟩
  exact hbefore b (List.mem_filter.mp hb).1

/-- What related elements have in common, related lists do. -/
theorem map_eq_of_forall₂ {α β γ : Type} {R : α → β → Prop} {f : α → γ} {g : β → γ} (hf : ∀ a b, R a b → g b = f a)
    {l : List α} {l' : List β} (h : List.Forall₂ R l l') : l'.map g = l.map f := by
  induction h with
  | nil => rfl
  | cons hab _ ih => rw [List.map_cons, List.map_cons, ih, hf _ _ hab]

/-! ## Definitions -/

namespace Graphql

/-- An argument or input field with the name, type and default value of another, and without directives. -/
structure InputDef.Restates (d d' : InputDef) : Prop where
  name : d'.name = d.name
  type : d'.type = d.type
  default : d'.default = d.default
  directives : d'.directives = []

theorem InputDef.Restates.isRequired {d d' : InputDef} (h : d.Restates d') : d'.isRequired = d.isRequired := by
  rw [InputDef.isRequired, InputDef.isRequired, h.type, h.default]

/-- Arguments or input fields that restate those that are not deprecated. -/
def InputsRestate (ds ds' : List InputDef) : Prop :=
  List.Forall₂ InputDef.Restates (Schema.current InputDef.directives ds) ds'

/-- The names that restate others are some of them, in the same order. -/
theorem InputsRestate.names {ds ds' : List InputDef} (h : InputsRestate ds ds') :
    (ds'.map (·.name)).Sublist (ds.map (·.name)) := by
  have hnames : ds'.map (·.name) = (Schema.current InputDef.directives ds).map (·.name) :=
    map_eq_of_forall₂ (fun _ _ hd => hd.name) h
  rw [hnames]
  exact List.filter_sublist.map _

theorem InputsRestate.exists {ds ds' : List InputDef} (h : InputsRestate ds ds') {d' : InputDef} (hd : d' ∈ ds') :
    ∃ d ∈ ds, Schema.isDeprecated d.directives = false ∧ d.Restates d' := by
  obtain ⟨d, hm, hr⟩ := exists_of_forall₂ h hd
  obtain ⟨hm, hd⟩ := List.mem_filter.mp hm
  exact ⟨d, hm, by simpa using hd, hr⟩

/-- Directives that say no more than whether an element is deprecated, and why. -/
def OnlyDeprecation (ds : List Directive) : Prop := ∃ isDeprecated reason, ds = deprecation isDeprecated reason

structure FieldDef.Restates (f f' : FieldDef) : Prop where
  name : f'.name = f.name
  type : f'.type = f.type
  arguments : InputsRestate f.arguments f'.arguments
  directives : OnlyDeprecation f'.directives

structure EnumValueDef.Restates (v v' : EnumValueDef) : Prop where
  name : v'.name = v.name
  directives : OnlyDeprecation v'.directives

structure DirectiveDef.Restates (d d' : DirectiveDef) : Prop where
  name : d'.name = d.name
  arguments : InputsRestate d.arguments d'.arguments

/-- What the rules look at in a type: it is of the same kind, and has some of the members, restated. All fields are
there where interfaces are involved, and a type of introspection implements nothing any more. -/
structure TypeDef.Keeps (t t' : TypeDef) : Prop where
  name : t'.name = t.name
  kind : t'.kind = t.kind
  directives : t'.directives = []
  interfaces : t'.body.interfaces = if isReserved t.name then [] else t.body.interfaces
  members : t'.body.members = t.body.members
  fields : ∀ f' ∈ t'.body.fields, ∃ f ∈ t.body.fields, f.Restates f'
  allFields : t.kind = .interface ∨ t'.body.interfaces ≠ [] →
    List.Forall₂ FieldDef.Restates t.body.fields t'.body.fields
  values : ∀ v' ∈ t'.body.values, ∃ v ∈ t.body.values, v.Restates v'
  inputs : InputsRestate t.body.inputs t'.body.inputs
  someField : t.body.fields ≠ [] → t'.body.fields ≠ []
  someValue : t.body.values ≠ [] → t'.body.values ≠ []
  someInput : t.body.inputs ≠ [] → t'.body.inputs ≠ []

theorem TypeDef.interfaces_eq (t : TypeDef) : t.interfaces = t.body.interfaces := by
  rw [TypeDef.interfaces]
  cases t.body <;> rfl

theorem TypeDef.fields_eq (t : TypeDef) : t.fields = t.body.fields := by
  rw [TypeDef.fields]
  cases t.body <;> rfl

end Graphql

namespace Schema

/-- What a schema has in common with one that restates it. -/
structure Keeps (s s' : Schema) : Prop where
  types : List.Forall₂ TypeDef.Keeps s.types s'.types
  directives : List.Forall₂ DirectiveDef.Restates s.directives s'.directives
  string : ∃ t, s'.type? "String" = some t ∧ t.kind = .scalar
  deprecated : s'.directive? "deprecated" = Builtin.directives.find? (·.name == "deprecated")
  own : ∀ d' ∈ s'.directives, d' ∈ Builtin.directives ∨ d'.name ≠ "deprecated"

/-! ## Types by their names -/

variable {s s' : Schema}

section

variable (hs : s.Keeps s')

include hs

theorem Keeps.type? (name : Name) : Option.Rel TypeDef.Keeps (s.type? name) (s'.type? name) :=
  rel_find? (fun t t' h => by rw [h.name]) hs.types

theorem Keeps.type?_some {name : Name} {t : TypeDef} (h : s.type? name = some t) :
    ∃ t', s'.type? name = some t' ∧ t.Keeps t' := by
  have hrel := hs.type? name
  rw [h] at hrel
  generalize s'.type? name = o at hrel
  cases hrel with
  | some hk => exact ⟨_, rfl, hk⟩

theorem Keeps.type?_some' {name : Name} {t' : TypeDef} (h : s'.type? name = some t') :
    ∃ t, s.type? name = some t ∧ t.Keeps t' := by
  have hrel := hs.type? name
  rw [h] at hrel
  generalize s.type? name = o at hrel
  cases hrel with
  | some hk => exact ⟨_, rfl, hk⟩

/-- A reference that nothing is wrong with is right in the other schema too. -/
theorem Keeps.checkReference {allowed : TypeKind → Bool} {otherwise otherwise' : Diagnostic} {e e' : TypeExpr}
    (he : e'.core = e.core) (h : s.checkReference allowed otherwise e = []) :
    s'.checkReference allowed otherwise' e' = [] := by
  obtain ⟨t, ht, ha⟩ := checkReference_eq_nil h
  obtain ⟨t', ht', hk⟩ := hs.type?_some ht
  rw [Schema.checkReference, he, ht']
  exact if_pos (by rw [hk.kind]; exact ha)

end

/-! ## Names that come twice -/

theorem repeated_eq_nil_iff {seen names : List Name} :
    repeated seen names = [] ↔ names.Nodup ∧ ∀ n ∈ names, n ∉ seen := by
  induction names generalizing seen with
  | nil => simp [repeated]
  | cons n names ih =>
    rw [repeated]
    split_ifs with hseen
    · simp only [List.contains_iff_mem] at hseen
      simp [hseen]
    · rw [List.contains_iff_mem] at hseen
      rw [ih, List.nodup_cons, List.forall_mem_cons]
      constructor
      · rintro ⟨hn, hnames⟩
        refine ⟨⟨fun hm => hnames n hm List.mem_cons_self, hn⟩, hseen, fun m hm hms => ?_⟩
        exact hnames m hm (List.mem_cons_of_mem _ hms)
      · rintro ⟨⟨hn, hnames⟩, -, hrest⟩
        refine ⟨hnames, fun m hm hms => ?_⟩
        rcases List.mem_cons.mp hms with rfl | hms
        · exact hn hm
        · exact hrest m hm hms

/-! ## Inputs and fields -/

section

variable (hs : s.Keeps s')

include hs

/-- A deprecation may stand on fields and on enum values. -/
theorem Keeps.checkDirectives_deprecation {location : DirectiveLocation}
    (hl : location = .fieldDefinition ∨ location = .enumValue) {ds : List Directive} (h : OnlyDeprecation ds) :
    s'.checkDirectives location ds = [] := by
  obtain ⟨isDeprecated, reason, rfl⟩ := h
  obtain ⟨t, ht, hk⟩ := hs.string
  have hname := name_of_type? ht
  cases isDeprecated with
  | false => rfl
  | true =>
    have hreason : s'.checkValue (Builtin.nullable "String") (.string (reason.getD "")) = [] := by
      simp [checkValue, withType, Builtin.nullable, TypeExpr.core, ht, checkScalarValue, isCustomScalar, hname, hk,
        builtinScalars]
    cases reason <;> rcases hl with rfl | rfl <;>
      simp_all [checkDirectives, deprecation, checkDirective, hs.deprecated, Builtin.directives, checkArguments, repeated,
        InputDef.isRequired, Builtin.nullable, TypeExpr.isRequired]

theorem Keeps.checkInput {element : NamedElement} {location : DirectiveLocation} {d d' : InputDef} (hd : d.Restates d')
    (h : s.checkInput element location d = []) : s'.checkInput element location d' = [] := by
  simp only [Schema.checkInput, List.append_eq_nil_iff] at h ⊢
  obtain ⟨⟨hname, -⟩, htype⟩ := h
  refine ⟨⟨?_, ?_⟩, hs.checkReference (by rw [hd.type]) htype⟩
  · rw [hd.name]
    exact hname
  · rw [hd.directives]
    rfl

theorem Keeps.checkArgumentDefs {ds ds' : List InputDef} (hd : InputsRestate ds ds') (h : s.checkArgumentDefs ds = []) :
    s'.checkArgumentDefs ds' = [] := by
  simp only [Schema.checkArgumentDefs, List.append_eq_nil_iff, List.map_eq_nil_iff, List.flatMap_eq_nil_iff,
    repeated_eq_nil_iff] at h ⊢
  obtain ⟨hinputs, hnames, -⟩ := h
  refine ⟨fun d' hd' => ?_, hnames.sublist hd.names, fun _ _ => List.not_mem_nil⟩
  obtain ⟨d, hm, -, hr⟩ := hd.exists hd'
  exact hs.checkInput hr (hinputs d hm)

theorem Keeps.checkField {f f' : FieldDef} (hf : f.Restates f') (h : s.checkField f = []) : s'.checkField f' = [] := by
  simp only [Schema.checkField, List.append_eq_nil_iff] at h ⊢
  obtain ⟨⟨⟨hname, -⟩, harguments⟩, htype⟩ := h
  refine ⟨⟨⟨?_, ?_⟩, ?_⟩, ?_⟩
  · rw [hf.name]
    exact hname
  · exact hs.checkDirectives_deprecation (.inl rfl) hf.directives
  · exact hs.checkArgumentDefs hf.arguments harguments
  · exact hs.checkReference (by rw [hf.type]) htype

theorem Keeps.checkEnumValue {v v' : EnumValueDef} (hv : v.Restates v') (h : s.checkEnumValue v = []) :
    s'.checkEnumValue v' = [] := by
  simp only [Schema.checkEnumValue, List.append_eq_nil_iff] at h ⊢
  refine ⟨?_, hs.checkDirectives_deprecation (.inr rfl) hv.directives⟩
  rw [hv.name]
  exact h.1

theorem Keeps.checkMember {member : Name} (h : s.checkMember member = []) : s'.checkMember member = [] :=
  hs.checkReference rfl h

/-! ## Interfaces -/

theorem Keeps.interface?_some {name : Name} {t : TypeDef} (h : interface? s name = some t) :
    ∃ t', interface? s' name = some t' ∧ t.Keeps t' := by
  obtain ⟨ht, hkind⟩ := Option.filter_eq_some_iff.mp h
  obtain ⟨t', ht', hk⟩ := hs.type?_some ht
  exact ⟨t', Option.filter_eq_some_iff.mpr ⟨ht', by rw [hk.kind]; exact hkind⟩, hk⟩

theorem Keeps.interface?_some' {name : Name} {t' : TypeDef} (h : interface? s' name = some t') :
    ∃ t, interface? s name = some t ∧ t.Keeps t' := by
  obtain ⟨ht', hkind⟩ := Option.filter_eq_some_iff.mp h
  obtain ⟨t, ht, hk⟩ := hs.type?_some' ht'
  exact ⟨t, Option.filter_eq_some_iff.mpr ⟨ht, by rw [← hk.kind]; exact hkind⟩, hk⟩

/-- What decides whether values of one type are values of another has stayed, unless a type of introspection has been
made to implement the other. -/
theorem Keeps.isPossibleType {actual expected : Name}
    (hn : ∀ r ∈ s.type? actual, isReserved r.name = true → expected ∉ r.body.interfaces) :
    isPossibleType s' actual expected = isPossibleType s actual expected := by
  have hinterfaces : (s'.type? actual).elim false (·.interfaces.contains expected) =
      (s.type? actual).elim false (·.interfaces.contains expected) := by
    have hactual := hs.type? actual
    generalize s.type? actual = o at hactual hn
    generalize s'.type? actual = o' at hactual
    cases hactual with
    | none => rfl
    | @some r r' ha =>
      simp only [Option.elim, TypeDef.interfaces_eq, ha.interfaces]
      split_ifs with hreserved
      · simpa using hn r rfl hreserved
      · rfl
  have hexpected := hs.type? expected
  rw [Schema.isPossibleType, Schema.isPossibleType, hinterfaces]
  generalize s.type? expected = o at hexpected
  generalize s'.type? expected = o' at hexpected
  cases hexpected with
  | none => rfl
  | @some t t' hk =>
    have hkind := hk.kind
    have hmembers := hk.members
    obtain ⟨_, _, _, body⟩ := t
    obtain ⟨_, _, _, body'⟩ := t'
    simp only [TypeDef.kind] at hkind
    cases body <;> cases body' <;> try exact TypeKind.noConfusion hkind
    case union.union =>
      simp only [TypeBody.members] at hmembers
      rw [hmembers]
    all_goals rfl

theorem Keeps.isSubtype {actual expected : TypeExpr}
    (hn : ∀ r ∈ s.type? actual.core, isReserved r.name = true → expected.core ∉ r.body.interfaces) :
    isSubtype s' actual expected = isSubtype s actual expected := by
  induction actual generalizing expected with
  | named name required =>
    cases expected with
    | named =>
      rw [TypeExpr.core, TypeExpr.core] at hn
      rw [Schema.isSubtype, Schema.isSubtype, hs.isPossibleType hn]
    | list => rfl
  | list item required ih =>
    cases expected with
    | named => rfl
    | list =>
      rw [TypeExpr.core, TypeExpr.core] at hn
      rw [Schema.isSubtype, Schema.isSubtype, ih hn]

/-- Where an interface still asks for an argument, the argument is still there, and where an argument that has to be given
is still there, the interface still asks for it. -/
def Agree (expected f : FieldDef) : Prop :=
  ∀ e ∈ expected.arguments, ∀ a ∈ f.arguments, e.name = a.name →
    (isDeprecated e.directives = false → isDeprecated a.directives = false) ∧
      (a.isRequired = true → isDeprecated a.directives = false → isDeprecated e.directives = false)

instance (expected f : FieldDef) : Decidable (Agree expected f) :=
  inferInstanceAs (Decidable (∀ e ∈ _, ∀ a ∈ _, _ → _))

/-- What the type of a field has to do with the type that an interface asks for does not rest on an interface that a type
of introspection has been made to implement. -/
def Rests (s : Schema) (expected f : FieldDef) : Prop :=
  ∀ r ∈ s.type? f.type.core, isReserved r.name = true → expected.type.core ∉ r.body.interfaces

instance (s : Schema) (expected f : FieldDef) : Decidable (Rests s expected f) :=
  inferInstanceAs (Decidable (∀ r ∈ _, _ → _))

section

variable {expected expected' f f' : FieldDef} (he : expected.Restates expected') (hf : f.Restates f')
  (hagree : Agree expected f)

include he hf hagree

omit hs in
/-- What answers to an argument that an interface still asks for is not deprecated either, and so it is still there. -/
theorem Agree.answer {e' : InputDef} (he' : e' ∈ expected'.arguments) :
    ∃ e ∈ expected.arguments, e.Restates e' ∧ ∀ a, f.arguments.find? (·.name == e.name) = some a →
      ∃ a', f'.arguments.find? (·.name == e'.name) = some a' ∧ a.Restates a' := by
  obtain ⟨e, hem, hed, her⟩ := he.arguments.exists he'
  refine ⟨e, hem, her, fun a ha => ?_⟩
  have hname : a.name = e.name := by simpa using List.find?_some ha
  have hda := (hagree e hem a (List.mem_of_find?_eq_some ha) hname.symm).1 hed
  have hcurrent := find?_filter_of_find? (p := fun a => !isDeprecated a.directives) ha (by rw [hda]; rfl)
  have hrel := rel_find? (p := (·.name == e.name)) (q := (·.name == e'.name))
    (fun a a' har => by rw [har.name, her.name]) hf.arguments
  rw [current, hcurrent] at hrel
  generalize f'.arguments.find? (·.name == e'.name) = o at hrel
  cases hrel with
  | @some _ a' har => exact ⟨a', rfl, har⟩

omit hs in
/-- What an interface asks for by the name of an argument that is left, and has to be given, is not deprecated either. -/
theorem Agree.asked {a' : InputDef} (ha' : a' ∈ f'.arguments) :
    ∃ a ∈ f.arguments, a.Restates a' ∧ (a.isRequired = true → ∀ e ∈ expected.arguments, e.name = a.name →
      ∃ e' ∈ expected'.arguments, e'.name = a.name) := by
  obtain ⟨a, ham, had, har⟩ := hf.arguments.exists ha'
  refine ⟨a, ham, har, fun hrequired e hem hname => ?_⟩
  have hde := (hagree e hem a ham hname).2 hrequired had
  obtain ⟨e', hem', her⟩ := exists_of_forall₂' he.arguments (List.mem_filter.mpr ⟨hem, by rw [hde]; rfl⟩)
  exact ⟨e', hem', her.name.trans hname⟩

end

theorem Keeps.checkInterfaceField {type interface : Name} {expected expected' : FieldDef} {fields fields' : List FieldDef}
    (he : expected.Restates expected') (hf : List.Forall₂ FieldDef.Restates fields fields')
    (hagree : ∀ f ∈ fields, f.name = expected.name → Agree expected f ∧ Rests s expected f)
    (h : checkInterfaceField s type interface expected fields = []) :
    checkInterfaceField s' type interface expected' fields' = [] := by
  rw [Schema.checkInterfaceField] at h ⊢
  have hfound := rel_find? (p := (·.name == expected.name)) (q := (·.name == expected'.name))
    (fun f f' hr => by rw [hr.name, he.name]) hf
  cases hfind : fields.find? (·.name == expected.name) with
  | none =>
    rw [hfind] at h
    cases h
  | some f =>
    rw [hfind] at h hfound
    obtain ⟨hagree, hrests⟩ := hagree f (List.mem_of_find?_eq_some hfind) (by simpa using List.find?_some hfind)
    generalize fields'.find? (·.name == expected'.name) = o at hfound
    cases hfound with
    | @some _ f' hr =>
      simp only [List.append_eq_nil_iff, List.flatMap_eq_nil_iff, List.map_eq_nil_iff, List.filter_eq_nil_iff] at h ⊢
      obtain ⟨⟨htype, harguments⟩, hextra⟩ := h
      refine ⟨⟨?_, fun e' he' => ?_⟩, fun a' ha' => ?_⟩
      · rw [hr.type, he.type, hs.isSubtype hrests]
        split_ifs at htype ⊢ with hsub
        rfl
      · obtain ⟨e, hem, her, hanswer⟩ := hagree.answer he hr he'
        have hargument := harguments e hem
        cases ha : f.arguments.find? (·.name == e.name) with
        | none =>
          rw [ha] at hargument
          cases hargument
        | some a =>
          obtain ⟨a', ha', har⟩ := hanswer a ha
          rw [ha] at hargument
          rw [ha']
          dsimp only at hargument ⊢
          rw [har.type, her.type]
          split_ifs at hargument ⊢ with htypes
          rfl
      · obtain ⟨a, ham, har, hasked⟩ := hagree.asked he hr ha'
        have hnot := hextra a ham
        rw [har.isRequired, har.name]
        simp only [Bool.and_eq_true, Bool.not_eq_true', List.any_eq_false, beq_iff_eq, not_and, not_forall, not_not] at hnot ⊢
        intro hrequired
        obtain ⟨e, hem, hname⟩ := hnot hrequired
        obtain ⟨e', hem', hname'⟩ := hasked hrequired e hem hname
        exact ⟨e', hem', hname'⟩

/-- What the interfaces of a type ask of its fields does not rest on what is lost. -/
def AgreesWith (s : Schema) (t : TypeDef) : Prop :=
  ∀ i ∈ t.body.interfaces, ∀ u ∈ s.type? i, ∀ e ∈ u.body.fields, ∀ f ∈ t.body.fields, f.name = e.name →
    Agree e f ∧ Rests s e f

instance (s : Schema) (t : TypeDef) : Decidable (s.AgreesWith t) :=
  inferInstanceAs (Decidable (∀ i ∈ _, ∀ u ∈ _, ∀ e ∈ _, ∀ f ∈ _, _ → _))

omit hs in
/-- Nothing is wrong with the interfaces of a type without any. -/
theorem checkInterfaces_nil {t : TypeDef} (h : t.body.interfaces = []) : checkInterfaces s t = [] := by
  simp [Schema.checkInterfaces, TypeDef.interfaces_eq, h]

theorem Keeps.checkInterfaces {t t' : TypeDef} (ht : t.Keeps t') (hagree : isReserved t.name = false → s.AgreesWith t)
    (h : checkInterfaces s t = []) : checkInterfaces s' t' = [] := by
  have hinterfaces := ht.interfaces
  split_ifs at hinterfaces with hreserved
  · exact checkInterfaces_nil hinterfaces
  have hagree := hagree (eq_false_of_ne_true hreserved)
  simp only [Schema.checkInterfaces, TypeDef.interfaces_eq, TypeDef.fields_eq, hinterfaces, ht.kind, ht.name,
    List.append_eq_nil_iff, List.flatMap_eq_nil_iff, List.map_eq_nil_iff, List.filter_eq_nil_iff,
    List.forall_mem_filterMap] at h ⊢
  obtain ⟨⟨⟨hknown, hself⟩, htransitive⟩, hfields⟩ := h
  refine ⟨⟨⟨fun i hi hnone => ?_, hself⟩, fun i hi u' hu' j hj => ?_⟩, fun i hi u' hu' e' he' => ?_⟩
  · cases hu : interface? s i with
    | none => exact hknown i hi (by rw [hu]; rfl)
    | some u =>
      obtain ⟨u', hu', -⟩ := hs.interface?_some hu
      rw [hu'] at hnone
      cases hnone
  · obtain ⟨u, hu, hk⟩ := hs.interface?_some' hu'
    rw [hk.interfaces] at hj
    split_ifs at hj
    · cases hj
    · exact htransitive i hi u hu j hj
  · obtain ⟨u, hu, hk⟩ := hs.interface?_some' hu'
    obtain ⟨htype, hkind⟩ := Option.filter_eq_some_iff.mp hu
    have hinterface : u.kind = .interface := by simpa using hkind
    obtain ⟨e, he, her⟩ := exists_of_forall₂ (hk.allFields (.inl hinterface)) he'
    rw [hk.name]
    have hall := ht.allFields (.inr (by rw [hinterfaces]; exact List.ne_nil_of_mem hi))
    refine hs.checkInterfaceField her hall ?_ (hfields i hi u hu e he)
    exact hagree i hi u htype e he

/-! ## Input objects that need themselves -/

omit hs in
theorem forM_eq_ok {α ε : Type} {f : α → Except ε Unit} {l : List α} :
    l.forM f = .ok () ↔ ∀ a ∈ l, f a = .ok () := by
  induction l with
  | nil => simp [List.forM, pure, Except.pure]
  | cons a l ih =>
    rw [List.forM, List.forall_mem_cons, ← ih]
    cases f a with
    | error e => simp [bind, Except.bind]
    | ok u => simp [bind, Except.bind]

omit hs in
theorem neededObject?_eq_some {d : InputDef} {inner : List InputDef} {name : Name} :
    neededObject? s d = some (inner, name) ↔
      d.type = .named name true ∧ ∃ t, s.type? name = some t ∧ t.body = .inputObject inner := by
  rw [neededObject?]
  constructor
  · intro h
    split at h
    · next n hd =>
      split at h
      · next fields ht =>
        cases h
        exact ⟨hd, _, ht, rfl⟩
      · cases h
    · cases h
  · rintro ⟨htype, t, ht, hb⟩
    obtain ⟨_, _, _, body⟩ := t
    cases hb
    rw [htype]
    simp only [ht]

/-- An input object that restates another is needed where the other is. -/
theorem Keeps.neededObject? {d d' : InputDef} (hd : d.Restates d') {inner' : List InputDef} {name : Name}
    (h : neededObject? s' d' = some (inner', name)) :
    ∃ inner, neededObject? s d = some (inner, name) ∧ InputsRestate inner inner' := by
  obtain ⟨htype, t', ht', hb'⟩ := neededObject?_eq_some.mp h
  obtain ⟨t, ht, hk⟩ := hs.type?_some' ht'
  have hinputs := hk.inputs
  have hkind := hk.kind
  rw [TypeDef.kind, TypeDef.kind, hb'] at hkind
  cases hb : t.body <;> rw [hb] at hkind <;> try exact TypeKind.noConfusion hkind
  rw [hb, hb'] at hinputs
  exact ⟨_, neededObject?_eq_some.mpr ⟨hd.type ▸ htype, t, ht, hb⟩, hinputs⟩

omit hs in
/-- A step that a search takes without a fault stays one where what lies behind it does. -/
theorem step_mono {start : Name} {path : List Name} {name : Name} {visit visit' : Except PathFault Unit}
    (hv : visit = .ok () → visit' = .ok ()) (h : step start path name visit = .ok ()) :
    step start path name visit' = .ok () := by
  rw [step] at h ⊢
  split_ifs at h ⊢
  · rfl
  · exact hv h

/-- A search through input objects that ends without a fault does so in fewer of them. -/
theorem Keeps.walkInputs {start : Name} {left : Nat} {path : List Name} {fields fields' : List InputDef}
    (hf : InputsRestate fields fields') (h : walkInputs s start left path fields = .ok ()) :
    walkInputs s' start left path fields' = .ok () := by
  induction left generalizing path fields fields' with
  | zero =>
    rw [Schema.walkInputs, forM_eq_ok] at h ⊢
    intro d' hd'
    obtain ⟨d, hd, -, hr⟩ := hf.exists hd'
    have hone := h d hd
    cases hn : Schema.neededObject? s' d' with
    | none => rfl
    | some found =>
      obtain ⟨inner, hi, -⟩ := hs.neededObject? hr hn
      rw [hi] at hone
      exact hone
  | succ left ih =>
    rw [Schema.walkInputs, forM_eq_ok] at h ⊢
    intro d' hd'
    obtain ⟨d, hd, -, hr⟩ := hf.exists hd'
    have hone := h d hd
    cases hn : Schema.neededObject? s' d' with
    | none => rfl
    | some found =>
      obtain ⟨inner, hi, hinner⟩ := hs.neededObject? hr hn
      rw [hi] at hone
      exact step_mono (fun hv => ih hinner hv) hone

theorem Keeps.checkInputCycle {name : Name} {fields fields' : List InputDef} (hf : InputsRestate fields fields')
    (h : checkInputCycle s name fields = []) : checkInputCycle s' name fields' = [] := by
  have hwalk : Schema.walkInputs s name (pathLimit - 1) [name] fields = .ok () := by
    rw [Schema.checkInputCycle] at h
    split at h
    · assumption
    · cases h
    · cases h
  rw [Schema.checkInputCycle, hs.walkInputs hf hwalk]

/-! ## Directives that apply themselves -/

omit hs in
/-- A search that ends without a fault has followed every directive, and looked into the type of every input that is
neither on the path nor built in. -/
theorem walkTypes_eq_ok {visit : Nat → List Name → Directive → Except PathFault Unit} {left : Nat} {path : List Name}
    {applied : List Directive} {inputs : List InputDef} :
    walkTypes s visit left path applied inputs = .ok () ↔
      (∀ d ∈ applied, visit left path d = .ok ()) ∧
        ∀ a ∈ inputs, (∀ d ∈ a.directives, visit left path d = .ok ()) ∧
          ∀ t, s.type? a.type.core = some t → a.type.core ∉ path → Builtin.isBuiltinType a.type.core = false →
            ∃ fewer, left = fewer + 1 ∧
              walkTypes s visit fewer (a.type.core :: path) (typeContributions t).1 (typeContributions t).2 = .ok () := by
  have hthen : ∀ x y : Except PathFault Unit, (x >>= fun _ => y) = .ok () ↔ x = .ok () ∧ y = .ok () := by
    intro x y
    cases x <;> simp [bind, Except.bind]
  rw [Schema.walkTypes, hthen, forM_eq_ok, forM_eq_ok]
  refine and_congr_right fun _ => forall₂_congr fun a _ => ?_
  rw [hthen, forM_eq_ok]
  refine and_congr_right fun _ => ?_
  cases ht : s.type? a.type.core with
  | none => simp [ht]
  | some t =>
    by_cases hpass : a.type.core ∈ path ∨ Builtin.isBuiltinType a.type.core = true
    · rcases hpass with hpath | hbuiltin
      · simp [ht, hpath]
      · simp [ht, hbuiltin]
    · obtain ⟨hpath, hbuiltin⟩ := not_or.mp hpass
      cases left with
      | zero => simp [ht, hpath, hbuiltin]
      | succ fewer => simp [ht, hpath, hbuiltin]

omit hs in
/-- Inputs of built-in types without directives lead nowhere. -/
theorem walkTypes_builtin {visit : Nat → List Name → Directive → Except PathFault Unit} {left : Nat} {path : List Name}
    {inputs : List InputDef} (h : ∀ a ∈ inputs, a.directives = [] ∧ Builtin.isBuiltinType a.type.core = true) :
    walkTypes s visit left path [] inputs = .ok () := by
  refine walkTypes_eq_ok.mpr ⟨fun _ hd => absurd hd List.not_mem_nil, fun a ha => ?_⟩
  obtain ⟨hd, hb⟩ := h a ha
  rw [hd, hb]
  exact ⟨fun _ hd => absurd hd List.not_mem_nil, fun _ _ _ hnot => absurd hnot Bool.true_eq_false.mp⟩

/-- A deprecation leads a search for another directive nowhere. -/
theorem Keeps.walkDirective_deprecated {start : Name} {left typesLeft : Nat} {path typePath : List Name} {d : Directive}
    (hd : d.name = "deprecated") (hstart : start ≠ "deprecated") :
    walkDirective s' start (left + 1) path typesLeft typePath d = .ok () := by
  unfold walkDirective
  rw [hd, hs.deprecated, step]
  split_ifs with hreturned
  · exact absurd (beq_iff_eq.mp hreturned).symm hstart
  · rfl
  · exact walkTypes_builtin (by decide +kernel)

omit hs in
theorem name_of_onlyDeprecation {ds : List Directive} (h : OnlyDeprecation ds) : ∀ d ∈ ds, d.name = "deprecated" := by
  obtain ⟨isDeprecated, reason, rfl⟩ := h
  intro d hd
  cases isDeprecated with
  | false => cases hd
  | true =>
    rw [List.mem_singleton.mp hd]

omit hs in
/-- What the search for a directive finds at a type that restates another. -/
theorem contributions_of_keeps {t t' : TypeDef} (h : t.Keeps t') :
    (∀ d ∈ (typeContributions t').1, d.name = "deprecated") ∧
      InputsRestate (typeContributions t).2 (typeContributions t').2 := by
  have hinputs : ∀ t : TypeDef, (typeContributions t).2 = t.body.inputs := by
    intro t
    rw [typeContributions]
    cases t.body <;> rfl
  have happlied : (typeContributions t').1 = t'.body.values.flatMap (·.directives) := by
    rw [typeContributions, h.directives]
    cases t'.body <;> rfl
  refine ⟨?_, by rw [hinputs, hinputs]; exact h.inputs⟩
  rw [happlied]
  intro d hd
  obtain ⟨v', hv', hd⟩ := List.mem_flatMap.mp hd
  obtain ⟨v, -, hr⟩ := h.values v' hv'
  exact name_of_onlyDeprecation hr.directives d hd

/-- A search for a directive that ends without a fault does so in fewer inputs. -/
theorem Keeps.walkTypes {visit visit' : Nat → List Name → Directive → Except PathFault Unit}
    (hvisit : ∀ left path d, d.name = "deprecated" → visit' left path d = .ok ()) {left : Nat} {path : List Name}
    {applied applied' : List Directive} {inputs inputs' : List InputDef}
    (happlied : ∀ d ∈ applied', d.name = "deprecated") (hi : InputsRestate inputs inputs')
    (h : walkTypes s visit left path applied inputs = .ok ()) :
    walkTypes s' visit' left path applied' inputs' = .ok () := by
  induction left using Nat.strong_induction_on generalizing path applied applied' inputs inputs' with
  | _ left ih =>
    obtain ⟨-, hinputs⟩ := walkTypes_eq_ok.mp h
    refine walkTypes_eq_ok.mpr ⟨fun d hd => hvisit left path d (happlied d hd), fun a' ha' => ?_⟩
    obtain ⟨a, ha, -, har⟩ := hi.exists ha'
    obtain ⟨-, htype⟩ := hinputs a ha
    rw [har.directives, har.type]
    refine ⟨fun _ hd => absurd hd List.not_mem_nil, fun t' ht' hpath hbuiltin => ?_⟩
    obtain ⟨t, ht, hk⟩ := hs.type?_some' ht'
    obtain ⟨fewer, rfl, hwalk⟩ := htype t ht hpath hbuiltin
    obtain ⟨hdirectives, hfields⟩ := contributions_of_keeps hk
    exact ⟨fewer, rfl, ih fewer (Nat.lt_succ_self fewer) hdirectives hfields hwalk⟩

theorem Keeps.checkDirectiveDef {d d' : DirectiveDef} (hd : d.Restates d')
    (hown : d' ∈ Builtin.directives ∨ d'.name ≠ "deprecated") (h : s.checkDirectiveDef d = []) :
    s'.checkDirectiveDef d' = [] := by
  simp only [Schema.checkDirectiveDef, List.append_eq_nil_iff] at h ⊢
  obtain ⟨⟨hname, harguments⟩, hcycle⟩ := h
  have hwalk : Schema.walkTypes s (walkDirective s d.name (pathLimit - 1) [d.name]) pathLimit [] [] d.arguments = .ok () := by
    rw [checkDirectiveCycle] at hcycle
    split at hcycle
    · assumption
    · cases hcycle
    · cases hcycle
  have hwalk' : Schema.walkTypes s' (walkDirective s' d'.name (pathLimit - 1) [d'.name]) pathLimit [] [] d'.arguments =
      .ok () := by
    rcases hown with hbuiltin | hne
    · have harguments : ∀ d ∈ Builtin.directives, ∀ a ∈ d.arguments,
          a.directives = [] ∧ Builtin.isBuiltinType a.type.core = true := by decide +kernel
      exact walkTypes_builtin (harguments d' hbuiltin)
    · refine hs.walkTypes (fun left path a ha => ?_) (fun _ ha => absurd ha List.not_mem_nil) hd.arguments hwalk
      exact hs.walkDirective_deprecated ha hne
  refine ⟨⟨?_, hs.checkArgumentDefs hd.arguments harguments⟩, ?_⟩
  · rw [hd.name]
    exact hname
  · rw [checkDirectiveCycle, hwalk']

/-! ## The whole schema -/

omit hs in
theorem checkNotEmpty_eq_nil {α : Type} {d : Diagnostic} {members : List α} :
    checkNotEmpty d members = [] ↔ members ≠ [] := by
  rw [checkNotEmpty]
  cases members <;> simp

/-- What the rules ask of the content of a type, list by list. -/
structure SoundContent (s : Schema) (t : TypeDef) : Prop where
  fields : ∀ f ∈ t.body.fields, s.checkField f = []
  someField : t.kind = .object ∨ t.kind = .interface → t.body.fields ≠ []
  interfaces : t.kind = .object ∨ t.kind = .interface → s.checkInterfaces t = []
  members : ∀ m ∈ t.body.members, s.checkMember m = []
  someMember : t.kind = .union → t.body.members ≠ []
  values : ∀ v ∈ t.body.values, s.checkEnumValue v = []
  someValue : t.kind = .enum → t.body.values ≠ []
  inputs : ∀ d ∈ t.body.inputs, s.checkInput .inputField .inputFieldDefinition d = []
  someInput : t.kind = .inputObject → t.body.inputs ≠ []
  cycle : t.kind = .inputObject → s.checkInputCycle t.name t.body.inputs = []

omit hs in
theorem checkContent_eq_nil_iff {t : TypeDef} : s.checkContent t = [] ↔ s.SoundContent t := by
  have hkind : t.kind = t.body.kind := rfl
  rw [Schema.checkContent]
  constructor
  · intro h
    cases hb : t.body <;> rw [hb] at h hkind <;>
      simp only [List.append_eq_nil_iff, checkNotEmpty_eq_nil, List.flatMap_eq_nil_iff] at h <;>
      constructor <;>
      simp_all [TypeBody.fields, TypeBody.members, TypeBody.values, TypeBody.inputs, TypeBody.kind]
  · rintro ⟨hfields, hsomeField, hinterfaces, hmembers, hsomeMember, hvalues, hsomeValue, hinputs, hsomeInput, hcycle⟩
    cases hb : t.body <;> rw [hb] at hkind <;>
      simp_all [checkNotEmpty_eq_nil, TypeBody.fields, TypeBody.members, TypeBody.values, TypeBody.inputs, TypeBody.kind]

theorem Keeps.checkContent {t t' : TypeDef} (ht : t.Keeps t') (hagree : isReserved t.name = false → s.AgreesWith t)
    (h : s.checkContent t = []) : s'.checkContent t' = [] := by
  have h := checkContent_eq_nil_iff.mp h
  refine checkContent_eq_nil_iff.mpr
    { fields := fun f' hf' => ?_, someField := fun hk => ?_, interfaces := fun hk => ?_, members := fun m hm => ?_,
      someMember := fun hk => ?_, values := fun v' hv' => ?_, someValue := fun hk => ?_, inputs := fun d' hd' => ?_,
      someInput := fun hk => ?_, cycle := fun hk => ?_ }
  · obtain ⟨f, hf, hr⟩ := ht.fields f' hf'
    exact hs.checkField hr (h.fields f hf)
  · rw [ht.kind] at hk
    exact ht.someField (h.someField hk)
  · rw [ht.kind] at hk
    exact hs.checkInterfaces ht hagree (h.interfaces hk)
  · rw [ht.members] at hm
    exact hs.checkMember (h.members m hm)
  · rw [ht.kind] at hk
    rw [ht.members]
    exact h.someMember hk
  · obtain ⟨v, hv, hr⟩ := ht.values v' hv'
    exact hs.checkEnumValue hr (h.values v hv)
  · rw [ht.kind] at hk
    exact ht.someValue (h.someValue hk)
  · obtain ⟨d, hd, -, hr⟩ := ht.inputs.exists hd'
    exact hs.checkInput hr (h.inputs d hd)
  · rw [ht.kind] at hk
    exact ht.someInput (h.someInput hk)
  · rw [ht.kind] at hk
    rw [ht.name]
    exact hs.checkInputCycle ht.inputs (h.cycle hk)

theorem Keeps.checkType {t t' : TypeDef} (ht : t.Keeps t') (hagree : isReserved t.name = false → s.AgreesWith t)
    (h : s.checkType t = []) : s'.checkType t' = [] := by
  rw [Schema.checkType] at h ⊢
  rw [ht.name, ht.kind, ht.directives]
  split_ifs at h ⊢ with hscalar hbuiltin
  · rfl
  · exact hs.checkContent ht hagree (List.append_eq_nil_iff.mp h).2
  · simp only [List.append_eq_nil_iff] at h ⊢
    exact ⟨⟨h.1.1, rfl⟩, hs.checkContent ht hagree h.2⟩

/-- **A schema that restates one without faults has none**, if its roots have none, and if what interfaces ask for does
not rest on what is lost. -/
theorem Keeps.diagnostics (hroots : s'.checkRoots = [])
    (hagree : ∀ t ∈ s.types, isReserved t.name = false → s.AgreesWith t) (h : s.diagnostics = []) :
    s'.diagnostics = [] := by
  simp only [Schema.diagnostics, List.append_eq_nil_iff, List.flatMap_eq_nil_iff] at h ⊢
  obtain ⟨⟨-, hdirectives⟩, htypes⟩ := h
  refine ⟨⟨hroots, fun d' hd' => ?_⟩, fun t' ht' => ?_⟩
  · obtain ⟨d, hd, hr⟩ := exists_of_forall₂ hs.directives hd'
    exact hs.checkDirectiveDef hr (hs.own d' hd') (hdirectives d hd)
  · obtain ⟨t, ht, hk⟩ := exists_of_forall₂ hs.types ht'
    exact hs.checkType hk (hagree t ht) (htypes t ht)

end

end Schema

end SchemaWeave

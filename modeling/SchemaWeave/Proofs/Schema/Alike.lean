import SchemaWeave.Proofs.Schema.Restated

/-!
# Schemas that answer alike

Two schemas are alike if they differ at most in how the deprecations of fields and enum values are written (`Schema.Alike`).
Nothing that a query can select tells them apart (`Alike.resolve`), so they answer every query alike (`Alike.run`).
-/

namespace SchemaWeave

open Graphql Introspection Schema

/-! ## Definitions -/

/-- Directives that say the same about deprecation. -/
structure Schema.SameDeprecation (ds ds' : List Directive) : Prop where
  isDeprecated : isDeprecated ds' = isDeprecated ds
  reason : deprecationReason ds' = deprecationReason ds

namespace Graphql

structure FieldDef.Alike (f f' : FieldDef) : Prop where
  name : f'.name = f.name
  description : f'.description = f.description
  arguments : f'.arguments = f.arguments
  type : f'.type = f.type
  directives : SameDeprecation f.directives f'.directives

structure EnumValueDef.Alike (v v' : EnumValueDef) : Prop where
  name : v'.name = v.name
  description : v'.description = v.description
  directives : SameDeprecation v.directives v'.directives

/-- Content of one kind with the same members, up to the deprecation of fields and values. -/
inductive TypeBody.Alike : TypeBody → TypeBody → Prop
  | scalar : Alike .scalar .scalar
  | object {interfaces : List Name} {fields fields' : List FieldDef} (h : List.Forall₂ FieldDef.Alike fields fields') :
    Alike (.object interfaces fields) (.object interfaces fields')
  | interface {interfaces : List Name} {fields fields' : List FieldDef}
    (h : List.Forall₂ FieldDef.Alike fields fields') : Alike (.interface interfaces fields) (.interface interfaces fields')
  | union {members : List Name} : Alike (.union members) (.union members)
  | enum {values values' : List EnumValueDef} (h : List.Forall₂ EnumValueDef.Alike values values') :
    Alike (.enum values) (.enum values')
  | inputObject {fields : List InputDef} : Alike (.inputObject fields) (.inputObject fields)

structure TypeDef.Alike (t t' : TypeDef) : Prop where
  name : t'.name = t.name
  description : t'.description = t.description
  body : t.body.Alike t'.body

theorem FieldDef.Alike.refl (f : FieldDef) : f.Alike f := ⟨rfl, rfl, rfl, rfl, rfl, rfl⟩

theorem EnumValueDef.Alike.refl (v : EnumValueDef) : v.Alike v := ⟨rfl, rfl, rfl, rfl⟩

theorem TypeDef.Alike.refl (t : TypeDef) : t.Alike t := by
  refine ⟨rfl, rfl, ?_⟩
  cases t.body with
  | scalar => exact .scalar
  | object interfaces fields => exact .object (List.forall₂_same.mpr fun f _ => .refl f)
  | interface interfaces fields => exact .interface (List.forall₂_same.mpr fun f _ => .refl f)
  | union members => exact .union
  | enum values => exact .enum (List.forall₂_same.mpr fun v _ => .refl v)
  | inputObject fields => exact .inputObject

theorem TypeBody.Alike.lists {b b' : TypeBody} (h : b.Alike b') : b'.kind = b.kind ∧ b'.interfaces = b.interfaces ∧
    b'.inputs = b.inputs ∧ List.Forall₂ FieldDef.Alike b.fields b'.fields := by
  cases h with
  | object h | interface h => exact ⟨rfl, rfl, rfl, h⟩
  | _ => exact ⟨rfl, rfl, rfl, .nil⟩

theorem TypeDef.Alike.kind {t t' : TypeDef} (h : t.Alike t') : t'.kind = t.kind := h.body.lists.1

theorem TypeDef.Alike.interfaces {t t' : TypeDef} (h : t.Alike t') : t'.interfaces = t.interfaces := by
  rw [TypeDef.interfaces_eq, TypeDef.interfaces_eq, h.body.lists.2.1]

theorem TypeDef.Alike.references {t t' : TypeDef} (h : t.Alike t') : references t' = references t := by
  obtain ⟨-, -, hinputs, hfields⟩ := h.body.lists
  have hreferences : t'.body.fields.map fieldReferences = t.body.fields.map fieldReferences := by
    refine map_eq_of_forall₂ (fun f f' hf => ?_) hfields
    rw [fieldReferences, fieldReferences, hf.type, hf.arguments]
  rw [references_eq, references_eq, hinputs, List.flatMap_def, List.flatMap_def, hreferences]

end Graphql

namespace Schema

/-- Schemas that differ at most in how the deprecations of fields and enum values are written. -/
structure Alike (s s' : Schema) : Prop where
  roots : ∀ kind, s'.root? kind = s.root? kind
  directives : s'.directives = s.directives
  types : List.Forall₂ TypeDef.Alike s.types s'.types

/-! ## Nodes -/

inductive Node.Alike : Node → Node → Prop
  | schema : Alike .schema .schema
  | type (e : TypeExpr) : Alike (.type e) (.type e)
  | field {f f' : FieldDef} (h : f.Alike f') : Alike (.field f) (.field f')
  | input (d : InputDef) : Alike (.input d) (.input d)
  | enumValue {v v' : EnumValueDef} (h : v.Alike v') : Alike (.enumValue v) (.enumValue v')
  | directive (d : DirectiveDef) : Alike (.directive d) (.directive d)

inductive Answer.Alike : Answer → Answer → Prop
  | value (j : Json) : Alike (.value j) (.value j)
  | node {n n' : Node} (h : n.Alike n') : Alike (.node n) (.node n')
  | nodes {ns ns' : List Node} (h : List.Forall₂ Node.Alike ns ns') : Alike (.nodes ns) (.nodes ns')

theorem Node.Alike.refl (n : Node) : n.Alike n := by
  cases n with
  | schema => exact .schema
  | type e => exact .type e
  | field f => exact .field (.refl f)
  | input d => exact .input d
  | enumValue v => exact .enumValue (.refl v)
  | directive d => exact .directive d

theorem Answer.Alike.refl (a : Answer) : a.Alike a := by
  cases a with
  | value j => exact .value j
  | node n => exact .node (.refl n)
  | nodes ns => exact .nodes (List.forall₂_same.mpr fun n _ => .refl n)

/-- Elements that are deprecated or not alike are shown alike. -/
theorem forall₂_shown {α : Type} {R : α → α → Prop} {directives : α → List Directive} {node : α → Node}
    (hd : ∀ a b, R a b → SameDeprecation (directives a) (directives b))
    (hn : ∀ a b, R a b → (node a).Alike (node b)) {l l' : List α} (h : List.Forall₂ R l l') (includeDeprecated : Bool) :
    List.Forall₂ Node.Alike ((shown includeDeprecated directives l).map node)
      ((shown includeDeprecated directives l').map node) := by
  rw [List.forall₂_map_left_iff, List.forall₂_map_right_iff]
  have hshown : List.Forall₂ R (shown includeDeprecated directives l) (shown includeDeprecated directives l') := by
    rw [shown, shown]
    split
    · exact h
    · refine List.rel_filter (fun a b hab => ?_) h
      simp only [(hd a b hab).isDeprecated]
  exact hshown.imp hn

variable {s s' : Schema}

section

variable (h : s.Alike s')

include h

theorem Alike.type? (name : Name) : Option.Rel TypeDef.Alike (s.type? name) (s'.type? name) :=
  rel_find? (fun _ _ ht => by rw [ht.name]) h.types

theorem Alike.implementers (interface : Name) : s'.implementers interface = s.implementers interface := by
  have hleft : List.Forall₂ TypeDef.Alike (s.types.filter fun t => t.kind = .object && t.interfaces.contains interface)
      (s'.types.filter fun t => t.kind = .object && t.interfaces.contains interface) :=
    List.rel_filter (fun t t' ht => by simp only [ht.kind, ht.interfaces]) h.types
  exact map_eq_of_forall₂ (fun _ _ ht => ht.name) hleft

theorem Alike.resolveNamed {t t' : TypeDef} (ht : t.Alike t') (field : Name) (includeDeprecated : Bool) :
    (s.resolveNamed t field includeDeprecated).Alike (s'.resolveNamed t' field includeDeprecated) := by
  have hfields := fun {fs fs' : List FieldDef} (hfs : List.Forall₂ FieldDef.Alike fs fs') =>
    Answer.Alike.nodes (forall₂_shown (fun _ _ hf => hf.directives) (fun _ _ hf => .field hf) hfs includeDeprecated)
  have hvalues := fun {vs vs' : List EnumValueDef} (hvs : List.Forall₂ EnumValueDef.Alike vs vs') =>
    Answer.Alike.nodes (forall₂_shown (fun _ _ hv => hv.directives) (fun _ _ hv => .enumValue hv) hvs includeDeprecated)
  have hb := ht.body
  unfold Schema.resolveNamed
  rw [ht.kind, ht.name, ht.description, h.implementers]
  revert hb
  generalize t.body = b
  generalize t'.body = b'
  intro hb
  split
  · exact .refl _
  · exact .refl _
  · exact .refl _
  · cases hb <;> first | exact .refl _ | exact hfields ‹_›
  · cases hb <;> exact .refl _
  · cases hb <;> exact .refl _
  · cases hb <;> first | exact .refl _ | exact hvalues ‹_›
  · cases hb <;> exact .refl _
  · exact .refl _

theorem Alike.resolveType (e : TypeExpr) (field : Name) (includeDeprecated : Bool) :
    (s.resolveType e field includeDeprecated).Alike (s'.resolveType e field includeDeprecated) := by
  cases e with
  | list item required => cases required <;> exact .refl _
  | named name required =>
    cases required with
    | true => exact .refl _
    | false =>
      rw [Schema.resolveType, Schema.resolveType]
      have htype := h.type? name
      generalize s.type? name = found at htype
      generalize s'.type? name = found' at htype
      cases htype with
      | none => exact .refl _
      | some ht => exact h.resolveNamed ht field includeDeprecated

/-- Every field of alike nodes gives the same value, or alike nodes. -/
theorem Alike.resolve {n n' : Node} (hn : n.Alike n') (field : Name) (includeDeprecated : Bool) :
    (s.resolve n field includeDeprecated).Alike (s'.resolve n' field includeDeprecated) := by
  cases hn with
  | type e => exact h.resolveType e field includeDeprecated
  | input d => exact .refl _
  | directive d => exact .refl _
  | schema =>
    have hnames : (s'.types.map fun t => namedNode t.name) = s.types.map fun t => namedNode t.name :=
      map_eq_of_forall₂ (fun _ _ ht => by rw [ht.name]) h.types
    simp only [Schema.resolve, resolveRoot, h.roots, h.directives, hnames]
    exact .refl _
  | field hf =>
    simp only [Schema.resolve, hf.name, hf.description, hf.arguments, hf.type, hf.directives.isDeprecated,
      hf.directives.reason]
    exact .refl _
  | enumValue hv =>
    simp only [Schema.resolve, hv.name, hv.description, hv.directives.isDeprecated, hv.directives.reason]
    exact .refl _

end

/-! ## Selections -/

mutual

theorem Alike.answer (h : s.Alike s') : ∀ (selections : List Selection) {n n' : Node}, n.Alike n' →
    s'.answer n' selections = s.answer n selections
  | [], n, n', _ => by rw [Schema.answer, Schema.answer]
  | selection :: rest, n, n', hn => by
    rw [Schema.answer, Schema.answer, h.answerOne selection hn, h.answer rest hn]

theorem Alike.answerOne (h : s.Alike s') : ∀ (selection : Selection) {n n' : Node}, n.Alike n' →
    s'.answerOne n' selection = s.answerOne n selection
  | .spread _ selections, n, n', hn => by
    rw [Schema.answerOne, Schema.answerOne]
    exact h.answer selections hn
  | .leaf name, n, n', hn => by
    have hr := h.resolve hn name false
    rw [Schema.answerOne, Schema.answerOne]
    generalize s.resolve n name false = a at hr
    generalize s'.resolve n' name false = a' at hr
    cases hr <;> rfl
  | .node name includeDeprecated _ selections, n, n', hn => by
    have hr := h.resolve hn name includeDeprecated
    rw [Schema.answerOne, Schema.answerOne]
    generalize s.resolve n name includeDeprecated = a at hr
    generalize s'.resolve n' name includeDeprecated = a' at hr
    cases hr with
    | value j => rfl
    | node hinner => simp only [h.answer selections hinner]
    | nodes hinners =>
      have hmap := map_eq_of_forall₂ (fun _ _ hinner => congrArg Json.object (h.answer selections hinner)) hinners
      simp only [hmap]

end

/-- **Alike schemas answer every query alike.** -/
theorem Alike.run (h : s.Alike s') (q : Query) : s'.run q = s.run q := by
  rw [Schema.run, Schema.run]
  congr 2
  funext selection
  split
  · rw [h.answer _ .schema]
  · rfl

theorem Alike.artifact (h : s.Alike s') : s'.artifact = s.artifact := by rw [Schema.artifact, Schema.artifact, h.run]

/-! ## Dropping scalars -/

/-- The same scalars are dropped from alike schemas. -/
theorem Alike.dropUnusedScalars (h : s.Alike s') : s.dropUnusedScalars.Alike s'.dropUnusedScalars := by
  have hreferences : s'.types.map references = s.types.map references :=
    map_eq_of_forall₂ (fun _ _ ht => ht.references) h.types
  have hused : s'.usedTypes = s.usedTypes := by
    rw [usedTypes, usedTypes, h.directives]
    exact congrArg (·.flatten ++ _) hreferences
  refine ⟨h.roots, h.directives, List.rel_filter (fun t t' ht => ?_) h.types⟩
  simp only [ht.name, hused]

end Schema

end SchemaWeave

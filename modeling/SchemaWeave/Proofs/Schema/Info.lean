import SchemaWeave.Introspection.Encode
import SchemaWeave.Proofs.Schema.Content
import SchemaWeave.Schema.Assembly
import SchemaWeave.Schema.Introspect

/-!
# What the artifact of a schema tells

`Schema.info` is the introspection result that the artifact of a schema holds: every type with all its fields,
interfaces, members and values, deprecated ones included; arguments and input fields that are not deprecated; and
references with up to `wrapperLevels` wrappers. A schema is `Resolved` if every name it refers to is that of a
type.
-/

namespace SchemaWeave

open Graphql Introspection

namespace Schema

/-! ## References -/

/-- The reference inside the outermost wrapper. -/
def inside? : TypeExpr → Option TypeExpr
  | .named name true => some (.named name false)
  | .list item true => some (.list item false)
  | .list item false => some item
  | .named _ false => none

/-- The name of a reference without wrappers. -/
def outerName? : TypeExpr → Option Name
  | .named name false => some name
  | _ => none

/-- The kind of the outermost wrapper, or that of the named type. -/
def outerKind (s : Schema) : TypeExpr → RefKind
  | .named _ true | .list _ true => .nonNull
  | .list _ false => .list
  | .named name false => ((s.type? name).map fun t => refKind t.kind).getD .scalar

/-- A reference, cut where it has more wrappers. -/
def refInfo (s : Schema) : (levels : Nat) → TypeExpr → TypeRef
  | 0, e => .bare (s.outerKind e) (outerName? e)
  | levels + 1, e => .ofParts (s.outerKind e) (outerName? e) ((inside? e).map (s.refInfo levels))

/-! ## Elements -/

/-- The elements that are not deprecated. -/
def current {α : Type} (directives : α → List Directive) (elements : List α) : List α :=
  elements.filter fun e => !isDeprecated (directives e)

def inputInfo (s : Schema) (d : InputDef) : InputValue :=
  { name := d.name, description := d.description, type := s.refInfo wrapperLevels d.type,
    defaultValue := d.default.map Value.text }

/-- The arguments or input fields that the artifact tells. -/
def inputInfos (s : Schema) (ds : List InputDef) : List InputValue :=
  (current InputDef.directives ds).map s.inputInfo

/-- The reason of a deprecation. -/
def reason? (ds : List Directive) : Option String :=
  match deprecation? ds with
  | none => none
  | some d =>
    match d.argument? "reason" with
    | none => some Builtin.defaultReason
    | some (.string reason) => some reason
    | some _ => none

def fieldInfo (s : Schema) (f : FieldDef) : Field :=
  { name := f.name, description := f.description, args := s.inputInfos f.arguments,
    type := s.refInfo wrapperLevels f.type, isDeprecated := isDeprecated f.directives,
    deprecationReason := reason? f.directives }

def valueInfo (v : EnumValueDef) : EnumValue :=
  { name := v.name, description := v.description, isDeprecated := isDeprecated v.directives,
    deprecationReason := reason? v.directives }

/-- What a type has to say beside its name and description. -/
def contentInfo (s : Schema) (name : Name) : TypeBody → TypeContent
  | .scalar => .scalar
  | .object interfaces fields => .object (fields.map s.fieldInfo) interfaces
  | .interface interfaces fields => .interface (fields.map s.fieldInfo) (some interfaces) (some (s.implementers name))
  | .union members => .union members
  | .enum values => .enum (values.map valueInfo)
  | .inputObject fields => .inputObject (s.inputInfos fields)

def typeInfo (s : Schema) (t : TypeDef) : TypeInfo :=
  { name := t.name, description := t.description, content := s.contentInfo t.name t.body }

def directiveInfo (s : Schema) (d : DirectiveDef) : DirectiveInfo :=
  { name := d.name, description := d.description, locations := d.locations.map DirectiveLocation.name,
    args := s.inputInfos d.arguments }

/-- The introspection result of a schema. -/
def info (s : Schema) : SchemaInfo :=
  { queryType := s.root? .query, mutationType := s.root? .mutation, subscriptionType := s.root? .subscription,
    types := s.types.map s.typeInfo, directives := s.directives.map s.directiveInfo }

/-! ## Names -/

/-- A type refers to the types of its fields and of their arguments, or to those of its input fields. -/
theorem references_eq (t : TypeDef) :
    references t = t.body.fields.flatMap fieldReferences ++ t.body.inputs.map (·.type.core) := by
  rw [references]
  cases t.body <;> simp [TypeBody.fields, TypeBody.inputs]

/-- Every name that a schema refers to is that of a type, and no two types have one name. -/
structure Resolved (s : Schema) : Prop where
  nodup : (s.types.map (·.name)).Nodup
  used : ∀ name ∈ s.usedTypes, s.hasType name = true
  interfaces : ∀ t ∈ s.types, ∀ name ∈ t.interfaces, s.hasType name = true
  members : ∀ t ∈ s.types, ∀ name ∈ t.body.members, s.hasType name = true
  roots : ∀ root ∈ s.roots, s.hasType root.2 = true

theorem hasType_iff {s : Schema} {name : Name} : s.hasType name = true ↔ name ∈ s.types.map (·.name) := by
  simp [hasType, type?, List.find?_isSome]

theorem name_of_type? {s : Schema} {name : Name} {t : TypeDef} (h : s.type? name = some t) : t.name = name := by
  simpa using List.find?_some h

/-- A type is found by its name. -/
theorem type?_name {s : Schema} (hn : (s.types.map (·.name)).Nodup) {t : TypeDef} (ht : t ∈ s.types) :
    s.type? t.name = some t := by
  rw [type?]
  generalize s.types = types at hn ht
  induction types with
  | nil => cases ht
  | cons u types ih =>
    rw [List.map_cons, List.nodup_cons] at hn
    rcases List.mem_cons.mp ht with rfl | ht
    · simp
    · rw [List.find?_cons_of_neg, ih hn.2 ht]
      rw [beq_iff_eq]
      exact fun he => hn.1 (he ▸ List.mem_map_of_mem ht)

end Schema

end SchemaWeave

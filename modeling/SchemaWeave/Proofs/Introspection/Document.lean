import SchemaWeave.Introspection.Sdl
import SchemaWeave.Proofs.Graphql.Grammar
import SchemaWeave.Proofs.Graphql.Spelling
import SchemaWeave.Schema.Assembly

/-!
# The document of an introspection result

`SchemaInfo.document` is the document that an introspection result stands for: the schema definition if a root
type has a name of its own, then the directives and the types that not every schema has. `SchemaInfo.Conforms`
says what a conforming server keeps to: names are names, references stand for types, a default value is the text
of one constant, what may not be empty is not, and something is left to print.
-/

namespace SchemaWeave.Introspection

open Graphql

/-! ## Types and constants -/

/-- The type with an exclamation mark. -/
def required : TypeExpr → TypeExpr
  | .named name _ => .named name true
  | .list item _ => .list item true

/-- The type that a reference stands for. -/
def TypeRef.expr : TypeRef → TypeExpr
  | bare _ name => .named (name.getD "") false
  | wrap .nonNull _ inner => required inner.expr
  | wrap .list _ inner => .list inner.expr false
  | wrap _ name _ => .named (name.getD "") false

/-- The constant that a text holds, if it holds one and nothing else. -/
def constant? (s : String) : Option Value :=
  match tokenize s.toList with
  | none => none
  | some ts =>
    match Parser.value true ts.length ts with
    | .ok (v, []) => some v
    | _ => none

/-- The text of one constant, without comments. -/
def IsConstantText (s : String) : Prop := ∃ v : Value, v.Grammatical ∧ Scans s.toList v.tokens

/-! ## Descriptions and deprecation -/

/-- The value that is read from a description. A block string loses the blank lines at its ends and the
indentation that its lines share; its first line is the end of the line with the opening quotes, its last one the
margin. -/
def readDescription (level : Nat) (d : String) : String :=
  if isBlockDescription d.toList then String.ofList (blockValue ('\n' :: d.toList ++ '\n' :: margin level)) else d

/-- The directive that marks a deprecated element. -/
def deprecation (isDeprecated : Bool) (reason : Option String) : List Directive :=
  if isDeprecated then [{ name := "deprecated", arguments := reason.toList.map fun r => ("reason", .string r) }] else []

/-! ## Members -/

/-- An argument. Its description is not printed. -/
def InputValue.argument (v : InputValue) : InputDef :=
  { name := v.name, type := v.type.expr, default := v.defaultValue.bind constant? }

/-- A field of an input object. -/
def InputValue.inputField (v : InputValue) : InputDef :=
  { v.argument with description := v.description.map (readDescription 1) }

def Field.fieldDef (f : Field) : FieldDef :=
  { description := f.description.map (readDescription 1), name := f.name, arguments := f.args.map InputValue.argument,
    type := f.type.expr, directives := deprecation f.isDeprecated f.deprecationReason }

def EnumValue.enumValueDef (v : EnumValue) : EnumValueDef :=
  { description := v.description.map (readDescription 1), name := v.name,
    directives := deprecation v.isDeprecated v.deprecationReason }

/-! ## Definitions -/

def TypeContent.body : TypeContent → TypeBody
  | scalar => .scalar
  | object fields interfaces => .object interfaces (fields.map Field.fieldDef)
  | interface fields interfaces _ => .interface (interfaces.getD []) (fields.map Field.fieldDef)
  | union possibleTypes => .union possibleTypes
  | enum values => .enum (values.map EnumValue.enumValueDef)
  | inputObject fields => .inputObject (fields.map InputValue.inputField)

def TypeInfo.typeDef (t : TypeInfo) : TypeDef :=
  { description := t.description.map (readDescription 0), name := t.name, body := t.content.body }

def DirectiveInfo.directiveDef (d : DirectiveInfo) : DirectiveDef :=
  { description := d.description.map (readDescription 0), name := d.name, arguments := d.args.map InputValue.argument,
    locations := d.locations.filterMap DirectiveLocation.ofName? }

/-- The root types by the kind of their operations. -/
def SchemaInfo.rootNames (s : SchemaInfo) : List (OperationKind × Name) :=
  [(OperationKind.query, s.queryType), (.mutation, s.mutationType), (.subscription, s.subscriptionType)].filterMap
    fun (kind, name) => name.map (kind, ·)

/-- The definitions of a schema. -/
def SchemaInfo.document (s : SchemaInfo) : Document :=
  (if s.rootNames.any fun (kind, name) => name != Schema.defaultRootName kind then [.schema { roots := s.rootNames }]
    else []) ++
    ((s.directives.filter fun d => !builtinDirectives.contains d.name).map fun d => .directive d.directiveDef) ++
    ((s.types.filter fun t => !isReserved t.name && !builtinScalars.contains t.name).map fun t => .type t.typeDef)

/-! ## Conforming results -/

structure TypeRef.Conforms (t : TypeRef) : Prop where
  wellFormed : t.isWellFormed = true
  expr : t.expr.Grammatical

structure InputValue.Conforms (v : InputValue) : Prop where
  name : isName v.name = true
  type : v.type.Conforms
  defaultValue : ∀ d ∈ v.defaultValue, IsConstantText d

structure Field.Conforms (f : Field) : Prop where
  name : isName f.name = true
  args : ∀ a ∈ f.args, a.Conforms
  type : f.type.Conforms

structure EnumValue.Conforms (v : EnumValue) : Prop where
  name : isName v.name = true
  notKeyword : v.name ∉ Value.keywords

def TypeContent.Conforms : TypeContent → Prop
  | scalar => True
  | object fields interfaces => (∀ f ∈ fields, f.Conforms) ∧ ∀ n ∈ interfaces, isName n = true
  | interface fields interfaces _ => (∀ f ∈ fields, f.Conforms) ∧ ∀ n ∈ interfaces.getD [], isName n = true
  | union possibleTypes => possibleTypes ≠ [] ∧ ∀ n ∈ possibleTypes, isName n = true
  | enum values => values ≠ [] ∧ ∀ v ∈ values, v.Conforms
  | inputObject fields => fields ≠ [] ∧ ∀ v ∈ fields, v.Conforms

structure TypeInfo.Conforms (t : TypeInfo) : Prop where
  name : isName t.name = true
  content : t.content.Conforms

structure DirectiveInfo.Conforms (d : DirectiveInfo) : Prop where
  name : isName d.name = true
  args : ∀ a ∈ d.args, a.Conforms
  locations : d.locations ≠ [] ∧ ∀ l ∈ d.locations, (DirectiveLocation.ofName? l).isSome = true

/-- What a conforming server keeps to. Its result lists the object type of its queries, so that there is something to
print: no text is a document without definitions. -/
structure SchemaInfo.Conforms (s : SchemaInfo) : Prop where
  roots : ∀ r ∈ s.rootNames, isName r.2 = true
  types : ∀ t ∈ s.types, t.Conforms
  directives : ∀ d ∈ s.directives, d.Conforms
  notEmpty : s.document ≠ []

end SchemaWeave.Introspection

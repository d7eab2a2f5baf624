import SchemaWeave.Graphql.Parser
import SchemaWeave.Proofs.Graphql.Lexeme

/-!
# The grammar of the schema language

`Definition.tokens` spells a definition as tokens, without the marks that the grammar leaves to the writer's choice.
`Definition.Grammatical` says which definitions the grammar can spell at all: their names are names, their values are
constants, what may not be empty is not, and nothing is nested deeper than `nestingLimit`.
-/

namespace SchemaWeave.Graphql

/-! ## Groups of tokens -/

/-- Groups of tokens between two marks; nothing if there are none. -/
def enclosed (opening close : Punctuator) : List (List Token) → List Token
  | [] => []
  | group :: groups => .punct opening :: (group ++ (groups.flatten ++ [.punct close]))

/-- Names with a mark between each two, after what introduces them; nothing if there are none. -/
def listed (introduction : Token) (separator : Punctuator) : List Name → List Token
  | [] => []
  | name :: names => introduction :: .name name :: names.flatMap fun n => [.punct separator, .name n]

/-! ## Types and values -/

namespace TypeExpr

/-- The exclamation mark of a required type. -/
def bang (required : Bool) : List Token := if required then [.punct .bang] else []

def tokens : TypeExpr → List Token
  | named name required => .name name :: bang required
  | list item required => .punct .openBracket :: (item.tokens ++ .punct .closeBracket :: bang required)

/-- The number of lists around the named type. -/
def lists : TypeExpr → Nat
  | named .. => 0
  | list item _ => item.lists + 1

def Grammatical (t : TypeExpr) : Prop := isName t.core = true ∧ t.lists ≤ nestingLimit

end TypeExpr

namespace Value

mutual

def tokens : Value → List Token
  | var name => [.punct .dollar, .name name]
  | int spelling => [.int spelling]
  | float spelling => [.float spelling]
  | string value => [.string value]
  | boolean value => [.name (if value then "true" else "false")]
  | null => [.name "null"]
  | enum name => [.name name]
  | list items => .punct .openBracket :: (itemTokens items ++ [.punct .closeBracket])
  | object fields => .punct .openBrace :: (fieldTokens fields ++ [.punct .closeBrace])

def itemTokens : List Value → List Token
  | [] => []
  | item :: items => item.tokens ++ itemTokens items

def fieldTokens : List (Name × Value) → List Token
  | [] => []
  | (name, value) :: fields => .name name :: .punct .colon :: (value.tokens ++ fieldTokens fields)

end

/-- The tokens of an argument, or of a field of an object. -/
def namedTokens (a : Name × Value) : List Token := .name a.1 :: .punct .colon :: a.2.tokens

theorem itemTokens_eq : ∀ items, itemTokens items = (items.map tokens).flatten
  | [] => by simp [itemTokens]
  | item :: items => by simp [itemTokens, itemTokens_eq items]

theorem fieldTokens_eq : ∀ fields, fieldTokens fields = (fields.map namedTokens).flatten
  | [] => by simp [fieldTokens]
  | (name, value) :: fields => by simp [fieldTokens, namedTokens, fieldTokens_eq fields]

/-- The names that stand for values of other kinds than enum values. -/
def keywords : List Name := ["true", "false", "null"]

/-- A constant with at most `depth - 1` lists and objects around each part, whose names and numbers are spelled as the
grammar has them. -/
def Constant : (depth : Nat) → Value → Prop
  | 0, _ => False
  | _ + 1, var _ => False
  | _ + 1, int spelling => (Token.int spelling).Valid
  | _ + 1, float spelling => (Token.float spelling).Valid
  | _ + 1, string _ | _ + 1, boolean _ | _ + 1, null => True
  | _ + 1, enum name => isName name = true ∧ name ∉ keywords
  | depth + 1, list items => ∀ v ∈ items, Constant depth v
  | depth + 1, object fields => ∀ f ∈ fields, isName f.1 = true ∧ Constant depth f.2

/-- A constant that is nested no deeper than values may be. -/
def Grammatical (v : Value) : Prop := v.Constant (nestingLimit + 1)

end Value

/-! ## Directives and members -/

def argumentTokens (arguments : List (Name × Value)) : List Token :=
  enclosed .openParen .closeParen (arguments.map Value.namedTokens)

/-- Arguments of an applied directive. -/
def ArgumentsGrammatical (arguments : List (Name × Value)) : Prop :=
  ∀ a ∈ arguments, isName a.1 = true ∧ a.2.Grammatical

namespace Directive

def tokens (d : Directive) : List Token := .punct .atSign :: .name d.name :: argumentTokens d.arguments

def Grammatical (d : Directive) : Prop := isName d.name = true ∧ ArgumentsGrammatical d.arguments

end Directive

def directiveTokens (ds : List Directive) : List Token := ds.flatMap Directive.tokens

def descriptionTokens : Option String → List Token
  | none => []
  | some d => [.string d]

def defaultTokens : Option Value → List Token
  | none => []
  | some v => .punct .equals :: v.tokens

namespace InputDef

def tokens (d : InputDef) : List Token :=
  descriptionTokens d.description ++ .name d.name :: .punct .colon ::
    (d.type.tokens ++ (defaultTokens d.default ++ directiveTokens d.directives))

structure Grammatical (d : InputDef) : Prop where
  name : isName d.name = true
  type : d.type.Grammatical
  default : ∀ v ∈ d.default, v.Grammatical
  directives : ∀ a ∈ d.directives, a.Grammatical

end InputDef

def argumentDefTokens (arguments : List InputDef) : List Token :=
  enclosed .openParen .closeParen (arguments.map InputDef.tokens)

namespace FieldDef

def tokens (f : FieldDef) : List Token :=
  descriptionTokens f.description ++ .name f.name ::
    (argumentDefTokens f.arguments ++ .punct .colon :: (f.type.tokens ++ directiveTokens f.directives))

structure Grammatical (f : FieldDef) : Prop where
  name : isName f.name = true
  arguments : ∀ a ∈ f.arguments, a.Grammatical
  type : f.type.Grammatical
  directives : ∀ a ∈ f.directives, a.Grammatical

end FieldDef

namespace EnumValueDef

def tokens (v : EnumValueDef) : List Token :=
  descriptionTokens v.description ++ .name v.name :: directiveTokens v.directives

structure Grammatical (v : EnumValueDef) : Prop where
  name : isName v.name = true
  notKeyword : v.name ∉ Value.keywords
  directives : ∀ a ∈ v.directives, a.Grammatical

end EnumValueDef

/-! ## Definitions -/

namespace TypeBody

/-- What follows the name of a type. -/
def tokens (directives : List Directive) : TypeBody → List Token
  | scalar => directiveTokens directives
  | object interfaces fields | interface interfaces fields =>
    listed (.name "implements") .amp interfaces ++
      (directiveTokens directives ++ enclosed .openBrace .closeBrace (fields.map FieldDef.tokens))
  | union members => directiveTokens directives ++ listed (.punct .equals) .pipe members
  | enum values => directiveTokens directives ++ enclosed .openBrace .closeBrace (values.map EnumValueDef.tokens)
  | inputObject fields => directiveTokens directives ++ enclosed .openBrace .closeBrace (fields.map InputDef.tokens)

def Grammatical : TypeBody → Prop
  | scalar => True
  | object interfaces fields | interface interfaces fields =>
    (∀ n ∈ interfaces, isName n = true) ∧ ∀ f ∈ fields, f.Grammatical
  | union members => ∀ n ∈ members, isName n = true
  | enum values => ∀ v ∈ values, v.Grammatical
  | inputObject fields => ∀ f ∈ fields, f.Grammatical

end TypeBody

/-- The tokens of a root operation type. -/
def rootTokens (r : OperationKind × Name) : List Token := [.name r.1.name, .punct .colon, .name r.2]

structure TypeDef.Grammatical (d : TypeDef) : Prop where
  name : isName d.name = true
  directives : ∀ a ∈ d.directives, a.Grammatical
  body : d.body.Grammatical

structure TypeExtension.Grammatical (e : TypeExtension) : Prop where
  name : isName e.name = true
  directives : ∀ a ∈ e.directives, a.Grammatical
  body : e.body.Grammatical
  notEmpty : (e.directives.isEmpty && Parser.TypeBody.isEmpty e.body) = false

structure DirectiveDef.Grammatical (d : DirectiveDef) : Prop where
  name : isName d.name = true
  arguments : ∀ a ∈ d.arguments, a.Grammatical
  locations : d.locations ≠ []

namespace Definition

/-- The tokens of a definition. Of an operation or a fragment only the keyword is known. -/
def tokens : Definition → List Token
  | operation => [.name "query"]
  | fragment => [.name "fragment"]
  | schema d =>
    descriptionTokens d.description ++ .name "schema" ::
      (directiveTokens d.directives ++ .punct .openBrace :: ((d.roots.map rootTokens).flatten ++ [.punct .closeBrace]))
  | directive d =>
    descriptionTokens d.description ++ .name "directive" :: .punct .atSign :: .name d.name ::
      (argumentDefTokens d.arguments ++ ((if d.repeatable then [.name "repeatable"] else []) ++
        listed (.name "on") .pipe (d.locations.map DirectiveLocation.name)))
  | type d =>
    descriptionTokens d.description ++ .name d.body.kind.keyword :: .name d.name :: d.body.tokens d.directives
  | schemaExtension e =>
    .name "extend" :: .name "schema" ::
      (directiveTokens e.directives ++ enclosed .openBrace .closeBrace (e.roots.map rootTokens))
  | typeExtension e => .name "extend" :: .name e.body.kind.keyword :: .name e.name :: e.body.tokens e.directives

/-- The definitions that the grammar can spell. -/
def Grammatical : Definition → Prop
  | operation | fragment => False
  | schema d => (∀ a ∈ d.directives, a.Grammatical) ∧ ∀ r ∈ d.roots, isName r.2 = true
  | directive d => d.Grammatical
  | type d => d.Grammatical
  | schemaExtension e => (∀ a ∈ e.directives, a.Grammatical) ∧ ∀ r ∈ e.roots, isName r.2 = true
  | typeExtension e => e.Grammatical

/-- Whether two tokens belong together at the start of the definition: a description and the keyword after it, or
the two keywords of an extension. -/
def isLed : Definition → Bool
  | operation | fragment => false
  | schema d => d.description.isSome
  | directive d => d.description.isSome
  | type d => d.description.isSome
  | schemaExtension _ | typeExtension _ => true

/-- Tokens of a definition, with no comma between the first two where they belong together. -/
def Spelled (d : Definition) (ts : List PlacedToken) : Prop :=
  ts.map PlacedToken.token = d.tokens ∧ (d.isLed = true → ∀ t ∈ ts[1]?, t.afterComma = false)

/-- What a reader finds amiss in the text of a definition: a schema definition without root operation types, and a
schema extension without any content. -/
def slips : Definition → List SyntaxError
  | schema d => if d.roots.isEmpty then [.emptySchema] else []
  | schemaExtension e => if e.directives.isEmpty && e.roots.isEmpty then [.emptyExtension] else []
  | _ => []

end Definition

/-- What a reader finds amiss in the text of a document. -/
def Document.slips (doc : Document) : List SyntaxError :=
  if doc.isEmpty then [.noDefinition] else doc.flatMap Definition.slips

end SchemaWeave.Graphql

/-!
# Type references

A reference as an introspection result spells it out: a kind, a name and the type inside, each of which may be missing.
`TypeRef.text` writes it as the schema language does. Only some references stand for a type (`TypeRef.isWellFormed`).
-/

namespace SchemaWeave.Introspection

/-- The kinds of types, wrappers included. -/
inductive RefKind
  | scalar | object | interface | union | enum | inputObject | list | nonNull
  deriving DecidableEq, Repr

namespace RefKind

def all : List RefKind := [scalar, object, interface, union, enum, inputObject, list, nonNull]

/-- The name of a kind in an introspection result. -/
def name : RefKind → String
  | scalar => "SCALAR"
  | object => "OBJECT"
  | interface => "INTERFACE"
  | union => "UNION"
  | enum => "ENUM"
  | inputObject => "INPUT_OBJECT"
  | list => "LIST"
  | nonNull => "NON_NULL"

def ofName? (s : String) : Option RefKind := all.find? (·.name == s)

end RefKind

/-- A reference to a type: `bare` without and `over` with a type inside. -/
inductive TypeRef
  | bare (kind : RefKind) (name : Option String)
  | wrap (kind : RefKind) (name : Option String) (ofType : TypeRef)
  deriving DecidableEq, Repr

namespace TypeRef

def kind : TypeRef → RefKind
  | bare kind _ | wrap kind _ _ => kind

def name : TypeRef → Option String
  | bare _ name | wrap _ name _ => name

def ofType? : TypeRef → Option TypeRef
  | bare .. => none
  | wrap _ _ inner => some inner

/-- A reference from its three parts. -/
def ofParts (kind : RefKind) (name : Option String) : Option TypeRef → TypeRef
  | none => bare kind name
  | some inner => wrap kind name inner

/-- The reference in the schema language. A wrapper around nothing leaves its marks alone. -/
def text : TypeRef → String
  | bare .nonNull _ => "!"
  | bare .list _ => "[]"
  | bare _ name => name.getD ""
  | wrap .nonNull _ inner => inner.text ++ "!"
  | wrap .list _ inner => "[" ++ inner.text ++ "]"
  | wrap _ name _ => name.getD ""

/-- Whether a reference stands for a type: wrappers have a type inside, a required type is not required again, and the
type at the core has a name. -/
def isWellFormed : TypeRef → Bool
  | bare .nonNull _ | bare .list _ => false
  | bare _ name => name.isSome
  | wrap .nonNull _ inner => inner.kind != .nonNull && inner.isWellFormed
  | wrap .list _ inner => inner.isWellFormed
  | wrap _ name _ => name.isSome

end TypeRef

end SchemaWeave.Introspection

import SchemaWeave.Schema.Basic

/-!
# Adding content to types

`TypeDef.extended` is a type definition with the content of all extensions of its name behind its own. Each list
of members then has those of the definition in front and those of the extensions behind (`extended_members`).
-/

namespace SchemaWeave.Graphql

namespace TypeBody

/-- The fields of an object or interface type. -/
def fields : TypeBody → List FieldDef
  | object _ fields | interface _ fields => fields
  | _ => []

/-- The interfaces that an object or interface type implements. -/
def interfaces : TypeBody → List Name
  | object interfaces _ | interface interfaces _ => interfaces
  | _ => []

/-- The members of a union type. -/
def members : TypeBody → List Name
  | union members => members
  | _ => []

/-- The values of an enum type. -/
def values : TypeBody → List EnumValueDef
  | enum values => values
  | _ => []

/-- The fields of an input object type. -/
def inputs : TypeBody → List InputDef
  | inputObject fields => fields
  | _ => []

/-- The content of a type with more of its kind behind it. Content of another kind is left out. -/
def append : TypeBody → TypeBody → TypeBody
  | object interfaces fields, object interfaces' fields' => object (interfaces ++ interfaces') (fields ++ fields')
  | interface interfaces fields, interface interfaces' fields' =>
    interface (interfaces ++ interfaces') (fields ++ fields')
  | union members, union members' => union (members ++ members')
  | enum values, enum values' => enum (values ++ values')
  | inputObject fields, inputObject fields' => inputObject (fields ++ fields')
  | body, _ => body

theorem kind_append (a b : TypeBody) : (a.append b).kind = a.kind := by
  cases a <;> cases b <;> rfl

/-- A list of members that content has behind what it is added to. -/
def Appends {α : Type} (list : TypeBody → List α) : Prop :=
  ∀ a b : TypeBody, a.kind = b.kind → list (a.append b) = list a ++ list b

theorem appends_fields : Appends fields := fun a b h => by cases a <;> cases b <;> first | rfl | cases h

theorem appends_interfaces : Appends interfaces := fun a b h => by cases a <;> cases b <;> first | rfl | cases h

theorem appends_members : Appends members := fun a b h => by cases a <;> cases b <;> first | rfl | cases h

theorem appends_values : Appends values := fun a b h => by cases a <;> cases b <;> first | rfl | cases h

theorem appends_inputs : Appends inputs := fun a b h => by cases a <;> cases b <;> first | rfl | cases h

end TypeBody

namespace TypeDef

/-- A type definition with the content of an extension behind its own. -/
def extend (t : TypeDef) (e : TypeExtension) : TypeDef :=
  { t with body := t.body.append e.body, directives := t.directives ++ e.directives }

/-- A type definition with the content of all extensions of its name. -/
def extended (es : List TypeExtension) (t : TypeDef) : TypeDef := (es.filter (·.name == t.name)).foldl extend t

theorem foldl_extend (es : List TypeExtension) (t : TypeDef) :
    (es.foldl extend t).name = t.name ∧ (es.foldl extend t).description = t.description ∧
      (es.foldl extend t).kind = t.kind := by
  induction es generalizing t with
  | nil => exact ⟨rfl, rfl, rfl⟩
  | cons e es ih =>
    obtain ⟨hname, hdescription, hkind⟩ := ih (t.extend e)
    exact ⟨hname, hdescription, hkind.trans (TypeBody.kind_append _ _)⟩

theorem foldl_extend_members {α : Type} {list : TypeBody → List α} (hl : TypeBody.Appends list)
    (es : List TypeExtension)
    (t : TypeDef) (hk : ∀ e ∈ es, e.body.kind = t.kind) :
    list (es.foldl extend t).body = list t.body ++ es.flatMap fun e => list e.body := by
  induction es generalizing t with
  | nil => simp
  | cons e es ih =>
    have he := hk e List.mem_cons_self
    rw [List.foldl_cons, ih (t.extend e) fun e' he' => (hk e' (List.mem_cons_of_mem e he')).trans
      (TypeBody.kind_append t.body e.body).symm, List.flatMap_cons, extend, hl _ _ he.symm, List.append_assoc]

/-- Adding content keeps the name, the description and the kind of a type. -/
theorem extended_eq (es : List TypeExtension) (t : TypeDef) :
    (t.extended es).name = t.name ∧ (t.extended es).description = t.description ∧ (t.extended es).kind = t.kind :=
  foldl_extend _ t

/-- **The members of the definition come first, and those of the extensions behind them in order.** -/
theorem extended_members {α : Type} {list : TypeBody → List α} (hl : TypeBody.Appends list) (es : List TypeExtension)
    (t : TypeDef) (hk : ∀ e ∈ es, e.name = t.name → e.body.kind = t.kind) :
    list (t.extended es).body = list t.body ++ (es.filter (·.name == t.name)).flatMap fun e => list e.body :=
  foldl_extend_members hl _ t fun e he =>
    hk e (List.mem_filter.mp he).1 (beq_iff_eq.mp (List.mem_filter.mp he).2)

/-- One more extension is added behind all others, if it is of the name. -/
theorem extended_append (es : List TypeExtension) (e : TypeExtension) (t : TypeDef) :
    t.extended (es ++ [e]) = if e.name = t.name then (t.extended es).extend e else t.extended es := by
  rw [extended, extended, List.filter_append, List.foldl_append]
  by_cases h : e.name = t.name
  · simp [h]
  · simp [h]

end TypeDef

end SchemaWeave.Graphql

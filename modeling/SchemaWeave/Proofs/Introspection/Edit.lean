import SchemaWeave.Proofs.Introspection.Agree

/-!
# Edits that do not matter

A value of an introspection result is read as a record, as a list, or as it is (`Shape`). An edit changes the order of the
members of an object anywhere in a value, or adds a member to a record that has no field of this name (`Edit`). What is
read of a value does not change with an edit of its shape (`Unmoved`): for records this is `iff_of_edited`, which the
lemmas on the fields of an edited source (`RecordSource.Edited.reads` and the like) are for.
-/

namespace SchemaWeave.Introspection

open Json

/-! ## Shapes -/

/-- The records of a result. -/
inductive Part
  | envelope | data | schema | directive | field | inputValue | enumValue | named | reference
  /-- the content of a listed type of a kind -/
  | content (kind : RefKind)
  deriving DecidableEq

/-- What a value is read as. -/
inductive Shape
  /-- a value that holds no record, or that is not read -/
  | other
  | list (item : Shape)
  | record (part : Part)
  /-- a listed type with its kind -/
  | type
  /-- data without an envelope -/
  | bare
  /-- the schema that stands alone in an array -/
  | bareSchema
  deriving DecidableEq

/-- The fields of a record, in their order, and what each is read as. -/
def Part.fields : Part → List (String × Shape)
  | envelope => [("data", .record data)]
  | data => [("__schema", .record schema)]
  | schema => [("queryType", .record named), ("mutationType", .record named), ("subscriptionType", .record named),
      ("types", .list .type), ("directives", .list (.record directive))]
  | directive => [("name", .other), ("description", .other), ("locations", .list .other),
      ("args", .list (.record inputValue))]
  | field => [("name", .other), ("description", .other), ("args", .list (.record inputValue)),
      ("type", .record reference), ("isDeprecated", .other), ("deprecationReason", .other)]
  | inputValue => [("name", .other), ("description", .other), ("type", .record reference), ("defaultValue", .other)]
  | enumValue => [("name", .other), ("description", .other), ("isDeprecated", .other), ("deprecationReason", .other)]
  | named => [("name", .other)]
  | reference => [("kind", .other), ("name", .other), ("ofType", .record reference)]
  | content kind => ("name", .other) :: ("description", .other) :: match kind with
    | .object => [("fields", .list (.record field)), ("interfaces", .list (.record named))]
    | .interface => [("fields", .list (.record field)), ("interfaces", .list (.record named)),
        ("possibleTypes", .list (.record named))]
    | .union => [("possibleTypes", .list (.record named))]
    | .enum => [("enumValues", .list (.record enumValue))]
    | .inputObject => [("inputFields", .list (.record inputValue))]
    | .scalar | .list | .nonNull => []

/-- The kind of a listed type that was set aside. -/
def kindOf? (j : Json) : Option RefKind := (untagged? j).bind fun p => (decodeTag .aside p.1).toOption

/-- The fields of the record that a value is read as. A listed type has its kind in front of the fields of its kind. Data
without an envelope has no member for the data of an envelope; nor has a schema that stands alone in an array, where data
could stand as well, a member for a schema. -/
def Shape.fieldsAt : Shape → Json → Option (List (String × Shape))
  | record part, _ => some part.fields
  | type, j => (kindOf? j).map fun kind => ("kind", other) :: (Part.content kind).fields
  | bare, .array _ => some [("__schema", bareSchema)]
  | bare, _ => some [("__schema", record .schema), ("data", other)]
  | bareSchema, _ => some (Part.schema.fields ++ [("__schema", other)])
  | other, _ | list _, _ => none

/-- What a member of an object is read as. -/
def Shape.memberShape (s : Shape) (j : Json) (key : String) : Shape :=
  ((s.fieldsAt j).bind (·.lookup key)).getD other

/-- What an item of an array is read as. -/
def Shape.itemShape (s : Shape) (j : Json) (index : Nat) : Shape :=
  match s with
  | list item => item
  | s => ((s.fieldsAt j).bind (·[index]?)).elim other (·.2)

theorem Shape.memberShape_eq {s : Shape} {j : Json} {fields : List (String × Shape)} (h : s.fieldsAt j = some fields)
    (key : String) : s.memberShape j key = (fields.lookup key).getD other := by
  rw [memberShape, h, Option.bind_some]

theorem Shape.itemShape_eq {s : Shape} {j : Json} {fields : List (String × Shape)} (h : s.fieldsAt j = some fields)
    (index : Nat) : s.itemShape j index = fields[index]?.elim other (·.2) := by
  cases s with
  | list => cases h
  | _ => simp only [itemShape, h, Option.bind_some]

/-! ## Edits -/

/-- One edit of a value: members change places, or a member comes that is no field, in the value itself or in a value
inside. -/
inductive Edit : Shape → Json → Json → Prop
  | permute {s : Shape} {members members' : List (String × Json)} (h : members'.Perm members) :
    Edit s (.object members) (.object members')
  | insert {s : Shape} {members : List (String × Json)} {fields : List (String × Shape)} {key : String} {value : Json}
    (hs : s.fieldsAt (.object members) = some fields) (hk : key ∉ fields.map (·.1)) :
    Edit s (.object members) (.object ((key, value) :: members))
  | member {s : Shape} {before after : List (String × Json)} {key : String} {value value' : Json}
    (h : Edit (s.memberShape (.object (before ++ (key, value) :: after)) key) value value') :
    Edit s (.object (before ++ (key, value) :: after)) (.object (before ++ (key, value') :: after))
  | item {s : Shape} {before after : List Json} {value value' : Json}
    (h : Edit (s.itemShape (.array (before ++ value :: after)) before.length) value value') :
    Edit s (.array (before ++ value :: after)) (.array (before ++ value' :: after))

namespace Edit

variable {s : Shape} {j j' : Json}

theorem forms (h : Edit s j j') : (∃ members members', j = .object members ∧ j' = .object members') ∨
    ∃ items items', j = .array items ∧ j' = .array items' ∧ items'.length = items.length := by
  cases h with
  | permute | insert | member => exact Or.inl ⟨_, _, rfl, rfl⟩
  | item => exact Or.inr ⟨_, _, rfl, rfl, by simp⟩

theorem memberShape_other (j : Json) (key : String) : Shape.other.memberShape j key = .other := rfl

theorem itemShape_other (j : Json) (index : Nat) : Shape.other.itemShape j index = .other := rfl

/-- Where nothing is read, only the order of members changes, and that may change anywhere. -/
theorem ofOther (h : Edit .other j j') (s : Shape) : Edit s j j' := by
  generalize hs : Shape.other = t at h
  induction h generalizing s with
  | permute h => exact .permute h
  | insert hfields =>
    subst hs
    cases hfields
  | member _ ih =>
    subst hs
    exact .member (ih _ (memberShape_other _ _).symm)
  | item _ ih =>
    subst hs
    exact .item (ih _ (itemShape_other _ _).symm)

theorem eq_null_iff (h : Edit s j j') : j = .null ↔ j' = .null := by cases h <;> simp

theorem eq_empty_iff (h : Edit .other j j') : j = .object [] ↔ j' = .object [] := by
  cases h with
  | permute h => simp only [object.injEq, ← List.length_eq_zero_iff, h.length_eq]
  | insert hfields => cases hfields
  | member => simp
  | item => simp

end Edit

/-! ## Reading -/

section

variable {α : Type} {decode : Json → Decoded α} {s : Shape} {a : α}

/-- A value is read as a result or not, whether it is edited or not. -/
def Unmoved (s : Shape) (decode : Json → Decoded α) (a : α) : Prop :=
  ∀ ⦃j j' : Json⦄, Edit s j j' → (decode j = .ok a ↔ decode j' = .ok a)

theorem unmoved_string (s : Shape) (a : String) : Unmoved s decodeString a := by
  intro j j' h
  rcases h.forms with ⟨_, _, rfl, rfl⟩ | ⟨_, _, rfl, rfl, -⟩ <;> exact ⟨nofun, nofun⟩

theorem unmoved_bool (s : Shape) (a : Bool) : Unmoved s decodeBool a := by
  intro j j' h
  rcases h.forms with ⟨_, _, rfl, rfl⟩ | ⟨_, _, rfl, rfl, -⟩ <;> exact ⟨nofun, nofun⟩

theorem Unmoved.nullable {o : Option α} (h : ∀ a ∈ o, Unmoved s decode a) : Unmoved s (decodeNullable decode) o := by
  intro j j' he
  rw [decodeNullable_eq_ok, decodeNullable_eq_ok, ne_eq, ne_eq, he.eq_null_iff]
  refine or_congr Iff.rfl (and_congr Iff.rfl (exists_congr fun a => and_congr_left ?_))
  rintro rfl
  exact h a rfl he

theorem unmoved_nullableString (s : Shape) (o : Option String) : Unmoved s (decodeNullable decodeString) o :=
  Unmoved.nullable fun a _ => unmoved_string s a

/-- A list is unmoved if its items are. -/
theorem Unmoved.list {l : List α} (h : ∀ a ∈ l, Unmoved s decode a) : Unmoved (.list s) (decodeList decode) l := by
  intro j j' he
  rw [decodeList_eq_ok, decodeList_eq_ok]
  cases he with
  | permute | insert | member => exact ⟨fun ⟨_, hi, _⟩ => (nomatch hi), fun ⟨_, hi, _⟩ => nomatch hi⟩
  | @item _ before after value value' he =>
    simp only [array.injEq, exists_eq_left']
    have hitem : ∀ l₂ ⊆ l, List.Forall₂ (fun j a => decode j = .ok a) (value :: after) l₂ ↔
        List.Forall₂ (fun j a => decode j = .ok a) (value' :: after) l₂ := by
      intro l₂ hl₂
      cases l₂ with
      | nil => simp
      | cons a l₂ => rw [List.forall₂_cons, List.forall₂_cons, h a (hl₂ List.mem_cons_self) he]
    clear he
    induction before generalizing l with
    | nil => exact hitem l (List.Subset.refl l)
    | cons first before ih =>
      cases l with
      | nil => simp
      | cons a l =>
        rw [List.cons_append, List.cons_append, List.forall₂_cons, List.forall₂_cons]
        refine and_congr_right fun _ => ih (fun b hb => h b (List.mem_cons_of_mem a hb)) fun l₂ hl₂ => ?_
        exact hitem l₂ (List.subset_cons_of_subset a hl₂)

end

/-! ## Edited sources -/

/-- What a record is read from, edited: of its fields, each is as it was or edited as it is read. -/
inductive Edited (fields : List (String × Shape)) : RecordSource → RecordSource → Prop
  | permute {members members' : List (String × Json)} (h : members'.Perm members) :
    Edited fields (.members members) (.members members')
  | insert {members : List (String × Json)} {key : String} {value : Json} (hk : key ∉ fields.map (·.1)) :
    Edited fields (.members members) (.members ((key, value) :: members))
  | member {before after : List (String × Json)} {key : String} {value value' : Json}
    (h : ∀ s, fields.lookup key = some s → Edit s value value') :
    Edited fields (.members (before ++ (key, value) :: after)) (.members (before ++ (key, value') :: after))
  | item {before after : List Json} {value value' : Json}
    (h : ∀ f, fields[before.length]? = some f → Edit f.2 value value') :
    Edited fields (.items (before ++ value :: after)) (.items (before ++ value' :: after))

/-- An edited record has an edited source. -/
theorem Edit.edited {s : Shape} {fields : List (String × Shape)} {j j' : Json} (h : Edit s j j')
    (hs : s.fieldsAt j = some fields) :
    ∃ source source', j.source? = some source ∧ j'.source? = some source' ∧ Edited fields source source' := by
  cases h with
  | permute h => exact ⟨_, _, rfl, rfl, .permute h⟩
  | insert hfields hk =>
    cases hs.symm.trans hfields
    exact ⟨_, _, rfl, rfl, .insert hk⟩
  | member h =>
    refine ⟨_, _, rfl, rfl, .member fun t ht => ?_⟩
    rw [Shape.memberShape_eq hs, ht] at h
    exact h
  | item h =>
    refine ⟨_, _, rfl, rfl, .item fun f hf => ?_⟩
    rw [Shape.itemShape_eq hs, hf] at h
    exact h

/-! ### Fields by their names -/

theorem mem_of_lookup {fields : List (String × Shape)} {field : String} {s : Shape}
    (hfield : fields.lookup field = some s) : (field, s) ∈ fields := by
  obtain ⟨before, after, rfl, -⟩ := List.lookup_eq_some_iff.mp hfield
  exact List.mem_append_right before List.mem_cons_self

theorem getElem?_idxOf {fields : List (String × Shape)} (hnames : (fields.map (·.1)).Nodup) {field : String} {s : Shape}
    (hfield : fields.lookup field = some s) : fields[(fields.map (·.1)).idxOf field]? = some (field, s) := by
  obtain ⟨index, hlt, hindex⟩ := List.getElem_of_mem (mem_of_lookup hfield)
  have hlt' : index < (fields.map (·.1)).length := by simpa using hlt
  have hname : (fields.map (·.1))[index] = field := by simp [hindex]
  have hidx : (fields.map (·.1)).idxOf field = index := by
    rw [← hname]
    exact hnames.idxOf_getElem index _
  rw [hidx, List.getElem?_eq_getElem hlt, hindex]

/-- Of members that give no field twice, only one has the name of a field. -/
theorem find?_perm_of_fits {names : List String} {members members' : List (String × Json)}
    (hfits : (RecordSource.members members).Fits names) (h : members'.Perm members) {field : String}
    (hfield : field ∈ names) : members'.find? (·.1 == field) = members.find? (·.1 == field) := by
  have hsub : ((members.filter (·.1 == field)).map (·.1)).Sublist ((members.map (·.1)).filter names.contains) := by
    rw [List.filter_map]
    refine (List.monotone_filter_right members fun m hm => ?_).map _
    rw [Function.comp_apply, List.contains_iff_mem, beq_iff_eq.mp hm]
    exact hfield
  have hsame : ∀ m ∈ members.filter (·.1 == field), m.1 = field := fun m hm => beq_iff_eq.mp (List.mem_filter.mp hm).2
  have hperm := h.filter (·.1 == field)
  have hnodup : ((members.filter (·.1 == field)).map (·.1)).Nodup := List.Nodup.sublist hsub hfits
  rw [← List.head?_filter, ← List.head?_filter]
  generalize members.filter (·.1 == field) = found at *
  generalize members'.filter (·.1 == field) = found' at *
  rcases found with _ | ⟨m, _ | ⟨other, found⟩⟩
  · rw [hperm.eq_nil]
  · rw [List.perm_singleton.mp hperm]
  · simp [hsame m, hsame other] at hnodup

namespace Edited

variable {fields : List (String × Shape)} {source source' : RecordSource} (h : Edited fields source source')

include h

theorem isObject_eq : source'.isObject = source.isObject := by cases h <;> rfl

theorem fits_iff : source.Fits (fields.map (·.1)) ↔ source'.Fits (fields.map (·.1)) := by
  cases h with
  | permute h => exact ((h.map (·.1)).filter _).nodup_iff.symm
  | insert hk =>
    rw [RecordSource.Fits, RecordSource.Fits, List.map_cons, List.filter_cons_of_neg]
    rwa [List.contains_iff_mem]
  | member => rw [RecordSource.Fits, RecordSource.Fits, List.map_append, List.map_append, List.map_cons, List.map_cons]
  | item => rw [RecordSource.Fits, RecordSource.Fits, List.length_append, List.length_append, List.length_cons,
      List.length_cons]

/-- What is found in a field that is given once is as it was, or edited as it is read. -/
theorem value? (hnames : (fields.map (·.1)).Nodup) (hfits : source.Fits (fields.map (·.1))) {field : String} {s : Shape}
    (hfield : fields.lookup field = some s) :
    source'.value? (fields.map (·.1)) field = source.value? (fields.map (·.1)) field ∨
      ∃ value value', source.value? (fields.map (·.1)) field = some value ∧
        source'.value? (fields.map (·.1)) field = some value' ∧ Edit s value value' := by
  cases h with
  | permute h =>
    have hmem : field ∈ fields.map (·.1) := List.mem_map_of_mem (mem_of_lookup hfield)
    exact Or.inl (congrArg (Option.map Prod.snd) (find?_perm_of_fits hfits h hmem))
  | @insert _ key _ hk =>
    have hmem : field ∈ fields.map (·.1) := List.mem_map_of_mem (mem_of_lookup hfield)
    have hne : (key == field) = false := beq_eq_false_iff_ne.mpr fun he => hk (he ▸ hmem)
    refine Or.inl (congrArg (Option.map Prod.snd) ?_)
    rw [List.find?_cons, hne]
  | @member before after key value value' he =>
    simp only [RecordSource.value?, List.find?_append, List.find?_cons]
    cases before.find? (·.1 == field) with
    | some m => exact Or.inl rfl
    | none =>
      by_cases hk : key = field
      · subst hk
        exact Or.inr ⟨value, value', by simp, by simp, he s hfield⟩
      · have hb : (key == field) = false := beq_eq_false_iff_ne.mpr hk
        exact Or.inl (by rw [hb])
  | @item before after value value' he =>
    have hindex := getElem?_idxOf hnames hfield
    simp only [RecordSource.value?]
    generalize (fields.map (·.1)).idxOf field = index at hindex
    by_cases hi : index = before.length
    · subst hi
      exact Or.inr ⟨value, value', by simp, by simp, he _ hindex⟩
    · refine Or.inl ?_
      rw [List.getElem?_append, List.getElem?_append, List.getElem?_cons, List.getElem?_cons]
      split
      · rfl
      · rw [if_neg (by omega), if_neg (by omega)]

section

variable {α : Type} {decode : Json → Decoded α} {a : α}
variable (hnames : (fields.map (·.1)).Nodup) (hfits : source.Fits (fields.map (·.1))) {field : String} {s : Shape}
  (hfield : fields.lookup field = some s)

include hnames hfits hfield

theorem reads (ha : Unmoved s decode a) : source.Reads (fields.map (·.1)) field decode a ↔
    source'.Reads (fields.map (·.1)) field decode a := by
  rw [RecordSource.Reads, RecordSource.Reads]
  rcases h.value? hnames hfits hfield with hsame | ⟨value, value', hv, hv', he⟩
  · rw [hsame]
  · simp only [hv, hv', Option.some.injEq, exists_eq_left']
    exact ha he

theorem isNone_value? : source.value? (fields.map (·.1)) field = none ↔
    source'.value? (fields.map (·.1)) field = none := by
  rcases h.value? hnames hfits hfield with hsame | ⟨value, value', hv, hv', -⟩
  · rw [hsame]
  · simp [hv, hv']

theorem readsOptional {decode : Json → Decoded (Option α)} {o : Option α} (ho : Unmoved s decode o) :
    source.ReadsOptional (fields.map (·.1)) field decode o ↔
      source'.ReadsOptional (fields.map (·.1)) field decode o := by
  rw [RecordSource.ReadsOptional, RecordSource.ReadsOptional, h.reads hnames hfits hfield ho,
    h.isNone_value? hnames hfits hfield, h.isObject_eq]

theorem readsDefaulted {decode : Json → Decoded (Option α)} {o : Option α} (ho : Unmoved s decode o) :
    source.ReadsDefaulted (fields.map (·.1)) field decode o ↔
      source'.ReadsDefaulted (fields.map (·.1)) field decode o := by
  rw [RecordSource.ReadsDefaulted, RecordSource.ReadsDefaulted, h.reads hnames hfits hfield ho,
    h.isNone_value? hnames hfits hfield]

end

end Edited

end SchemaWeave.Introspection

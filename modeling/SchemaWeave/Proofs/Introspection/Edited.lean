import SchemaWeave.Proofs.Introspection.Edit

/-!
# Edited results are read as before

Every part of a result that was set aside is read from a value as from an edit of it (`InputValue.unmoved` and the like).
The kind of a listed type may stand anywhere among its members: an edit of the type edits the kind or what is left without
it (`untagged?_edit`). A stored result keeps the shape that is tried first, so one edit keeps what it holds
(`SchemaInfo.ofStored_edit`), and so does any number of them (`SchemaInfo.ofText_edited`).
-/

namespace SchemaWeave.Introspection

open Json

theorem Part.nodup_fields (part : Part) : (part.fields.map (·.1)).Nodup := by
  rcases part with _ | _ | _ | _ | _ | _ | _ | _ | _ | kind
  case content => cases kind <;> decide
  all_goals decide

/-- Fields at the front are edited as they are, whatever follows. -/
theorem Edited.ofAppend {fields more : List (String × Shape)} {source source' : RecordSource}
    (h : Edited (fields ++ more) source source') : Edited fields source source' := by
  cases h with
  | permute h => exact .permute h
  | insert hk => exact .insert fun hmem => hk (by rw [List.map_append]; exact List.mem_append_left _ hmem)
  | member h =>
    refine .member fun s hs => h s ?_
    rw [List.lookup_append, hs, Option.some_or]
  | item h =>
    refine .item fun f hf => h f ?_
    rw [List.getElem?_append_left (List.getElem?_eq_some_iff.mp hf).1, hf]

section

variable {α : Type} {decode : Json → Decoded α} {a : α} {part : Part} {P : RecordSource → Prop}

/-- A record is read as before if its fields are. -/
theorem iff_of_edited
    (hdecode : ∀ j, decode j = .ok a ↔
      ∃ source, j.source? = some source ∧ source.Fits (part.fields.map (·.1)) ∧ P source)
    (h : ∀ source source', Edited part.fields source source' → source.Fits (part.fields.map (·.1)) →
      (P source ↔ P source'))
    {j j' : Json} {source source' : RecordSource} (hj : j.source? = some source) (hj' : j'.source? = some source')
    (he : Edited part.fields source source') : decode j = .ok a ↔ decode j' = .ok a := by
  rw [hdecode, hdecode, hj, hj']
  simp only [Option.some.injEq, exists_eq_left', ← he.fits_iff]
  exact and_congr_right (h source source' he)

theorem unmoved_of_source {s : Shape} {more : List (String × Shape)} (hs : ∀ j, s.fieldsAt j = some (part.fields ++ more))
    (hdecode : ∀ j, decode j = .ok a ↔
      ∃ source, j.source? = some source ∧ source.Fits (part.fields.map (·.1)) ∧ P source)
    (h : ∀ source source', Edited part.fields source source' → source.Fits (part.fields.map (·.1)) →
      (P source ↔ P source')) :
    Unmoved s decode a := by
  intro j j' he
  obtain ⟨source, source', hj, hj', hedited⟩ := he.edited (hs j)
  exact iff_of_edited hdecode h hj hj' hedited.ofAppend

end

theorem fieldsAt_record (part : Part) (j : Json) : (Shape.record part).fieldsAt j = some (part.fields ++ []) := by
  rw [List.append_nil]
  rfl

namespace Edited

variable {part : Part} {source source' : RecordSource} (h : Edited part.fields source source')
  (hfits : source.Fits (part.fields.map (·.1))) {field : String} {s : Shape} (hfield : part.fields.lookup field = some s)
include h hfits hfield

theorem string (a : String) : source.Reads (part.fields.map (·.1)) field decodeString a ↔
    source'.Reads (part.fields.map (·.1)) field decodeString a :=
  h.reads part.nodup_fields hfits hfield (unmoved_string s a)

theorem optionalString (o : Option String) :
    source.ReadsOptional (part.fields.map (·.1)) field (decodeNullable decodeString) o ↔
      source'.ReadsOptional (part.fields.map (·.1)) field (decodeNullable decodeString) o :=
  h.readsOptional part.nodup_fields hfits hfield (unmoved_nullableString s o)

end Edited

/-! ## References -/

theorem RefKind.unmoved (h : Holding) (kind : RefKind) : Unmoved .other (RefKind.decode h) kind := by
  intro j j' he
  rw [RefKind.decode_eq_ok, RefKind.decode_eq_ok]
  cases he with
  | @permute _ members members' hp =>
    have hsingle (m : String × Json) : members = [m] ↔ members' = [m] :=
      ⟨fun h => List.perm_singleton.mp (h ▸ hp), fun h => List.perm_singleton.mp (h ▸ hp.symm)⟩
    simp only [reduceCtorEq, false_and, exists_const, false_or, object.injEq, hsingle]
  | insert hs => cases hs
  | @member _ before after key value value' he =>
    have hnull : value = .null ↔ value' = .null := he.eq_null_iff
    have hempty : value = .object [] ↔ value' = .object [] := he.eq_empty_iff
    simp only [reduceCtorEq, false_and, exists_const, false_or, object.injEq]
    rcases before with _ | ⟨m, before⟩
    · simp [hnull, hempty]
    · simp
  | item => simp

/-- A reference is unmoved if the type inside it is. -/
theorem TypeRef.unmoved_of_inner (h : Holding) {t : TypeRef}
    (hinner : ∀ inner ∈ t.ofType?, Unmoved (.record .reference) (decode h) inner) :
    Unmoved (.record .reference) (decode h) t :=
  unmoved_of_source (fieldsAt_record _) (fun _ => decode_eq_ok) fun _ _ he hfits =>
    and_congr (he.reads (Part.nodup_fields _) hfits rfl (RefKind.unmoved h _)) <|
    and_congr (he.optionalString hfits rfl _) <|
    he.readsOptional (Part.nodup_fields _) hfits rfl (Unmoved.nullable hinner)

theorem TypeRef.unmoved (h : Holding) (t : TypeRef) : Unmoved (.record .reference) (decode h) t := by
  induction t with
  | bare kind name => exact unmoved_of_inner h fun _ h => nomatch h
  | wrap kind name inner ih => exact unmoved_of_inner h fun _ h => Option.some.inj h ▸ ih

theorem unmoved_decodeNamed (h : Holding) (name : String) : Unmoved (.record .named) (decodeNamed h) name :=
  unmoved_of_source (fieldsAt_record _) (fun _ => decodeNamed_eq_ok) fun _ _ he hfits => he.string hfits rfl name

/-! ## Members of types -/

theorem InputValue.unmoved (h : Holding) (v : InputValue) : Unmoved (.record .inputValue) (InputValue.decode h) v :=
  unmoved_of_source (fieldsAt_record _) (fun _ => decode_eq_ok) fun _ _ he hfits =>
    and_congr (he.string hfits rfl _) <|
    and_congr (he.optionalString hfits rfl _) <|
    and_congr (he.reads (Part.nodup_fields _) hfits rfl (TypeRef.unmoved h _)) <|
    he.optionalString hfits rfl _

theorem Field.unmoved (h : Holding) (f : Field) : Unmoved (.record .field) (Field.decode h) f :=
  unmoved_of_source (fieldsAt_record _) (fun _ => decode_eq_ok) fun _ _ he hfits =>
    and_congr (he.string hfits rfl _) <|
    and_congr (he.optionalString hfits rfl _) <|
    and_congr (he.reads (Part.nodup_fields _) hfits rfl (Unmoved.list fun v _ => InputValue.unmoved h v)) <|
    and_congr (he.reads (Part.nodup_fields _) hfits rfl (TypeRef.unmoved h _)) <|
    and_congr (he.reads (Part.nodup_fields _) hfits rfl (unmoved_bool _ _)) <|
    he.optionalString hfits rfl _

theorem EnumValue.unmoved (h : Holding) (v : EnumValue) : Unmoved (.record .enumValue) (EnumValue.decode h) v :=
  unmoved_of_source (fieldsAt_record _) (fun _ => decode_eq_ok) fun _ _ he hfits =>
    and_congr (he.string hfits rfl _) <|
    and_congr (he.optionalString hfits rfl _) <|
    and_congr (he.reads (Part.nodup_fields _) hfits rfl (unmoved_bool _ _)) <|
    he.optionalString hfits rfl _

theorem DirectiveInfo.unmoved (h : Holding) (d : DirectiveInfo) :
    Unmoved (.record .directive) (DirectiveInfo.decode h) d :=
  unmoved_of_source (fieldsAt_record _) (fun _ => decode_eq_ok) fun _ _ he hfits =>
    and_congr (he.string hfits rfl _) <|
    and_congr (he.optionalString hfits rfl _) <|
    and_congr (he.reads (Part.nodup_fields _) hfits rfl (Unmoved.list fun s _ => unmoved_string .other s)) <|
    he.reads (Part.nodup_fields _) hfits rfl (Unmoved.list fun v _ => InputValue.unmoved h v)

/-! ## Types -/

theorem unmoved_decodeTag (h : Holding) (s : Shape) (kind : RefKind) : Unmoved s (decodeTag h) kind := by
  intro j j' he
  rcases he.forms with ⟨_, _, rfl, rfl⟩ | ⟨_, _, rfl, rfl, -⟩ <;> exact ⟨nofun, nofun⟩

/-! ### The shape of a listed type -/

section

variable {j : Json} {kind : RefKind}

theorem kindOf?_of_untagged {p : Json × Json} (hj : untagged? j = some p) (hkind : decodeTag .aside p.1 = .ok kind) :
    kindOf? j = some kind := by
  rw [kindOf?, hj, Option.bind_some, hkind]
  rfl

theorem fieldsAt_type (hj : kindOf? j = some kind) :
    Shape.type.fieldsAt j = some (("kind", .other) :: (Part.content kind).fields) := by
  rw [Shape.fieldsAt, hj, Option.map_some]

theorem memberShape_kind (j : Json) : Shape.type.memberShape j "kind" = .other := by
  rw [Shape.memberShape, Shape.fieldsAt]
  cases kindOf? j <;> rfl

theorem itemShape_kind (j : Json) : Shape.type.itemShape j 0 = .other := by
  rw [Shape.itemShape, Shape.fieldsAt]
  · cases kindOf? j <;> rfl
  · intro item hitem
    cases hitem

theorem memberShape_content (hj : kindOf? j = some kind) {key : String} (hkey : key ≠ "kind") (content : Json) :
    Shape.type.memberShape j key = (Shape.record (.content kind)).memberShape content key := by
  have hcontent : (Shape.record (.content kind)).fieldsAt content = some (Part.content kind).fields := rfl
  rw [Shape.memberShape_eq (fieldsAt_type hj), Shape.memberShape_eq hcontent, List.lookup_cons,
    beq_eq_false_iff_ne.mpr hkey]

theorem itemShape_content (hj : kindOf? j = some kind) (index : Nat) (content : Json) :
    Shape.type.itemShape j (index + 1) = (Shape.record (.content kind)).itemShape content index := by
  have hcontent : (Shape.record (.content kind)).fieldsAt content = some (Part.content kind).fields := rfl
  rw [Shape.itemShape_eq (fieldsAt_type hj), Shape.itemShape_eq hcontent, List.getElem?_cons_succ]

end

/-- The kind of a listed type is edited, or what is left without it is, as the content of this kind. -/
def TypeEdited (p p' : Json × Json) : Prop :=
  Relation.ReflGen (Edit .other) p.1 p'.1 ∧
    ∀ kind, decodeTag .aside p.1 = .ok kind → Relation.ReflGen (Edit (.record (.content kind))) p.2 p'.2

theorem untagged?_permute {members members' : List (String × Json)} (hp : members'.Perm members) :
    Option.Rel TypeEdited (untagged? (.object members)) (untagged? (.object members')) := by
  have htags := hp.filter (·.1 == "kind")
  have hcontent := hp.filter (·.1 != "kind")
  rw [untagged?, untagged?]
  generalize members.filter (·.1 == "kind") = tags at *
  generalize members'.filter (·.1 == "kind") = tags' at *
  rcases tags with _ | ⟨m, _ | ⟨other, others⟩⟩
  · obtain rfl := htags.eq_nil
    exact .none
  · obtain rfl := List.perm_singleton.mp htags
    exact .some ⟨.refl, fun _ _ => .single (.permute hcontent)⟩
  · rcases tags' with _ | ⟨m', _ | ⟨other', others'⟩⟩
    · exact absurd htags.length_eq (by simp)
    · exact absurd htags.length_eq (by simp)
    · exact .none

theorem untagged?_insert {members : List (String × Json)} {fields : List (String × Shape)} {key : String} (value : Json)
    (hfields : Shape.type.fieldsAt (.object members) = some fields) (hkey : key ∉ fields.map (·.1)) :
    Option.Rel TypeEdited (untagged? (.object members)) (untagged? (.object ((key, value) :: members))) := by
  have hne : key ≠ "kind" := by
    rintro rfl
    obtain ⟨kind, -, rfl⟩ := Option.map_eq_some_iff.mp hfields
    exact hkey List.mem_cons_self
  have hkinds (p : Json × Json) (kind : RefKind) := @kindOf?_of_untagged (.object members) kind p
  rw [untagged?] at hkinds ⊢
  rw [untagged?, List.filter_cons_of_neg (by simpa using hne), List.filter_cons_of_pos (by simpa using hne)]
  generalize members.filter (·.1 == "kind") = tags at *
  rcases tags with _ | ⟨m, _ | ⟨other, others⟩⟩
  · exact .none
  · refine .some ⟨.refl, fun kind hkind => .single (.insert rfl ?_)⟩
    rw [fieldsAt_type (hkinds _ kind rfl hkind)] at hfields
    obtain rfl := Option.some.inj hfields
    exact fun hmem => hkey (List.mem_cons_of_mem _ hmem)
  · exact .none

theorem untagged?_kind (before after : List (String × Json)) {value value' : Json} (he : Edit .other value value') :
    Option.Rel TypeEdited (untagged? (.object (before ++ ("kind", value) :: after)))
      (untagged? (.object (before ++ ("kind", value') :: after))) := by
  rw [untagged?, untagged?]
  simp only [List.filter_append, List.filter_cons, beq_self_eq_true, if_true, bne_self_eq_false]
  generalize before.filter (·.1 == "kind") = tags
  generalize after.filter (·.1 == "kind") = tags'
  rcases tags with _ | ⟨m, _ | ⟨other, others⟩⟩
  · rcases tags' with _ | ⟨other, others⟩
    · exact .some ⟨.single he, fun _ _ => .refl⟩
    · exact .none
  · exact .none
  · exact .none

theorem untagged?_member {before after : List (String × Json)} {key : String} {value value' : Json}
    (he : Edit (Shape.type.memberShape (.object (before ++ (key, value) :: after)) key) value value') :
    Option.Rel TypeEdited (untagged? (.object (before ++ (key, value) :: after)))
      (untagged? (.object (before ++ (key, value') :: after))) := by
  by_cases hkey : key = "kind"
  · subst hkey
    rw [memberShape_kind] at he
    exact untagged?_kind before after he
  have hkinds (p : Json × Json) (kind : RefKind) :=
    @kindOf?_of_untagged (.object (before ++ (key, value) :: after)) kind p
  have hb : (key == "kind") = false := beq_eq_false_iff_ne.mpr hkey
  have hn : (key != "kind") = true := bne_iff_ne.mpr hkey
  rw [untagged?] at hkinds ⊢
  rw [untagged?]
  simp only [List.filter_append, List.filter_cons, hb, hn, if_true, Bool.false_eq_true, if_false] at hkinds ⊢
  generalize before.filter (·.1 == "kind") = tags at *
  generalize after.filter (·.1 == "kind") = tags' at *
  generalize tags ++ tags' = tags at *
  rcases tags with _ | ⟨m, _ | ⟨other, others⟩⟩
  · exact .none
  · refine .some ⟨.refl, fun kind hkind => .single (.member ?_)⟩
    rwa [memberShape_content (hkinds _ kind rfl hkind) hkey] at he
  · exact .none

theorem untagged?_edit {j j' : Json} (h : Edit .type j j') : Option.Rel TypeEdited (untagged? j) (untagged? j') := by
  cases h with
  | permute hp => exact untagged?_permute hp
  | insert hfields hkey => exact untagged?_insert _ hfields hkey
  | member he => exact untagged?_member he
  | @item _ before after value value' he =>
    rcases before with _ | ⟨tag, before⟩
    · rw [List.length_nil, itemShape_kind] at he
      exact .some ⟨.single he, fun _ _ => .refl⟩
    · refine .some ⟨.refl, fun kind hkind => .single (.item ?_)⟩
      rwa [List.length_cons, itemShape_content (kindOf?_of_untagged rfl hkind)] at he

theorem TypeContent.readFrom_edited {kind : RefKind} {source source' : RecordSource}
    (he : Edited (Part.content kind).fields source source') (hfits : source.Fits ((Part.content kind).fields.map (·.1)))
    (content : TypeContent) : content.ReadFrom source kind ↔ content.ReadFrom source' kind := by
  have hfields (l : List Field) : Unmoved (.list (.record .field)) (decodeList (Field.decode .content)) l :=
    Unmoved.list fun f _ => Field.unmoved .content f
  have hnames (l : List String) : Unmoved (.list (.record .named)) (decodeList (decodeNamed .content)) l :=
    Unmoved.list fun name _ => unmoved_decodeNamed .content name
  have hn := (Part.content kind).nodup_fields
  cases kind <;> cases content <;> simp only [ReadFrom]
  case object.object fields interfaces =>
    exact and_congr (he.reads hn hfits rfl (hfields _)) (he.reads hn hfits rfl (hnames _))
  case interface.interface fields interfaces possibleTypes =>
    exact and_congr (he.reads hn hfits rfl (hfields _)) <|
      and_congr (he.readsDefaulted hn hfits rfl (Unmoved.nullable fun l _ => hnames l))
        (he.readsOptional hn hfits rfl (Unmoved.nullable fun l _ => hnames l))
  case union.union possibleTypes => exact he.reads hn hfits rfl (hnames _)
  case enum.enum values => exact he.reads hn hfits rfl (Unmoved.list fun v _ => EnumValue.unmoved .content v)
  case inputObject.inputObject fields =>
    exact he.reads hn hfits rfl (Unmoved.list fun v _ => InputValue.unmoved .content v)

theorem TypeInfo.unmoved_content (kind : RefKind) (t : TypeInfo) :
    Unmoved (.record (.content kind)) (decodeContent kind) t := by
  have hnames : typeFields kind = (Part.content kind).fields.map (·.1) := by cases kind <;> rfl
  have hname : (Part.content kind).fields.lookup "name" = some .other := rfl
  have hdescription : (Part.content kind).fields.lookup "description" = some .other := rfl
  have hdecode (j : Json) := @decodeContent_eq_ok kind j t
  rw [hnames] at hdecode
  exact unmoved_of_source (fieldsAt_record _) hdecode fun _ _ he hfits =>
    and_congr (he.string hfits hname _) <|
    and_congr (he.optionalString hfits hdescription _) <|
    TypeContent.readFrom_edited he hfits t.content

/-- What reading does not see of one edit it does not see of one edit or none. -/
theorem Unmoved.reflGen {α : Type} {decode : Json → Decoded α} {s : Shape} {a : α} (h : Unmoved s decode a) {j j' : Json}
    (he : Relation.ReflGen (Edit s) j j') : decode j = .ok a ↔ decode j' = .ok a := by
  cases he with
  | refl => exact Iff.rfl
  | single he => exact h he

theorem TypeInfo.unmoved (t : TypeInfo) : Unmoved .type (TypeInfo.decode .aside) t := by
  intro j j' he
  rw [TypeInfo.decode_eq_ok, TypeInfo.decode_eq_ok]
  have hparts := untagged?_edit he
  have hkinds (kind : RefKind) {tag tag' : Json} (h : Relation.ReflGen (Edit .other) tag tag') :
      decodeTag .aside tag = .ok kind ↔ decodeTag .aside tag' = .ok kind :=
    (unmoved_decodeTag .aside .other kind).reflGen h
  constructor
  · rintro ⟨kind, tag, content, hj, hkind, hcontent⟩
    rw [hj] at hparts
    generalize hj' : untagged? j' = parts at hparts
    cases hparts with
    | @some _ p hp =>
      exact ⟨kind, p.1, p.2, rfl, (hkinds kind hp.1).mp hkind,
        ((unmoved_content kind t).reflGen (hp.2 kind hkind)).mp hcontent⟩
  · rintro ⟨kind, tag', content', hj', hkind, hcontent⟩
    rw [hj'] at hparts
    generalize hj : untagged? j = parts at hparts
    cases hparts with
    | @some p _ hp =>
      have hkind := (hkinds kind hp.1).mpr hkind
      exact ⟨kind, p.1, p.2, rfl, hkind, ((unmoved_content kind t).reflGen (hp.2 kind hkind)).mpr hcontent⟩

/-! ## Schemas -/

/-- A schema is unmoved wherever it has its fields, whatever else must not be inserted. -/
theorem SchemaInfo.unmoved_of_fieldsAt {s : Shape} {more : List (String × Shape)}
    (hs : ∀ j, s.fieldsAt j = some (Part.schema.fields ++ more)) (d : SchemaInfo) :
    Unmoved s (SchemaInfo.decode .aside) d := by
  have hroot (o : Option String) : Unmoved (.record .named) (decodeNullable (decodeNamed .aside)) o :=
    Unmoved.nullable fun name _ => unmoved_decodeNamed .aside name
  exact unmoved_of_source hs (fun _ => decode_eq_ok) fun _ _ he hfits =>
    and_congr (he.readsOptional (Part.nodup_fields _) hfits rfl (hroot _)) <|
    and_congr (he.readsOptional (Part.nodup_fields _) hfits rfl (hroot _)) <|
    and_congr (he.readsOptional (Part.nodup_fields _) hfits rfl (hroot _)) <|
    and_congr (he.reads (Part.nodup_fields _) hfits rfl (Unmoved.list fun t _ => TypeInfo.unmoved t)) <|
    he.reads (Part.nodup_fields _) hfits rfl (Unmoved.list fun d _ => DirectiveInfo.unmoved .aside d)

theorem SchemaInfo.unmoved (d : SchemaInfo) : Unmoved (.record .schema) (SchemaInfo.decode .aside) d :=
  unmoved_of_fieldsAt (fieldsAt_record _) d

section

variable {j j' : Json} {source source' : RecordSource} (hj : j.source? = some source) (hj' : j'.source? = some source')

include hj hj'

theorem SchemaInfo.decodeData_edited (he : Edited Part.data.fields source source') (d : SchemaInfo) :
    decodeData .aside j = .ok d ↔ decodeData .aside j' = .ok d :=
  iff_of_edited (fun _ => decodeData_eq_ok)
    (fun _ _ he hfits => he.reads (Part.nodup_fields _) hfits rfl (SchemaInfo.unmoved d)) hj hj' he

omit hj hj' in
theorem SchemaInfo.unmoved_data (d : SchemaInfo) : Unmoved (.record .data) (decodeData .aside) d := by
  intro j j' he
  obtain ⟨source, source', hj, hj', hedited⟩ := he.edited rfl
  exact decodeData_edited hj hj' hedited d

theorem SchemaInfo.decodeEnvelope_edited (he : Edited Part.envelope.fields source source') (d : SchemaInfo) :
    decodeEnvelope .aside j = .ok d ↔ decodeEnvelope .aside j' = .ok d :=
  iff_of_edited (fun _ => decodeEnvelope_eq_ok)
    (fun _ _ he hfits => he.reads (Part.nodup_fields _) hfits rfl (SchemaInfo.unmoved_data d)) hj hj' he

end

/-! ## Stored results -/

/-- What a stored result is read as: an envelope if it can be, and data alone otherwise. -/
def storedShape (j : Json) : Shape :=
  if (SchemaInfo.decodeEnvelope .aside j).toOption.isSome then .record .envelope else .bare

/-- An edit of a stored result, as it is read. -/
def StoredEdit (j j' : Json) : Prop := Edit (storedShape j) j j'

theorem SchemaInfo.ofStored_iff {j : Json} {d : SchemaInfo} : ofStored j = some d ↔
    decodeEnvelope .aside j = .ok d ∨ (∀ e, decodeEnvelope .aside j ≠ .ok e) ∧ decodeData .aside j = .ok d := by
  rw [ofStored]
  cases decodeEnvelope .aside j with
  | ok e => simp
  | error e => cases decodeData .aside j <;> simp [Except.toOption]

/-- Members of an object may be read as other fields where these are fields before, and what nothing was read of may be
read. -/
theorem Edited.ofLookup {fields fields' : List (String × Shape)} {members members' : List (String × Json)}
    (h : Edited fields (.members members) (.members members'))
    (hsub : ∀ f ∈ fields', fields.lookup f.1 = some f.2 ∨ fields.lookup f.1 = some .other) :
    Edited fields' (.members members) (.members members') := by
  cases h with
  | permute h => exact .permute h
  | insert hk =>
    refine .insert fun hmem => hk ?_
    obtain ⟨f, hf, rfl⟩ := List.mem_map.mp hmem
    rcases hsub f hf with hs | hs <;> exact List.mem_map.mpr ⟨_, mem_of_lookup hs, rfl⟩
  | member h =>
    refine .member fun s hs => ?_
    rcases hsub _ (mem_of_lookup hs) with hs | hs
    · exact h s hs
    · exact (h _ hs).ofOther s

namespace SchemaInfo

variable {d : SchemaInfo}

/-- A record with one field in an array is what stands there. -/
theorem decodeData_array {items : List Json} :
    decodeData .aside (.array items) = .ok d ↔ ∃ j, items = [j] ∧ SchemaInfo.decode .aside j = .ok d := by
  rw [decodeData_eq_ok]
  rcases items with _ | ⟨j, _ | ⟨other, items⟩⟩ <;>
    simp [source?, RecordSource.Fits, RecordSource.Reads, RecordSource.value?, dataFields]

theorem decodeEnvelope_array {items : List Json} :
    decodeEnvelope .aside (.array items) = .ok d ↔ ∃ j, items = [j] ∧ decodeData .aside j = .ok d := by
  rw [decodeEnvelope_eq_ok]
  rcases items with _ | ⟨j, _ | ⟨other, items⟩⟩ <;>
    simp [source?, RecordSource.Fits, RecordSource.Reads, RecordSource.value?, envelopeFields]

theorem length_of_decode {items : List Json} (h : SchemaInfo.decode .aside (.array items) = .ok d) : 4 < items.length := by
  obtain ⟨source, hs, -, -, -, -, -, j, hj, -⟩ := decode_eq_ok.mp h
  obtain rfl := Option.some.inj hs
  exact (List.getElem?_eq_some_iff.mp hj).1

/-- The schema in an array is no data after an edit if it was none before. -/
theorem decodeData_bareSchema {j j' : Json} (h : Edit .bareSchema j j') (hd : SchemaInfo.decode .aside j = .ok d)
    (hnone : ∀ e, decodeData .aside j ≠ .ok e) (e : SchemaInfo) : decodeData .aside j' ≠ .ok e := by
  rcases h.forms with ⟨members, members', rfl, rfl⟩ | ⟨items, items', rfl, rfl, hlength⟩
  · obtain ⟨_, _, hj, hj', hedited⟩ := h.edited rfl
    obtain rfl := Option.some.inj hj
    obtain rfl := Option.some.inj hj'
    rw [ne_eq, ← decodeData_edited hj hj' (hedited.ofLookup (by decide)) e]
    exact hnone e
  · -- an array that holds a schema has more items than data has fields
    intro he
    have hlong := length_of_decode hd
    obtain ⟨j, rfl, -⟩ := decodeData_array.mp he
    rw [← hlength] at hlong
    simp at hlong

/-- Where data stands alone, it is read as before, and not as an envelope. -/
theorem decodeData_bare {j j' : Json} (h : Edit .bare j j') (hnone : ∀ e, decodeEnvelope .aside j ≠ .ok e)
    (hd : decodeData .aside j = .ok d) :
    (∀ e, decodeEnvelope .aside j' ≠ .ok e) ∧ decodeData .aside j' = .ok d := by
  rcases h.forms with ⟨members, members', rfl, rfl⟩ | ⟨items, items', rfl, rfl, hlength⟩
  · obtain ⟨_, _, hj, hj', hedited⟩ := h.edited rfl
    obtain rfl := Option.some.inj hj
    obtain rfl := Option.some.inj hj'
    have henvelope := decodeEnvelope_edited hj hj' (hedited.ofLookup (by decide))
    exact ⟨fun e he => hnone e ((henvelope e).mpr he), (decodeData_edited hj hj' hedited.ofAppend d).mp hd⟩
  · obtain ⟨j, rfl, hschema⟩ := decodeData_array.mp hd
    simp only [ne_eq, decodeEnvelope_array, List.cons.injEq, and_true, exists_eq_left'] at hnone
    obtain ⟨j', hitems, hj⟩ : ∃ j', items' = [j'] ∧ Edit .bareSchema j j' := by
      generalize hx : Json.array [j] = x at h
      cases h with
      | @item _ before after value value' h =>
        obtain ⟨rfl, rfl, rfl⟩ : before = [] ∧ after = [] ∧ value = j := by
          rcases before with _ | ⟨first, before⟩ <;> simp_all
        exact ⟨value', rfl, h⟩
    subst hitems
    have hbare : Shape.bareSchema.fieldsAt = fun _ => some (Part.schema.fields ++ [("__schema", .other)]) := rfl
    refine ⟨?_, decodeData_array.mpr ⟨j', rfl, (unmoved_of_fieldsAt (congrFun hbare) d hj).mp hschema⟩⟩
    intro e he
    obtain ⟨_, hitems, he⟩ := decodeEnvelope_array.mp he
    obtain rfl := (List.cons.inj hitems).1
    exact decodeData_bareSchema hj hschema hnone e he

end SchemaInfo

/-- One edit keeps what a stored result holds. -/
theorem SchemaInfo.ofStored_edit {j j' : Json} (h : StoredEdit j j') {d : SchemaInfo} (hd : ofStored j = some d) :
    ofStored j' = some d := by
  rw [ofStored_iff] at hd ⊢
  rw [StoredEdit, storedShape] at h
  rcases hd with hd | ⟨hnone, hd⟩
  · rw [hd, Except.toOption, Option.isSome_some, if_pos rfl] at h
    obtain ⟨source, source', hj, hj', hedited⟩ := h.edited rfl
    exact Or.inl ((decodeEnvelope_edited hj hj' hedited d).mp hd)
  · rw [if_neg] at h
    · exact Or.inr (decodeData_bare h hnone hd)
    · cases he : decodeEnvelope .aside j with
      | ok e => exact absurd he (hnone e)
      | error e => exact Bool.false_ne_true

theorem SchemaInfo.ofStored_edits {j j' : Json} (h : Relation.ReflTransGen StoredEdit j j') {d : SchemaInfo}
    (hd : ofStored j = some d) : ofStored j' = some d := by
  induction h with
  | refl => exact hd
  | tail _ h ih => exact ofStored_edit h ih

/-- A member that data has no field for is read over. -/
example : (SchemaInfo.ofText "\x7b\"a\":0,\"__schema\":\x7b\"directives\":[],\"types\":[]\x7d\x7d").toOption =
    some ⟨none, none, none, [], []⟩ := by
  decide +kernel

/-- **Reading a stored result ignores the order of members and foreign members.** -/
theorem SchemaInfo.ofText_edited {text : String} {d : SchemaInfo} (h : ofText text = .ok d) :
    ∃ j, Json.parse text = .ok j ∧ ∀ text' j', Json.parse text' = .ok j' → Relation.ReflTransGen StoredEdit j j' →
      ofText text' = .ok d := by
  obtain ⟨j, hj, hd⟩ := ofText_eq_ok.mp h
  exact ⟨j, hj, fun text' j' hj' hedits => (ofText_of_parse hj').mpr (ofStored_edits hedits hd)⟩

/-! ### Two stored results with the same data -/

/-- Data that lists one scalar type. -/
def oneScalar : Json := .object [("__schema", .object [
  ("types", .array [.object [("kind", .string "SCALAR"), ("name", .string "A")]]), ("directives", .array [])])]

/-- The same data with its members in another order, and one that a scalar type has no field for. -/
def oneScalarScattered : Json := .object [("__schema", .object [("directives", .array []),
  ("types", .array [.object [("name", .string "A"), ("fields", .null), ("kind", .string "SCALAR")]])])]

theorem storedEdits_oneScalar : Relation.ReflTransGen StoredEdit oneScalar oneScalarScattered := by
  have hinsert : StoredEdit oneScalar (.object [("__schema", .object [
      ("types", .array [.object [("fields", .null), ("kind", .string "SCALAR"), ("name", .string "A")]]),
      ("directives", .array [])])]) :=
    @Edit.member _ [] _ _ _ _ <| @Edit.member _ [] _ _ _ _ <| @Edit.item _ [] _ _ _ <| .insert rfl (by decide)
  have htype : StoredEdit (.object [("__schema", .object [
      ("types", .array [.object [("fields", .null), ("kind", .string "SCALAR"), ("name", .string "A")]]),
      ("directives", .array [])])]) (.object [("__schema", .object [
      ("types", .array [.object [("name", .string "A"), ("fields", .null), ("kind", .string "SCALAR")]]),
      ("directives", .array [])])]) :=
    @Edit.member _ [] _ _ _ _ <| @Edit.member _ [] _ _ _ _ <| @Edit.item _ [] _ _ _ <| .permute <|
      @List.perm_append_comm _ [_] [_, _]
  have hschema : StoredEdit (.object [("__schema", .object [
      ("types", .array [.object [("name", .string "A"), ("fields", .null), ("kind", .string "SCALAR")]]),
      ("directives", .array [])])]) oneScalarScattered :=
    @Edit.member _ [] _ _ _ _ <| .permute <| List.Perm.swap _ _ _
  exact ((Relation.ReflTransGen.single hinsert).tail htype).tail hschema

def oneScalarText : String :=
  "\x7b\"__schema\":\x7b\"types\":[\x7b\"kind\":\"SCALAR\",\"name\":\"A\"\x7d],\"directives\":[]\x7d\x7d"

def oneScalarScatteredText : String :=
  "\x7b\"__schema\":\x7b\"directives\":[],\"types\":[\x7b\"name\":\"A\",\"fields\":null,\"kind\":\"SCALAR\"\x7d]\x7d\x7d"

theorem SchemaInfo.ofText_edited_oneScalar :
    ofText oneScalarText = .ok ⟨none, none, none, [⟨"A", none, .scalar⟩], []⟩ ∧
      ofText oneScalarScatteredText = .ok ⟨none, none, none, [⟨"A", none, .scalar⟩], []⟩ := by
  have htext : ofText oneScalarText = .ok ⟨none, none, none, [⟨"A", none, .scalar⟩], []⟩ := by decide +kernel
  obtain ⟨j, hj, hedited⟩ := ofText_edited htext
  obtain rfl : oneScalar = j := Except.ok.inj hj
  exact ⟨htext, hedited oneScalarScatteredText oneScalarScattered rfl storedEdits_oneScalar⟩

/-- A schema that stands alone in an array. -/
def loneSchema : String := "[\x7b\"types\":[],\"directives\":[]\x7d]"

/-- The schema with a member for a schema in front, which it has no field for. -/
def loneSchemaNested : String :=
  "[\x7b\"__schema\":\x7b\"queryType\":\x7b\"name\":\"Q\"\x7d,\"types\":[],\"directives\":[]\x7d," ++
    "\"types\":[],\"directives\":[]\x7d]"

/-- The data that lists one scalar type, with the kind of the type a second time. -/
def oneScalarKindTwice : String :=
  "\x7b\"__schema\":\x7b\"types\":[\x7b\"kind\":\"SCALAR\",\"kind\":\"SCALAR\",\"name\":\"A\"\x7d],\"directives\":[]\x7d\x7d"

/-- Two names that no field has are not foreign either. Where a schema stands alone in an array, data could stand as well,
and a member for a schema makes it the data of an envelope. And the kind of a type is read once. -/
theorem SchemaInfo.ofText_reservedNames : (∃ j j' d d', Json.parse loneSchema = .ok j ∧
      Json.parse loneSchemaNested = .ok j' ∧ Edit (.record .data) j j' ∧ ofText loneSchema = .ok d ∧
      ofText loneSchemaNested = .ok d' ∧ d' ≠ d) ∧
    (∃ d, ofText oneScalarText = .ok d) ∧ ∃ e, ofText oneScalarKindTwice = .error e := by
  refine ⟨⟨_, _, ⟨none, none, none, [], []⟩, ⟨some "Q", none, none, [], []⟩, rfl, rfl, ?_, by decide +kernel,
    by decide +kernel, by decide⟩, ⟨_, rfl⟩, ⟨_, rfl⟩⟩
  exact @Edit.item _ [] _ _ _ <| .insert rfl (by decide)

end SchemaWeave.Introspection

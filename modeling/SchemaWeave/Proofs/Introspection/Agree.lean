import SchemaWeave.Proofs.Introspection.Reads

/-!
# Rearranged results are read alike

A result is read as it is, or set aside until its shape is known. Either way each of its parts is read as the same from a value
and from a rearrangement of it (`Json.Agree`), but for the kind of a listed type: one that was set aside may give it by its
position among the kinds (`decodeTag_rearranged`). So the data of a result is read alike if every listed type names its kind
(`SchemaInfo.agreeWhere_data`).
-/

namespace SchemaWeave.Introspection

open Json

/-! ## References -/

theorem RefKind.decode_eq_ok {h : Holding} {j : Json} {kind : RefKind} : RefKind.decode h j = .ok kind ↔
    (∃ s, j = .string s ∧ decodeName s = .ok kind) ∨
    ∃ key value, j = .object [(key, value)] ∧ decodeName key = .ok kind ∧
      (value = .null ∨ value = .object [] ∧ h = .content) := by
  match j with
  | .object [(key, value)] =>
    simp only [RefKind.decode, bind_eq_ok]
    cases value with
    | null => simp
    | object members => cases members <;> cases h <;> simp [throw, throwThe, MonadExceptOf.throw]
    | _ => simp [throw, throwThe, MonadExceptOf.throw]
  | .object [] | .object (_ :: _ :: _) | .null | .bool _ | .number _ | .string _ | .array _ => simp [RefKind.decode]

section

variable {h h' : Holding} (hh : h = .content ↔ h' = .content)

include hh

theorem RefKind.agree (kind : RefKind) : Agree (RefKind.decode h) (RefKind.decode h') kind := by
  intro j' j hj
  simp only [RefKind.decode_eq_ok, hj.eq_string_iff, hj.eq_single_iff, hh]
  refine or_congr Iff.rfl (exists_congr fun key => ?_)
  have hvalue {value : Json} (hj : Rearranged j' (.object [(key, value)])) : Rearranged value.ordered value :=
    rearranged_ordered ((distinctKeys_object.mp hj.distinctKeys).2 (key, value) List.mem_cons_self)
  constructor
  · rintro ⟨_, ⟨value, rfl, rfl⟩, hkey, hnothing⟩
    rw [(hvalue hj).eq_null_iff, (hvalue hj).eq_empty_iff] at hnothing
    exact ⟨value, rfl, hkey, hnothing⟩
  · rintro ⟨value, rfl, hkey, hnothing⟩
    rw [← (hvalue hj).eq_null_iff, ← (hvalue hj).eq_empty_iff] at hnothing
    exact ⟨_, ⟨value, rfl, rfl⟩, hkey, hnothing⟩

/-- A reference is read alike if the type inside it is. -/
theorem TypeRef.agree_of_inner {t : TypeRef} (hinner : ∀ inner ∈ t.ofType?, Agree (decode h) (decode h') inner) :
    Agree (decode h) (decode h') t :=
  agree_of_source (fun _ => decode_eq_ok) (fun _ => decode_eq_ok) fun _ _ hs => by
    rw [hs.fits, hs.reads (RefKind.agree hh _), hs.readsOptional (agree_nullableString _),
      hs.readsOptional (Agree.nullable hinner)]

theorem TypeRef.agree (t : TypeRef) : Agree (decode h) (decode h') t := by
  induction t with
  | bare kind name => exact agree_of_inner hh fun _ h => nomatch h
  | wrap kind name inner ih => exact agree_of_inner hh fun _ h => Option.some.inj h ▸ ih

omit hh in
theorem agree_decodeNamed (name : String) : Agree (decodeNamed h) (decodeNamed h') name :=
  agree_of_source (fun _ => decodeNamed_eq_ok) (fun _ => decodeNamed_eq_ok) fun _ _ hs => by
    rw [hs.fits, hs.reads (agree_decodeString _)]

/-! ## Members of types -/

theorem InputValue.agree (v : InputValue) : Agree (InputValue.decode h) (InputValue.decode h') v :=
  agree_of_source (fun _ => decode_eq_ok) (fun _ => decode_eq_ok) fun _ _ hs => by
    rw [hs.fits, hs.reads (agree_decodeString _), hs.readsOptional (agree_nullableString _),
      hs.reads (TypeRef.agree hh _), hs.readsOptional (agree_nullableString _)]

theorem Field.agree (f : Field) : Agree (Field.decode h) (Field.decode h') f :=
  agree_of_source (fun _ => decode_eq_ok) (fun _ => decode_eq_ok) fun _ _ hs => by
    rw [hs.fits, hs.reads (agree_decodeString _), hs.readsOptional (agree_nullableString _),
      hs.reads (Agree.list fun v _ => InputValue.agree hh v), hs.reads (TypeRef.agree hh _), hs.reads (agree_decodeBool _),
      hs.readsOptional (agree_nullableString _)]

omit hh in
theorem EnumValue.agree (v : EnumValue) : Agree (EnumValue.decode h) (EnumValue.decode h') v :=
  agree_of_source (fun _ => decode_eq_ok) (fun _ => decode_eq_ok) fun _ _ hs => by
    rw [hs.fits, hs.reads (agree_decodeString _), hs.readsOptional (agree_nullableString _),
      hs.reads (agree_decodeBool _), hs.readsOptional (agree_nullableString _)]

theorem DirectiveInfo.agree (d : DirectiveInfo) : Agree (DirectiveInfo.decode h) (DirectiveInfo.decode h') d :=
  agree_of_source (fun _ => decode_eq_ok) (fun _ => decode_eq_ok) fun _ _ hs => by
    rw [hs.fits, hs.reads (agree_decodeString _), hs.readsOptional (agree_nullableString _),
      hs.reads (Agree.list fun s _ => agree_decodeString s), hs.reads (Agree.list fun v _ => InputValue.agree hh v)]

end

/-! ## Types -/

/-- A rearranged type gives its kind alike, and what is left is rearranged. -/
theorem untagged?_rearranged {j' j : Json} (hj : Rearranged j' j) :
    Option.Rel (fun p' p => Rearranged p'.1 p.1 ∧ Rearranged p'.2 p.2) (untagged? j') (untagged? j) := by
  cases hj with
  | @array items hd =>
    cases items with
    | nil => exact .none
    | cons tag items =>
      rw [List.forall_mem_cons] at hd
      exact .some ⟨rearranged_ordered hd.1, .array hd.2⟩
  | @object members members' hp hn hd =>
    have htags := hp.filter (·.1 == "kind")
    have hcontent := hp.filter (·.1 != "kind")
    rw [List.filter_map] at htags hcontent
    have hdtag (m : String × Json) (hm : m ∈ members.filter (·.1 == "kind")) : Rearranged m.2.ordered m.2 :=
      rearranged_ordered (hd m (List.mem_of_mem_filter hm))
    rw [untagged?, untagged?]
    revert htags hdtag
    simp only [Function.comp_def]
    generalize members.filter (·.1 == "kind") = tags
    generalize members'.filter (·.1 == "kind") = tags'
    intro htags hdtag
    rcases tags with _ | ⟨m, _ | ⟨other, others⟩⟩
    · obtain rfl := htags.eq_nil
      exact .none
    · obtain rfl := List.perm_singleton.mp htags
      refine .some ⟨hdtag m List.mem_cons_self, .object hcontent ?_ ?_⟩
      · exact hn.sublist (List.filter_sublist.map _)
      · exact fun m hm => hd m (List.mem_of_mem_filter hm)
    · rcases tags' with _ | ⟨m', _ | ⟨other', others'⟩⟩
      · exact absurd htags.length_eq (by simp)
      · exact absurd htags.length_eq (by simp)
      · exact .none
  | _ => exact .none

/-- A kind that was not set aside is read where it is a name, and then alike. -/
theorem decodeTag_rearranged {tag' tag : Json} (htag : Rearranged tag' tag) {kind : RefKind} :
    decodeTag .plain tag' = .ok kind ↔ decodeTag .aside tag = .ok kind ∧ tag.asString?.isSome = true := by
  cases htag with
  | string s => simp [decodeTag, asString?]
  | number n =>
    rcases n with (n | n) | x <;> simp [decodeTag, asString?]
  | _ => simp [decodeTag, asString?]

/-- Whether a listed type gives its kind by name, and not by its position among the kinds. -/
def namesKind : Json → Bool
  | .array items => items.head?.any (·.asString?.isSome)
  | j => (j.get? "kind").any (·.asString?.isSome)

theorem namesKind_eq {j tag content : Json} (h : untagged? j = some (tag, content)) :
    namesKind j = tag.asString?.isSome := by
  cases j with
  | array items =>
    cases items with
    | nil => cases h
    | cons tag items =>
      obtain ⟨rfl, -⟩ := Prod.mk.inj (Option.some.inj h)
      rfl
  | object members =>
    rw [untagged?] at h
    generalize hfilter : members.filter (·.1 == "kind") = tags at h
    rcases tags with _ | ⟨m, _ | ⟨other, others⟩⟩
    · cases h
    · obtain ⟨rfl, -⟩ := Prod.mk.inj (Option.some.inj h)
      rw [namesKind, get?, ← List.head?_filter, List.filter_reverse, hfilter]
      · rfl
      · intro _ h
        cases h
    · cases h
  | _ => cases h

theorem TypeContent.readFrom_rearranged {source' source : RecordSource} (hs : source'.Rearranged source) (kind : RefKind)
    (content : TypeContent) : content.ReadFrom source' kind ↔ content.ReadFrom source kind := by
  have hfields (l : List Field) : Agree (decodeList (Field.decode .content)) (decodeList (Field.decode .content)) l :=
    Agree.list fun f _ => Field.agree Iff.rfl f
  have hnames (l : List String) : Agree (decodeList (decodeNamed .content)) (decodeList (decodeNamed .content)) l :=
    Agree.list fun name _ => agree_decodeNamed name
  cases kind <;> cases content <;> simp only [ReadFrom]
  case object.object fields interfaces => rw [hs.reads (hfields _), hs.reads (hnames _)]
  case interface.interface fields interfaces possibleTypes =>
    rw [hs.reads (hfields _), hs.readsDefaulted (Agree.nullable fun l _ => hnames l),
      hs.readsOptional (Agree.nullable fun l _ => hnames l)]
  case union.union possibleTypes => exact hs.reads (hnames _)
  case enum.enum values => exact hs.reads (Agree.list fun v _ => EnumValue.agree v)
  case inputObject.inputObject fields => exact hs.reads (Agree.list fun v _ => InputValue.agree Iff.rfl v)

theorem TypeInfo.agree_content (kind : RefKind) (t : TypeInfo) : Agree (decodeContent kind) (decodeContent kind) t :=
  agree_of_source (fun _ => decodeContent_eq_ok) (fun _ => decodeContent_eq_ok) fun _ _ hs => by
    rw [hs.fits, hs.reads (agree_decodeString _), hs.readsOptional (agree_nullableString _),
      TypeContent.readFrom_rearranged hs]

/-- A listed type that was not set aside is read where it names its kind, and then alike. -/
theorem TypeInfo.agreeWhere (t : TypeInfo) :
    AgreeWhere (fun j => namesKind j = true) (TypeInfo.decode .plain) (TypeInfo.decode .aside) t := by
  intro j' j hj
  rw [TypeInfo.decode_eq_ok, TypeInfo.decode_eq_ok]
  have hparts := untagged?_rearranged hj
  constructor
  · rintro ⟨kind, tag', content', hj', hkind, hcontent⟩
    rw [hj'] at hparts
    generalize hj : untagged? j = parts at hparts
    cases hparts with
    | @some _ p hp =>
      obtain ⟨hkind, hname⟩ := (decodeTag_rearranged hp.1).mp hkind
      exact ⟨⟨kind, p.1, p.2, rfl, hkind, (agree_content kind t hp.2).mp hcontent⟩, (namesKind_eq hj).trans hname⟩
  · rintro ⟨⟨kind, tag, content, hj, hkind, hcontent⟩, hname⟩
    rw [namesKind_eq hj] at hname
    rw [hj] at hparts
    generalize hj' : untagged? j' = parts at hparts
    cases hparts with
    | @some p' _ hp =>
      exact ⟨kind, p'.1, p'.2, rfl, (decodeTag_rearranged hp.1).mpr ⟨hkind, hname⟩,
        (agree_content kind t hp.2).mpr hcontent⟩

/-! ## Schemas -/

theorem SchemaInfo.agreeWhere (d : SchemaInfo) :
    AgreeWhere (fun j => ∀ types ∈ j.field? fields "types", ∀ t ∈ types.items, namesKind t = true)
      (SchemaInfo.decode .plain) (SchemaInfo.decode .aside) d :=
  agreeWhere_of_source (fun _ => decode_eq_ok) (fun _ => decode_eq_ok) fun _ _ hs => by
    have hroot (o : Option String) : Agree (decodeNullable (decodeNamed .plain)) (decodeNullable (decodeNamed .aside)) o :=
      Agree.nullable fun name _ => agree_decodeNamed name
    have hcontent : Holding.plain = .content ↔ Holding.aside = .content := by simp
    rw [hs.fits, hs.readsOptional (hroot _), hs.readsOptional (hroot _), hs.readsOptional (hroot _),
      hs.readsWhere (AgreeWhere.list fun t _ => TypeInfo.agreeWhere t),
      hs.reads (Agree.list fun d _ => DirectiveInfo.agree hcontent d)]
    tauto

/-- The listed types in the data of a result. -/
def listedTypes (data : Json) : List Json :=
  ((data.field? SchemaInfo.dataFields "__schema").bind (·.field? SchemaInfo.fields "types")).elim [] items

theorem forall_listedTypes {p : Json → Prop} {data : Json} : (∀ t ∈ listedTypes data, p t) ↔
    ∀ schema ∈ data.field? SchemaInfo.dataFields "__schema", ∀ types ∈ schema.field? SchemaInfo.fields "types",
      ∀ t ∈ types.items, p t := by
  rw [listedTypes]
  cases data.field? SchemaInfo.dataFields "__schema" with
  | none => simp
  | some schema => cases hs : schema.field? SchemaInfo.fields "types" <;> simp [hs]

/-- **The data of a result is read alike**, as it is or set aside, if every listed type names its kind. -/
theorem SchemaInfo.agreeWhere_data (d : SchemaInfo) :
    AgreeWhere (fun j => ∀ t ∈ listedTypes j, namesKind t = true) (decodeData .plain) (decodeData .aside) d := by
  simp only [forall_listedTypes]
  refine agreeWhere_of_source (fun _ => decodeData_eq_ok) (fun _ => decodeData_eq_ok) fun _ _ hs => ?_
  rw [hs.fits, hs.readsWhere (SchemaInfo.agreeWhere _), and_assoc]

end SchemaWeave.Introspection
